import Mathlib.Data.List.Basic
import Mathlib.Data.List.Infix

/-!
# The first occurrence of a word in another one

The word `f` occurs at the place `i` of `s` when what is left of `s` from there on begins with `f`.
`firstOccurrence f s` looks for the first such place: `firstOccurrence_eq_some_iff` says that it
finds it, and `firstOccurrence_eq_none_iff` that it finds none only if there is none.
-/

set_option autoImplicit false

universe u

variable {α : Type u} {f s : List α} {a : α} {i : ℕ}

/-- `i` is the first place of `s` where `f` occurs. -/
structure OccursFirst (f s : List α) (i : ℕ) : Prop where
  /-- It occurs there. -/
  occurs : f <+: s.drop i
  /-- It does not occur before. -/
  first : ∀ j < i, ¬ f <+: s.drop j

theorem occursFirst_zero : OccursFirst f s 0 ↔ f <+: s :=
  ⟨fun h ↦ h.occurs, fun h ↦ ⟨h, by simp⟩⟩

theorem occursFirst_cons_succ :
    OccursFirst f (a :: s) (i + 1) ↔ ¬ f <+: a :: s ∧ OccursFirst f s i := by
  constructor
  · rintro ⟨hoccurs, hfirst⟩
    refine ⟨hfirst 0 (Nat.succ_pos i), hoccurs, ?_⟩
    intro j hj
    exact hfirst (j + 1) (Nat.succ_lt_succ hj)
  · rintro ⟨hne, hoccurs, hfirst⟩
    refine ⟨hoccurs, ?_⟩
    rintro (_ | j) hj
    · exact hne
    · exact hfirst j (Nat.lt_of_succ_lt_succ hj)

variable [DecidableEq α]

/-- The first place of a word where `f` occurs. -/
def firstOccurrence (f : List α) : List α → Option ℕ
  | [] => if f = [] then some 0 else none
  | a :: s => if f <+: a :: s then some 0 else (firstOccurrence f s).map (· + 1)

theorem firstOccurrence_zero (h : f <+: s) : firstOccurrence f s = some 0 := by
  cases s with
  | nil => rw [firstOccurrence, if_pos (List.prefix_nil.mp h)]
  | cons a s => rw [firstOccurrence, if_pos h]

/-- What is found is the first place. -/
theorem firstOccurrence_eq_some_iff : firstOccurrence f s = some i ↔ OccursFirst f s i := by
  induction s generalizing i with
  | nil =>
    rw [firstOccurrence]
    cases i with
    | zero => simp [occursFirst_zero]
    | succ i =>
      have hnot : ¬ OccursFirst f [] (i + 1) := by
        intro h
        exact h.first 0 (Nat.succ_pos i) (by simpa using h.occurs)
      simp [hnot]
  | cons a s ih =>
    rw [firstOccurrence]
    cases i with
    | zero =>
      rw [occursFirst_zero]
      split <;> simp [*]
    | succ i =>
      rw [occursFirst_cons_succ]
      split <;> simp [*]

/-- A word that is not found does not occur. -/
theorem firstOccurrence_eq_none_iff : firstOccurrence f s = none ↔ ¬ f <:+: s := by
  induction s with
  | nil => simp [firstOccurrence]
  | cons a s ih =>
    rw [firstOccurrence, List.infix_cons_iff]
    split <;> simp [*]
