import Mathlib.Data.List.Basic

/-!
# The first difference of two words

A comparison that goes over two words letter by letter stops at the first place where they differ.
`firstDifference` is the pair of letters there.  Words that end in a letter `z` which they do not
contain elsewhere differ before one of them ends, unless they are equal; if `z` is below all other
letters, the order of the two letters is the lexicographic order of the words without the `z`
(`compareLex_eq`), also when the comparison stops after `n` letters (`compareLex_take`).
-/

set_option autoImplicit false

universe u

variable {α : Type u}

section Difference

variable [DecidableEq α] {s t : List α} {a b : α}

/-- The letters at the first place where two words differ. -/
def firstDifference : List α → List α → Option (α × α)
  | a :: s, b :: t => if a = b then firstDifference s t else some (a, b)
  | _, _ => none

theorem firstDifference_cons_self (a : α) (s t : List α) :
    firstDifference (a :: s) (a :: t) = firstDifference s t := if_pos rfl

theorem firstDifference_cons_ne (h : a ≠ b) (s t : List α) :
    firstDifference (a :: s) (b :: t) = some (a, b) := if_neg h

/-- The letters are different. -/
theorem firstDifference_ne (h : firstDifference s t = some (a, b)) : a ≠ b := by
  fun_induction firstDifference s t with
  | case1 a' s t ih => exact ih h
  | case2 a' s b' t hne =>
    simp only [Option.some.injEq, Prod.mk.injEq] at h
    rwa [← h.1, ← h.2]
  | case3 => contradiction

/-- Words without a difference are prefixes one of the other. -/
theorem firstDifference_eq_none_iff : firstDifference s t = none ↔ s <+: t ∨ t <+: s := by
  fun_induction firstDifference s t with
  | case1 a s t ih => rw [ih, List.prefix_cons_inj, List.prefix_cons_inj]
  | case2 a s b t hne => simp [List.cons_prefix_cons, hne, Ne.symm hne]
  | case3 s t hcases =>
    cases s with
    | nil => simp
    | cons a s =>
      cases t with
      | nil => simp
      | cons b t => exact absurd rfl (hcases a s b t rfl)

end Difference

/-! ## Words with an end -/

section Terminated

variable [DecidableEq α] {cmp : α → α → Ordering} [Std.TransCmp cmp] [Std.LawfulEqCmp cmp]
  {z : α} {s t : List α}

/-- **The order of two words is that of their first difference**, among the first `n` letters. -/
theorem compareLex_take (hz : ∀ a, a ≠ z → cmp z a = .lt) (hs : z ∉ s) (ht : z ∉ t) (n : ℕ) :
    List.compareLex cmp (s.take n) (t.take n)
      = (firstDifference ((s ++ [z]).take n) ((t ++ [z]).take n)).elim .eq
          fun d ↦ cmp d.1 d.2 := by
  have hgt (a : α) (ha : a ≠ z) : cmp a z = .gt := Std.OrientedCmp.gt_of_lt (hz a ha)
  induction n generalizing s t with
  | zero => rfl
  | succ n ih =>
    cases s with
    | nil =>
      cases t with
      | nil => simp [firstDifference, List.compareLex_nil_nil]
      | cons b t =>
        have hb : b ≠ z := List.ne_of_not_mem_cons ht |>.symm
        simp [firstDifference, hb.symm, List.compareLex_nil_cons, hz b hb]
    | cons a s =>
      have ha : a ≠ z := List.ne_of_not_mem_cons hs |>.symm
      cases t with
      | nil => simp [firstDifference, ha, List.compareLex_cons_nil, hgt a ha]
      | cons b t =>
        have htail := ih (List.not_mem_of_not_mem_cons hs) (List.not_mem_of_not_mem_cons ht)
        rw [List.cons_append, List.cons_append, List.take_succ_cons, List.take_succ_cons,
          List.take_succ_cons, List.take_succ_cons, List.compareLex_cons_cons, htail]
        by_cases hab : a = b
        · have hself : cmp b b = .eq := Std.ReflCmp.compare_self
          rw [hab, firstDifference_cons_self, hself]
          rfl
        · have hne : cmp a b ≠ .eq := fun h ↦ hab (Std.LawfulEqCmp.eq_of_compare h)
          rw [firstDifference_cons_ne hab, Option.elim_some]
          cases hcmp : cmp a b with
          | eq => exact absurd hcmp hne
          | lt => rfl
          | gt => rfl

/-- **The order of two words is that of their first difference.** -/
theorem compareLex_eq (hz : ∀ a, a ≠ z → cmp z a = .lt) (hs : z ∉ s) (ht : z ∉ t) :
    List.compareLex cmp s t
      = (firstDifference (s ++ [z]) (t ++ [z])).elim .eq fun d ↦ cmp d.1 d.2 := by
  have htake := compareLex_take hz hs ht (s.length + t.length + 1)
  rwa [List.take_of_length_le (by omega), List.take_of_length_le (by omega),
    List.take_of_length_le (by simp), List.take_of_length_le (by simp)] at htake

end Terminated
