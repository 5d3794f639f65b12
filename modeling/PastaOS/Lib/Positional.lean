import Mathlib.Data.List.TakeWhile
import Mathlib.Data.Nat.Notation

/-!
# Numerals in positional notation

A numeral is a word of digits, the most significant one first.  The alphabet is arbitrary: `digit`
says which letters stand for which numbers.  `numeralRun` and `numeralRest` cut a word behind the
digits it begins with, `numeral` is the value of the digits.
-/

set_option autoImplicit false

universe u

namespace Positional

variable {α : Type u} (digit : α → Option ℕ) (b : ℕ)

/-- A digit below the base. -/
def isDigitBelow (c : α) : Bool := (digit c).any fun d ↦ decide (d < b)

/-- The value of the digits `w` behind digits whose value is `n`. -/
def numeralFrom (n : ℕ) (w : List α) : ℕ := w.foldl (fun n c ↦ n * b + (digit c).getD 0) n

/-- The value of the digits `w`. -/
def numeral (w : List α) : ℕ := numeralFrom digit b 0 w

/-- The digits a word begins with. -/
def numeralRun (w : List α) : List α := w.takeWhile (isDigitBelow digit b)

/-- What follows the numeral. -/
def numeralRest (w : List α) : List α := w.dropWhile (isDigitBelow digit b)

@[simp] theorem numeralFrom_nil (n : ℕ) : numeralFrom digit b n [] = n := rfl

theorem numeralFrom_cons (n : ℕ) (c : α) (w : List α) :
    numeralFrom digit b n (c :: w) = numeralFrom digit b (n * b + (digit c).getD 0) w := rfl

variable {digit b}

theorem isDigitBelow_iff {c : α} :
    isDigitBelow digit b c = true ↔ ∃ d, digit c = some d ∧ d < b := by
  simp [isDigitBelow, Option.any_eq_true]

/-- More digits do not make a numeral smaller. -/
theorem le_numeralFrom (hb : 0 < b) (n : ℕ) (w : List α) : n ≤ numeralFrom digit b n w := by
  induction w generalizing n with
  | nil => exact le_rfl
  | cons c w ih =>
    rw [numeralFrom_cons]
    calc n ≤ n * b := Nat.le_mul_of_pos_right n hb
      _ ≤ n * b + (digit c).getD 0 := Nat.le_add_right _ _
      _ ≤ _ := ih _

/-- A word is cut at the same place when it is cut at `n` before. -/
theorem dropWhile_take_append (p : α → Bool) (n : ℕ) (w : List α) :
    (w.take n).dropWhile p ++ w.drop n = w.drop (min n (w.takeWhile p).length) := by
  induction w generalizing n with
  | nil => simp
  | cons c w ih =>
    cases n with
    | zero => simp
    | succ n =>
      by_cases hc : p c = true
      · rw [List.take_succ_cons, List.drop_succ_cons, List.dropWhile_cons_of_pos hc, ih,
          List.takeWhile_cons_of_pos hc, List.length_cons, Nat.add_min_add_right,
          List.drop_succ_cons]
      · rw [List.take_succ_cons, List.drop_succ_cons, List.dropWhile_cons_of_neg hc,
          List.takeWhile_cons_of_neg hc, List.length_nil, Nat.min_zero, List.drop_zero,
          List.cons_append, List.take_append_drop]

/-- The digits among the first `n` letters of a word. -/
theorem numeralRun_take (n : ℕ) (w : List α) :
    numeralRun digit b (w.take n) = (numeralRun digit b w).take n :=
  List.take_takeWhile.symm

/-- What follows the digits among the first `n` letters. -/
theorem numeralRest_take (n : ℕ) (w : List α) : numeralRest digit b (w.take n) ++ w.drop n
    = w.drop (min n (numeralRun digit b w).length) :=
  dropWhile_take_append _ n w

theorem numeralRest_eq_drop (w : List α) :
    numeralRest digit b w = w.drop (numeralRun digit b w).length := by
  have happend : numeralRun digit b w ++ numeralRest digit b w = w :=
    List.takeWhile_append_dropWhile
  calc numeralRest digit b w
      = (numeralRun digit b w ++ numeralRest digit b w).drop (numeralRun digit b w).length :=
        List.drop_left.symm
    _ = w.drop (numeralRun digit b w).length := by rw [happend]

end Positional
