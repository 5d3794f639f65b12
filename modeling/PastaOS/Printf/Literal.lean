import PastaOS.Lib.Positional
import PastaOS.Printf.Format

/-!
# Numbers in formats

`skip_atoi` reads the field widths and precisions that stand in a format, for the formatter and for
the scanner.  It accumulates in an `int`, so what it returns for a string of digits is the residue
of its value (`skipAtoi_cstr`), and the value itself when that is an `int`.
-/

set_option autoImplicit false

namespace PastaOS

open Positional

/-- The number a decimal digit stands for. -/
def decValue (c : Byte) : Option ℕ := if isdigit c then some (c.toNat - 48) else none

/-- The value of a string of decimal digits. -/
def decimal (ds : List Byte) : ℕ := numeral decValue 10 ds

/-- **`skip_atoi` reads a run of digits**, behind digits whose value is `n`. -/
theorem skipAtoi_from (n : ℕ) (s : List Byte) : skipAtoi (i32 n) (cstr s)
    = some (i32 (numeralFrom decValue 10 n (s.takeWhile isdigit)), cstr (s.dropWhile isdigit)) := by
  induction s generalizing n with
  | nil => rfl
  | cons c s ih =>
    rw [cstr, List.cons_append, skipAtoi]
    by_cases hc : isdigit c = true
    · have hstep : i32 (i32 n * 10 + c.toNat - 48)
          = i32 ((n * 10 + (decValue c).getD 0 : ℕ) : Int) := by
        obtain ⟨hlo, -⟩ := (isdigit_iff c).mp hc
        rw [decValue, if_pos hc, Option.getD_some, i32, i32, i32, Int.bmod_def, Int.bmod_def,
          Int.bmod_def]
        omega
      rw [if_pos hc, hstep, List.takeWhile_cons_of_pos hc, List.dropWhile_cons_of_pos hc,
        numeralFrom_cons]
      exact ih _
    · rw [if_neg hc, List.takeWhile_cons_of_neg hc, List.dropWhile_cons_of_neg hc]
      rfl

theorem skipAtoi_cstr (s : List Byte) : skipAtoi 0 (cstr s)
    = some (i32 (decimal (s.takeWhile isdigit)), cstr (s.dropWhile isdigit)) :=
  skipAtoi_from 0 s

/-- A string of digits is read up to the character behind it. -/
theorem skipAtoi_digits {ds : List Byte} {c : Byte} (hds : ∀ d ∈ ds, isdigit d = true)
    (hc : isdigit c = false) (s : List Byte) :
    skipAtoi 0 (cstr (ds ++ c :: s)) = some (i32 (decimal ds), cstr (c :: s)) := by
  have hstop : ¬ isdigit c = true := by simp [hc]
  rw [skipAtoi_cstr, List.takeWhile_append_of_pos hds, List.takeWhile_cons_of_neg hstop,
    List.append_nil, List.dropWhile_append_of_pos hds, List.dropWhile_cons_of_neg hstop]

end PastaOS
