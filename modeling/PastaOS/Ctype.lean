import Mathlib.Data.Nat.Notation
import PastaOS.Types

/-!
# Character classes (`include/ctype.h`, `lib/ctype.c`)

The class of a character is looked up in a table of 256 bytes, one bit for each property.  The
lemmas say which characters the properties the formatter and the number parsers ask for are true
of; they are checked against the whole table.
-/

set_option autoImplicit false

namespace PastaOS

namespace Ctype

/-- `_U`: upper case. -/
def U : Byte := 0x01

/-- `_L`: lower case. -/
def L : Byte := 0x02

/-- `_D`: digit. -/
def D : Byte := 0x04

/-- `_C`: control. -/
def C : Byte := 0x08

/-- `_P`: punctuation. -/
def P : Byte := 0x10

/-- `_S`: white space. -/
def S : Byte := 0x20

/-- `_X`: hex digit. -/
def X : Byte := 0x40

/-- `_SP`: hard space. -/
def SP : Byte := 0x80

/-- `_ctype` -/
def table : List Byte :=
  [C, C, C, C, C, C, C, C]                                           -- 0-7
    ++ [C, C ||| S, C ||| S, C ||| S, C ||| S, C ||| S, C, C]        -- 8-15
    ++ [C, C, C, C, C, C, C, C]                                      -- 16-23
    ++ [C, C, C, C, C, C, C, C]                                      -- 24-31
    ++ [S ||| SP, P, P, P, P, P, P, P]                               -- 32-39
    ++ [P, P, P, P, P, P, P, P]                                      -- 40-47
    ++ [D, D, D, D, D, D, D, D]                                      -- 48-55
    ++ [D, D, P, P, P, P, P, P]                                      -- 56-63
    ++ [P, U ||| X, U ||| X, U ||| X, U ||| X, U ||| X, U ||| X, U]  -- 64-71
    ++ [U, U, U, U, U, U, U, U]                                      -- 72-79
    ++ [U, U, U, U, U, U, U, U]                                      -- 80-87
    ++ [U, U, U, P, P, P, P, P]                                      -- 88-95
    ++ [P, L ||| X, L ||| X, L ||| X, L ||| X, L ||| X, L ||| X, L]  -- 96-103
    ++ [L, L, L, L, L, L, L, L]                                      -- 104-111
    ++ [L, L, L, L, L, L, L, L]                                      -- 112-119
    ++ [L, L, L, P, P, P, P, C]                                      -- 120-127
    ++ [0, 0, 0, 0, 0, 0, 0, 0, 0, 0, 0, 0, 0, 0, 0, 0]              -- 128-143
    ++ [0, 0, 0, 0, 0, 0, 0, 0, 0, 0, 0, 0, 0, 0, 0, 0]              -- 144-159
    ++ [S ||| SP, P, P, P, P, P, P, P, P, P, P, P, P, P, P, P]       -- 160-175
    ++ [P, P, P, P, P, P, P, P, P, P, P, P, P, P, P, P]              -- 176-191
    ++ [U, U, U, U, U, U, U, U, U, U, U, U, U, U, U, U]              -- 192-207
    ++ [U, U, U, U, U, U, U, P, U, U, U, U, U, U, U, L]              -- 208-223
    ++ [L, L, L, L, L, L, L, L, L, L, L, L, L, L, L, L]              -- 224-239
    ++ [L, L, L, L, L, L, L, P, L, L, L, L, L, L, L, L]              -- 240-255

/-- The table has an entry for every character. -/
example : table.length = 256 := by decide +kernel

end Ctype

/-- `__ismask` -/
def ismask (x : Byte) : Byte := Ctype.table.getD x.toNat 0

/-- `isdigit` -/
def isdigit (c : Byte) : Bool := ismask c &&& Ctype.D != 0

/-- `islower` -/
def islower (c : Byte) : Bool := ismask c &&& Ctype.L != 0

/-- `isupper` -/
def isupper (c : Byte) : Bool := ismask c &&& Ctype.U != 0

/-- `isxdigit` -/
def isxdigit (c : Byte) : Bool := ismask c &&& (Ctype.D ||| Ctype.X) != 0

/-- `isspace` -/
def isspace (c : Byte) : Bool := ismask c &&& Ctype.S != 0

/-- `toupper` -/
def toupper (c : Byte) : Byte := if islower c then c - 32 else c

/-- `__tolower`: `c -= 'A'-'a'` for an upper case letter. -/
def tolower (c : Byte) : Byte := if isupper c then c - (chr 'A' - chr 'a') else c

/-- The digits are `0` to `9`. -/
theorem isdigit_iff (c : Byte) : isdigit c = true ↔ 48 ≤ c.toNat ∧ c.toNat ≤ 57 := by
  revert c
  decide +kernel

/-- No digit is the NUL. -/
theorem isdigit_zero : isdigit 0 = false := by decide

/-- Only the NUL becomes the NUL when letters are made small. -/
theorem tolower_eq_zero_iff (c : Byte) : tolower c = 0 ↔ c = 0 := by
  by_cases hupper : isupper c = true
  · -- the letter would be 0xe0, which is not in upper case
    have hne : c ≠ 0 + (chr 'A' - chr 'a') := fun h ↦ absurd (h ▸ hupper) (by decide)
    have hzero : c ≠ 0 := fun h ↦ absurd (h ▸ hupper) (by decide)
    rw [tolower, if_pos hupper, BitVec.sub_eq_iff_eq_add]
    exact iff_of_false hne hzero
  · rw [tolower, if_neg hupper]

/-- The NUL is not white space. -/
theorem isspace_zero : isspace 0 = false := by decide

end PastaOS
