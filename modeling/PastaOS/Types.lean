import Mathlib.Algebra.Group.Int.Defs
import Mathlib.Algebra.Group.Nat.Defs

/-!
# Machine integers and characters

The kernel is compiled for 32-bit x86: `int`, `long`, pointers and `size_t` are 32 bits wide,
`long long` is 64 bits wide and little-endian, `char` is a signed byte.  Unsigned quantities and
addresses are bit vectors; an `int` that the code only ever compares and counts with is an `Int`
that `i32` keeps in range.
-/

set_option autoImplicit false

namespace PastaOS

/-- A byte (`char`, `uint8_t`). -/
abbrev Byte := BitVec 8

/-- A 32-bit word: an address, a `size_t`, an `unsigned int`, a stack slot. -/
abbrev Word := BitVec 32

/-- The `int` that a mathematical integer is cut down to: its two's complement residue. -/
def i32 (x : Int) : Int := Int.bmod x (2 ^ 32)

theorem i32_of_range {x : Int} (h : -2 ^ 31 ≤ x) (h' : x < 2 ^ 31) : i32 x = x := by
  rw [i32, Int.bmod_def]
  omega

theorem i32_range (x : Int) : -2 ^ 31 ≤ i32 x ∧ i32 x < 2 ^ 31 := by
  rw [i32, Int.bmod_def]
  omega

/-- The value of an `int`. -/
def IsInt (w : Int) : Prop := -2 ^ 31 ≤ w ∧ w < 2 ^ 31

theorem isInt_i32 (w : Int) : IsInt (i32 w) := i32_range w

theorem isInt_toInt (w : Word) : IsInt w.toInt := ⟨BitVec.le_toInt w, BitVec.toInt_lt⟩

theorem IsInt.i32_eq {w : Int} (h : IsInt w) : i32 w = w := i32_of_range h.1 h.2

theorem i32_emod (x : Int) : i32 x % 2 ^ 32 = x % 2 ^ 32 := by
  rw [i32, Int.bmod_def]
  omega

/-- `i32 x` is the residue of `x` among the `int`s. -/
theorem i32_spec (x : Int) : (-2 ^ 31 ≤ i32 x ∧ i32 x < 2 ^ 31) ∧ i32 x % 2 ^ 32 = x % 2 ^ 32 :=
  ⟨i32_range x, i32_emod x⟩

theorem i32_i32_sub (x y : Int) : i32 (i32 x - y) = i32 (x - y) := by
  rw [i32, i32, i32, Int.bmod_sub_bmod]

theorem i32_toNat_le (n : Nat) : (i32 n).toNat ≤ n := by
  rw [i32, Int.bmod_def]
  omega

/-! ## Characters -/

/-- A character constant. -/
def chr (c : Char) : Byte := BitVec.ofNat 8 c.toNat

/-- A string constant, without the NUL. -/
def chrs (cs : List Char) : List Byte := cs.map chr

/-- The string a C program sees: the characters and the NUL. -/
def cstr (s : List Byte) : List Byte := s ++ [0]

end PastaOS
