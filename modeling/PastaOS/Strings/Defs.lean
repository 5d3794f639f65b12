import PastaOS.Ctype
import PastaOS.Lib.Cursor

/-!
# Strings (`include/string.h`, `lib/string.c`)

The functions that compare strings, search them and cut them up, statement by statement.

A `char *` is a cursor into an array of bytes; where it may be NULL, it is an `Option` with `none`
for NULL.  The outer `Option` of a result is the access to memory: it is `none` when a byte outside
of the array is read or written.  The value of an `int` function is the difference of two characters
and fits by far; a `size_t` only ever counts down to zero, or is the length of a string.
-/

set_option autoImplicit false

namespace PastaOS

/-- `char *` -/
abbrev Ptr := Cursor Byte

/-- A string: its bytes, none of which is the NUL that ends it. -/
structure CString where
  /-- The bytes in front of the NUL. -/
  bytes : List Byte
  /-- The NUL ends the string. -/
  nul : 0 ∉ bytes

/-- The bytes of a string in memory, the NUL included. -/
def CString.text (s : CString) : List Byte := cstr s.bytes

theorem cstr_nil : cstr [] = [0] := rfl

theorem cstr_cons (a : Byte) (s : List Byte) : cstr (a :: s) = a :: cstr s := rfl

/-- No byte of a string is the NUL: neither the first one nor the others. -/
theorem nul_notMem_cons {a : Byte} {s : List Byte} (h : 0 ∉ a :: s) : a ≠ 0 ∧ 0 ∉ s :=
  ⟨(List.ne_of_not_mem_cons h).symm, List.not_mem_of_not_mem_cons h⟩

/-- A pointer to a string that is all there is in its array. -/
def CString.ptr (s : CString) : Ptr := ⟨s.text, 0⟩

theorem CString.pointsTo_ptr (s : CString) : s.ptr.PointsTo s.text := List.prefix_refl _

/-- The value of an `unsigned char` as an `int`. -/
def uchar (c : Byte) : Int := c.toNat

/-! ## Length -/

/-- `for (s = str; *s; ++s);` -/
def strlenLoop (s : Ptr) : Option Ptr :=
  match _ : s.load with
  | none => none
  | some c => if c ≠ 0 then strlenLoop s.next else some s
termination_by s.room
decreasing_by exact Cursor.room_next ‹_›

theorem strlenLoop_eq (s : Ptr) : strlenLoop s
    = s.load.bind fun c ↦ if c ≠ 0 then strlenLoop s.next else some s := by
  rw [strlenLoop]
  split <;> simp [*]

/-- `strlen` -/
def strlen (str : Option Ptr) : Option ℕ :=
  match str with
  | none => some 0
  | some str => (strlenLoop str).map fun s ↦ s.pos - str.pos

/-! ## Comparison -/

/-- `while ((*s2 != '\0') && (*s2 == *s1)) { s1++; s2++; }` -/
def strcmpLoop (s1 s2 : Ptr) : Option (Ptr × Ptr) :=
  match _ : s2.load with
  | none => none
  | some b =>
    if b ≠ 0 then
      s1.load.bind fun a ↦ if b = a then strcmpLoop s1.next s2.next else some (s1, s2)
    else some (s1, s2)
termination_by s2.room
decreasing_by exact Cursor.room_next ‹_›

theorem strcmpLoop_eq (s1 s2 : Ptr) : strcmpLoop s1 s2
    = s2.load.bind fun b ↦
        if b ≠ 0 then
          s1.load.bind fun a ↦ if b = a then strcmpLoop s1.next s2.next else some (s1, s2)
        else some (s1, s2) := by
  rw [strcmpLoop]
  split <;> simp [*]

/-- `strcmp`: the characters are signed. -/
def strcmp (s1 s2 : Ptr) : Option Int := do
  let (s1, s2) ← strcmpLoop s1 s2
  let a ← s1.load
  let b ← s2.load
  return a.toInt - b.toInt

/-- `strncmp` and `strncasecmp`, which differ in what they do to the characters before they compare
them: `if (n == 0) return 0; do { … } while (--n != 0); return 0;`. -/
def compareUpTo (fold : Byte → Byte) (s1 s2 : Ptr) : ℕ → Option Int
  | 0 => some 0
  | n + 1 => do
    let a ← s1.load
    let b ← s2.load
    let s2 := s2.next
    if fold a ≠ fold b then
      let b ← s2.prev.load
      return uchar (fold a) - uchar (fold b)
    else if a = 0 then return 0
    else compareUpTo fold s1.next s2 n

/-- `strncmp`: signed characters are the same when the bytes are, and the difference is one of
unsigned characters. -/
def strncmp (s1 s2 : Ptr) (n : ℕ) : Option Int := compareUpTo id s1 s2 n

/-- `strncasecmp` -/
def strncasecmp (s1 s2 : Ptr) (n : ℕ) : Option Int := compareUpTo tolower s1 s2 n

/-- `strcasecmp` -/
def strcasecmp (us1 us2 : Ptr) : Option Int :=
  match _ : us1.load with
  | none => none
  | some a => do
    let b ← us2.load
    let us2 := us2.next
    if tolower a = tolower b then
      if a = 0 then return 0 else strcasecmp us1.next us2
    else
      let b ← us2.prev.load
      return uchar (tolower a) - uchar (tolower b)
termination_by us1.room
decreasing_by exact Cursor.room_next ‹_›

theorem strcasecmp_eq (us1 us2 : Ptr) : strcasecmp us1 us2
    = us1.load.bind fun a ↦ us2.load.bind fun b ↦
        if tolower a = tolower b then if a = 0 then some 0 else strcasecmp us1.next us2.next
        else some (uchar (tolower a) - uchar (tolower b)) := by
  rw [strcasecmp]
  cases us1.load with
  | none => rfl
  | some a =>
    cases hb : us2.load with
    | none => rfl
    | some b => simp [hb]

/-! ## Search -/

/-- `do { if ((sc = *s++) == 0) return 0; } while (sc != c);` and the value `s` is left with; NULL
for the `return`. -/
def strstrSkip (c : Byte) (s : Ptr) : Option (Option Ptr) :=
  match _ : s.load with
  | none => none
  | some sc =>
    if sc = 0 then some none
    else if sc ≠ c then strstrSkip c s.next
    else some (some s.next)
termination_by s.room
decreasing_by exact Cursor.room_next ‹_›

theorem strstrSkip_eq (c : Byte) (s : Ptr) : strstrSkip c s
    = s.load.bind fun sc ↦
        if sc = 0 then some none
        else if sc ≠ c then strstrSkip c s.next
        else some (some s.next) := by
  rw [strstrSkip]
  split <;> simp [*]

theorem strstrSkip_room {c : Byte} {s t : Ptr} (h : strstrSkip c s = some (some t)) :
    t.room < s.room := by
  fun_induction strstrSkip c s with
  | case1 => contradiction
  | case2 => simp at h
  | case3 s sc hload _ _ ih => exact Nat.lt_trans (ih h) (Cursor.room_next hload)
  | case4 s sc hload =>
    simp only [Option.some.injEq] at h
    rw [← h]
    exact Cursor.room_next hload

/-- `do { … } while (strncmp(s, find, len) != 0); s--;` -/
def strstrLoop (c : Byte) (find : Ptr) (len : ℕ) (s : Ptr) : Option (Option Ptr) :=
  match _ : strstrSkip c s with
  | none => none
  | some none => some none
  | some (some s) =>
    (strncmp s find len).bind fun r ↦ if r ≠ 0 then strstrLoop c find len s else some (some s.prev)
termination_by s.room
decreasing_by exact strstrSkip_room ‹_›

theorem strstrLoop_eq (c : Byte) (find : Ptr) (len : ℕ) (s : Ptr) : strstrLoop c find len s
    = (strstrSkip c s).bind fun
        | none => some none
        | some s => (strncmp s find len).bind fun r ↦
            if r ≠ 0 then strstrLoop c find len s else some (some s.prev) := by
  rw [strstrLoop]
  split <;> simp [*]

/-- `strstr` -/
def strstr (s find : Ptr) : Option (Option Ptr) := do
  let c ← find.load
  let find := find.next
  if c ≠ 0 then
    let len ← strlen (some find)
    strstrLoop c find len s
  else return some s

/-- `for (sc2 = ct; *sc2 != '\0'; ++sc2) if (*sc1 == *sc2) return sc1;` for the character `c` of
`sc1`: whether it returns. -/
def strpbrkFind (c : Byte) (sc2 : Ptr) : Option Bool :=
  match _ : sc2.load with
  | none => none
  | some d =>
    if d ≠ 0 then
      if c = d then some true else strpbrkFind c sc2.next
    else some false
termination_by sc2.room
decreasing_by exact Cursor.room_next ‹_›

theorem strpbrkFind_eq (c : Byte) (sc2 : Ptr) : strpbrkFind c sc2
    = sc2.load.bind fun d ↦
        if d ≠ 0 then if c = d then some true else strpbrkFind c sc2.next else some false := by
  rw [strpbrkFind]
  split <;> simp [*]

/-- `strpbrk`, from `sc1` on. -/
def strpbrk (sc1 ct : Ptr) : Option (Option Ptr) :=
  match _ : sc1.load with
  | none => none
  | some c =>
    if c ≠ 0 then
      (strpbrkFind c ct).bind fun found ↦ if found then some (some sc1) else strpbrk sc1.next ct
    else some none
termination_by sc1.room
decreasing_by exact Cursor.room_next ‹_›

theorem strpbrk_eq (sc1 ct : Ptr) : strpbrk sc1 ct
    = sc1.load.bind fun c ↦
        if c ≠ 0 then
          (strpbrkFind c ct).bind fun found ↦ if found then some (some sc1) else strpbrk sc1.next ct
        else some none := by
  rw [strpbrk]
  split <;> simp [*]

/-! ## Cutting up -/

/-- What `strsep` works on: the array that holds the string, and the pointer `*s` into it. -/
structure Sep where
  /-- The array. -/
  cells : List Byte
  /-- The index `*s` points to. -/
  s : Option ℕ
  deriving DecidableEq

/-- `strsep`: the index that the returned pointer points to, and what it leaves. -/
def strsep (ct : Ptr) (x : Sep) : Option (Option ℕ × Sep) :=
  match x.s with
  | none => some (none, x)
  | some sbegin => do
    match ← strpbrk ⟨x.cells, sbegin⟩ ct with
    | some e =>
      let e ← e.store 0
      let e := e.next
      return (some sbegin, ⟨e.cells, some e.pos⟩)
    | none => return (some sbegin, ⟨x.cells, none⟩)

end PastaOS
