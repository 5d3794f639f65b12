import PastaOS.Scanf.Strto

/-!
# The scanner (`lib/vsprintf.c`)

`vsscanf` with its helpers.  As for the parsers of numbers, a string is the list of its bytes from
the pointer up to and including the NUL, and a function fails if it reads past the end of the list.
A store through a pointer argument is put on a list, as the pointer and the bytes: the arguments are
taken to point outside of the input and the format, which the scanner only reads.

A pass of the loop either goes on with another one or leaves the loop; of a scan that leaves it, the
model also keeps whether it had come to the end of the format.
-/

set_option autoImplicit false

namespace PastaOS

/-- `INT_MAX` -/
def INT_MAX : Int := 2 ^ 31 - 1

/-- The variables of `vsscanf` that outlive a pass of its loop, but for the format. -/
structure Scan where
  /-- `str` -/
  str : List Byte
  /-- `args` -/
  args : Args
  /-- `num` -/
  num : ℕ
  /-- `field_width` -/
  fieldWidth : Int
  /-- The stores, pointer and bytes, in order. -/
  writes : List (Word × List Byte)

/-- A store through the next argument. -/
def Scan.store (bytes : List Byte) (s : Scan) : Scan :=
  { s with args := s.args.tail, writes := s.writes ++ [(s.args.head, bytes)] }

/-! ## Strings -/

/-- `while (isspace(*str)) str++;` -/
def skipSpace : List Byte → Option (List Byte)
  | [] => none
  | c :: str => if isspace c then skipSpace str else some (c :: str)

/-- `while (!isspace(*str) && *str) str++;` -/
def skipWord : List Byte → Option (List Byte)
  | [] => none
  | c :: str => if isspace c = false ∧ c ≠ 0 then skipWord str else some (c :: str)

/-- `do { *s++ = *str++; } while (field_width-- > 0 && *str);`: the characters copied, and
`field_width` and `str` behind them. -/
def copyChars (fieldWidth : Int) : List Byte → Option (List Byte × Int × List Byte)
  | [] => none
  | c :: str =>
    match str with
    | [] => none
    | d :: _ =>
      if 0 < fieldWidth ∧ d ≠ 0 then do
        let (s, fieldWidth, str) ← copyChars (i32 (fieldWidth - 1)) str
        return (c :: s, fieldWidth, str)
      else some ([c], i32 (fieldWidth - 1), str)

/-- `while (*str && !isspace(*str) && field_width--) *s++ = *str++;` -/
def copyWord (fieldWidth : Int) : List Byte → Option (List Byte × Int × List Byte)
  | [] => none
  | c :: str =>
    if c = 0 ∨ isspace c then some ([], fieldWidth, c :: str)
    else if fieldWidth = 0 then some ([], -1, c :: str)
    else do
      let (s, fieldWidth, str) ← copyWord (i32 (fieldWidth - 1)) str
      return (c :: s, fieldWidth, str)

/-! ## Integers -/

/-- The bytes of a number in memory, the least significant one first. -/
def storedBytes {w : ℕ} (v : BitVec w) : List Byte :=
  (List.range (w / 8)).map fun i ↦ (v >>> (8 * i)).setWidth 8

/-- `switch(qualifier)`: the bytes stored, and `next`. -/
def scanInteger (qualifier : Qualifier) (isSign : Bool) (base : Word) (str : List Byte) :
    Option (List Byte × List Byte) :=
  match qualifier with
  | .h =>
    if isSign then (simpleStrtol base str).map fun x ↦ (storedBytes (BitVec.ofInt 16 x.1), x.2)
    else (simpleStrtoul base str).map fun x ↦ (storedBytes (x.1.setWidth 16), x.2)
  | .l =>
    if isSign then (simpleStrtol base str).map fun x ↦ (storedBytes (BitVec.ofInt 32 x.1), x.2)
    else (simpleStrtoul base str).map fun x ↦ (storedBytes x.1, x.2)
  | .L =>
    if isSign then (simpleStrtoll base str).map fun x ↦ (storedBytes (BitVec.ofInt 64 x.1), x.2)
    else (simpleStrtoull base str).map fun x ↦ (storedBytes x.1, x.2)
  | .Z => (simpleStrtoul base str).map fun x ↦ (storedBytes x.1, x.2)
  | .none =>
    if isSign then (simpleStrtol base str).map fun x ↦ (storedBytes (BitVec.ofInt 32 x.1), x.2)
    else (simpleStrtoul base str).map fun x ↦ (storedBytes x.1, x.2)

/-- The integer cases of the conversion switch: `base` and `is_sign`. -/
def scanBase (c : Byte) : Option (Word × Bool) :=
  if c = chr 'o' then some (8, false)
  else if c = chr 'x' ∨ c = chr 'X' then some (16, false)
  else if c = chr 'd' ∨ c = chr 'i' then some (10, true)
  else if c = chr 'u' then some (10, false)
  else none

/-! ## The loop -/

/-- The conversion switch for the character `c`, other than the NUL, and what follows it in the
loop: whether the loop goes on, and the variables.  `buf` is the whole input.  The parsers of
numbers always set `next`. -/
def scanConvert (buf : List Byte) (qualifier : Qualifier) (c : Byte) (s : Scan) :
    Option (Bool × Scan) :=
  if c = chr 'c' then do
    let fieldWidth := if s.fieldWidth = -1 then 1 else s.fieldWidth
    let (chars, fieldWidth, str) ← copyChars fieldWidth s.str
    return (true, { s.store chars with str := str, num := s.num + 1, fieldWidth := fieldWidth })
  else if c = chr 's' then do
    let fieldWidth := if s.fieldWidth = -1 then INT_MAX else s.fieldWidth
    let str ← skipSpace s.str
    let (chars, fieldWidth, str) ← copyWord fieldWidth str
    return (true,
      { s.store (cstr chars) with str := str, num := s.num + 1, fieldWidth := fieldWidth })
  else if c = chr 'n' then
    some (true, s.store (storedBytes (BitVec.ofNat 32 (buf.length - s.str.length))))
  else if c = chr '%' then
    match s.str with
    | [] => none
    | d :: str => some (decide (d = chr '%'), { s with str := str })
  else
    match scanBase c with
    | none => some (false, s)
    | some (base, isSign) => do
      let str ← skipSpace s.str
      let d ← str.head?
      if d = 0 ∨ isdigit d = false then return (false, { s with str := str })
      else do
        let (bytes, next) ← scanInteger qualifier isSign base str
        return (true, { s.store bytes with str := next, num := s.num + 1 })

/-- `if (isdigit(*fmt)) field_width = skip_atoi(&fmt);` -/
def scanFieldWidth (fieldWidth : Int) : List Byte → Option (Int × List Byte)
  | [] => none
  | c :: fmt => if isdigit c then skipAtoi 0 (c :: fmt) else some (fieldWidth, c :: fmt)

/-- The conversion qualifier. -/
def scanQualifier : List Byte → Option (Qualifier × List Byte)
  | [] => none
  | c :: fmt =>
    if c = chr 'h' then some (.h, fmt)
    else if c = chr 'l' then some (.l, fmt)
    else if c = chr 'L' then some (.L, fmt)
    else if c = chr 'Z' then some (.Z, fmt)
    else some (.none, c :: fmt)

/-- What a pass of the loop leads to. -/
inductive Pass
  /-- Another pass. -/
  | again (fmt : List Byte) (s : Scan)
  /-- The end of the loop, and whether the end of the format has been reached. -/
  | leave (atEnd : Bool) (s : Scan)

/-- The loop body from behind the qualifier on. -/
def scanConversion (buf : List Byte) (qualifier : Qualifier) (s : Scan) : List Byte → Option Pass
  | [] => none
  | c :: fmt => do
    let d ← s.str.head?
    if c = 0 ∨ d = 0 then return .leave false s
    else do
      let (goOn, s) ← scanConvert buf qualifier c s
      return if goOn then .again fmt s else .leave false s

/-- The loop body from behind a `%` on that no `*` follows. -/
def scanDirective (buf fmt : List Byte) (s : Scan) : Option Pass := do
  let (fieldWidth, fmt) ← scanFieldWidth s.fieldWidth fmt
  let (qualifier, fmt) ← scanQualifier fmt
  scanConversion buf qualifier { s with fieldWidth := fieldWidth } fmt

/-- The loop body from behind the white space on. -/
def scanPass (buf : List Byte) : List Byte → Scan → Option Pass
  | [], _ => none
  | c :: fmt, s =>
    if c ≠ chr '%' ∧ c ≠ 0 then do
      let d ← s.str.head?
      let s := { s with str := s.str.tail }
      if c ≠ d then return .leave false s
      else return .again fmt s
    else if c = 0 then some (.leave true s)
    else do
      let d ← fmt.head?
      if d = chr '*' then do
        let fmt ← skipWord fmt
        let str ← skipWord s.str
        return .again fmt { s with str := str }
      else scanDirective buf fmt s

/-- `if (isspace(*fmt)) { ... }` -/
def scanSpace (fmt : List Byte) (s : Scan) : Option (List Byte × Scan) := do
  let c ← fmt.head?
  if isspace c then do
    let fmt ← skipSpace fmt
    let str ← skipSpace s.str
    return (fmt, { s with str := str })
  else return (fmt, s)

/-- The loop of `vsscanf`, for at most `fuel` tests of its condition: whether the end of the format
has been reached, and the variables. -/
def vsscanfLoop (buf : List Byte) : ℕ → List Byte → Scan → Option (Bool × Scan)
  | 0, _, _ => none
  | fuel + 1, fmt, s => do
    let c ← fmt.head?
    if c = 0 then return (true, s)
    else do
      let d ← s.str.head?
      if d = 0 then return (false, s)
      else do
        let (fmt, s) ← scanSpace fmt s
        match ← scanPass buf fmt s with
        | .again fmt s => vsscanfLoop buf fuel fmt s
        | .leave atEnd s => return (atEnd, s)

/-- A scan of `buf` for the format `fmt`. -/
def scan (buf fmt : List Byte) (args : Args) : Option (Bool × Scan) :=
  vsscanfLoop buf fmt.length fmt ⟨buf, args, 0, -1, []⟩

/-- `vsscanf`: the value returned, and the stores. -/
def vsscanf (buf fmt : List Byte) (args : Args) : Option (ℕ × List (Word × List Byte)) :=
  (scan buf fmt args).map fun x ↦ (x.2.num, x.2.writes)

end PastaOS
