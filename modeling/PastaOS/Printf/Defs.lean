import Mathlib.Data.Stream.Init
import Mathlib.Logic.Function.Basic
import PastaOS.Ctype

/-!
# `vsnprintf` (`lib/vsprintf.c`)

The formatter, statement by statement.

A format string is the list of bytes from the pointer up to and including the NUL, so `*fmt` is the
head and `++fmt` the tail; `none` stands for a read past the end of the string, a store past the end
of `tmp` and a `divl` that the processor traps.  The `va_list` is the stream of words above the last
named argument.

What C leaves undefined as well is an `int` operation that overflows.  Here its result is cut down
to 32 bits (`i32`), as the instructions of the processor do; a compiler may do something else, and
it does so for `--field_width` at `INT_MIN`.  `Overflow` says in which calls there is no such
operation.

The source repeats one pair of statements at every place that produces a character:
`if (str <= end) *str = c; ++str;`.  Here it is the operation `put` of a `Sink`, and the functions
are written for an arbitrary sink.  `bufferSink` is the sink of the source: memory, `str` and `end`.
`paperSink` keeps every character and nothing else; what the loop of `vsnprintf` puts on paper is
the *untruncated text*.
-/

set_option autoImplicit false

namespace PastaOS

/-- The words of a `va_list`. -/
abbrev Args := Stream' Word

/-! ## Where the characters go -/

/-- The operations `vsnprintf` performs on its output and on memory. -/
structure Sink (σ : Type) where
  /-- `if (str <= end) *str = c; ++str;` -/
  put : Byte → σ → σ
  /-- `*s` -/
  load : σ → Word → Option Byte
  /-- `*ip = (str - buf)` -/
  storeCount : Word → σ → Option σ

/-- The flags of `number`. -/
structure Flags where
  /-- `ZEROPAD` -/
  zeropad : Bool := false
  /-- `SIGN` -/
  sign : Bool := false
  /-- `PLUS` -/
  plus : Bool := false
  /-- `SPACE` -/
  space : Bool := false
  /-- `LEFT` -/
  left : Bool := false
  /-- `SPECIAL` -/
  special : Bool := false
  /-- `LARGE` -/
  large : Bool := false
  deriving DecidableEq

/-- The values of `qualifier`; `none` is -1. -/
inductive Qualifier
  | none | h | l | L | Z
  deriving DecidableEq

/-! ## Division -/

/-- `divl`: the quotient and the remainder of `upper:low` by `base`; it traps when the quotient does
not fit in 32 bits. -/
def divl (upper low base : Word) : Option (Word × Word) :=
  let n := upper.toNat * 2 ^ 32 + low.toNat
  if base = 0 ∨ 2 ^ 32 ≤ n / base.toNat then none
  else some (BitVec.ofNat 32 (n / base.toNat), BitVec.ofNat 32 (n % base.toNat))

/-- `do_div`: the new value of `n`, and the value of the macro. -/
def doDiv (n : BitVec 64) (base : Word) : Option (BitVec 64 × Word) := do
  let low : Word := n.setWidth 32
  let high : Word := (n >>> 32).setWidth 32
  let (upper, high) := if high ≠ 0 then (high % base, high / base) else (high, high)
  let (low, mod) ← divl upper low base
  return ((high ++ low : BitVec (32 + 32)), mod)

/-! ## `number` -/

/-- `small_digits` -/
def smallDigits : List Byte :=
  chrs ['0', '1', '2', '3', '4', '5', '6', '7', '8', '9',
    'a', 'b', 'c', 'd', 'e', 'f', 'g', 'h', 'i', 'j', 'k', 'l', 'm',
    'n', 'o', 'p', 'q', 'r', 's', 't', 'u', 'v', 'w', 'x', 'y', 'z']

/-- `large_digits` -/
def largeDigits : List Byte :=
  chrs ['0', '1', '2', '3', '4', '5', '6', '7', '8', '9',
    'A', 'B', 'C', 'D', 'E', 'F', 'G', 'H', 'I', 'J', 'K', 'L', 'M',
    'N', 'O', 'P', 'Q', 'R', 'S', 'T', 'U', 'V', 'W', 'X', 'Y', 'Z']

/-- `while (num != 0) tmp[i++] = digits[do_div(num,base)];` with `room` cells of `tmp` left: the
cells written, the first one first. -/
def digitLoop (digits : List Byte) (base : Word) : ℕ → BitVec 64 → Option (List Byte)
  | 0, num => if num = 0 then some [] else none
  | room + 1, num =>
    if num = 0 then some []
    else do
      let (num, r) ← doDiv num base
      let d ← digits[r.toNat]?
      let tmp ← digitLoop digits base room num
      return d :: tmp

/-- The digits `number` leaves in `tmp[66]`. -/
def numberDigits (digits : List Byte) (base : Word) (num : BitVec 64) : Option (List Byte) :=
  if num = 0 then some [chr '0'] else digitLoop digits base 66 num

/-- The `if (type & SIGN)` of `number`: `sign`, `num` and `size`. -/
def numberSign (type : Flags) (num : BitVec 64) (size : Int) : Byte × BitVec 64 × Int :=
  if type.sign then
    if num.slt 0 then (chr '-', -num, i32 (size - 1))
    else if type.plus then (chr '+', num, i32 (size - 1))
    else if type.space then (chr ' ', num, i32 (size - 1))
    else (0, num, size)
  else (0, num, size)

/-- The first `if (type & SPECIAL)` of `number`: `size`. -/
def numberSpecial (type : Flags) (base size : Int) : Int :=
  if type.special then
    if base = 16 then i32 (size - 2)
    else if base = 8 then i32 (size - 1)
    else size
  else size

section Output

variable {σ : Type} (S : Sink σ)

/-- `while (lo < n--) put(c);` and the value `n` is left with.  While `lo < n`, the decrement stays
in the range of `int`. -/
def padBelow (c : Byte) (lo n : Int) (out : σ) : Int × σ :=
  if lo < n then padBelow c lo (n - 1) (S.put c out) else (i32 (n - 1), out)
termination_by (n - lo).toNat

/-- `while (--n > 0) put(c);` and the value `n` is left with.  At `INT_MIN` the decrement overflows
and is undefined in C; here it wraps around, to a loop of 2³¹ - 1 rounds that a compiler need not
run. -/
def padPositive (c : Byte) (n : Int) (out : σ) : Int × σ :=
  if 0 < i32 (n - 1) then padPositive c (i32 (n - 1)) (S.put c out) else (i32 (n - 1), out)
termination_by (i32 (n - 1)).toNat
decreasing_by
  have := i32_range (n - 1)
  have hstep : i32 (i32 (n - 1) - 1) = i32 (n - 1) - 1 := i32_of_range (by omega) (by omega)
  omega

/-- `while (i-- > 0) put(tmp[i]);` -/
def putDown (tmp : List Byte) : ℕ → σ → Option σ
  | 0, out => some out
  | i + 1, out => do
    let d ← tmp[i]?
    putDown tmp i (S.put d out)

/-- The second `if (type & SPECIAL)` of `number`. -/
def putSpecial (digits : List Byte) (type : Flags) (base : Int) (out : σ) : Option σ :=
  if type.special then
    if base = 8 then some (S.put (chr '0') out)
    else if base = 16 then do
      let out := S.put (chr '0') out
      let x ← digits[33]?
      return S.put x out
    else some out
  else some out

/-- `number`.  A base out of range, for which the source returns a NULL pointer, is an error here:
no call passes one. -/
def number (num : BitVec 64) (base size precision : Int) (type : Flags) (out : σ) : Option σ :=
  let digits := if type.large then largeDigits else smallDigits
  let type := if type.left then { type with zeropad := false } else type
  if base < 2 ∨ 36 < base then none
  else do
    let c := if type.zeropad then chr '0' else chr ' '
    let (sign, num, size) := numberSign type num size
    let size := numberSpecial type base size
    let tmp ← numberDigits digits (BitVec.ofInt 32 base) num
    let i : Int := tmp.length
    let precision := if i > precision then i else precision
    let size := i32 (size - precision)
    let (size, out) :=
      if !(type.zeropad || type.left) then padBelow S (chr ' ') 0 size out else (size, out)
    let out := if sign ≠ 0 then S.put sign out else out
    let out ← putSpecial S digits type base out
    let (size, out) := if !type.left then padBelow S c 0 size out else (size, out)
    let (_, out) := padBelow S (chr '0') i precision out
    let out ← putDown S tmp tmp.length out
    let (_, out) := padBelow S (chr ' ') 0 size out
    return out

/-! ## Characters and strings -/

/-- The case `'c'` of the conversion switch, for the character `c`. -/
def convertChar (flags : Flags) (fieldWidth : Int) (c : Byte) (out : σ) : σ :=
  let (fieldWidth, out) :=
    if !flags.left then padPositive S (chr ' ') fieldWidth out else (fieldWidth, out)
  let out := S.put c out
  (padPositive S (chr ' ') fieldWidth out).2

/-- What `s` points to: memory, or the string constant that stands in for a NULL pointer. -/
inductive Str
  /-- The argument. -/
  | arg (p : Word)
  /-- `"<NULL>"` -/
  | null

/-- `s[i]` -/
def Str.load (s : Str) (out : σ) (i : ℕ) : Option Byte :=
  match s with
  | .arg p => S.load out (p + BitVec.ofNat 32 i)
  | .null => (cstr (chrs ['<', 'N', 'U', 'L', 'L', '>']))[i]?

/-- `strnlen`, with `count` characters to go from the `i`-th on. -/
def strnlen (s : Str) (out : σ) : ℕ → ℕ → Option ℕ
  | 0, i => some i
  | count + 1, i => do
    let c ← s.load S out i
    if c = 0 then some i else strnlen s out count (i + 1)

/-- `for (i = 0; i < len; ++i) put(*s++);` with `n` rounds to go from the `i`-th on.  The source
only reads `*s` when it is about to store it; `strnlen` has read all of these characters before. -/
def putStr (s : Str) : ℕ → ℕ → σ → Option σ
  | 0, _, out => some out
  | n + 1, i, out => do
    let c ← s.load S out i
    putStr s n (i + 1) (S.put c out)

/-- The case `'s'` of the conversion switch, for the argument `p`.  `strnlen` takes the precision as
an `unsigned int`, and its result is assigned to an `int`. -/
def convertString (flags : Flags) (fieldWidth precision : Int) (p : Word) (out : σ) : Option σ := do
  let s := if p = 0 then Str.null else Str.arg p
  let n ← strnlen S s out (BitVec.ofInt 32 precision).toNat 0
  let len := i32 n
  let (fieldWidth, out) :=
    if !flags.left then padBelow S (chr ' ') len fieldWidth out else (fieldWidth, out)
  let out ← putStr S s len.toNat 0 out
  return (padBelow S (chr ' ') len fieldWidth out).2

end Output

/-! ## Reading a directive -/

/-- `skip_atoi`, having read `i`; the accumulator is an `int` that wraps around. -/
def skipAtoi (i : Int) : List Byte → Option (Int × List Byte)
  | [] => none
  | c :: s => if isdigit c then skipAtoi (i32 (i * 10 + c.toNat - 48)) s else some (i, c :: s)

/-- The flags, from behind the `%` or the last flag on. -/
def getFlags (flags : Flags) : List Byte → Option (Flags × List Byte)
  | [] => none
  | c :: fmt =>
    if c = chr '-' then getFlags { flags with left := true } fmt
    else if c = chr '+' then getFlags { flags with plus := true } fmt
    else if c = chr ' ' then getFlags { flags with space := true } fmt
    else if c = chr '#' then getFlags { flags with special := true } fmt
    else if c = chr '0' then getFlags { flags with zeropad := true } fmt
    else some (flags, c :: fmt)

/-- The field width. -/
def getWidth (flags : Flags) (fmt : List Byte) (args : Args) :
    Option (Flags × Int × List Byte × Args) :=
  match fmt with
  | [] => none
  | c :: rest =>
    if isdigit c then do
      let (fieldWidth, fmt) ← skipAtoi 0 fmt
      return (flags, fieldWidth, fmt, args)
    else if c = chr '*' then
      let fieldWidth := args.head.toInt
      if fieldWidth < 0 then
        some ({ flags with left := true }, i32 (-fieldWidth), rest, args.tail)
      else some (flags, fieldWidth, rest, args.tail)
    else some (flags, -1, fmt, args)

/-- The number behind the `.` of a precision. -/
def getPrecisionValue (fmt : List Byte) (args : Args) : Option (Int × List Byte × Args) :=
  match fmt with
  | [] => none
  | c :: rest =>
    if isdigit c then do
      let (precision, fmt) ← skipAtoi 0 fmt
      return (precision, fmt, args)
    else if c = chr '*' then some (args.head.toInt, rest, args.tail)
    else some (-1, fmt, args)

/-- The precision. -/
def getPrecision (fmt : List Byte) (args : Args) : Option (Int × List Byte × Args) :=
  match fmt with
  | [] => none
  | c :: rest =>
    if c = chr '.' then do
      let (precision, fmt, args) ← getPrecisionValue rest args
      return (if precision < 0 then 0 else precision, fmt, args)
    else some (-1, fmt, args)

/-- The conversion qualifier behind an `l`. -/
def getQualifierL : List Byte → Option (Qualifier × List Byte)
  | [] => none
  | c :: rest => if c = chr 'l' then some (.L, rest) else some (.l, c :: rest)

/-- The conversion qualifier. -/
def getQualifier : List Byte → Option (Qualifier × List Byte)
  | [] => none
  | c :: rest =>
    if c = chr 'h' then some (.h, rest)
    else if c = chr 'L' then some (.L, rest)
    else if c = chr 'Z' then some (.Z, rest)
    else if c = chr 'l' then getQualifierL rest
    else some (.none, c :: rest)

/-! ## Executing a directive -/

/-- The argument of an integer conversion: `num`, and the arguments behind it. -/
def fetchNum (qualifier : Qualifier) (sign : Bool) (args : Args) : BitVec 64 × Args :=
  match qualifier with
  | .L => ((args.tail.head ++ args.head : BitVec (32 + 32)), args.tail.tail)
  | .l =>
    (if sign then args.head.signExtend 64 else args.head.setWidth 64, args.tail)
  | .Z => (args.head.setWidth 64, args.tail)
  | .h =>
    (if sign then (args.head.setWidth 16).signExtend 64
      else (args.head.setWidth 16).setWidth 64, args.tail)
  | .none =>
    (if sign then args.head.signExtend 64 else args.head.setWidth 64, args.tail)

/-- The integer cases of the conversion switch: `base` and `flags`. -/
def integerConversion (flags : Flags) (c : Byte) : Option (Int × Flags) :=
  if c = chr 'o' then some (8, flags)
  else if c = chr 'X' then some (16, { flags with large := true })
  else if c = chr 'x' then some (16, flags)
  else if c = chr 'd' ∨ c = chr 'i' then some (10, { flags with sign := true })
  else if c = chr 'u' then some (10, flags)
  else none

section Loop

variable {σ : Type} (S : Sink σ)

/-- The conversion switch for the character `c`, other than the NUL, and what follows it in the
loop: the arguments and the output afterwards. -/
def convert (flags : Flags) (fieldWidth precision : Int) (qualifier : Qualifier) (c : Byte)
    (args : Args) (out : σ) : Option (Args × σ) :=
  if c = chr 'c' then
    some (args.tail, convertChar S flags fieldWidth (args.head.setWidth 8) out)
  else if c = chr 's' then do
    let out ← convertString S flags fieldWidth precision args.head out
    return (args.tail, out)
  else if c = chr 'p' then do
    let (fieldWidth, flags) :=
      if fieldWidth = -1 then (8, { flags with zeropad := true }) else (fieldWidth, flags)
    let out ← number S (args.head.setWidth 64) 16 fieldWidth precision flags out
    return (args.tail, out)
  else if c = chr 'n' then do
    -- `int`, `long` and `size_t` are all 32 bits wide, so the three cases do the same
    let out ← S.storeCount args.head out
    return (args.tail, out)
  else if c = chr '%' then some (args, S.put (chr '%') out)
  else
    match integerConversion flags c with
    | some (base, flags) => do
      let (num, args) := fetchNum qualifier flags.sign args
      let out ← number S num base fieldWidth precision flags out
      return (args, out)
    | none => some (args, S.put c (S.put (chr '%') out))

/-- The loop body from behind the `%` on: the format at the next test of the loop, the arguments and
the output.  At the NUL, `--fmt` undoes the `++fmt` of the loop header, so the next test sees the
NUL again. -/
def directive (fmt : List Byte) (args : Args) (out : σ) : Option (List Byte × Args × σ) := do
  let (flags, fmt) ← getFlags {} fmt
  let (flags, fieldWidth, fmt, args) ← getWidth flags fmt args
  let (precision, fmt, args) ← getPrecision fmt args
  let (qualifier, fmt) ← getQualifier fmt
  match fmt with
  | [] => none
  | c :: rest =>
    if c = 0 then some (fmt, args, S.put (chr '%') out)
    else do
      let (args, out) ← convert S flags fieldWidth precision qualifier c args out
      return (rest, args, out)

/-- The loop of `vsnprintf`, for at most `fuel` tests of its condition. -/
def vsnprintfLoop : ℕ → List Byte → Args → σ → Option (Args × σ)
  | 0, _, _, _ => none
  | _ + 1, [], _, _ => none
  | fuel + 1, c :: rest, args, out =>
    if c = 0 then some (args, out)
    else if c ≠ chr '%' then vsnprintfLoop fuel rest args (S.put c out)
    else do
      let (fmt, args, out) ← directive S rest args out
      vsnprintfLoop fuel fmt args out

end Loop

/-! ## The buffer -/

/-- A 32-bit store, least significant byte first. -/
def store32 (mem : Word → Byte) (p v : Word) (a : Word) : Byte :=
  if (a - p).toNat < 4 then (v >>> (8 * (a - p).toNat)).setWidth 8 else mem a

/-- Memory and the output pointer.  The last two fields only record what has happened. -/
structure Buffer where
  /-- Memory. -/
  mem : Word → Byte
  /-- `str` -/
  str : Word
  /-- The addresses of all stores other than those of `%n`, the last one first. -/
  stores : List Word
  /-- The stores of `%n`, address and value, in order. -/
  counts : List (Word × Word)

/-- `*a = c` -/
def Buffer.store (b : Buffer) (a : Word) (c : Byte) : Buffer :=
  { b with mem := Function.update b.mem a c, stores := a :: b.stores }

/-- The sink of `vsnprintf`. -/
def bufferSink (buf last : Word) : Sink Buffer where
  put c b :=
    let b := if b.str ≤ last then b.store b.str c else b
    { b with str := b.str + 1 }
  load b a := some (b.mem a)
  storeCount p b := some { b with
    mem := store32 b.mem p (b.str - buf)
    counts := b.counts ++ [(p, b.str - buf)] }

/-- `end` and `size` after the test for wrap-around. -/
def bufferEnd (buf size : Word) : Word × Word :=
  let last := buf + size - 1
  if last < buf - 1 then (BitVec.allOnes 32, BitVec.allOnes 32 - buf + 1) else (last, size)

/-- The NUL: behind the text if there is room, over the last character if there is not. -/
def Buffer.terminate (last size : Word) (b : Buffer) : Buffer :=
  if b.str ≤ last then b.store b.str 0
  else if size > 0 then b.store last 0
  else b

/-- `vsnprintf`: the value returned, and what has happened to memory. -/
def vsnprintf (mem : Word → Byte) (buf size : Word) (fmt : List Byte) (args : Args) :
    Option (Int × Buffer) := do
  let (last, size) := bufferEnd buf size
  let (_, b) ← vsnprintfLoop (bufferSink buf last) fmt.length fmt args ⟨mem, buf, [], []⟩
  return ((b.str - buf).toInt, b.terminate last size)

/-- `vsprintf` -/
def vsprintf (mem : Word → Byte) (buf : Word) (fmt : List Byte) (args : Args) :
    Option (Int × Buffer) :=
  vsnprintf mem buf 0xFFFFFFFF fmt args

/-! ## Paper -/

/-- The cells of memory a directive may read characters from, and those a `%n` may write. -/
structure Access where
  /-- The cells that may be read. -/
  read : Word → Bool
  /-- The cells that may be written. -/
  write : Word → Bool

/-- Every character so far, and memory as the `%n` directives have left it. -/
structure Paper where
  /-- Memory. -/
  mem : Word → Byte
  /-- The text. -/
  text : List Byte
  /-- The stores of `%n`, address and value, in order. -/
  counts : List (Word × Word)

/-- A sink without a buffer: it keeps every character, and fails when memory is used that may not
be. -/
def paperSink (acc : Access) : Sink Paper where
  put c u := { u with text := u.text ++ [c] }
  load u a := if acc.read a then some (u.mem a) else none
  storeCount p u :=
    if acc.write p && acc.write (p + 1) && acc.write (p + 2) && acc.write (p + 3) then
      some { u with
        mem := store32 u.mem p (BitVec.ofNat 32 u.text.length)
        counts := u.counts ++ [(p, BitVec.ofNat 32 u.text.length)] }
    else none

/-- **The untruncated text** of a format, with the arguments it leaves unread and what its `%n`
directives have stored: what the loop of `vsnprintf` does when nothing bounds its output.  It fails
if it reads a string, or executes a `%n`, outside the cells `acc` admits. -/
def untruncated (acc : Access) (mem : Word → Byte) (fmt : List Byte) (args : Args) :
    Option (Args × Paper) :=
  vsnprintfLoop (paperSink acc) fmt.length fmt args ⟨mem, [], []⟩

end PastaOS
