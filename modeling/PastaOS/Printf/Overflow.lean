import PastaOS.Printf.Field
import PastaOS.Printf.Number

/-!
# Overflow

The model cuts the results of `int` operations down to 32 bits.  In C, an operation with a result
that has to be cut down is undefined.  This module lists the results of the operations on the field
width, the precision and `size`, function by function and in the order of the source, and says for
which directives all of them are `int`s.

The operands are those of the model: of the variables in the source up to the first overflow.
-/

set_option autoImplicit false

namespace PastaOS

open Positional

/-! ## The operations -/

/-- None of the operations with these results overflows. -/
def Fits (rs : List Int) : Prop := ∀ r ∈ rs, IsInt r

@[simp] theorem fits_nil : Fits [] := List.forall_mem_nil _

@[simp] theorem fits_cons {r : Int} {rs : List Int} : Fits (r :: rs) ↔ IsInt r ∧ Fits rs :=
  List.forall_mem_cons

@[simp] theorem fits_append {rs rs' : List Int} : Fits (rs ++ rs') ↔ Fits rs ∧ Fits rs' :=
  List.forall_mem_append

/-- `i = i * 10 + *((*s)++) - '0'`, for each digit. -/
def skipAtoiOps (i : Int) : List Byte → List Int
  | [] => []
  | c :: s =>
    if isdigit c then
      i * 10 :: (i * 10 + c.toNat) :: (i * 10 + c.toNat - 48)
        :: skipAtoiOps (i32 (i * 10 + c.toNat - 48)) s
    else []

/-- `field_width = skip_atoi(&fmt)` or `field_width = -field_width` -/
def widthOps (fmt : List Byte) (args : Args) : List Int :=
  match fmt with
  | [] => []
  | c :: _ =>
    if isdigit c then skipAtoiOps 0 fmt
    else if c = chr '*' then if args.head.toInt < 0 then [-args.head.toInt] else []
    else []

/-- `precision = skip_atoi(&fmt)` -/
def precisionValueOps (fmt : List Byte) : List Int :=
  match fmt with
  | [] => []
  | c :: _ => if isdigit c then skipAtoiOps 0 fmt else []

/-- The operations on the precision. -/
def precisionOps (fmt : List Byte) : List Int :=
  match fmt with
  | [] => []
  | c :: rest => if c = chr '.' then precisionValueOps rest else []

/-- The decrements of `padBelow`. -/
def padBelowOps (lo n : Int) : List Int :=
  (n - 1) :: if lo < n then padBelowOps lo (n - 1) else []
termination_by (n - lo).toNat

/-- The decrements of `padPositive`. -/
def padPositiveOps (n : Int) : List Int :=
  (n - 1) :: if 0 < i32 (n - 1) then padPositiveOps (i32 (n - 1)) else []
termination_by (i32 (n - 1)).toNat
decreasing_by
  have := i32_range (n - 1)
  have hstep : i32 (i32 (n - 1) - 1) = i32 (n - 1) - 1 := i32_of_range (by omega) (by omega)
  omega

/-- A sink that keeps nothing. -/
def noSink : Sink Unit := ⟨fun _ _ ↦ (), fun _ _ ↦ none, fun _ _ ↦ none⟩

/-- The operations of `padBelow` under a condition, and the value that `n` is left with. -/
def padBelowIf (p : Bool) (lo n : Int) : Int × List Int :=
  if p then ((padBelow noSink 0 lo n ()).1, padBelowOps lo n) else (n, [])

/-- `size--` for the sign. -/
def signOps (type : Flags) (num : BitVec 64) (size : Int) : List Int :=
  if type.sign ∧ (num.slt 0 ∨ type.plus ∨ type.space) then [size - 1] else []

/-- `size -= 2` or `size--` for the prefix. -/
def specialOps (type : Flags) (base size : Int) : List Int :=
  if type.special then if base = 16 then [size - 2] else if base = 8 then [size - 1] else []
  else []

/-- The operations of `number`. -/
def numberOps (num : BitVec 64) (base size precision : Int) (type : Flags) : Option (List Int) :=
  let digits := if type.large then largeDigits else smallDigits
  let type := if type.left then { type with zeropad := false } else type
  if base < 2 ∨ 36 < base then none
  else do
    let ops := signOps type num size
    let (_, num, size) := numberSign type num size
    let ops := ops ++ specialOps type base size
    let size := numberSpecial type base size
    let tmp ← numberDigits digits (BitVec.ofInt 32 base) num
    let i : Int := tmp.length
    let precision := if i > precision then i else precision
    let ops := ops ++ [size - precision]
    let size := i32 (size - precision)
    let (size, ops') := padBelowIf (!(type.zeropad || type.left)) 0 size
    let ops := ops ++ ops'
    let (size, ops') := padBelowIf (!type.left) 0 size
    return ops ++ ops' ++ padBelowOps i precision ++ padBelowOps 0 size

/-- The operations of `%c`. -/
def convertCharOps (flags : Flags) (fieldWidth : Int) : List Int :=
  let (fieldWidth, ops) :=
    if !flags.left then ((padPositive noSink 0 fieldWidth ()).1, padPositiveOps fieldWidth)
    else (fieldWidth, [])
  ops ++ padPositiveOps fieldWidth

section Loop

variable {σ : Type} (S : Sink σ)

/-- The operations of `%s`. -/
def convertStringOps (flags : Flags) (fieldWidth precision : Int) (p : Word) (out : σ) :
    Option (List Int) := do
  let n ← strnlen S (strOf p) out (BitVec.ofInt 32 precision).toNat 0
  let len := i32 n
  let (fieldWidth, ops) := padBelowIf (!flags.left) len fieldWidth
  return ops ++ padBelowOps len fieldWidth

/-- The operations of the conversion switch and of what follows it. -/
def convertOps (flags : Flags) (fieldWidth precision : Int) (qualifier : Qualifier) (c : Byte)
    (args : Args) (out : σ) : Option (List Int) :=
  if c = chr 'c' then some (convertCharOps flags fieldWidth)
  else if c = chr 's' then convertStringOps S flags fieldWidth precision args.head out
  else if c = chr 'p' then
    let (fieldWidth, flags) :=
      if fieldWidth = -1 then (8, { flags with zeropad := true }) else (fieldWidth, flags)
    numberOps (args.head.setWidth 64) 16 fieldWidth precision flags
  else
    match integerConversion flags c with
    | some (base, flags) =>
      numberOps (fetchNum qualifier flags.sign args).1 base fieldWidth precision flags
    | none => some []

/-- The operations of the loop body, from behind the `%` on. -/
def directiveOps (fmt : List Byte) (args : Args) (out : σ) : Option (List Int) := do
  let (flags, fmt) ← getFlags {} fmt
  let ops := widthOps fmt args
  let (flags, fieldWidth, fmt, args) ← getWidth flags fmt args
  let ops := ops ++ precisionOps fmt
  let (precision, fmt, args) ← getPrecision fmt args
  let (qualifier, fmt) ← getQualifier fmt
  match fmt with
  | [] => none
  | c :: _ =>
    let ops' ← convertOps S flags fieldWidth precision qualifier c args out
    return ops ++ ops'

/-- The operations of a pass of the loop. -/
def passOps (x : LoopState σ) : Option (List Int) :=
  match x.fmt with
  | [] => none
  | c :: rest => if c ≠ chr '%' then some [] else directiveOps S rest x.args x.out

end Loop

/-- There are no operations among these that overflow. -/
def NoOverflow (ops : Option (List Int)) : Prop := ∃ rs, ops = some rs ∧ Fits rs

@[simp] theorem noOverflow_some {rs : List Int} : NoOverflow (some rs) ↔ Fits rs := by
  simp [NoOverflow]

theorem noOverflow_map {ops : Option (List Int)} {rs : List Int} :
    NoOverflow (ops.map (rs ++ ·)) ↔ Fits rs ∧ NoOverflow ops := by
  cases ops with
  | none => simp [NoOverflow]
  | some rs' => simp

/-! ## When they do not overflow -/

/-- **`skip_atoi`** adds the code of a digit before it takes the code of `0` away. -/
theorem skipAtoiOps_fits {n : ℕ} (hn : n < 2 ^ 31) (s : List Byte) : Fits (skipAtoiOps n s) ↔
    (s.takeWhile isdigit ≠ [] → numeralFrom decValue 10 n (s.takeWhile isdigit) + 48 < 2 ^ 31) := by
  induction s generalizing n with
  | nil => simp [skipAtoiOps]
  | cons c s ih =>
    rw [skipAtoiOps]
    by_cases hc : isdigit c = true
    · obtain ⟨hlo, hhi⟩ := (isdigit_iff c).mp hc
      obtain ⟨v, hv⟩ : ∃ v, n * 10 + (decValue c).getD 0 = v := ⟨_, rfl⟩
      have hle : v ≤ numeralFrom decValue 10 v (s.takeWhile isdigit) :=
        le_numeralFrom (by decide) v _
      have hexact : (n : Int) * 10 + c.toNat - 48 = v := by
        rw [← hv, decValue, if_pos hc, Option.getD_some]
        omega
      rw [if_pos hc, List.takeWhile_cons_of_pos hc, numeralFrom_cons, hv, hexact]
      simp only [fits_cons, IsInt, ne_eq, reduceCtorEq, not_false_eq_true, true_imp_iff]
      by_cases hfit : v + 48 < 2 ^ 31
      · rw [i32_of_range (by omega) (by omega), ih (by omega)]
        by_cases hnil : s.takeWhile isdigit = []
        · rw [hnil] at hle ⊢
          simp only [ne_eq, not_true_eq_false, false_imp_iff, and_true, numeralFrom_nil]
          omega
        · simp only [ne_eq, hnil, not_false_eq_true, true_imp_iff]
          omega
      · omega
    · rw [if_neg hc, List.takeWhile_cons_of_neg hc]
      simp

theorem padBelowOps_fits {lo n : Int} (hn : n < 2 ^ 31) :
    Fits (padBelowOps lo n) ↔ -2 ^ 31 ≤ min n lo - 1 := by
  induction n using padBelowOps.induct lo with
  | case1 n ih =>
    rw [padBelowOps, fits_cons, IsInt]
    split_ifs with hlt
    · rw [ih hlt (by omega)]
      omega
    · simp only [fits_nil, and_true]
      omega

theorem padPositiveOps_fits {n : Int} (hn : -2 ^ 31 < n) (hn' : n < 2 ^ 31) :
    Fits (padPositiveOps n) := by
  induction n using padPositiveOps.induct with
  | case1 n ih =>
    have hstep : i32 (n - 1) = n - 1 := i32_of_range (by omega) (by omega)
    rw [padPositiveOps, fits_cons, IsInt]
    refine ⟨by omega, ?_⟩
    split_ifs with hpos
    · exact ih hpos (by omega) (by omega)
    · exact fits_nil

/-- When a string of digits is read without overflow. -/
def Amount.DigitsFit : Amount → Prop
  | .digits ds => decimal ds + 48 < 2 ^ 31
  | _ => True

/-- When `*` is: `INT_MIN` has no absolute value. -/
def Amount.StarFits (args : Args) : Amount → Prop
  | .star => args.head.toInt ≠ -2 ^ 31
  | _ => True

/-- A string of digits at the beginning of a text. -/
theorem skipAtoiOps_read (s : List Byte) :
    Fits (skipAtoiOps 0 (cstr s)) ↔ (Amount.read s).1.DigitsFit := by
  have hrun : (cstr s).takeWhile isdigit = s.takeWhile isdigit := by
    have hnul : ([0] : List Byte).takeWhile isdigit = [] := rfl
    rw [cstr, List.takeWhile_append, hnul, List.append_nil]
    split_ifs with hall
    · exact (List.IsPrefix.eq_of_length (List.takeWhile_prefix _) hall).symm
    · rfl
  have hfits := skipAtoiOps_fits (n := 0) (by decide) (cstr s)
  rw [Int.natCast_zero, hrun] at hfits
  rw [hfits, Amount.read]
  by_cases hnil : s.takeWhile isdigit = []
  · rw [if_neg (not_not.mpr hnil)]
    split_ifs <;> simp [hnil, Amount.DigitsFit]
  · rw [if_pos hnil]
    simp only [ne_eq, hnil, not_false_eq_true, true_imp_iff]
    rfl

/-- Without digits `skip_atoi` has no operations. -/
theorem skipAtoiOps_if (c : Byte) (s : List Byte) :
    (if isdigit c = true then skipAtoiOps 0 (c :: s) else []) = skipAtoiOps 0 (c :: s) := by
  split_ifs with hc
  · rfl
  · rw [skipAtoiOps, if_neg hc]

theorem widthOps_fits (s : List Byte) (args : Args) : Fits (widthOps (cstr s) args) ↔
    (Amount.read s).1.DigitsFit ∧ (Amount.read s).1.StarFits args := by
  obtain ⟨hlo, hhi⟩ := isInt_toInt args.head
  have hread := skipAtoiOps_read s
  cases s with
  | nil =>
    have hops : widthOps (cstr []) args = [] := rfl
    simp [hops, Amount.read, Amount.DigitsFit, Amount.StarFits]
  | cons c s =>
    by_cases hstar : c = chr '*'
    · subst hstar
      show Fits (if args.head.toInt < 0 then [-args.head.toInt] else []) ↔
        True ∧ args.head.toInt ≠ -2 ^ 31
      split_ifs
      · simp only [fits_cons, IsInt, fits_nil, and_true, true_and]
        omega
      · simp only [fits_nil, true_and, true_iff]
        omega
    · have hops : widthOps (cstr (c :: s)) args = skipAtoiOps 0 (cstr (c :: s)) := by
        rw [cstr, List.cons_append, widthOps, if_neg hstar]
        exact skipAtoiOps_if c _
      have hnot : (Amount.read (c :: s)).1.StarFits args := by
        rw [Amount.read, List.head?_cons, if_neg fun h ↦ hstar (Option.some.inj h)]
        split_ifs <;> trivial
      rw [hops, hread, and_iff_left hnot]

theorem precisionOps_fits (s : List Byte) :
    Fits (precisionOps (cstr s)) ↔ ∀ a ∈ (readPrecision s).1, a.DigitsFit := by
  cases s with
  | nil => simp [cstr, precisionOps, readPrecision, chr]
  | cons c s =>
    rw [cstr, List.cons_append, precisionOps, readPrecision, List.head?_cons, ← cstr]
    by_cases hdot : c = chr '.'
    · have hops : precisionValueOps (cstr s) = skipAtoiOps 0 (cstr s) := by
        cases s with
        | nil => rfl
        | cons d s => exact skipAtoiOps_if d _
      rw [if_pos hdot, if_pos (congrArg some hdot), hops, skipAtoiOps_read]
      simp
    · rw [if_neg hdot, if_neg fun h ↦ hdot (Option.some.inj h)]
      simp

theorem convertCharOps_fits (flags : Flags) {fieldWidth : Int} (hw : -1 ≤ fieldWidth)
    (hw' : fieldWidth < 2 ^ 31) : Fits (convertCharOps flags fieldWidth) := by
  have hstep : i32 (fieldWidth - 1) = fieldWidth - 1 := i32_of_range (by omega) (by omega)
  rw [convertCharOps]
  cases flags.left
  · simp only [Bool.not_false, if_true, padPositive_eq, hstep, fits_append]
    exact ⟨padPositiveOps_fits (by omega) hw', padPositiveOps_fits (by omega) (by omega)⟩
  · exact padPositiveOps_fits (by omega) hw'

theorem padBelowIf_eq (p : Bool) (lo n : Int) : padBelowIf p lo n
    = (if p then i32 (min n lo - 1) else n, if p then padBelowOps lo n else []) := by
  rw [padBelowIf, padBelow_eq]
  cases p <;> rfl

/-- The padding loops of `%s`, for a string of length `n`. -/
theorem convertString_pads {left : Bool} {fieldWidth : Int} (hw : -1 ≤ fieldWidth)
    (hw' : fieldWidth < 2 ^ 31) {n : ℕ} (hn : n < 2 ^ 32) :
    Fits ((padBelowIf (!left) (i32 n) fieldWidth).2
        ++ padBelowOps (i32 n) (padBelowIf (!left) (i32 n) fieldWidth).1) ↔
      n ≠ 2 ^ 31 ∧ (left = false → n ≠ 2 ^ 31 + 1) := by
  have hspec := i32_spec n
  have hspec₁ := i32_spec (min fieldWidth (i32 n) - 1)
  rw [padBelowIf_eq]
  cases left
  · simp only [Bool.not_false, if_true, fits_append, padBelowOps_fits hw',
      padBelowOps_fits hspec₁.1.2, true_imp_iff]
    omega
  · simp only [Bool.not_true, Bool.false_eq_true, if_false, List.nil_append, padBelowOps_fits hw',
      reduceCtorEq, false_imp_iff, and_true]
    omega

/-- When `number` fills a field without overflow: what its last loop leaves in `size` is an
`int`. -/
def NumberFits (num : BitVec 64) (base size precision : Int) (type : Flags) : Prop :=
  -2 ^ 31 ≤ min (numberFill num base size precision type) 0 - sizeLoops type

theorem signOps_fits (type : Flags) (num : BitVec 64) {size : Int} (h : -1 ≤ size)
    (h' : size < 2 ^ 31) : Fits (signOps type num size) := by
  rw [signOps]
  split_ifs
  · simp [IsInt]
    omega
  · exact fits_nil

theorem specialOps_fits (type : Flags) (base : Int) {size : Int} (h : -2 ≤ size)
    (h' : size < 2 ^ 31) : Fits (specialOps type base size) := by
  rw [specialOps]
  split_ifs
  · simp [IsInt]
    omega
  · simp [IsInt]
    omega
  · exact fits_nil
  · exact fits_nil

/-- The subtraction that leaves `fill` in `size`, and the loops that count it down. -/
theorem sizeLoops_fits {fill : Int} (hfill : fill < 2 ^ 31) (type : Flags) :
    let zeropad := type.zeropad && !type.left
    let size₀ := i32 fill
    let size₁ := if !(zeropad || type.left) then i32 (min size₀ 0 - 1) else size₀
    let size₂ := if !type.left then i32 (min size₁ 0 - 1) else size₁
    (((IsInt fill ∧ Fits (if !(zeropad || type.left) then padBelowOps 0 size₀ else []))
        ∧ Fits (if !type.left then padBelowOps 0 size₁ else []))
        ∧ Fits (padBelowOps 0 size₂)) ↔ -2 ^ 31 ≤ min fill 0 - sizeLoops type := by
  have hpads (n : Int) : Fits (padBelowOps 0 (i32 n)) ↔ -2 ^ 31 ≤ min (i32 n) 0 - 1 :=
    padBelowOps_fits (i32_range n).2
  have hspec₀ := i32_spec fill
  have hspec₁ := i32_spec (min (i32 fill) 0 - 1)
  have hspec₂ := i32_spec (min (i32 (min (i32 fill) 0 - 1)) 0 - 1)
  rw [sizeLoops]
  cases type.left
  · cases type.zeropad
    · simp [hpads, IsInt]
      omega
    · simp [hpads, IsInt]
      omega
  · simp [hpads, IsInt]
    omega

/-- **`number`** -/
theorem numberOps_fits (num : BitVec 64) {base size precision : Int} (hb : 2 ≤ base)
    (hb' : base ≤ 36)
    (hsize : -1 ≤ size) (hsize' : size < 2 ^ 31) (hprecision : precision < 2 ^ 31) (type : Flags) :
    NoOverflow (numberOps num base size precision type)
      ↔ NumberFits num base size precision type := by
  obtain ⟨fill, hfill⟩ : ∃ fill, numberFill num base size precision type = fill := ⟨_, rfl⟩
  have hsign₁ := signText_length_le type num
  have hprefix₁ := prefixText_length_le type base
  have hdigits₁ := digitText_length_le hb type num
  obtain ⟨sign, num', hcall, -, hnum⟩ := numberSign_eq num type (by omega) hsize'
  have hspecial : numberSpecial type base (size - (signText type num).length)
      = size - (signText type num).length - (prefixText type base).length :=
    numberSpecial_eq type (by omega) (by omega)
  have hbase := ofInt_base hb hb'
  have hdigits : numberDigits (digitsOf type.large) (BitVec.ofInt 32 base) num'
      = some (digitText type base num).reverse := by
    rw [numberDigits_eq (by omega) (by omega), hbase, hnum, digitText, List.reverse_reverse]
  have hmax (i : ℕ) :
      (if (i : Int) > precision then (i : Int) else precision) = max precision i := by omega
  rw [NumberFits, hfill]
  rw [numberFill] at hfill
  rw [numberOps, clear_zeropad, if_neg (by omega)]
  set type' : Flags := { type with zeropad := type.zeropad && !type.left } with htype'
  have hsignOps : signOps type' num size = signOps type num size := rfl
  have hsign : numberSign type' num size = numberSign type num size := rfl
  have hspecialOps (size : Int) : specialOps type' base size = specialOps type base size := rfl
  have hspecial' (size : Int) : numberSpecial type' base size = numberSpecial type base size := rfl
  have htable : (if type.large then largeDigits else smallDigits) = digitsOf type.large := rfl
  simp only [hsignOps, hsign, hcall, hspecialOps, hspecial', hspecial, htable, hdigits,
    Option.bind_eq_bind, Option.bind_some, hmax, List.length_reverse, padBelowIf_eq]
  have hsub : size - (signText type num).length - (prefixText type base).length
      - max precision (digitText type base num).length = fill := by omega
  have hprecise : Fits (padBelowOps (digitText type base num).length
      (max precision (digitText type base num).length)) := by
    rw [padBelowOps_fits (by omega)]
    omega
  have hspecial₂ : Fits (specialOps type base (size - (signText type num).length)) :=
    specialOps_fits type base (by omega) (by omega)
  have hfill' : fill < 2 ^ 31 := by omega
  rw [hsub]
  simp only [Option.pure_def, noOverflow_some, fits_append, fits_cons, fits_nil, and_true,
    signOps_fits type num hsize hsize', hspecial₂, hprecise, true_and]
  exact sizeLoops_fits hfill' type

section Loop

variable {σ : Type} (S : Sink σ)

/-- When a conversion is executed without overflow, for a field width and a precision that are
`int`s, or -1 where there are none. -/
def ConversionFits (flags : Flags) (fieldWidth precision : Int) (qualifier : Qualifier) (c : Byte)
    (args : Args) (out : σ) : Prop :=
  if c = chr 's' then
    precision = -1 → ∀ t, IsPayload S out (strOf args.head) none t →
      t.length ≠ 2 ^ 31 ∧ (flags.left = false → t.length ≠ 2 ^ 31 + 1)
  else if c = chr 'p' then
    if fieldWidth = -1 then
      NumberFits (args.head.setWidth 64) 16 8 precision { flags with zeropad := true }
    else NumberFits (args.head.setWidth 64) 16 fieldWidth precision flags
  else
    match integerConversion flags c with
    | some (base, flags) =>
      NumberFits (fetchNum qualifier flags.sign args).1 base fieldWidth precision flags
    | none => True

/-- The precision that is meant, and -1 for none. -/
def Written.intPrecision (w : Written) (args : Args) : Int :=
  (w.precisionValue args).elim (-1) fun v ↦ max v 0

/-- When a directive is executed without overflow, from behind its `%` on: its digits stand for
numbers that leave room for the code of a digit in an `int`, its `*` width is not `INT_MIN`, and its
conversion is. -/
def DirectiveFits (args : Args) (out : σ) (r : List Byte) : Prop :=
  let w := (written r).1
  (w.width.DigitsFit ∧ w.width.StarFits args) ∧ (∀ a ∈ w.precision, a.DigitsFit) ∧
    ∀ c post, (written r).2 = c :: post →
      ConversionFits S (w.codeFlags args) (w.intWidth args) (w.intPrecision args) w.qualifier c
        (args.drop w.spec.words) out

variable {S} {out : σ}

/-- **`%s`** -/
theorem convertStringOps_fits (hload : ∀ a, ∃ c, S.load out a = some c) (flags : Flags)
    {fieldWidth precision : Int} (hw : -1 ≤ fieldWidth) (hw' : fieldWidth < 2 ^ 31)
    (hp : -1 ≤ precision) (hp' : precision < 2 ^ 31) (p : Word) :
    NoOverflow (convertStringOps S flags fieldWidth precision p out) ↔
      (precision = -1 → ∀ t, IsPayload S out (strOf p) none t →
        t.length ≠ 2 ^ 31 ∧ (flags.left = false → t.length ≠ 2 ^ 31 + 1)) := by
  obtain ⟨m, hm⟩ : ∃ m, (BitVec.ofInt 32 precision).toNat = m := ⟨_, rfl⟩
  have hm' : m < 2 ^ 32 := hm ▸ BitVec.isLt _
  obtain ⟨t, ht⟩ := exists_payload (m := m) fun i _ hnul ↦ strOf_load (hload _) hnul
  have hle := ht.length_le m rfl
  have hstrnlen := ht.strnlen_eq (by simp) hle
  have hops : NoOverflow (convertStringOps S flags fieldWidth precision p out) ↔
      t.length ≠ 2 ^ 31 ∧ (flags.left = false → t.length ≠ 2 ^ 31 + 1) := by
    rw [convertStringOps, hm, hstrnlen]
    exact noOverflow_some.trans (convertString_pads hw hw' (by omega))
  rw [hops]
  by_cases hnone : precision = -1
  · have hall : m = 2 ^ 32 - 1 := by rw [← hm, hnone]; rfl
    simp only [hnone, true_imp_iff]
    constructor
    · intro h t' ht'
      have hlt := ht'.length_lt
      have hcount : strnlen S (strOf p) out m 0 = some t'.length :=
        ht'.strnlen_eq (by simp) (by omega)
      rwa [Option.some.inj (hcount.symm.trans hstrnlen)]
    · intro h
      by_cases hshort : t.length = m
      · omega
      · refine h t ⟨ht.noNul, ?_, by simp⟩
        have hholds := ht.holds
        rw [if_neg (by simpa using Ne.symm hshort)] at hholds
        rw [if_neg (by simp)]
        exact hholds
  · have hprec : m = precision.toNat := by
      rw [← hm, BitVec.toNat_ofInt]
      omega
    simp only [hnone, false_imp_iff, iff_true]
    omega

/-- **The operations of the conversion switch fit** exactly under `ConversionFits`. -/
theorem convertOps_fits (hload : ∀ a, ∃ c, S.load out a = some c) (flags : Flags)
    {fieldWidth precision : Int} (hw : -1 ≤ fieldWidth) (hw' : fieldWidth < 2 ^ 31)
    (hp : -1 ≤ precision) (hp' : precision < 2 ^ 31) (qualifier : Qualifier) (c : Byte)
    (args : Args) :
    NoOverflow (convertOps S flags fieldWidth precision qualifier c args out)
      ↔ ConversionFits S flags fieldWidth precision qualifier c args out := by
  rw [convertOps, ConversionFits]
  by_cases hc : c = chr 'c'
  · subst hc
    rw [if_pos rfl, if_neg (by decide), if_neg (by decide), noOverflow_some]
    exact iff_of_true (convertCharOps_fits flags hw hw') trivial
  rw [if_neg hc]
  by_cases hs : c = chr 's'
  · rw [if_pos hs, if_pos hs]
    exact convertStringOps_fits hload flags hw hw' hp hp' args.head
  rw [if_neg hs, if_neg hs]
  by_cases hptr : c = chr 'p'
  · rw [if_pos hptr, if_pos hptr]
    split_ifs
    · exact numberOps_fits _ (by decide) (by decide) (by decide) (by decide) hp' _
    · exact numberOps_fits _ (by decide) (by decide) hw hw' hp' _
  rw [if_neg hptr, if_neg hptr]
  cases hi : integerConversion flags c with
  | none => simp
  | some bf =>
    obtain ⟨base, flags'⟩ := bf
    obtain ⟨hb, hb'⟩ := integerConversion_base hi
    exact numberOps_fits _ hb hb' hw hw' hp' flags'

/-- The operations of a directive, part by part. -/
theorem directiveOps_cstr (r : List Byte) (args : Args) (out : σ) :
    directiveOps S (cstr r) args out
      = (convertOps S ((written r).1.codeFlags args) ((written r).1.codeWidth args)
          ((written r).1.codePrecision args) (written r).1.qualifier ((cstr (written r).2).headD 0)
          (args.drop (written r).1.spec.words) out).map
        (widthOps (cstr (r.dropWhile isFlag)) args
          ++ precisionOps (cstr (Amount.read (r.dropWhile isFlag)).2) ++ ·) := by
  have hflags : getFlags {} (cstr r) = some ((written r).1.flagSet, cstr (r.dropWhile isFlag)) :=
    getFlags_cstr r {}
  have hwidth : getWidth (written r).1.flagSet (cstr (r.dropWhile isFlag)) args
      = some ((written r).1.codeFlags args, (written r).1.codeWidth args,
          cstr (Amount.read (r.dropWhile isFlag)).2,
          args.drop (written r).1.width.field.words) := by
    have heq := (written r).1.width_eq args
    rw [getWidth_eq, scanField_cstr, Option.map_some]
    exact congrArg (fun x : Flags × Int × Args ↦ some (x.1, x.2.1, _, x.2.2)) heq
  have hprecision : getPrecision (cstr (Amount.read (r.dropWhile isFlag)).2)
      (args.drop (written r).1.width.field.words)
        = some ((written r).1.codePrecision args,
            cstr (readPrecision (Amount.read (r.dropWhile isFlag)).2).2,
            args.drop (written r).1.spec.words) := by
    have heq := (written r).1.precision_eq args
    rw [getPrecision_eq, scanPrecision_cstr, Option.map_some]
    exact congrArg (fun x : Int × Args ↦ some (x.1, _, x.2)) heq
  have hqualifier := getQualifier_cstr (readPrecision (Amount.read (r.dropWhile isFlag)).2).2
  rw [directiveOps]
  simp only [hflags, hwidth, hprecision, hqualifier, Option.bind_eq_bind, Option.bind_some]
  have hrest : (Qualifier.read (readPrecision (Amount.read (r.dropWhile isFlag)).2).2).2
      = (written r).2 := rfl
  have hq : (Qualifier.read (readPrecision (Amount.read (r.dropWhile isFlag)).2).2).1
      = (written r).1.qualifier := rfl
  rw [hrest, hq]
  cases (written r).2 with
  | nil => exact (Option.map_eq_bind ..).symm
  | cons c post => exact (Option.map_eq_bind ..).symm

theorem Written.minWidth_lt (w : Written) {args : Args}
    (h : w.width.DigitsFit ∧ w.width.StarFits args) : w.minWidth args < 2 ^ 31 := by
  obtain ⟨hlo, hhi⟩ := isInt_toInt args.head
  rw [minWidth]
  cases hw : w.width with
  | absent => exact Nat.two_pow_pos 31
  | digits ds =>
    have hfit : decimal ds + 48 < 2 ^ 31 := by rw [hw] at h; exact h.1
    show (decimal ds : Int).natAbs < 2 ^ 31
    omega
  | star =>
    have hfit : args.head.toInt ≠ -2 ^ 31 := by rw [hw] at h; exact h.2
    show args.head.toInt.natAbs < 2 ^ 31
    omega

/-- A field width that is read without overflow is the one that is meant. -/
theorem Written.codeWidth_fits (w : Written) {args : Args}
    (h : w.width.DigitsFit ∧ w.width.StarFits args) :
    w.codeWidth args = w.intWidth args ∧ -1 ≤ w.intWidth args ∧ w.intWidth args < 2 ^ 31 := by
  have hmin := w.minWidth_lt h
  rw [codeWidth, intWidth]
  split_ifs
  · decide
  · rw [i32_of_range (by omega) (by omega)]
    omega

/-- If the digits of a precision fit, the code has the precision that is written. -/
theorem Written.codePrecision_fits (w : Written) (h : ∀ a ∈ w.precision, a.DigitsFit)
    (args : Args) :
    w.codePrecision args = w.intPrecision args ∧ -1 ≤ w.intPrecision args ∧
      w.intPrecision args < 2 ^ 31 := by
  have hclamp {v : Int} (h : IsInt v) :
      max (i32 v) 0 = max v 0 ∧ -1 ≤ max v 0 ∧ max v 0 < 2 ^ 31 := by
    obtain ⟨hlo, hhi⟩ := h
    rw [i32_of_range hlo hhi]
    omega
  rw [codePrecision, intPrecision, precisionValue]
  cases hp : w.precision with
  | none =>
    rw [Option.map_none, Option.elim_none, Option.elim_none]
    decide
  | some a =>
    have hfit := h a hp
    rw [Option.map_some, Option.elim_some, Option.elim_some]
    cases a with
    | absent => exact hclamp (v := 0) ⟨by decide, by decide⟩
    | digits ds =>
      have hfit : decimal ds + 48 < 2 ^ 31 := hfit
      exact hclamp (v := decimal ds) ⟨by omega, by omega⟩
    | star => exact hclamp (isInt_toInt _)

/-- **The operations of a directive fit** exactly under `DirectiveFits`. -/
theorem directiveOps_fits (hload : ∀ a, ∃ c, S.load out a = some c) (args : Args) (r : List Byte) :
    NoOverflow (directiveOps S (cstr r) args out) ↔ DirectiveFits S args out r := by
  rw [directiveOps_cstr, noOverflow_map, fits_append, widthOps_fits, precisionOps_fits,
    DirectiveFits, and_assoc]
  refine and_congr_right fun hwidth ↦ and_congr_right fun hprecision ↦ ?_
  obtain ⟨hcode, hlo, hhi⟩ := (written r).1.codeWidth_fits hwidth
  obtain ⟨hcode', hlo', hhi'⟩ := (written r).1.codePrecision_fits hprecision args
  rw [hcode, hcode', convertOps_fits hload _ hlo hhi hlo' hhi']
  cases (written r).2 with
  | nil =>
    -- the NUL is no conversion character
    refine iff_of_true ?_ (by simp)
    have hint : integerConversion ((written r).1.codeFlags args) 0 = none := rfl
    show ConversionFits S _ _ _ _ 0 _ _
    rw [ConversionFits, if_neg (by decide), if_neg (by decide), hint]
    trivial
  | cons c post =>
    constructor
    · rintro h c' post' heq
      obtain ⟨rfl, rfl⟩ := List.cons.inj heq
      exact h
    · exact fun h ↦ h c post rfl

/-- **The operations of a pass of the loop fit** exactly if those of its directive do. -/
theorem passOps_fits (hload : ∀ (out : σ) a, ∃ c, S.load out a = some c) {x : LoopState σ}
    {s : List Byte} (hx : x.fmt = cstr s) :
    NoOverflow (passOps S x) ↔ ∀ r, x.fmt = cstr (chr '%' :: r) →
      DirectiveFits S x.args x.out r := by
  have hinj {s s' : List Byte} : cstr s = cstr s' ↔ s = s' := by
    rw [cstr, cstr, List.append_left_inj]
  simp only [passOps, hx, hinj]
  cases s with
  | nil => simp [cstr, chr]
  | cons c s =>
    rw [cstr, List.cons_append]
    by_cases hpc : c = chr '%'
    · subst hpc
      have hops := directiveOps_fits (hload x.out) x.args s
      simp only [ne_eq, not_true_eq_false, if_false, List.cons.injEq, true_and, forall_eq']
      exact hops
    · simp [hpc]

/-! ## What they are good for

The lists above repeat what the functions do, so they have to be tied to them: where nothing in the
list of a pass overflows, the pass prints what it would print if an `int` had no bounds.  Some
strings are beyond that: the length of a string of 2^31 characters is converted to an `int`, which
is no operation that overflows. -/

/-- The text of a conversion other than `%s` and `%n`, and the arguments it leaves, if an `int` had
no bounds. -/
def exactText (flags : Flags) (fieldWidth precision : Int) (qualifier : Qualifier) (c : Byte)
    (args : Args) : Args × List Byte :=
  if c = chr 'c' then
    (args.tail, justify flags.left fieldWidth.toNat [args.head.setWidth 8])
  else if c = chr 'p' then
    (args.tail, if fieldWidth = -1 then
        numberLayout (args.head.setWidth 64) 16 8 precision { flags with zeropad := true }
      else numberLayout (args.head.setWidth 64) 16 fieldWidth precision flags)
  else if c = chr '%' then (args, [chr '%'])
  else
    match integerConversion flags c with
    | some (base, flags) =>
      ((fetchNum qualifier flags.sign args).2,
        numberLayout (fetchNum qualifier flags.sign args).1 base fieldWidth precision flags)
    | none => (args, [chr '%', c])

/-- **`number` prints its layout** if none of its operations overflows. -/
theorem numberText_of_noOverflow {num : BitVec 64} {base size precision : Int} {type : Flags}
    (hb : 2 ≤ base) (hb' : base ≤ 36) (hsize : -1 ≤ size) (hsize' : size < 2 ^ 31)
    (hprecision : precision < 2 ^ 31) (h : NoOverflow (numberOps num base size precision type)) :
    numberText num base size precision type = numberLayout num base size precision type :=
  numberText_eq ⟨hsize', hprecision, (numberOps_fits num hb hb' hsize hsize' hprecision type).mp h⟩

/-- **A conversion prints the text that is meant** if none of its operations overflows. -/
theorem convertText_of_noOverflow {flags : Flags} {fieldWidth precision : Int}
    {qualifier : Qualifier} {c : Byte} {args : Args} (hs : c ≠ chr 's') (hw : -1 ≤ fieldWidth)
    (hw' : fieldWidth < 2 ^ 31) (hp' : precision < 2 ^ 31)
    (h : NoOverflow (convertOps S flags fieldWidth precision qualifier c args out)) :
    convertText flags fieldWidth precision qualifier c args
      = exactText flags fieldWidth precision qualifier c args := by
  rw [convertOps] at h
  rw [convertText, exactText]
  by_cases hc : c = chr 'c'
  · have hwidth : fieldWidth = i32 fieldWidth.toNat ∨ fieldWidth.toNat = 0 ∧ fieldWidth = -1 := by
      have hspec := i32_spec fieldWidth.toNat
      omega
    rw [if_pos hc, if_pos hc, (charText_iff hwidth (by omega) _).mpr (by omega)]
  rw [if_neg hc, if_neg hs] at h
  rw [if_neg hc, if_neg hc]
  by_cases hptr : c = chr 'p'
  · rw [if_pos hptr] at h
    rw [if_pos hptr, if_pos hptr]
    split_ifs at h ⊢
    · rw [numberText_of_noOverflow (by decide) (by decide) (by decide) (by decide) hp' h]
    · rw [numberText_of_noOverflow (by decide) (by decide) hw hw' hp' h]
  rw [if_neg hptr] at h
  rw [if_neg hptr, if_neg hptr]
  by_cases hpc : c = chr '%'
  · rw [if_pos hpc, if_pos hpc]
  rw [if_neg hpc, if_neg hpc]
  cases hi : integerConversion flags c with
  | none => rfl
  | some bf =>
    obtain ⟨base, flags'⟩ := bf
    obtain ⟨hb, hb'⟩ := integerConversion_base hi
    rw [hi] at h
    simp only [numberText_of_noOverflow hb hb' hw hw' hp' h]

/-- What a pass over a directive does if an `int` has no bounds. -/
structure ExactPass (S : Sink σ) (d : Directive) (x : LoopState σ) (post : List Byte) : Prop where
  /-- The width and the precision are those that are written. -/
  numbers : d.codeWidth x.args = d.intWidth x.args ∧ d.codePrecision x.args = d.intPrecision x.args
  /-- The text is the one that is meant. -/
  text : d.conversion ≠ chr 's' → d.conversion ≠ chr 'n' → ∀ y,
    exactText (d.codeFlags x.args) (d.intWidth x.args) (d.intPrecision x.args) d.qualifier
      d.conversion (x.args.drop d.spec.words) = y →
    loopPass S x = some ⟨cstr post, y.1, S.puts y.2 x.out⟩
  /-- A string is put into the field that is meant. -/
  string : d.conversion = chr 's' → ∀ t : List Byte, t.length < 2 ^ 31 →
    stringText (d.codeFlags x.args) (d.codeWidth x.args) t
      = justify (d.left x.args) (d.minWidth x.args) t

/-- **A pass in which no operation overflows** does what it would do if an `int` had no bounds. -/
theorem exactPass_of_noOverflow (hload : ∀ (out : σ) a, ∃ c, S.load out a = some c) {d : Directive}
    {x : LoopState σ} {post : List Byte} (hx : x.fmt = cstr (chr '%' :: (d.text ++ post)))
    (h : NoOverflow (passOps S x)) : ExactPass S d x post := by
  have hwritten := d.written_text post
  obtain ⟨hwidth, hprecision, hconv⟩ := (passOps_fits hload hx).mp h _ hx
  rw [hwritten] at hwidth hprecision hconv
  obtain ⟨hcode, hlo, hhi⟩ := d.codeWidth_fits hwidth
  obtain ⟨hcode', hlo', hhi'⟩ := d.codePrecision_fits hprecision x.args
  refine ⟨⟨hcode, hcode'⟩, ?_, ?_⟩
  · rintro hs hn y rfl
    have hops := (convertOps_fits (hload x.out) _ hlo hhi hlo' hhi' _ _ _).mpr (hconv _ _ rfl)
    rw [d.loopPass_eq hx, hcode, hcode', convert_eq S _ _ _ _ hs hn,
      convertText_of_noOverflow hs hlo hhi hhi' hops]
    rfl
  · intro _ t ht
    exact (stringText_iff_of_lt (d.codeWidth_eq x.args) ht).mpr (d.minWidth_lt hwidth)

end Loop

/-- **Overflow.**  In a call of `vsnprintf`, no operation on the field width, the precision and
`size` overflows in any pass of the loop if and only if every directive that the loop comes to is
one of those that `DirectiveFits` describes. -/
theorem vsnprintf_overflow_iff (mem : Word → Byte) (buf size : Word) {fmt : List Byte}
    (h0 : 0 ∉ fmt) (args : Args) :
    let S := bufferSink buf (bufferEnd buf size).1
    let start : LoopState Buffer := ⟨cstr fmt, args, ⟨mem, buf, [], []⟩⟩
    (∀ is x, Run (LoopStep S) start is x → NoOverflow (passOps S x)) ↔
      ∀ is x, Run (LoopStep S) start is x → ∀ r, x.fmt = cstr (chr '%' :: r) →
        DirectiveFits S x.args x.out r := by
  intro S start
  have hload (b : Buffer) (a : Word) : ∃ c, S.load b a = some c := ⟨b.mem a, rfl⟩
  refine forall₂_congr fun is x ↦ forall_congr' fun hrun ↦ ?_
  have hstart : InFormat fmt (fun _ ↦ True) start := ⟨⟨fmt, List.suffix_rfl, rfl⟩, trivial⟩
  obtain ⟨⟨s, -, hx⟩, -⟩ := hrun.invariant (I := InFormat fmt fun _ ↦ True)
    (fun _ _ _ hx h ↦ hx.step (bufferSink_total buf _) h0 h) hstart
  exact passOps_fits hload hx

/-- **What follows from it.**  In a call in which nothing overflows, every directive that the loop
comes to does what it would do if an `int` had no bounds. -/
theorem vsnprintf_exact {mem : Word → Byte} {buf size : Word} {fmt : List Byte} {args : Args}
    (h : ∀ is x, Run (LoopStep (bufferSink buf (bufferEnd buf size).1))
      ⟨cstr fmt, args, ⟨mem, buf, [], []⟩⟩ is x →
      NoOverflow (passOps (bufferSink buf (bufferEnd buf size).1) x))
    {is : List Unit} {x : LoopState Buffer} (hrun : Run (LoopStep (bufferSink buf
      (bufferEnd buf size).1)) ⟨cstr fmt, args, ⟨mem, buf, [], []⟩⟩ is x) {d : Directive}
    {post : List Byte} (hx : x.fmt = cstr (chr '%' :: (d.text ++ post))) :
    ExactPass (bufferSink buf (bufferEnd buf size).1) d x post :=
  exactPass_of_noOverflow (fun b a ↦ ⟨b.mem a, rfl⟩) hx (h is x hrun)

/-- A format that is one directive: the loop comes to it, and then to the NUL. -/
theorem run_single {σ : Type} {S : Sink σ} (d : Directive) {args : Args} {out : σ} {is : List Unit}
    {x : LoopState σ} (h : Run (LoopStep S) ⟨cstr (chr '%' :: (d.text ++ [])), args, out⟩ is x) :
    x = ⟨cstr (chr '%' :: (d.text ++ [])), args, out⟩ ∨ x.fmt = cstr [] := by
  refine h.invariant (I := fun x ↦ x = ⟨cstr (chr '%' :: (d.text ++ [])), args, out⟩ ∨
    x.fmt = cstr []) ?_ (.inl rfl)
  rintro x i y (rfl | hx) hstep
  · rw [LoopStep, d.loopPass_eq rfl] at hstep
    obtain ⟨z, -, rfl⟩ := Option.map_eq_some_iff.mp hstep
    exact .inr rfl
  · rw [LoopStep, loopPass, hx] at hstep
    contradiction

/-- The theorem for `"%-5.1s"` and `"hi"`. -/
theorem vsnprintf_overflow_hi :
    NoOverflow (passOps (bufferSink 0x3000 (bufferEnd 0x3000 8).1)
      ⟨cstr (chr '%' :: (leftFive.text ++ [])), [0x1000] ++ₛ Stream'.const 0,
        ⟨hiMem, 0x3000, [], []⟩⟩) := by
  have hfmt : 0 ∉ chr '%' :: (leftFive.text ++ []) := by decide
  refine (vsnprintf_overflow_iff hiMem 0x3000 8 hfmt ([0x1000] ++ₛ Stream'.const 0)).mpr ?_ []
    _ (.nil _)
  intro is x hrun r hr
  rcases run_single leftFive hrun with rfl | hx
  · obtain rfl : r = leftFive.text ++ [] := by simpa [cstr] using hr.symm
    have hwritten := leftFive.written_text []
    have hwidth : decimal [chr '5'] + 48 < 2 ^ 31 := by decide
    have hprecision : decimal [chr '1'] + 48 < 2 ^ 31 := by decide
    rw [DirectiveFits, hwritten]
    refine ⟨⟨hwidth, trivial⟩, ?_, ?_⟩
    · rintro a ⟨⟩
      exact hprecision
    · rintro c post ⟨⟩
      -- with a precision, the length of the string does not matter
      exact fun hnone ↦ absurd hnone (by decide)
  · rw [hx] at hr
    simp [cstr, chr] at hr

/-- **The greatest `int` is too much** for a width: the code of its last digit is added before the
code of `0` is taken away. -/
theorem not_vsnprintf_fits :
    ¬ ∀ is x, Run (LoopStep (bufferSink 0x3000 (bufferEnd 0x3000 8).1))
      ⟨cstr (chrs ['%', '2', '1', '4', '7', '4', '8', '3', '6', '4', '7', 'd']), Stream'.const 0,
        ⟨hiMem, 0x3000, [], []⟩⟩ is x →
      NoOverflow (passOps (bufferSink 0x3000 (bufferEnd 0x3000 8).1) x) := by
  intro h
  have hfits := (passOps_fits (fun b a ↦ ⟨b.mem a, rfl⟩) rfl).mp (h [] _ (.nil _)) _ rfl
  have hdigits : decimal (chrs ['2', '1', '4', '7', '4', '8', '3', '6', '4', '7']) + 48 < 2 ^ 31 :=
    hfits.1.1
  exact absurd hdigits (by decide)

end PastaOS
