import Mathlib.Data.Nat.Digits.Defs
import Mathlib.Tactic.SplitIfs
import PastaOS.Printf.Defs

/-!
# What `number` and the padding loops print

Every loop of the formatter that does not read memory puts a fixed text, whatever the sink: the
lemmas here say which.  `number_eq` puts them together: `number` puts `numberText`, whose digits are
those of `Nat.digits`, and neither its divisions nor its stores to `tmp` fail.
-/

set_option autoImplicit false

namespace PastaOS

variable {σ : Type} (S : Sink σ)

/-! ## Putting several characters -/

/-- The characters `xs`, one after another. -/
def Sink.puts (xs : List Byte) (out : σ) : σ := xs.foldl (fun o c ↦ S.put c o) out

@[simp] theorem puts_nil (out : σ) : S.puts [] out = out := rfl

@[simp] theorem puts_cons (c : Byte) (xs : List Byte) (out : σ) :
    S.puts (c :: xs) out = S.puts xs (S.put c out) := rfl

theorem puts_append (xs ys : List Byte) (out : σ) :
    S.puts (xs ++ ys) out = S.puts ys (S.puts xs out) := List.foldl_append

/-! ## Padding -/

theorem padBelow_eq (c : Byte) (lo n : Int) (out : σ) : padBelow S c lo n out
    = (i32 (min n lo - 1), S.puts (List.replicate (n - lo).toNat c) out) := by
  induction n, out using padBelow.induct S c lo with
  | case1 n out hlt ih =>
    have hcount : (n - lo).toNat = (n - 1 - lo).toNat + 1 := by omega
    have hmin : min (n - 1) lo = min n lo := by omega
    rw [padBelow, if_pos hlt, ih, hmin, hcount, List.replicate_succ, puts_cons]
  | case2 n out hge =>
    have hcount : (n - lo).toNat = 0 := by omega
    have hmin : min n lo = n := by omega
    rw [padBelow, if_neg hge, hmin, hcount, List.replicate_zero, puts_nil]

theorem padPositive_eq (c : Byte) (n : Int) (out : σ) : padPositive S c n out
    = (min (i32 (n - 1)) 0, S.puts (List.replicate (i32 (n - 1)).toNat c) out) := by
  induction n, out using padPositive.induct S c with
  | case1 n out hpos ih =>
    have hrange := i32_range (n - 1)
    have hstep : i32 (i32 (n - 1) - 1) = i32 (n - 1) - 1 := i32_of_range (by omega) (by omega)
    have hcount : (i32 (n - 1)).toNat = (i32 (n - 1) - 1).toNat + 1 := by omega
    have hmin : min (i32 (n - 1) - 1) 0 = min (i32 (n - 1)) 0 := by omega
    rw [padPositive, if_pos hpos, ih, hstep, hmin, hcount, List.replicate_succ, puts_cons]
  | case2 n out hneg =>
    have hcount : (i32 (n - 1)).toNat = 0 := by omega
    have hmin : min (i32 (n - 1)) 0 = i32 (n - 1) := by omega
    rw [padPositive, if_neg hneg, hmin, hcount, List.replicate_zero, puts_nil]

/-- Counting down through `tmp` turns it around. -/
theorem putDown_eq (tmp : List Byte) {i : ℕ} (hi : i ≤ tmp.length) (out : σ) :
    putDown S tmp i out = some (S.puts (tmp.take i).reverse out) := by
  induction i generalizing out with
  | zero => rfl
  | succ i ih =>
    have hlt : i < tmp.length := by omega
    rw [putDown, List.getElem?_eq_getElem hlt]
    change putDown S tmp i (S.put tmp[i] out) = _
    rw [ih (by omega), List.take_succ_eq_append_getElem hlt, List.reverse_append]
    rfl

/-! ## Digits -/

/-- The quotient of a dividend whose upper word is below the divisor fits in a word. -/
theorem div_lt_word {b hi lo : ℕ} (hhi : hi < b) (hlo : lo < 2 ^ 32) :
    (hi * 2 ^ 32 + lo) / b < 2 ^ 32 := by
  rw [Nat.div_lt_iff_lt_mul (by omega), Nat.mul_comm (2 ^ 32)]
  calc hi * 2 ^ 32 + lo < (hi + 1) * 2 ^ 32 := by omega
    _ ≤ b * 2 ^ 32 := Nat.mul_le_mul_right _ hhi

/-- `divl` divides when the quotient fits. -/
theorem divl_eq {upper low base : Word} (hbase : base ≠ 0)
    (hfits : (upper.toNat * 2 ^ 32 + low.toNat) / base.toNat < 2 ^ 32) :
    divl upper low base
      = some (BitVec.ofNat 32 ((upper.toNat * 2 ^ 32 + low.toNat) / base.toNat),
          BitVec.ofNat 32 ((upper.toNat * 2 ^ 32 + low.toNat) % base.toNat)) :=
  if_neg (not_or.mpr ⟨hbase, Nat.not_le.mpr hfits⟩)

/-- The two halves of a division by a 32-bit number. -/
theorem div_halves {b : ℕ} (hb : 0 < b) (hi lo : ℕ) :
    (hi * 2 ^ 32 + lo) / b = hi / b * 2 ^ 32 + (hi % b * 2 ^ 32 + lo) / b ∧
      (hi * 2 ^ 32 + lo) % b = (hi % b * 2 ^ 32 + lo) % b := by
  have hsplit : hi * 2 ^ 32 + lo = hi % b * 2 ^ 32 + lo + b * (hi / b * 2 ^ 32) := by
    conv_lhs => rw [← Nat.div_add_mod hi b]
    ring
  rw [hsplit, Nat.add_mul_div_left _ _ hb, Nat.add_mul_mod_self_left]
  exact ⟨Nat.add_comm _ _, rfl⟩

/-- `__high`, as it is loaded. -/
def doDivHigh (n : BitVec 64) : Word := (n >>> 32).setWidth 32

/-- `__low`, as it is loaded. -/
def doDivLow (n : BitVec 64) : Word := n.setWidth 32

/-- `__upper`, as `divl` finds it. -/
def doDivUpper (n : BitVec 64) (base : Word) : Word :=
  if doDivHigh n ≠ 0 then doDivHigh n % base else doDivHigh n

theorem toNat_words (n : BitVec 64) :
    n.toNat = (doDivHigh n).toNat * 2 ^ 32 + (doDivLow n).toNat := by
  have hlt := n.isLt
  simp only [doDivHigh, doDivLow, BitVec.toNat_setWidth, BitVec.toNat_ushiftRight,
    Nat.shiftRight_eq_div_pow]
  omega

/-- The `if (__high)` only saves a division. -/
theorem doDivUpper_toNat (n : BitVec 64) (base : Word) :
    (doDivUpper n base).toNat = (doDivHigh n).toNat % base.toNat := by
  rw [doDivUpper, ← BitVec.toNat_umod]
  split_ifs with h
  · rfl
  · rw [not_not.mp h]
    simp

/-- `do_div` is its `divl` between the moves from and to the registers. -/
theorem doDiv_eq (n : BitVec 64) (base : Word) : doDiv n base
    = (divl (doDivUpper n base) (doDivLow n) base).bind fun x ↦
        some ((doDivHigh n / base ++ x.1 : BitVec (32 + 32)), x.2) := by
  have hif : (if doDivHigh n ≠ 0 then (doDivHigh n % base, doDivHigh n / base)
      else (doDivHigh n, doDivHigh n)) = (doDivUpper n base, doDivHigh n / base) := by
    rw [doDivUpper]
    split_ifs with h
    · rfl
    · rw [not_not.mp h]
      simp
  have hhigh : (n >>> 32).setWidth 32 = doDivHigh n := rfl
  have hlow : n.setWidth 32 = doDivLow n := rfl
  rw [doDiv]
  simp only [hhigh, hlow, hif]
  rfl

/-- **The quotient of the `divl` fits**: the upper word of its dividend is a remainder. -/
theorem doDiv_fits (n : BitVec 64) {base : Word} (hbase : base ≠ 0) :
    ((doDivUpper n base).toNat * 2 ^ 32 + (doDivLow n).toNat) / base.toNat < 2 ^ 32 := by
  refine div_lt_word ?_ (doDivLow n).isLt
  rw [doDivUpper_toNat]
  exact Nat.mod_lt _ (BitVec.toNat_pos_of_ne_zero hbase)

/-- **`do_div` divides**, and its `divl` does not trap. -/
theorem doDiv_spec (n : BitVec 64) {base : Word} (hbase : base ≠ 0) : ∃ q r,
    doDiv n base = some (q, r) ∧ q.toNat = n.toNat / base.toNat ∧
      r.toNat = n.toNat % base.toNat := by
  have hb : 0 < base.toNat := BitVec.toNat_pos_of_ne_zero hbase
  have hfits := doDiv_fits n hbase
  obtain ⟨hquot, hmod⟩ := div_halves hb (doDivHigh n).toNat (doDivLow n).toNat
  rw [← toNat_words, ← doDivUpper_toNat] at hquot hmod
  rw [doDiv_eq, divl_eq hbase hfits]
  refine ⟨_, _, rfl, ?_, ?_⟩
  · rw [BitVec.toNat_append, BitVec.toNat_ofNat, BitVec.toNat_udiv, hquot, Nat.mod_eq_of_lt hfits,
      ← Nat.shiftLeft_add_eq_or_of_lt hfits, Nat.shiftLeft_eq]
  · rw [BitVec.toNat_ofNat, hmod, Nat.mod_eq_of_lt]
    exact Nat.lt_trans (Nat.mod_lt _ hb) base.isLt

/-- The digit characters of `number`. -/
def digitsOf (large : Bool) : List Byte := if large then largeDigits else smallDigits

/-- The character for a digit. -/
def digitChar (large : Bool) (d : ℕ) : Byte := (digitsOf large).getD d 0

theorem digitsOf_getElem? (large : Bool) {d : ℕ} (hd : d < 36) :
    (digitsOf large)[d]? = some (digitChar large d) := by
  have hlen : d < (digitsOf large).length := by cases large <;> exact hd
  rw [digitChar, List.getD_eq_getElem?_getD, List.getElem?_eq_getElem hlen]
  rfl

/-- The digits of a number, the last one first; zero has one. -/
def digitChars (large : Bool) (b : ℕ) (n : ℕ) : List Byte :=
  if n = 0 then [chr '0'] else (Nat.digits b n).map (digitChar large)

section Digits

variable {large : Bool} {base : Word}

/-- **The digit loop computes digits.**  With at least as many cells as the number has bits, it
never runs out of them. -/
theorem digitLoop_eq (hb : 2 ≤ base.toNat) (hb' : base.toNat ≤ 36) {room : ℕ} {num : BitVec 64}
    (hroom : num.toNat < 2 ^ room) : digitLoop (digitsOf large) base room num
      = some ((Nat.digits base.toNat num.toNat).map (digitChar large)) := by
  have hbase : base ≠ 0 := by rintro rfl; simp at hb
  induction room generalizing num with
  | zero =>
    have hnum : num = 0 := BitVec.eq_of_toNat_eq (by simpa using hroom)
    simp [digitLoop, hnum]
  | succ room ih =>
    by_cases hnum : num = 0
    · simp [digitLoop, hnum]
    · have hpos : 0 < num.toNat := BitVec.toNat_pos_of_ne_zero hnum
      obtain ⟨q, r, hdiv, hq, hr⟩ := doDiv_spec num hbase
      have hr36 : r.toNat < 36 := by
        rw [hr]; exact (Nat.mod_lt _ (by omega)).trans_le hb'
      have hlt : q.toNat < 2 ^ room := by
        rw [hq, Nat.div_lt_iff_lt_mul (by omega)]
        calc num.toNat < 2 ^ room * 2 := by rw [← Nat.pow_succ]; exact hroom
          _ ≤ 2 ^ room * base.toNat := Nat.mul_le_mul_left _ hb
      rw [digitLoop, if_neg hnum, hdiv, Nat.digits_def' (by omega) hpos, List.map_cons, ← hq, ← hr]
      simp only [Option.bind_eq_bind, Option.bind_some, digitsOf_getElem? large hr36, ih hlt]
      rfl

theorem numberDigits_eq (hb : 2 ≤ base.toNat) (hb' : base.toNat ≤ 36) (num : BitVec 64) :
    numberDigits (digitsOf large) base num = some (digitChars large base.toNat num.toNat) := by
  have hzero : num = 0 ↔ num.toNat = 0 :=
    ⟨fun h ↦ by simp [h], fun h ↦ BitVec.eq_of_toNat_eq h⟩
  rw [numberDigits, digitChars]
  simp only [hzero]
  split
  · rfl
  · have hroom : num.toNat < 2 ^ 66 := num.isLt.trans (by decide)
    exact digitLoop_eq hb hb' hroom

end Digits

/-! ## `number` -/

/-- The prefix of `type & SPECIAL`. -/
def specialText (type : Flags) (base : Int) : List Byte :=
  if type.special then
    if base = 8 then [chr '0']
    else if base = 16 then [chr '0', digitChar type.large 33]
    else []
  else []

theorem putSpecial_eq (type : Flags) (base : Int) (out : σ) :
    putSpecial S (digitsOf type.large) type base out =
      some (S.puts (specialText type base) out) := by
  rw [putSpecial, specialText]
  split
  · split
    · rfl
    · split
      · rw [digitsOf_getElem? _ (by decide)]
        rfl
      · rfl
  · rfl

/-- What `number` prints. -/
def numberText (num : BitVec 64) (base size precision : Int) (type : Flags) : List Byte :=
  let zeropad := type.zeropad && !type.left
  let (sign, num, size) := numberSign type num size
  let digits := digitChars type.large base.toNat num.toNat
  let precision := max precision digits.length
  let size₀ := i32 (numberSpecial type base size - precision)
  let size₁ := if !(zeropad || type.left) then i32 (min size₀ 0 - 1) else size₀
  let size₂ := if !type.left then i32 (min size₁ 0 - 1) else size₁
  (if !(zeropad || type.left) then List.replicate size₀.toNat (chr ' ') else [])
    ++ (if sign ≠ 0 then [sign] else [])
    ++ specialText type base
    ++ (if !type.left then List.replicate size₁.toNat (if zeropad then chr '0' else chr ' ')
      else [])
    ++ List.replicate (precision - digits.length).toNat (chr '0')
    ++ digits.reverse
    ++ List.replicate size₂.toNat (chr ' ')

theorem ofInt_base {base : Int} (hb : 2 ≤ base) (hb' : base ≤ 36) :
    (BitVec.ofInt 32 base).toNat = base.toNat := by
  rw [BitVec.toNat_ofInt]
  omega

/-- Padding under a condition, as one call of `puts`. -/
theorem padBelow_if (p : Bool) (c : Byte) (n : Int) (out : σ) :
    (if p then padBelow S c 0 n out else (n, out))
      = (if p then i32 (min n 0 - 1) else n,
          S.puts (if p then List.replicate n.toNat c else []) out) := by
  cases p
  · rfl
  · simp only [if_true, padBelow_eq, Int.sub_zero]

theorem put_if (p : Prop) [Decidable p] (c : Byte) (out : σ) :
    (if p then S.put c out else out) = S.puts (if p then [c] else []) out := by
  split <;> rfl

/-- `if (type & LEFT) type &= ~ZEROPAD;` -/
theorem clear_zeropad (type : Flags) : (if type.left then { type with zeropad := false } else type)
    = { type with zeropad := type.zeropad && !type.left } := by
  obtain ⟨_, _, _, _, left, _, _⟩ := type
  cases left <;> simp

/-- **`number` prints `numberText`.** -/
theorem number_eq (num : BitVec 64) {base : Int} (hb : 2 ≤ base) (hb' : base ≤ 36)
    (size precision : Int) (type : Flags) (out : σ) :
    number S num base size precision type out
      = some (S.puts (numberText num base size precision type) out) := by
  have hbase := ofInt_base hb hb'
  rw [number, if_neg (by omega), numberText, clear_zeropad]
  set type' : Flags := { type with zeropad := type.zeropad && !type.left } with htype'
  have hdigits : (if type.large then largeDigits else smallDigits) = digitsOf type'.large := rfl
  have hsign : numberSign type' num size = numberSign type num size := rfl
  simp only [hdigits, hsign]
  obtain ⟨sign, num', size'⟩ := numberSign type num size
  have hnd : numberDigits (digitsOf type'.large) (BitVec.ofInt 32 base) num'
      = some (digitChars type'.large base.toNat num'.toNat) := by
    rw [numberDigits_eq (by omega) (by omega), hbase]
  have hmax (i : ℕ) :
      (if (i : Int) > precision then (i : Int) else precision) = max precision i := by omega
  simp only [hnd, Option.bind_eq_bind, Option.bind_some, hmax, padBelow_if, put_if, putSpecial_eq]
  simp only [padBelow_eq, putDown_eq _ _ (Nat.le_refl _), List.take_length, Option.bind_some,
    Int.sub_zero]
  simp only [puts_append]
  rfl

/-! ## The conversions that print a fixed text -/

/-- What `%c` prints. -/
def charText (flags : Flags) (fieldWidth : Int) (c : Byte) : List Byte :=
  let n := i32 (fieldWidth - 1)
  (if !flags.left then List.replicate n.toNat (chr ' ') else [])
    ++ [c]
    ++ List.replicate (i32 ((if !flags.left then min n 0 else fieldWidth) - 1)).toNat (chr ' ')

theorem convertChar_eq (flags : Flags) (fieldWidth : Int) (c : Byte) (out : σ) :
    convertChar S flags fieldWidth c out = S.puts (charText flags fieldWidth c) out := by
  rw [convertChar, charText]
  cases flags.left
  · simp only [Bool.not_false, if_true, padPositive_eq, puts_append]
    rfl
  · simp only [Bool.not_true, Bool.false_eq_true, if_false, padPositive_eq, puts_append]
    rfl

/-- The conversions other than `%s` and `%n`: the arguments they leave, and what they print. -/
def convertText (flags : Flags) (fieldWidth precision : Int) (qualifier : Qualifier) (c : Byte)
    (args : Args) : Args × List Byte :=
  if c = chr 'c' then (args.tail, charText flags fieldWidth (args.head.setWidth 8))
  else if c = chr 'p' then
    (args.tail, if fieldWidth = -1 then
        numberText (args.head.setWidth 64) 16 8 precision { flags with zeropad := true }
      else numberText (args.head.setWidth 64) 16 fieldWidth precision flags)
  else if c = chr '%' then (args, [chr '%'])
  else
    match integerConversion flags c with
    | some (base, flags) =>
      ((fetchNum qualifier flags.sign args).2,
        numberText (fetchNum qualifier flags.sign args).1 base fieldWidth precision flags)
    | none => (args, [chr '%', c])

/-- The integer conversions fetch a number and print it. -/
theorem convertText_integer {flags flags' : Flags} {c : Byte} {base : Int}
    (h : integerConversion flags c = some (base, flags')) (fieldWidth precision : Int)
    (qualifier : Qualifier) (args : Args) :
    convertText flags fieldWidth precision qualifier c args
      = ((fetchNum qualifier flags'.sign args).2,
          numberText (fetchNum qualifier flags'.sign args).1 base fieldWidth precision flags') := by
  have hc : c ≠ chr 'c' := by rintro rfl; contradiction
  have hp : c ≠ chr 'p' := by rintro rfl; contradiction
  have hpc : c ≠ chr '%' := by rintro rfl; contradiction
  rw [convertText, if_neg hc, if_neg hp, if_neg hpc, h]

theorem integerConversion_base {flags flags' : Flags} {c : Byte} {base : Int}
    (h : integerConversion flags c = some (base, flags')) : 2 ≤ base ∧ base ≤ 36 := by
  unfold integerConversion at h
  split_ifs at h <;> simp only [Option.some.injEq, Prod.mk.injEq] at h <;> omega

theorem convert_eq (flags : Flags) (fieldWidth precision : Int) (qualifier : Qualifier) {c : Byte}
    (hs : c ≠ chr 's') (hn : c ≠ chr 'n') (args : Args) (out : σ) :
    convert S flags fieldWidth precision qualifier c args out
      = some ((convertText flags fieldWidth precision qualifier c args).1,
          S.puts (convertText flags fieldWidth precision qualifier c args).2 out) := by
  rw [convert, convertText]
  by_cases hc : c = chr 'c'
  · rw [if_pos hc, if_pos hc, convertChar_eq]
  rw [if_neg hc, if_neg hc, if_neg hs]
  by_cases hp : c = chr 'p'
  · rw [if_pos hp, if_pos hp]
    by_cases hw : fieldWidth = -1
    · simp only [if_pos hw, number_eq S _ (by decide : (2 : Int) ≤ 16) (by decide)]
      rfl
    · simp only [if_neg hw, number_eq S _ (by decide : (2 : Int) ≤ 16) (by decide)]
      rfl
  rw [if_neg hp, if_neg hp, if_neg hn]
  by_cases hpc : c = chr '%'
  · rw [if_pos hpc, if_pos hpc]
    rfl
  rw [if_neg hpc, if_neg hpc]
  cases hi : integerConversion flags c with
  | none => rfl
  | some bf =>
    obtain ⟨base, flags'⟩ := bf
    obtain ⟨hb, hb'⟩ := integerConversion_base hi
    simp only [number_eq S _ hb hb']
    rfl

/-- `%s` takes one argument. -/
theorem convert_string (flags : Flags) (fieldWidth precision : Int) (qualifier : Qualifier)
    {c : Byte} (hs : c = chr 's') (args : Args) (out : σ) :
    convert S flags fieldWidth precision qualifier c args out
      = (convertString S flags fieldWidth precision args.head out).map (args.tail, ·) := by
  have hc : chr 's' ≠ chr 'c' := by decide
  rw [convert, hs, if_neg hc, if_pos rfl, Option.map_eq_bind]
  rfl

/-- `%n` takes one argument. -/
theorem convert_count (flags : Flags) (fieldWidth precision : Int) (qualifier : Qualifier)
    {c : Byte} (hn : c = chr 'n') (args : Args) (out : σ) :
    convert S flags fieldWidth precision qualifier c args out
      = (S.storeCount args.head out).map (args.tail, ·) := by
  have hc : chr 'n' ≠ chr 'c' := by decide
  have hs : chr 'n' ≠ chr 's' := by decide
  have hp : chr 'n' ≠ chr 'p' := by decide
  rw [convert, hn, if_neg hc, if_neg hs, if_neg hp, if_pos rfl, Option.map_eq_bind]
  rfl

/-! ## Strings -/

/-- What `s` is set to for the argument `p`. -/
def strOf (p : Word) : Str := if p = 0 then .null else .arg p

/-- The padding `%s` prints on the left of a string of length `len`. -/
def stringLeft (flags : Flags) (fieldWidth len : Int) : List Byte :=
  if !flags.left then List.replicate (fieldWidth - len).toNat (chr ' ') else []

/-- The padding it prints on the right. -/
def stringRight (flags : Flags) (fieldWidth len : Int) : List Byte :=
  List.replicate ((if !flags.left then i32 (min fieldWidth len - 1) else fieldWidth) - len).toNat
    (chr ' ')

/-- `%s`, with its padding loops done: only `strnlen` and the copying of the string depend on
memory. -/
theorem convertString_eq (flags : Flags) (fieldWidth precision : Int) (p : Word) (out : σ) :
    convertString S flags fieldWidth precision p out
      = (strnlen S (strOf p) out (BitVec.ofInt 32 precision).toNat 0).bind fun n ↦
          (putStr S (strOf p) (i32 n).toNat 0
            (S.puts (stringLeft flags fieldWidth (i32 n)) out)).map
              (S.puts (stringRight flags fieldWidth (i32 n))) := by
  have hstr : (if p = 0 then Str.null else Str.arg p) = strOf p := rfl
  simp only [convertString, hstr, stringLeft, stringRight, padBelow_eq, Option.bind_eq_bind]
  refine congrArg (Option.bind _) (funext ?_)
  intro n
  cases flags.left
  · simp only [Bool.not_false, if_true, Option.map_eq_bind]
    rfl
  · simp only [Bool.not_true, Bool.false_eq_true, if_false, Option.map_eq_bind, puts_nil]
    rfl

/-- `"<NULL>"` is six characters long. -/
theorem strnlen_null (out : σ) (count : ℕ) {i : ℕ} (hi : i ≤ 6) :
    ∃ n, strnlen S .null out count i = some n ∧ n ≤ 6 := by
  induction count generalizing i with
  | zero => exact ⟨i, rfl, hi⟩
  | succ count ih =>
    have hload : ∀ i, i ≤ 6 → ∃ c : Byte,
      (cstr (chrs ['<', 'N', 'U', 'L', 'L', '>']))[i]? = some c ∧
        (c ≠ 0 → i + 1 ≤ 6) := by decide
    obtain ⟨c, hc, hnext⟩ := hload i hi
    rw [strnlen, Str.load, hc]
    by_cases h0 : c = 0
    · exact ⟨i, by rw [Option.bind_eq_bind, Option.bind_some, if_pos h0], hi⟩
    · obtain ⟨n, hn, hle⟩ := ih (hnext h0)
      exact ⟨n, by rw [Option.bind_eq_bind, Option.bind_some, if_neg h0, hn], hle⟩

end PastaOS
