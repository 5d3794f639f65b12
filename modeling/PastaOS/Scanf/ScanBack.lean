import PastaOS.Scanf.Format
import PastaOS.Scanf.RoundTrip
import PastaOS.Scanf.Text

/-!
# Printing and scanning

What `vsnprintf` prints for a format, `vsscanf` should store back for the same format: `ScansBack`.
For one integer conversion, two things get in the way.  The scanner looks for a digit in front of
every number, which the sign of a negative one is not, nor the leading digit of many a hexadecimal
one; and it does not know the qualifier `ll`.  `signed_scansBack_iff` and `hex_scansBack_iff` say
that nothing else does.
-/

set_option autoImplicit false

namespace PastaOS

/-! ## Integers and their qualifiers -/

/-- The width of the integer type that a qualifier stands for. -/
def Qualifier.bits : Qualifier → ℕ
  | .none => 32
  | .h => 16
  | .l => 32
  | .L => 64
  | .Z => 32

/-- The qualifier in a format. -/
def Qualifier.chars : Qualifier → List Byte
  | .none => []
  | .h => chrs ['h']
  | .l => chrs ['l']
  | .L => chrs ['L']
  | .Z => chrs ['Z']

/-- The words a number is passed in; a `short` is promoted to an `int`. -/
def passed (isSign : Bool) : (q : Qualifier) → BitVec q.bits → List Word
  | .none, v => [v]
  | .h, v => [if isSign then v.signExtend 32 else v.setWidth 32]
  | .l, v => [v]
  | .L, v => words64 v
  | .Z, v => [v]

/-- A number is fetched as it has been passed. -/
theorem fetchNum_passed (q : Qualifier) (v : BitVec q.bits) (rest : Args) :
    fetchNum q false (passed false q v ++ₛ rest) = (v.setWidth 64, rest) := by
  cases q with
  | none => rfl
  | l => rfl
  | Z => rfl
  | h =>
    have hcut : (v.setWidth 32).setWidth 16 = v := by
      rw [BitVec.setWidth_setWidth_of_le _ (by decide)]
      exact BitVec.setWidth_eq v
    exact congrArg (fun x : BitVec 16 ↦ (x.setWidth 64, rest)) hcut
  | L =>
    have hnum := fetchNum_words64 v false rest
    exact Prod.ext (hnum.trans (BitVec.setWidth_eq v).symm) rfl

theorem fetchNum_passed_signed {q : Qualifier} (hq : q ≠ .Z) (v : BitVec q.bits) (rest : Args) :
    fetchNum q true (passed true q v ++ₛ rest) = (v.signExtend 64, rest) := by
  cases q with
  | none => rfl
  | l => rfl
  | Z => exact absurd rfl hq
  | h =>
    have hcut : (v.signExtend 32).setWidth 16 = v := setWidth_signExtend (by decide) v
    exact congrArg (fun x : BitVec 16 ↦ (x.signExtend 64, rest)) hcut
  | L =>
    have hnum := fetchNum_words64 v true rest
    exact Prod.ext (hnum.trans (BitVec.signExtend_eq v).symm) rfl

/-! ## Scanning back -/

/-- The stores of values through the pointers of an argument list. -/
def stores (ptrs : Args) : List (List Byte) → List (Word × List Byte)
  | [] => []
  | value :: values => (ptrs.head, value) :: stores ptrs.tail values

/-- From what `fmt` prints for `args`, `vsscanf` stores the values back through the pointers `ptrs`
and returns their number: from the text on paper, and from any buffer with room for it. -/
def ScansBack (fmt : List Byte) (args ptrs : Args) (values : List (List Byte)) : Prop :=
  ∃ (text : List Byte) (args' : Args),
    (∀ acc mem, untruncated acc mem (cstr fmt) args = some (args', ⟨mem, text, []⟩)) ∧
    vsscanf (cstr text) (cstr fmt) ptrs = some (values.length, stores ptrs values) ∧
    ∀ (mem : Word → Byte) (buf size : Word), buf ≠ 0 → text.length < size.toNat →
      buf.toNat + text.length < 2 ^ 32 →
      ∃ r b, vsnprintf mem buf size (cstr fmt) args = some (r, b) ∧
        vsscanf (cells b.mem buf (text.length + 1)) (cstr fmt) ptrs
          = some (values.length, stores ptrs values)

/-- It is enough to look at the text on paper. -/
theorem scansBack_iff {fmt text : List Byte} {args args' ptrs : Args} {values : List (List Byte)}
    (hu : ∀ acc mem, untruncated acc mem (cstr fmt) args = some (args', ⟨mem, text, []⟩)) :
    ScansBack fmt args ptrs values ↔
      vsscanf (cstr text) (cstr fmt) ptrs = some (values.length, stores ptrs values) := by
  constructor
  · rintro ⟨text', args'', hu', hscan, -⟩
    have hsame := Option.some.inj ((hu' ⟨fun _ ↦ true, fun _ ↦ true⟩ fun _ ↦ 0).symm.trans (hu _ _))
    simp only [Prod.mk.injEq, Paper.mk.injEq, and_true, true_and] at hsame
    rwa [← hsame.2]
  · intro hscan
    refine ⟨text, args', hu, hscan, ?_⟩
    intro mem buf size hbuf hsize htop
    obtain ⟨b, hb, hcells⟩ := vsnprintf_cells hu mem hbuf hsize htop
    exact ⟨_, b, hb, by rw [hcells, hscan]⟩

/-! ## One integer conversion -/

/-- The leading digit of a number. -/
def leadingDigit (b n : ℕ) : ℕ := (Nat.digits b n).getLastD 0

theorem leadingDigit_lt {b : ℕ} (hb : 2 ≤ b) (n : ℕ) : leadingDigit b n < b := by
  rw [leadingDigit]
  cases h : Nat.digits b n with
  | nil => exact Nat.lt_of_lt_of_le Nat.zero_lt_two hb
  | cons d ds =>
    have hmem : (d :: ds).getLast (List.cons_ne_nil d ds) ∈ Nat.digits b n := by
      rw [h]
      exact List.getLast_mem _
    rw [List.getLastD_cons, ← List.getLast_eq_getLastD (List.cons_ne_nil d ds)]
    exact Nat.digits_lt_base (by omega) hmem

/-- A number is written with its leading digit first. -/
theorem digitChars_head (b : ℕ) (large : Bool) (n : ℕ) :
    ∃ cs, (digitChars large b n).reverse = digitChar large (leadingDigit b n) :: cs := by
  rw [digitChars, leadingDigit]
  by_cases hn : n = 0
  · subst hn
    rw [if_pos rfl, Nat.digits_zero]
    cases large <;> exact ⟨[], rfl⟩
  · obtain ⟨ds, d, hds⟩ := (List.eq_nil_or_concat (Nat.digits b n)).resolve_left
      (Nat.digits_ne_nil_iff_ne_zero.mpr hn)
    rw [if_neg hn, hds, List.concat_eq_append]
    simp

theorem digitChar_spec : ∀ large, ∀ d < 16, digitChar large d ≠ 0 ∧
    isspace (digitChar large d) = false ∧ isdigit (digitChar large d) = decide (d < 10) := by
  decide +kernel

/-- In front of a digit, the sign makes no difference to what is stored. -/
theorem scanInteger_sign {c : Byte} (hc : isdigit c = true) (q : Qualifier) (base : Word)
    (cp : List Byte) : scanInteger q true base (c :: cp) = scanInteger q false base (c :: cp) := by
  have hl : simpleStrtol base (c :: cp)
      = (simpleStrtoul base (c :: cp)).map fun x ↦ (x.1.toInt, x.2) := strtoSigned_digit _ hc cp
  have hL : simpleStrtoll base (c :: cp)
      = (simpleStrtoull base (c :: cp)).map fun x ↦ (x.1.toInt, x.2) := strtoSigned_digit _ hc cp
  have hcut (x : Word) : BitVec.ofInt 16 x.toInt = x.setWidth 16 :=
    BitVec.signExtend_eq_setWidth_of_le x (by decide)
  cases q <;> simp [scanInteger, hl, hL, Function.comp_def, hcut]

/-- **A number is stored as it has been printed**, in front of anything but another digit. -/
theorem scanInteger_digits {b : ℕ} (hb : 2 ≤ b) (hb' : b ≤ 16) (large : Bool) (q : Qualifier)
    (v : BitVec q.bits) {d : Byte} (hd : isxdigit d = false) (cp : List Byte) :
    scanInteger q false (BitVec.ofNat 32 b) ((digitChars large b v.toNat).reverse ++ d :: cp)
      = some (storedBytes v, d :: cp) := by
  have hl (n : ℕ) : simpleStrtoul (BitVec.ofNat 32 b) ((digitChars large b n).reverse ++ d :: cp)
      = some (BitVec.ofNat 32 n, d :: cp) :=
    strto_digits strtoulValue_digits hb hb' (by omega) n hd cp
  have hL (n : ℕ) : simpleStrtoull (BitVec.ofNat 32 b) ((digitChars large b n).reverse ++ d :: cp)
      = some (BitVec.ofNat 64 n, d :: cp) :=
    strto_digits strtoullValue_digits hb hb' (by omega) n hd cp
  have hcut (v : BitVec 16) : (BitVec.ofNat 32 v.toNat).setWidth 16 = v := by
    rw [BitVec.ofNat_toNat, BitVec.setWidth_setWidth_of_le _ (by decide), BitVec.setWidth_eq]
  have hnum {w : ℕ} (v : BitVec w) : BitVec.ofNat w v.toNat = v := by
    rw [BitVec.ofNat_toNat, BitVec.setWidth_eq]
  have hread32 {v : Word} : (simpleStrtoul (BitVec.ofNat 32 b)
      ((digitChars large b v.toNat).reverse ++ d :: cp)).map (fun x ↦ (storedBytes x.1, x.2))
        = some (storedBytes v, d :: cp) := by
    rw [hl, hnum]
    rfl
  cases q with
  | none => exact hread32
  | l => exact hread32
  | Z => exact hread32
  | h =>
    exact (congrArg (Option.map _) (hl v.toNat)).trans
      (congrArg (fun x : BitVec 16 ↦ some (storedBytes x, d :: cp)) (hcut v))
  | L =>
    exact (congrArg (Option.map _) (hL v.toNat)).trans
      (congrArg (fun x : BitVec 64 ↦ some (storedBytes x, d :: cp)) (hnum v))

/-- A conversion with a qualifier. -/
def conversion (q : Qualifier) (c : Byte) : List Byte := chr '%' :: (q.chars ++ [c])

/-- The formatter and the scanner read the same conversion. -/
theorem conversion_spec (q : Qualifier) : ∀ c ∈ chrs ['d', 'i', 'u', 'o', 'x', 'X'],
    parse (cstr (conversion q c)) = [.directive ⟨{}, .absent, none, q⟩ c] ∧
      scanItems (cstr (conversion q c)) = [.directive none q c] := by
  cases q <;> decide +kernel

theorem zero_notMem_conversion (q : Qualifier) :
    ∀ c ∈ chrs ['d', 'i', 'u', 'o', 'x', 'X'], 0 ∉ conversion q c := by
  cases q <;> decide

/-- What is printed for an unsigned number. -/
theorem run_unsigned {q : Qualifier} {c : Byte} {b : ℕ} {large : Bool} (hb : 2 ≤ b)
    (hconv : integerConversion {} c = some ((b : Int), { sign := false, large := large }))
    (v : BitVec q.bits) (rest : Args) (acc : Access) (out : Paper) :
    (Item.directive ⟨{}, .absent, none, q⟩ c).run (paperSink acc) (passed false q v ++ₛ rest) out
      = some (rest, { out with text := out.text ++ (digitChars large b v.toNat).reverse }) := by
  have hbits : q.bits ≤ 64 := by cases q <;> decide
  have hnum : (v.setWidth 64).toNat = v.toNat := by
    rw [BitVec.toNat_setWidth]
    exact Nat.mod_eq_of_lt (v.isLt.trans_le (Nat.pow_le_pow_right (by decide) hbits))
  rw [run_integer hconv, fetchNum_passed, numberText_plain (by omega), if_neg (by simp),
    Int.toNat_natCast, hnum]

theorem untruncated_unsigned {q : Qualifier} {c : Byte} {b : ℕ} {large : Bool} (hb : 2 ≤ b)
    (hparse : parse (cstr (conversion q c)) = [.directive ⟨{}, .absent, none, q⟩ c])
    (hconv : integerConversion {} c = some ((b : Int), { sign := false, large := large }))
    (v : BitVec q.bits) (rest : Args) (acc : Access) (mem : Word → Byte) :
    untruncated acc mem (cstr (conversion q c)) (passed false q v ++ₛ rest)
      = some (rest, ⟨mem, (digitChars large b v.toNat).reverse, []⟩) := by
  rw [untruncated_eq, hparse, runItems, run_unsigned hb hconv]
  rfl

/-- A scan for a format that begins with a conversion. -/
theorem scan_directive {fmt : List Byte} {q : Qualifier} {c : Byte} {items : List ScanItem}
    (hitems : scanItems (cstr fmt) = .directive none q c :: items) {d : Byte} (hd : d ≠ 0)
    (t : List Byte) (ptrs : Args) :
    scan (cstr (d :: t)) (cstr fmt) ptrs
      = (scanConvert (cstr (d :: t)) q c ⟨cstr (d :: t), ptrs, 0, -1, []⟩).bind fun x ↦
          if x.1 then runScan (cstr (d :: t)) items false x.2 else some (false, x.2) := by
  have hcstr : cstr (d :: t) = d :: (t ++ [0]) := rfl
  rw [scan_eq, hitems, runScan, hcstr, List.head?_cons, Option.bind_some, if_neg fun h ↦ hd h.1,
    ScanItem.run, List.head?_cons, Option.bind_some, if_neg hd]
  rfl

/-- What is scanned for an integer conversion: the first character decides. -/
theorem vsscanf_integer {fmt : List Byte} {q : Qualifier} {c : Byte} {base : Word} {isSign : Bool}
    (hitems : scanItems (cstr fmt) = [.directive none q c])
    (hbase : scanBase c = some (base, isSign)) {d : Byte} (hd : d ≠ 0) (hspace : isspace d = false)
    (t : List Byte) (ptrs : Args) :
    vsscanf (cstr (d :: t)) (cstr fmt) ptrs
      = if isdigit d then
          (scanInteger q isSign base (cstr (d :: t))).map fun y ↦ (1, [(ptrs.head, y.1)])
        else some (0, []) := by
  have hcstr : cstr (d :: t) = d :: (t ++ [0]) := rfl
  rw [vsscanf, scan_directive hitems hd, scanConvert_base hbase hspace rfl, hcstr]
  by_cases hdigit : isdigit d = true
  · rw [if_pos hdigit, if_neg (isdigit_goOn hdigit)]
    cases scanInteger q isSign base (d :: (t ++ [0])) <;> rfl
  · rw [if_neg hdigit, if_pos (.inr (by simpa using hdigit))]
    rfl

/-! ## Hexadecimal numbers -/

/-- The scanner's bases are the formatter's. -/
theorem unsignedBases_scan : ∀ x ∈ unsignedBases,
    scanBase x.1 = some (BitVec.ofNat 32 x.2, false) := by
  decide

theorem unsignedBases_chars : ∀ x ∈ unsignedBases,
    x.1 ∈ chrs ['d', 'i', 'u', 'o', 'x', 'X'] := by
  decide

/-- **A number is read back if its leading digit is a decimal one**, for any unsigned conversion. -/
theorem unsigned_scansBack_iff {x : Byte × ℕ} (hx : x ∈ unsignedBases) (q : Qualifier)
    (v : BitVec q.bits) (rest ptrs : Args) :
    ScansBack (conversion q x.1) (passed false q v ++ₛ rest) ptrs [storedBytes v] ↔
      leadingDigit x.2 v.toNat < 10 := by
  obtain ⟨hb, hb', hconv⟩ := unsignedBases_spec x hx
  obtain ⟨hparse, hitems⟩ := conversion_spec q x.1 (unsignedBases_chars x hx)
  obtain ⟨cs, hcs⟩ := digitChars_head x.2 (decide (x.1 = chr 'X')) v.toNat
  obtain ⟨hne, hspace, hdigit⟩ := digitChar_spec (decide (x.1 = chr 'X'))
    (leadingDigit x.2 v.toNat) ((leadingDigit_lt hb _).trans_le hb')
  have hread := scanInteger_digits hb hb' (decide (x.1 = chr 'X')) q v
    (by decide : isxdigit 0 = false) []
  rw [hcs] at hread
  rw [scansBack_iff (untruncated_unsigned hb hparse hconv v rest), hcs,
    vsscanf_integer hitems (unsignedBases_scan x hx) hne hspace, hdigit, cstr, hread]
  by_cases hlead : leadingDigit x.2 v.toNat < 10
  · rw [decide_eq_true hlead]
    exact iff_of_true rfl hlead
  · rw [decide_eq_false hlead]
    exact iff_of_false (by simp) hlead

/-- **Scanning undoes printing for hexadecimal numbers** exactly if the leading digit is a decimal
one. -/
theorem hex_scansBack_iff (q : Qualifier) (v : BitVec q.bits) (rest ptrs : Args) :
    ∀ c ∈ chrs ['x', 'X'],
      ScansBack (conversion q c) (passed false q v ++ₛ rest) ptrs [storedBytes v] ↔
        leadingDigit 16 v.toNat < 10 := by
  intro c hc
  have hx : (c, 16) ∈ unsignedBases := by
    rcases List.mem_pair.mp hc with rfl | rfl <;> decide
  exact unsigned_scansBack_iff hx q v rest ptrs

/-- The theorem for the text `"1f"`. -/
theorem hex_scansBack_1f : ScansBack (conversion .none (chr 'x')) ([31] ++ₛ Stream'.const 0)
    (Stream'.const 0) [[31, 0, 0, 0]] := by
  have h := (hex_scansBack_iff .none (31 : Word) (Stream'.const 0) (Stream'.const 0) (chr 'x')
    (by decide)).mpr (by decide +kernel)
  exact h

/-- **`%x` prints `ff`**, of which the scanner reads nothing. -/
theorem not_hex_scansBack_ff :
    vsscanf (cstr (chrs ['f', 'f'])) (cstr (chrs ['%', 'x'])) (Stream'.const 0) = some (0, []) ∧
      ¬ ScansBack (conversion .none (chr 'x')) ([255] ++ₛ Stream'.const 0) (Stream'.const 0)
        [[255, 0, 0, 0]] := by
  have hx : (chr 'x', 16) ∈ unsignedBases := by decide
  refine ⟨by decide +kernel, fun h ↦ ?_⟩
  have hlead := (unsigned_scansBack_iff hx .none (255 : Word) (Stream'.const 0) _).mp h
  exact absurd hlead (by decide +kernel)

/-! ## Signed numbers -/

/-- What is printed for a signed number. -/
theorem untruncated_signed {q : Qualifier} (hq : q ≠ .Z) {fmt : List Byte} {c : Byte}
    (hparse : parse (cstr fmt) = [.directive ⟨{}, .absent, none, q⟩ c])
    (hconv : integerConversion {} c = some (10, { sign := true })) (v : BitVec q.bits)
    (rest : Args) (acc : Access) (mem : Word → Byte) :
    untruncated acc mem (cstr fmt) (passed true q v ++ₛ rest)
      = some (rest, ⟨mem, if v.toInt < 0 then
          chr '-' :: (digitChars false 10 (-v.signExtend 64).toNat).reverse
        else (digitChars false 10 v.toNat).reverse, []⟩) := by
  have hbits : q.bits ≤ 64 := by cases q <;> decide
  have hnum : (v.signExtend 64).toInt = v.toInt := BitVec.toInt_signExtend_of_le hbits
  rw [untruncated_integer hparse hconv, fetchNum_passed_signed hq, numberText_plain (by decide),
    slt_zero, hnum]
  by_cases hneg : v.toInt < 0
  · rw [if_pos ⟨rfl, decide_eq_true hneg⟩, if_pos hneg]
    rfl
  · have hnat : (v.signExtend 64).toNat = v.toNat := by
      rw [toNat_natAbs hneg, toNat_natAbs (hnum ▸ hneg), hnum]
    rw [if_neg (by simp [hneg]), if_neg hneg, hnat]
    rfl

/-- A signed number is read back if it has no sign. -/
theorem signed_scansBack_iff_of {q : Qualifier} (hq : q ≠ .Z) {c : Byte} (hc : c ∈ chrs ['d', 'i'])
    (v : BitVec q.bits) (rest ptrs : Args) :
    ScansBack (conversion q c) (passed true q v ++ₛ rest) ptrs [storedBytes v] ↔ 0 ≤ v.toInt := by
  have hchars : ∀ c ∈ chrs ['d', 'i'], c ∈ chrs ['d', 'i', 'u', 'o', 'x', 'X'] ∧
      integerConversion {} c = some (10, { sign := true }) ∧ scanBase c = some (10, true) := by
    decide
  obtain ⟨hmem, hconv, hbase⟩ := hchars c hc
  obtain ⟨hparse, hitems⟩ := conversion_spec q c hmem
  rw [scansBack_iff (untruncated_signed hq hparse hconv v rest)]
  by_cases hneg : v.toInt < 0
  · rw [if_pos hneg, vsscanf_integer hitems hbase (by decide) (by decide), if_neg (by decide)]
    exact iff_of_false (by simp) (by omega)
  · obtain ⟨cs, hcs⟩ := digitChars_head 10 false v.toNat
    have hlead : leadingDigit 10 v.toNat < 10 := leadingDigit_lt (by decide) _
    obtain ⟨hne, hspace, hdigit⟩ := digitChar_spec false (leadingDigit 10 v.toNat) (by omega)
    rw [decide_eq_true hlead] at hdigit
    have hread := scanInteger_digits (b := 10) (by decide) (by decide) false q v
      (by decide : isxdigit 0 = false) []
    rw [hcs] at hread
    rw [if_neg hneg, hcs, vsscanf_integer hitems hbase hne hspace, if_pos hdigit, cstr,
      List.cons_append, scanInteger_sign hdigit, ← List.cons_append]
    exact iff_of_true ((congrArg (Option.map _) hread).trans rfl) (by omega)

/-- There is no conversion `l`, which the scanner takes the second letter of `ll` for. -/
theorem not_scansBack_ll {c : Byte} (hc : c ∈ chrs ['d', 'i']) (v : BitVec Qualifier.L.bits)
    (rest ptrs : Args) : ¬ ScansBack (chr '%' :: (chrs ['l', 'l'] ++ [c]))
      (passed true .L v ++ₛ rest) ptrs [storedBytes v] := by
  have hchars : ∀ c ∈ chrs ['d', 'i'], integerConversion {} c = some (10, { sign := true }) ∧
      parse (cstr (chr '%' :: (chrs ['l', 'l'] ++ [c])))
        = [.directive ⟨{}, .absent, none, .L⟩ c] ∧
      scanItems (cstr (chr '%' :: (chrs ['l', 'l'] ++ [c])))
        = [.directive none .l (chr 'l'), .char c] := by
    decide +kernel
  obtain ⟨hconv, hparse, hitems⟩ := hchars c hc
  have hnone (buf : List Byte) (s : Scan) : scanConvert buf .l (chr 'l') s = some (false, s) := rfl
  have hscan {d : Byte} (hd : d ≠ 0) (t : List Byte) : vsscanf (cstr (d :: t))
      (cstr (chr '%' :: (chrs ['l', 'l'] ++ [c]))) ptrs = some (0, []) := by
    rw [vsscanf, scan_directive hitems hd, hnone]
    rfl
  rw [scansBack_iff (untruncated_signed (by decide) hparse hconv v rest)]
  split_ifs
  · rw [hscan (by decide)]
    simp
  · obtain ⟨cs, hcs⟩ := digitChars_head 10 false v.toNat
    have hlead : leadingDigit 10 v.toNat < 10 := leadingDigit_lt (by decide) _
    rw [hcs, hscan (digitChar_spec false (leadingDigit 10 v.toNat) (by omega)).1]
    simp

/-- The qualifiers of signed numbers, as they are written for the formatter. -/
def signedQualifiers : List (List Byte × Qualifier) :=
  [([], .none), (chrs ['h'], .h), (chrs ['l'], .l), (chrs ['l', 'l'], .L), (chrs ['L'], .L)]

/-- **Scanning undoes printing for signed numbers** exactly if they have no sign, and are not
printed with `ll`. -/
theorem signed_scansBack_iff (rest ptrs : Args) : ∀ x ∈ signedQualifiers, ∀ c ∈ chrs ['d', 'i'],
    ∀ v : BitVec x.2.bits, ScansBack (chr '%' :: (x.1 ++ [c])) (passed true x.2 v ++ₛ rest) ptrs
      [storedBytes v] ↔ 0 ≤ v.toInt ∧ x.1 ≠ chrs ['l', 'l'] := by
  intro x hx c hc v
  simp only [signedQualifiers, List.mem_cons, List.not_mem_nil, or_false] at hx
  rcases hx with rfl | rfl | rfl | rfl | rfl
  · rw [and_iff_left (by decide)]
    exact signed_scansBack_iff_of (by decide) hc v rest ptrs
  · rw [and_iff_left (by decide)]
    exact signed_scansBack_iff_of (by decide) hc v rest ptrs
  · rw [and_iff_left (by decide)]
    exact signed_scansBack_iff_of (by decide) hc v rest ptrs
  · exact iff_of_false (not_scansBack_ll hc v rest ptrs) fun h ↦ h.2 rfl
  · rw [and_iff_left (by decide)]
    exact signed_scansBack_iff_of (by decide) hc v rest ptrs

/-- The theorem for the text `"7"` of `%hd`. -/
theorem signed_scansBack_seven : ScansBack (chr '%' :: (chrs ['h'] ++ [chr 'd']))
    ([7] ++ₛ Stream'.const 0) (Stream'.const 0) [[7, 0]] :=
  (signed_scansBack_iff (Stream'.const 0) (Stream'.const 0) (chrs ['h'], .h) (by decide) (chr 'd')
    (by decide) (7 : BitVec 16)).mpr ⟨by decide, by decide⟩

/-- **`%d` prints `-1`**, of which the scanner reads nothing. -/
theorem not_signed_scansBack_neg :
    vsscanf (cstr (chrs ['-', '1'])) (cstr (chrs ['%', 'd'])) (Stream'.const 0) = some (0, []) ∧
      ¬ ScansBack (conversion .none (chr 'd')) ([-1] ++ₛ Stream'.const 0) (Stream'.const 0)
        [[255, 255, 255, 255]] := by
  have hq : Qualifier.none ≠ .Z := by decide
  have hc : chr 'd' ∈ chrs ['d', 'i'] := by decide
  refine ⟨by decide +kernel, fun h ↦ ?_⟩
  have hsign := (signed_scansBack_iff_of hq hc (-1 : Word) (Stream'.const 0) _).mp h
  exact absurd hsign (by decide)

end PastaOS
