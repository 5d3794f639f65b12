import PastaOS.Printf.Buffer
import PastaOS.Printf.Number
import PastaOS.Scanf.Strto

/-!
# Printing a number and parsing it

An integer conversion without flags, width or precision prints a sign and digits:
`numberText_plain`.  `strto_vsnprintf` puts this together with what the parsers do to digits: what
`vsnprintf` leaves in a buffer for such a conversion, the parser for its type reads back.
-/

set_option autoImplicit false

namespace PastaOS

/-! ## The text of a plain conversion -/

/-- The sign and the digits of a number. -/
theorem numberText_plain {base : Int} (hb : 2 ≤ base) (sign large : Bool) (num : BitVec 64) :
    numberText num base (-1) (-1) { sign := sign, large := large }
      = if sign = true ∧ num.slt 0 = true then
          chr '-' :: (digitChars large base.toNat (-num).toNat).reverse
        else (digitChars large base.toNat num.toNat).reverse := by
  have hprefix : prefixText { sign := sign, large := large } base = [] := by simp [prefixText]
  rw [numberText_narrow hb, hprefix, List.append_nil, digitText, signText, magnitude]
  simp only [slt_zero]
  cases sign
  · simp
  · by_cases hneg : num.toInt < 0
    · simp [hneg, toNat_neg_natAbs hneg]
    · simp [hneg, toNat_natAbs hneg]

/-- What an integer conversion without width or precision prints. -/
theorem run_integer {q : Qualifier} {c : Byte} {base : Int} {flags flags' : Flags}
    (hconv : integerConversion flags c = some (base, flags')) (acc : Access) (args : Args)
    (out : Paper) : (Item.directive ⟨flags, .absent, none, q⟩ c).run (paperSink acc) args out
      = some ((fetchNum q flags'.sign args).2,
        { out with text := out.text
            ++ numberText (fetchNum q flags'.sign args).1 base (-1) (-1) flags' }) := by
  have hs : c ≠ chr 's' := by rintro rfl; contradiction
  have hn : c ≠ chr 'n' := by rintro rfl; contradiction
  show convert (paperSink acc) flags (-1) (-1) q c args out = _
  rw [convert_eq _ _ _ _ _ hs hn, convertText_integer hconv, paperSink_puts]

/-- What a format prints that is one integer conversion without width or precision. -/
theorem untruncated_integer {fmt : List Byte} {q : Qualifier} {c : Byte} {base : Int}
    {flags flags' : Flags} (hparse : parse (cstr fmt) = [.directive ⟨flags, .absent, none, q⟩ c])
    (hconv : integerConversion flags c = some (base, flags')) (acc : Access) (mem : Word → Byte)
    (args : Args) :
    untruncated acc mem (cstr fmt) args = some ((fetchNum q flags'.sign args).2,
      ⟨mem, numberText (fetchNum q flags'.sign args).1 base (-1) (-1) flags', []⟩) := by
  rw [untruncated_eq, hparse, runItems, run_integer hconv]
  rfl

theorem numberText_length {base : Int} (hb : 2 ≤ base) (num : BitVec 64) (flags : Flags) :
    (numberText num base (-1) (-1) flags).length < 2 ^ 31 := by
  have hdigits := digitText_length_le hb flags num
  have hsign := signText_length_le flags num
  have hprefix := prefixText_length_le flags base
  rw [numberText_narrow hb, List.length_append, List.length_append]
  omega

/-! ## Reading back what has been printed -/

/-- What `fmt` prints for `args` is read back as `v` by `scan`, which stops at the NUL: the text on
paper, and what a call leaves in any buffer with room for it. -/
def ReadsBack {α : Type} (fmt : List Byte) (args : Args)
    (scan : List Byte → Option (α × List Byte)) (v : α) : Prop :=
  ∃ (text : List Byte) (args' : Args),
    (∀ acc mem, untruncated acc mem (cstr fmt) args = some (args', ⟨mem, text, []⟩)) ∧
    scan (cstr text) = some (v, [0]) ∧
    ∀ (mem : Word → Byte) (buf size : Word), buf ≠ 0 → text.length < size.toNat →
      buf.toNat + text.length < 2 ^ 32 →
      ∃ b, vsnprintf mem buf size (cstr fmt) args = some ((text.length : Int), b) ∧
        scan (cells b.mem buf (text.length + 1)) = some (v, [0])

/-- A text on paper is found in any buffer with room for it. -/
theorem vsnprintf_cells {fmt text : List Byte} {args args' : Args}
    (hu : ∀ acc mem, untruncated acc mem (cstr fmt) args = some (args', ⟨mem, text, []⟩))
    (mem : Word → Byte) {buf size : Word} (hbuf : buf ≠ 0) (hsize : text.length < size.toNat)
    (htop : buf.toNat + text.length < 2 ^ 32) :
    ∃ b, vsnprintf mem buf size (cstr fmt) args
        = some ((BitVec.ofNat 32 text.length).toInt, b) ∧
      cells b.mem buf (text.length + 1) = cstr text := by
  obtain ⟨b, hb, hmem, -⟩ := vsnprintf_leaves size hbuf (hu (offBuffer buf text.length) mem)
    (min_le_right _ _) htop
  have hstr : (text ++ [0]).length = text.length + 1 := by rw [List.length_append]; rfl
  refine ⟨b, hb, ?_⟩
  rw [hmem, kept_of_lt hsize, ← hstr]
  exact cells_overlay (by rw [hstr]; omega)

/-- A text on paper is read back from any buffer with room for it. -/
theorem readsBack_of_text {α : Type} {fmt text : List Byte} {args : Args} (args' : Args)
    {scan : List Byte → Option (α × List Byte)} {v : α}
    (hu : ∀ acc mem, untruncated acc mem (cstr fmt) args = some (args', ⟨mem, text, []⟩))
    (hscan : scan (cstr text) = some (v, [0])) (hlen : text.length < 2 ^ 31) :
    ReadsBack fmt args scan v := by
  refine ⟨text, args', hu, hscan, ?_⟩
  intro mem buf size hbuf hsize htop
  obtain ⟨b, hb, hcells⟩ := vsnprintf_cells hu mem hbuf hsize htop
  exact ⟨b, by rw [hb, toInt_ofNat_of_lt hlen], by rw [hcells, hscan]⟩

/-- A format that is one integer conversion without width or precision. -/
theorem readsBack_conversion {α : Type} {fmt : List Byte} {q : Qualifier} {c : Byte} {base : Int}
    {flags flags' : Flags} {args : Args} {scan : List Byte → Option (α × List Byte)} {v : α}
    (hparse : parse (cstr fmt) = [.directive ⟨flags, .absent, none, q⟩ c])
    (hconv : integerConversion flags c = some (base, flags'))
    (hscan : scan (cstr (numberText (fetchNum q flags'.sign args).1 base (-1) (-1) flags'))
      = some (v, [0])) : ReadsBack fmt args scan v :=
  readsBack_of_text (fetchNum q flags'.sign args).2
    (fun acc mem ↦ untruncated_integer hparse hconv acc mem args) hscan
    (numberText_length (integerConversion_base hconv).1 _ _)

/-- A format that is one integer conversion without flags, width or precision. -/
theorem readsBack_integer {α : Type} {fmt : List Byte} {q : Qualifier} {c : Byte} {base : Int}
    {sign large : Bool} {args : Args} {scan : List Byte → Option (α × List Byte)} {v : α}
    (hparse : parse (cstr fmt) = [.directive ⟨{}, .absent, none, q⟩ c])
    (hconv : integerConversion {} c = some (base, { sign := sign, large := large }))
    (hscan : scan (cstr (numberText (fetchNum q sign args).1 base (-1) (-1)
      { sign := sign, large := large })) = some (v, [0])) : ReadsBack fmt args scan v :=
  readsBack_conversion hparse hconv hscan

section Scan

variable {w : ℕ} {value : Byte → BitVec w} {b : ℕ}

/-- The text of an unsigned conversion is read back, cut off at the width of the result. -/
theorem strto_number (hv : ReadsDigits value) (hb : 2 ≤ b) (hb' : b ≤ 16) (hw : b < 2 ^ w)
    (large : Bool) (num : BitVec 64) :
    strto value (BitVec.ofNat 32 b)
      (cstr (numberText num b (-1) (-1) { sign := false, large := large }))
        = some (num.setWidth w, [0]) := by
  rw [numberText_plain (by omega), if_neg (by simp), Int.toNat_natCast, cstr,
    strto_digitChars hv hb hb' hw, BitVec.ofNat_toNat]

/-- The text of a signed conversion is read back, cut off at the width of the result. -/
theorem strtoSigned_number (hv : ReadsDigits value) (hb : 2 ≤ b) (hb' : b ≤ 16) (hw : b < 2 ^ w)
    (hw' : w ≤ 64) (large : Bool) (num : BitVec 64) :
    strtoSigned value (BitVec.ofNat 32 b)
      (cstr (numberText num b (-1) (-1) { sign := true, large := large }))
        = some ((num.setWidth w).toInt, [0]) := by
  rw [numberText_plain (by omega), Int.toNat_natCast, cstr]
  split_ifs
  · rw [List.cons_append, strtoSigned_neg hv hb hb' hw, BitVec.ofNat_toNat,
      BitVec.setWidth_neg_of_le hw', BitVec.neg_neg]
  · rw [strtoSigned_pos hv hb hb' hw, BitVec.ofNat_toNat]

end Scan

/-- The unsigned conversions and their bases. -/
def unsignedBases : List (Byte × ℕ) := [(chr 'u', 10), (chr 'o', 8), (chr 'x', 16), (chr 'X', 16)]

/-- The two words of a 64-bit argument. -/
def words64 (v : BitVec 64) : List Word := [v.setWidth 32, (v >>> 32).setWidth 32]

theorem unsignedBases_spec : ∀ x ∈ unsignedBases, 2 ≤ x.2 ∧ x.2 ≤ 16 ∧
    integerConversion {} x.1
      = some ((x.2 : Int), { sign := false, large := decide (x.1 = chr 'X') }) := by
  decide

theorem fetchNum_words64 (v : BitVec 64) (sign : Bool) (rest : Args) :
    (fetchNum .L sign (words64 v ++ₛ rest)).1 = v := by
  have hv := v.isLt
  apply BitVec.eq_of_toNat_eq
  show (((v >>> 32).setWidth 32 : Word) ++ (v.setWidth 32 : Word) : BitVec (32 + 32)).toNat
    = v.toNat
  rw [BitVec.toNat_append, ← Nat.shiftLeft_add_eq_or_of_lt (BitVec.isLt _),
    Nat.shiftLeft_eq, BitVec.toNat_setWidth, BitVec.toNat_setWidth, BitVec.toNat_ushiftRight,
    Nat.shiftRight_eq_div_pow]
  omega

theorem setWidth_signExtend {m n : ℕ} (h : m ≤ n) (v : BitVec m) :
    (v.signExtend n).setWidth m = v := by
  refine BitVec.eq_of_getLsbD_eq ?_
  intro i hi
  have hi' : i < n := by omega
  rw [BitVec.getLsbD_setWidth, BitVec.getLsbD_signExtend]
  simp only [hi, hi', decide_true, Bool.true_and, if_true]

/-- **Printing and parsing.**  For every 64-bit value, the text of an unsigned conversion with the
qualifier `ll` is read back by `simple_strtoull` in its base, and that of `%lld` by
`simple_strtoll`; for every 32-bit value, the text of an unsigned conversion without qualifier or
with `l` is read back by `simple_strtoul`, and that of `%d`, `%i` and `%ld` by `simple_strtol`.
All of them stop at the NUL. -/
theorem strto_vsnprintf (rest : Args) :
    (∀ v : BitVec 64, ∀ x ∈ unsignedBases, ReadsBack (chrs ['%', 'l', 'l'] ++ [x.1])
      (words64 v ++ₛ rest) (simpleStrtoull (BitVec.ofNat 32 x.2)) v) ∧
    (∀ v : BitVec 64, ReadsBack (chrs ['%', 'l', 'l', 'd']) (words64 v ++ₛ rest)
      (simpleStrtoll 10) v.toInt) ∧
    (∀ v : Word, ∀ q ∈ [chrs ['%'], chrs ['%', 'l']], ∀ x ∈ unsignedBases,
      ReadsBack (q ++ [x.1]) ([v] ++ₛ rest) (simpleStrtoul (BitVec.ofNat 32 x.2)) v) ∧
    (∀ v : Word, ∀ f ∈ [chrs ['%', 'd'], chrs ['%', 'i'], chrs ['%', 'l', 'd']],
      ReadsBack f ([v] ++ₛ rest) (simpleStrtol 10) v.toInt) := by
  have hll : ∀ x ∈ unsignedBases, parse (cstr (chrs ['%', 'l', 'l'] ++ [x.1]))
      = [.directive ⟨{}, .absent, none, .L⟩ x.1] := by decide +kernel
  have hplain : ∀ x ∈ unsignedBases, parse (cstr (chrs ['%'] ++ [x.1]))
      = [.directive ⟨{}, .absent, none, .none⟩ x.1] := by decide +kernel
  have hl : ∀ x ∈ unsignedBases, parse (cstr (chrs ['%', 'l'] ++ [x.1]))
      = [.directive ⟨{}, .absent, none, .l⟩ x.1] := by decide +kernel
  have hlld : parse (cstr (chrs ['%', 'l', 'l', 'd']))
      = [.directive ⟨{}, .absent, none, .L⟩ (chr 'd')] := by decide +kernel
  have hd : parse (cstr (chrs ['%', 'd']))
      = [.directive ⟨{}, .absent, none, .none⟩ (chr 'd')] := by decide +kernel
  have hi : parse (cstr (chrs ['%', 'i']))
      = [.directive ⟨{}, .absent, none, .none⟩ (chr 'i')] := by decide +kernel
  have hld : parse (cstr (chrs ['%', 'l', 'd']))
      = [.directive ⟨{}, .absent, none, .l⟩ (chr 'd')] := by decide +kernel
  have hzero (v : Word) : (v.setWidth 64).setWidth 32 = v := by
    rw [BitVec.setWidth_setWidth_of_le _ (by decide), BitVec.setWidth_eq]
  refine ⟨?_, ?_, ?_, ?_⟩
  · intro v x hx
    obtain ⟨hb, hb', hconv⟩ := unsignedBases_spec x hx
    refine readsBack_integer (hll x hx) hconv ?_
    rw [fetchNum_words64]
    exact (strto_number strtoullValue_digits hb hb' (by omega) _ v).trans
      (by rw [BitVec.setWidth_eq])
  · intro v
    have hread := strtoSigned_number strtoullValue_digits (by decide) (by decide) (by decide)
      le_rfl false v (b := 10)
    rw [BitVec.setWidth_eq] at hread
    refine readsBack_integer hlld rfl ?_
    rw [fetchNum_words64]
    exact hread
  · intro v q hq x hx
    obtain ⟨hb, hb', hconv⟩ := unsignedBases_spec x hx
    have hread := strto_number strtoulValue_digits hb hb' (by omega) (decide (x.1 = chr 'X'))
      (v.setWidth 64)
    rw [hzero] at hread
    rcases List.mem_pair.mp hq with rfl | rfl
    · exact readsBack_integer (hplain x hx) hconv hread
    · exact readsBack_integer (hl x hx) hconv hread
  · intro v f hf
    have hread := strtoSigned_number strtoulValue_digits (by decide) (by decide) (by decide)
      (by decide) false (v.signExtend 64) (b := 10)
    rw [setWidth_signExtend (by decide)] at hread
    rcases List.mem_cons.mp hf with rfl | hf
    · exact readsBack_integer hd rfl hread
    · rcases List.mem_pair.mp hf with rfl | rfl
      · exact readsBack_integer hi rfl hread
      · exact readsBack_integer hld rfl hread

/-- The theorem for the text `"ff"` of `%llx`. -/
theorem strto_vsnprintf_ff : ReadsBack (chrs ['%', 'l', 'l'] ++ [chr 'x'])
    (words64 255 ++ₛ Stream'.const 0) (simpleStrtoull (BitVec.ofNat 32 16)) 255 :=
  (strto_vsnprintf (Stream'.const 0)).1 255 (chr 'x', 16) (by decide)

end PastaOS
