import PastaOS.Printf.Literal
import PastaOS.Scanf.Compose
import PastaOS.Scanf.Numeral
import PastaOS.Scanf.ScanBack

/-!
# Field widths of the scanner

A field width is read for every conversion; what becomes of it is up to the conversion.  `%c` tests
and counts it down behind the character it has copied, and so copies one more than it says; `%s`
does what it says; the integer conversions do not look at it.  `chars_exact_iff` and
`field_within_iff` say for which inputs the width is kept to.

A width is written as a string of digits, of which `skip_atoi` keeps the residue.  The statements
are about the width that is written.
-/

set_option autoImplicit false

namespace PastaOS

open Positional Scanner

/-! ## Directives as they are written -/

/-- The directive with the width, the qualifier and the conversion character that are written. -/
def ScanItem.written (width : Option ℕ) (q : Qualifier) (c : Byte) : ScanItem :=
  .directive (width.map fun w : ℕ ↦ i32 w) q c

/-- The texts of the qualifiers. -/
def scanQualifiers : List (List Byte × Qualifier) :=
  [([], .none), ([chr 'h'], .h), ([chr 'l'], .l), ([chr 'L'], .L), ([chr 'Z'], .Z)]

theorem scanWidth_digits {ds : List Byte} {c : Byte} (hds : ∀ d ∈ ds, isdigit d = true)
    (hc : isdigit c = false) (fmt : List Byte) :
    scanWidth (cstr (ds ++ c :: fmt))
      = some (if ds = [] then none else some (i32 (decimal ds)), cstr (c :: fmt)) := by
  have hstop : ¬ isdigit c = true := by simp [hc]
  cases ds with
  | nil => exact if_neg hstop
  | cons d ds =>
    have hread := skipAtoi_digits hds hc fmt
    rw [cstr, List.cons_append, List.cons_append] at hread ⊢
    rw [scanWidth, if_pos (hds d List.mem_cons_self), hread, if_neg (List.cons_ne_nil d ds),
      Option.map_some]

/-- The conversion characters. -/
def scanConversions : List Byte := chrs ['c', 's', 'n', 'o', 'x', 'X', 'd', 'i', 'u']

theorem scanQualifier_text {qs : List Byte} {q : Qualifier} {c : Byte}
    (hq : (qs, q) ∈ scanQualifiers) (hc : c ∈ scanConversions) (fmt : List Byte) :
    scanQualifier (qs ++ c :: fmt) = some (q, c :: fmt) := by
  have hne : ∀ c ∈ scanConversions, c ≠ chr 'h' ∧ c ≠ chr 'l' ∧ c ≠ chr 'L' ∧ c ≠ chr 'Z' := by
    decide
  obtain ⟨hh, hl, hL, hZ⟩ := hne c hc
  simp only [scanQualifiers, List.mem_cons, Prod.mk.injEq, List.not_mem_nil, or_false] at hq
  rcases hq with ⟨rfl, rfl⟩ | ⟨rfl, rfl⟩ | ⟨rfl, rfl⟩ | ⟨rfl, rfl⟩ | ⟨rfl, rfl⟩
  · rw [List.nil_append, scanQualifier, if_neg hh, if_neg hl, if_neg hL, if_neg hZ]
  all_goals rfl

/-- **A directive that is written is found**: the digits of a width, a qualifier, and a conversion
character. -/
theorem scanItems_written {ds qs fmt : List Byte} {q : Qualifier} {c : Byte}
    (hds : ∀ d ∈ ds, isdigit d = true) (hq : (qs, q) ∈ scanQualifiers) (hc : c ∈ scanConversions) :
    scanItems (cstr (chr '%' :: (ds ++ (qs ++ c :: fmt))))
      = .written (if ds = [] then none else some (decimal ds)) q c :: scanItems (cstr fmt) := by
  have hletter : ∀ c ∈ scanConversions, isdigit c = false ∧ c ≠ 0 ∧ c ≠ chr '*' := by decide
  have hqualifier : ∀ x ∈ scanQualifiers, ∀ c ∈ x.1, isdigit c = false ∧ c ≠ chr '*' := by decide
  obtain ⟨hdigit, h0, hstar⟩ := hletter c hc
  -- the character behind the digits
  obtain ⟨d, r, hr, hd, hd'⟩ : ∃ d r,
      qs ++ c :: fmt = d :: r ∧ isdigit d = false ∧ d ≠ chr '*' := by
    cases qs with
    | nil => exact ⟨c, fmt, rfl, hdigit, hstar⟩
    | cons d qs => exact ⟨d, qs ++ c :: fmt, rfl, hqualifier _ hq d List.mem_cons_self⟩
  have hwidth := scanWidth_digits hds hd r
  rw [← hr] at hwidth
  have hread : readDirective (cstr (ds ++ (qs ++ c :: fmt)))
      = some (.written (if ds = [] then none else some (decimal ds)) q c, cstr fmt) := by
    have hq' := scanQualifier_text hq hc (cstr fmt)
    have hcstr : cstr (qs ++ c :: fmt) = qs ++ c :: cstr fmt := by simp [cstr]
    rw [readDirective, scanModifiers, Scanner.bind, Scanner.bind, hwidth, hcstr]
    simp only [Option.bind_some, Scanner.bind, hq', Scanner.pure, readConversion, if_neg h0,
      ScanItem.written]
    split_ifs <;> rfl
  have hhead : (cstr (ds ++ (qs ++ c :: fmt))).head? ≠ some (chr '*') := by
    rw [hr]
    cases ds with
    | nil => simpa [cstr] using hd'
    | cons e ds =>
      have he : e ≠ chr '*' := by
        rintro rfl
        exact absurd (hds _ List.mem_cons_self) (by decide)
      simpa [cstr] using he
  refine scanItems_cons (by decide) (zero_mem_cstr _) ?_
  rw [readItem, if_neg (by decide), if_neg (by decide)]
  exact (if_neg hhead).trans hread

/-! ## Where a directive is run -/

variable {buf input fmt t : List Byte} {args : Args} {pre post : List ScanItem} {q : Qualifier}
  {s : Scan} {i : ScanItem}

/-- A conversion, suppressed ones apart. -/
def ScanItem.isConversion : ScanItem → Bool
  | .directive _ _ _ => true
  | .cutoff _ => true
  | _ => false

theorem ScanItem.run_fieldWidth (hi : i.isConversion = false) {b : Bool} {s' : Scan}
    (h : i.run buf s = some (b, s')) : s'.fieldWidth = s.fieldWidth := by
  cases i with
  | directive width q c => contradiction
  | cutoff width => contradiction
  | _ =>
    obtain ⟨str, -, hs⟩ := Option.map_eq_some_iff.mp h
    rw [← (Prod.mk.inj hs).2]

/-- Only conversions touch `field_width`. -/
theorem runScan_fieldWidth (hpre : ∀ i ∈ pre, i.isConversion = false) {inPass b : Bool} {s' : Scan}
    (h : runScan buf pre inPass s = some (b, s')) : s'.fieldWidth = s.fieldWidth := by
  induction pre generalizing s inPass with
  | nil => rw [← (Prod.mk.inj (Option.some.inj h)).2]
  | cons i pre ih =>
    obtain ⟨d, -, h⟩ := Option.bind_eq_some_iff.mp h
    split_ifs at h
    · rw [← (Prod.mk.inj (Option.some.inj h)).2]
    · obtain ⟨⟨b', s₁⟩, hi, h⟩ := Option.bind_eq_some_iff.mp h
      have hs₁ := ScanItem.run_fieldWidth (hpre i List.mem_cons_self) hi
      split_ifs at h
      · exact (ih (fun j hj ↦ hpre j (List.mem_cons_of_mem _ hj)) h).trans hs₁
      · rw [← (Prod.mk.inj (Option.some.inj h)).2, hs₁]

/-- What a scan has left when it comes to the end of some of the items of its format. -/
theorem runScan_left (hinput : 0 ∉ input) (hfmt : scanItems (cstr fmt) = pre ++ post)
    (hscan : runScan (cstr input) pre false ⟨cstr input, args, 0, -1, []⟩ = some (true, s)) :
    ∃ t, t <:+ input ∧ s.At t ∧ 0 ∉ t := by
  have hneg : IsInt (-1) := ⟨by decide, by decide⟩
  have hstart : (⟨cstr input, args, 0, -1, []⟩ : Scan).At input := ⟨rfl, hneg⟩
  have hwidth : ∀ i ∈ pre, i.IntWidth := fun i hi ↦
    scanItems_intWidth (cstr fmt) i (by rw [hfmt]; exact List.mem_append_left _ hi)
  obtain ⟨b, s', hrun, hb⟩ := runScan_text (cstr input) false hstart hinput hwidth
  obtain ⟨rfl, rfl⟩ := Prod.mk.inj (Option.some.inj (hscan.symm.trans hrun))
  obtain ⟨t, ht, hat⟩ := hb rfl
  exact ⟨t, ht, hat, fun h ↦ hinput (ht.subset h)⟩

/-- It is enough to look at a directive when nothing has been stored. -/
theorem ScanItem.run_eq_after (buf : List Byte) (hs : s.str = cstr t) (i : ScanItem) : i.run buf s
    = (i.run buf ⟨cstr t, s.args, 0, s.fieldWidth, []⟩).map fun x ↦
        (x.1, x.2.after s.num s.writes) :=
  (congrArg (i.run buf) (s.eq_after hs)).trans (i.run_after _)

/-! ## `%c` -/

/-- In front of the text `t`, the item stores the next `n` characters of it, or as many as there
are, through the next pointer, and goes on behind them. -/
def ScanItem.TakesNext (buf : List Byte) (i : ScanItem) (n : ℕ) (t : List Byte) (s : Scan) : Prop :=
  ∃ b s', i.run buf s = some (b, s') ∧ s'.str = cstr (t.drop n) ∧
    s'.writes = s.writes ++ if t = [] then [] else [(s.args.head, t.take n)]

/-- One more than the field width. -/
theorem charCount_eq_iff {w : ℕ} (hw : 1 ≤ w) (n : ℕ) :
    charCount (charWidth (i32 w)) n = min w n ↔
      n ≤ w ∧ (w < 2 ^ 31 ∨ n ≤ (charWidth (i32 w)).toNat + 1) := by
  obtain ⟨hlo, hhi⟩ := i32_range w
  rw [charCount, charWidth]
  by_cases hint : w < 2 ^ 31
  · have hself : i32 w = w := i32_of_range (by omega) (by omega)
    rw [hself, if_neg (by omega)]
    omega
  · have hne : i32 w ≠ 2 ^ 31 - 1 ∨ 2 ^ 31 < w := by
      rw [i32, Int.bmod_def]
      omega
    split_ifs with hneg
    · omega
    · omega

/-- **`%c` keeps to its width** `w`, or to the single character that it takes without one, exactly
when no more characters than that are left.  (For a width that is not an `int`, `skip_atoi` makes
another one of it, and that one counts as well.) -/
theorem chars_exact_iff {width : Option ℕ} (hinput : 0 ∉ input)
    (hfmt : scanItems (cstr fmt) = pre ++ .written width q (chr 'c') :: post)
    (hfirst : width = none → ∀ i ∈ pre, i.isConversion = false) (hpos : width ≠ some 0)
    (hscan : runScan (cstr input) pre false ⟨cstr input, args, 0, -1, []⟩ = some (true, s)) :
    ∃ t, t <:+ input ∧ s.str = cstr t ∧
      ((ScanItem.written width q (chr 'c')).TakesNext (cstr input) (width.getD 1) t s ↔
        t.length ≤ width.getD 1 ∧
          (width.getD 1 < 2 ^ 31 ∨ t.length ≤ (charWidth (i32 (width.getD 1))).toNat + 1)) := by
  obtain ⟨t, ht, hat, h0⟩ := runScan_left hinput hfmt hscan
  refine ⟨t, ht, hat.str_eq, ?_⟩
  have hrun := ScanItem.run_eq_after (cstr input) hat.str_eq (.written width q (chr 'c'))
  have hone : 1 ≤ width.getD 1 := by
    cases width with
    | none => exact le_rfl
    | some w => exact Nat.one_le_iff_ne_zero.mpr fun h ↦ hpos (congrArg some h)
  -- the field width it runs with
  have hint : IsInt ((width.map fun w : ℕ ↦ i32 w).getD s.fieldWidth) := by
    cases width with
    | none =>
      rw [Option.map_none, Option.getD_none]
      exact hat.isInt
    | some w =>
      rw [Option.map_some, Option.getD_some]
      exact isInt_i32 w
  have hwidth : charWidth ((width.map fun w : ℕ ↦ i32 w).getD s.fieldWidth)
      = charWidth (i32 (width.getD 1)) := by
    cases width with
    | none =>
      have hsingle : charWidth (-1) = charWidth (i32 (1 : ℕ)) := by decide
      rw [Option.map_none, Option.getD_none, runScan_fieldWidth (hfirst rfl) hscan]
      exact hsingle
    | some w => rw [Option.map_some, Option.getD_some, Option.getD_some]
  rw [← charCount_eq_iff hone]
  by_cases htne : t = []
  · subst htne
    refine iff_of_true ⟨false, _, hrun, ?_, ?_⟩ ?_ 
    · simp [Scan.after]
    · simp [Scan.after]
    · simp [charCount]
  rw [ScanItem.written, ScanItem.run_chars htne h0 _ q hint, hwidth] at hrun
  constructor
  · rintro ⟨b, s', hs', hstr, -⟩
    obtain ⟨rfl, rfl⟩ := Prod.mk.inj (Option.some.inj (hrun.symm.trans hs'))
    have hlen := congrArg List.length hstr
    simp only [Scan.after, cstr, List.length_append, List.length_drop] at hlen
    have := charCount_le (charWidth (i32 (width.getD 1))) t.length
    omega
  · intro hcount
    refine ⟨true, _, hrun, ?_, ?_⟩
    · simp only [Scan.after, hcount, ← List.drop_eq_drop_min]
    · simp only [Scan.after, hcount, ← List.take_eq_take_min, if_neg htne]

/-- The theorem for `%2c` and the input `ab`. -/
theorem chars_exact_ab : (ScanItem.written (some 2) .none (chr 'c')).TakesNext
    (cstr (chrs ['a', 'b'])) 2 (chrs ['a', 'b'])
    ⟨cstr (chrs ['a', 'b']), Stream'.const 0, 0, -1, []⟩ := by
  have hfmt : scanItems (cstr (chrs ['%', '2', 'c']))
      = [] ++ .written (some 2) .none (chr 'c') :: [] :=
    @scanItems_written (chrs ['2']) [] [] .none (chr 'c') (by decide) List.mem_cons_self (by decide)
  have hinput : 0 ∉ chrs ['a', 'b'] := by decide
  have hscan : runScan (cstr (chrs ['a', 'b'])) [] false
      ⟨cstr (chrs ['a', 'b']), Stream'.const 0, 0, -1, []⟩ = some (true, _) := rfl
  obtain ⟨t, -, hstr, hiff⟩ := chars_exact_iff hinput hfmt (by simp) (by decide) hscan
  obtain rfl : chrs ['a', 'b'] = t := List.append_cancel_right hstr
  exact hiff.mpr ⟨by decide, .inl (by decide)⟩

/-- **`%c` stores two characters** of the input `ab`. -/
theorem not_takesNext_ab :
    vsscanf (cstr (chrs ['a', 'b'])) (cstr (chrs ['%', 'c'])) (Stream'.const 0)
      = some (1, [(0, chrs ['a', 'b'])]) ∧
    scanItems (cstr (chrs ['%', 'c'])) = [.written none .none (chr 'c')] ∧
    ¬ (ScanItem.written none .none (chr 'c')).TakesNext (cstr (chrs ['a', 'b'])) 1
      (chrs ['a', 'b']) ⟨cstr (chrs ['a', 'b']), Stream'.const 0, 0, -1, []⟩ := by
  refine ⟨by decide +kernel, by decide +kernel, ?_⟩
  rintro ⟨b, s', hrun, hstr, -⟩
  have hall : ((ScanItem.written none .none (chr 'c')).run (cstr (chrs ['a', 'b']))
      ⟨cstr (chrs ['a', 'b']), Stream'.const 0, 0, -1, []⟩).map (fun x ↦ x.2.str) = some [0] := by
    decide +kernel
  rw [hrun, Option.map_some, hstr] at hall
  exact absurd hall (by decide)

/-! ## `%s` and the integers -/

/-- What a conversion stores of a text of its own; an integer conversion needs a digit. -/
def fieldBytes (q : Qualifier) (c : Byte) (u : List Byte) : Option (List Byte) :=
  if c = chr 's' then some (cstr (u.takeWhile isGraphic))
  else (scanBase c).bind fun x ↦
    if u.head?.any isdigit then
      some (storedBytes (BitVec.ofNat q.bits
        (numeral hexValue x.1.toNat (numeralRun hexValue x.1.toNat u))))
    else none

/-- What it leaves of the text. -/
def fieldRest (c : Byte) (u : List Byte) : List Byte :=
  if c = chr 's' then u.dropWhile isGraphic
  else (scanBase c).elim u fun x ↦ numeralRest hexValue x.1.toNat u

/-- In front of the text `t`, the conversion does what it makes of the first `w` characters
behind the white space, and goes on behind what that takes. -/
def TakesField (buf : List Byte) (w : ℕ) (q : Qualifier) (c : Byte) (t : List Byte) (s : Scan) :
    Prop :=
  let u := t.dropWhile isspace
  match if t = [] then none else fieldBytes q c (u.take w) with
  | none => ∃ s', (ScanItem.written (some w) q c).run buf s = some (false, s') ∧
      s'.writes = s.writes
  | some bytes => ∃ s', (ScanItem.written (some w) q c).run buf s = some (true, s') ∧
      s'.writes = s.writes ++ [(s.args.head, bytes)] ∧
      s'.str = cstr (fieldRest c (u.take w) ++ u.drop w)

/-- What stands behind the white space fits the width: for an integer, all digits of the number;
for a string, what `skip_atoi` makes of a width that is too large. -/
def FitsWidth (w : ℕ) (c : Byte) (u : List Byte) : Prop :=
  if c = chr 's' then
    w < 2 ^ 32 - 1 ∨ (u.takeWhile isGraphic).length ≤ (wordWidth (i32 w) % 2 ^ 32).toNat
  else ∀ x, scanBase c = some x → u.head?.any isdigit = true →
    (numeralRun hexValue x.1.toNat u).length ≤ w

/-- **An integer conversion stores the number** that stands in front of it. -/
theorem scanInteger_numeral {base : Word} (hbase : base ≠ 0) (q : Qualifier) (isSign : Bool)
    {u : List Byte} (hu : u.head?.any isdigit = true) : scanInteger q isSign base (cstr u)
      = some (storedBytes (BitVec.ofNat q.bits
          (numeral hexValue base.toNat (numeralRun hexValue base.toNat u))),
        cstr (numeralRest hexValue base.toNat u)) := by
  have hnat : base.toNat ≠ 0 := fun h ↦ hbase (BitVec.eq_of_toNat_eq h)
  obtain ⟨d, t, rfl⟩ : ∃ d t, u = d :: t := by
    cases u with
    | nil => contradiction
    | cons d t => exact ⟨d, t, rfl⟩
  have hsign : scanInteger q isSign base (cstr (d :: t)) =
      scanInteger q false base (cstr (d :: t)) := by
    cases isSign with
    | false => rfl
    | true => exact scanInteger_sign hu q base _
  obtain ⟨hl, hL, -⟩ := strto_grammar base (d :: t)
  rw [parsedValue, parsedRest, parsedBase, if_pos hnat] at hl hL
  have hcut (n : ℕ) : (BitVec.ofNat 32 n).setWidth 16 = BitVec.ofNat 16 n :=
    BitVec.setWidth_ofNat_of_le (by decide) n
  rw [hsign]
  cases q <;> simp [scanInteger, hl, hL, hcut, Qualifier.bits]

theorem scanBase_ne {c x : Byte} (hx : scanBase x = none) (hc : (scanBase c).isSome = true) :
    c ≠ x := by
  rintro rfl
  rw [hx] at hc
  contradiction

/-- What an integer conversion does behind the white space. -/
theorem ScanItem.run_integer {c : Byte} {base : Word} {isSign : Bool}
    (hbase : scanBase c = some (base, isSign)) (ht : t ≠ []) (h0 : 0 ∉ t) (width : Option Int)
    (q : Qualifier) {w : Int} {u : List Byte} (hu : u = t.dropWhile isspace) :
    (ScanItem.directive width q c).run buf ⟨cstr t, args, 0, w, []⟩
      = if u.head?.any isdigit then
          some (true, ⟨cstr (numeralRest hexValue base.toNat u), args.tail, 1, width.getD w,
            [(args.head, storedBytes (BitVec.ofNat q.bits
              (numeral hexValue base.toNat (numeralRun hexValue base.toNat u))))]⟩)
        else some (false, ⟨cstr u, args, 0, width.getD w, []⟩) := by
  have hsome : (scanBase c).isSome = true := by rw [hbase, Option.isSome_some]
  rw [ScanItem.run_directive ht h0 _ _ _ rfl, scanConvert_integer (scanBase_ne rfl hsome)
    (scanBase_ne rfl hsome) (scanBase_ne rfl hsome) (scanBase_ne rfl hsome), hbase]
  simp only [skipSpace_cstr, ← hu, Option.bind_some, cstr_head?]
  by_cases hd : u.head?.any isdigit = true
  · have hgo : ¬ (u.headD 0 = 0 ∨ isdigit (u.headD 0) = false) := by
      obtain ⟨d, r, rfl⟩ := List.exists_cons_of_ne_nil (l := u) (by rintro rfl; contradiction)
      exact isdigit_goOn hd
    rw [if_neg hgo, if_pos hd, scanInteger_numeral (scanBase_ne_zero hbase) q isSign hd]
    rfl
  · have hstop : u.headD 0 = 0 ∨ isdigit (u.headD 0) = false := by
      cases u with
      | nil => exact .inl rfl
      | cons d r => exact .inr (Bool.not_eq_true _ ▸ hd)
    rw [if_pos hstop, if_neg hd]

/-- The characters `%s` takes are those of its width, as long as `skip_atoi` makes no other one of
it. -/
theorem wordCount_eq_iff (w n : ℕ) : wordCount (wordWidth (i32 w)) n = min w n ↔
    w < 2 ^ 32 - 1 ∨ n ≤ (wordWidth (i32 w) % 2 ^ 32).toNat := by
  have hword : (wordWidth (i32 w) % 2 ^ 32).toNat
      = if w % 2 ^ 32 = 2 ^ 32 - 1 then 2 ^ 31 - 1 else w % 2 ^ 32 := by
    rw [wordWidth, INT_MAX, i32, Int.bmod_def]
    split_ifs <;> omega
  rw [wordCount, hword]
  split_ifs <;> omega

theorem cstr_drop_inj {u : List Byte} {k m : ℕ} (hk : k ≤ u.length) (hm : m ≤ u.length) :
    cstr (u.drop k) = cstr (u.drop m) ↔ k = m := by
  constructor
  · intro h
    have hlen := congrArg List.length h
    simp only [cstr, List.length_append, List.length_drop] at hlen
    omega
  · rintro rfl
    rfl

/-- Behind a run that stores something and goes on. -/
theorem takesField_iff {w : ℕ} {c : Byte} (ht : t ≠ []) {u bytes : List Byte}
    (hu : u = t.dropWhile isspace) (hbytes : fieldBytes q c (u.take w) = some bytes) {s' : Scan}
    (hrun : (ScanItem.written (some w) q c).run buf s = some (true, s')) :
    TakesField buf w q c t s ↔ s'.writes = s.writes ++ [(s.args.head, bytes)] ∧
      s'.str = cstr (fieldRest c (u.take w) ++ u.drop w) := by
  rw [TakesField, if_neg ht, ← hu, hbytes, hrun]
  constructor
  · rintro ⟨s'', hs'', hwrites, hstr⟩
    obtain ⟨-, rfl⟩ := Prod.mk.inj (Option.some.inj hs'')
    exact ⟨hwrites, hstr⟩
  · exact fun h ↦ ⟨s', rfl, h⟩

/-- **What a string conversion does** with its width. -/
theorem word_within_iff (ht : t ≠ []) (h0 : 0 ∉ t) (hs : s.str = cstr t) (w : ℕ) (q : Qualifier) :
    TakesField buf w q (chr 's') t s ↔ FitsWidth w (chr 's') (t.dropWhile isspace) := by
  set u := t.dropWhile isspace with hu
  have hrun := ScanItem.run_eq_after buf hs (.written (some w) q (chr 's'))
  have hint : IsInt ((some (i32 w)).getD s.fieldWidth) := by
    rw [Option.getD_some]
    exact isInt_i32 w
  rw [ScanItem.written, Option.map_some, ScanItem.run_word ht h0 _ q hint hu rfl,
    Option.getD_some] at hrun
  have hlen : (u.takeWhile isGraphic).length ≤ u.length := (List.takeWhile_prefix _).length_le
  have hfit : FitsWidth w (chr 's') u ↔ wordCount (wordWidth (i32 w)) (u.takeWhile isGraphic).length
      = min w (u.takeWhile isGraphic).length := by
    rw [FitsWidth, if_pos rfl]
    exact (wordCount_eq_iff w _).symm
  rw [hfit, takesField_iff ht hu (if_pos rfl) hrun, fieldRest, if_pos rfl, dropWhile_take_append]
  simp only [Scan.after]
  rw [cstr_drop_inj ((wordCount_le _ _).trans hlen) ((min_le_right _ _).trans hlen)]
  refine and_iff_right_of_imp fun hcount ↦ ?_
  rw [hcount, ← List.take_take, ← List.prefix_iff_eq_take.mp (List.takeWhile_prefix isGraphic),
    List.take_takeWhile]

/-- **What an integer conversion does** with its width. -/
theorem integer_within_iff {c : Byte} {base : Word} {isSign : Bool}
    (hbase : scanBase c = some (base, isSign)) (ht : t ≠ []) (h0 : 0 ∉ t) (hs : s.str = cstr t)
    {w : ℕ} (hw : 1 ≤ w) (q : Qualifier) :
    TakesField buf w q c t s ↔ FitsWidth w c (t.dropWhile isspace) := by
  set u := t.dropWhile isspace with hu
  have hsome : (scanBase c).isSome = true := by rw [hbase, Option.isSome_some]
  have hrun := ScanItem.run_eq_after buf hs (.written (some w) q c)
  rw [ScanItem.written, ScanItem.run_integer hbase ht h0 _ q hu] at hrun
  have hhead : (u.take w).head?.any isdigit = u.head?.any isdigit := by
    rw [List.head?_take, if_neg (by omega)]
  have hfit : FitsWidth w c u ↔
      (u.head?.any isdigit = true → (numeralRun hexValue base.toNat u).length ≤ w) := by
    rw [FitsWidth, if_neg (scanBase_ne rfl hsome), hbase]
    simp
  rw [hfit]
  have hfield : fieldBytes q c (u.take w) = if u.head?.any isdigit then
      some (storedBytes (BitVec.ofNat q.bits
        (numeral hexValue base.toNat (numeralRun hexValue base.toNat (u.take w))))) else none := by
    rw [fieldBytes, if_neg (scanBase_ne rfl hsome), hbase, Option.bind_some, hhead]
  by_cases hd : u.head?.any isdigit = true
  · rw [if_pos hd] at hrun hfield
    have hlen : (numeralRun hexValue base.toNat u).length ≤ u.length :=
      (List.takeWhile_prefix _).length_le
    rw [takesField_iff ht hu hfield hrun, fieldRest, if_neg (scanBase_ne rfl hsome), hbase,
      Option.elim_some, numeralRest_take, numeralRun_take]
    simp only [Scan.after]
    rw [numeralRest_eq_drop, cstr_drop_inj hlen ((min_le_right _ _).trans hlen),
      forall_prop_of_true hd]
    constructor
    · rintro ⟨-, hcut⟩
      omega
    · intro hle
      rw [List.take_of_length_le hle]
      exact ⟨rfl, (min_eq_right hle).symm⟩
  · rw [if_neg hd] at hrun hfield
    refine iff_of_true ?_ fun h ↦ absurd h hd
    rw [TakesField, if_neg ht, ← hu, hfield]
    exact ⟨_, hrun, List.append_nil _⟩

/-- **A width is kept to** by `%s`, and by an integer conversion exactly when no more digits stand
there. -/
theorem field_within_iff {w : ℕ} {c : Byte} (hc : c = chr 's' ∨ (scanBase c).isSome = true)
    (hw : 1 ≤ w) (hinput : 0 ∉ input)
    (hfmt : scanItems (cstr fmt) = pre ++ .written (some w) q c :: post)
    (hscan : runScan (cstr input) pre false ⟨cstr input, args, 0, -1, []⟩ = some (true, s)) :
    ∃ t, t <:+ input ∧ s.str = cstr t ∧
      (TakesField (cstr input) w q c t s ↔ FitsWidth w c (t.dropWhile isspace)) := by
  obtain ⟨t, ht, hat, h0⟩ := runScan_left hinput hfmt hscan
  refine ⟨t, ht, hat.str_eq, ?_⟩
  by_cases htne : t = []
  · subst htne
    have hrun := ScanItem.run_eq_after (cstr input) hat.str_eq (.written (some w) q c)
    refine iff_of_true ⟨_, hrun, List.append_nil _⟩ ?_
    rw [FitsWidth]
    split_ifs <;> simp
  rcases hc with rfl | hc
  · exact word_within_iff htne h0 hat.str_eq w q
  · obtain ⟨⟨base, isSign⟩, hbase⟩ := Option.isSome_iff_exists.mp hc
    exact integer_within_iff hbase htne h0 hat.str_eq hw q

/-- The theorem for `%2d` and the input `12`. -/
theorem field_within_12 : TakesField (cstr (chrs ['1', '2'])) 2 .none (chr 'd') (chrs ['1', '2'])
    ⟨cstr (chrs ['1', '2']), Stream'.const 0, 0, -1, []⟩ := by
  have hfmt : scanItems (cstr (chrs ['%', '2', 'd']))
      = [] ++ .written (some 2) .none (chr 'd') :: [] :=
    @scanItems_written (chrs ['2']) [] [] .none (chr 'd') (by decide) List.mem_cons_self (by decide)
  have hinput : 0 ∉ chrs ['1', '2'] := by decide
  have hscan : runScan (cstr (chrs ['1', '2'])) [] false
      ⟨cstr (chrs ['1', '2']), Stream'.const 0, 0, -1, []⟩ = some (true, _) := rfl
  obtain ⟨t, -, hstr, hiff⟩ := field_within_iff (.inr rfl) (by decide) hinput hfmt hscan
  obtain rfl : chrs ['1', '2'] = t := List.append_cancel_right hstr
  refine hiff.mpr fun x hx _ ↦ ?_
  obtain rfl := Option.some.inj hx
  decide +kernel

/-- **`%2d` stores 123** of the input `123`. -/
theorem not_takesField_123 :
    vsscanf (cstr (chrs ['1', '2', '3'])) (cstr (chrs ['%', '2', 'd'])) (Stream'.const 0)
      = some (1, [(0, storedBytes (123 : Word))]) ∧
    scanItems (cstr (chrs ['%', '2', 'd'])) = [.written (some 2) .none (chr 'd')] ∧
    ¬ TakesField (cstr (chrs ['1', '2', '3'])) 2 .none (chr 'd') (chrs ['1', '2', '3'])
      ⟨cstr (chrs ['1', '2', '3']), Stream'.const 0, 0, -1, []⟩ := by
  refine ⟨by decide +kernel, by decide +kernel, ?_⟩
  rintro ⟨s', hrun, -, hstr⟩
  have hall : ((ScanItem.written (some 2) .none (chr 'd')).run (cstr (chrs ['1', '2', '3']))
      ⟨cstr (chrs ['1', '2', '3']), Stream'.const 0, 0, -1, []⟩).map (fun x ↦ x.2.str)
      = some [0] := by
    decide +kernel
  rw [hrun, Option.map_some, hstr] at hall
  exact absurd hall (by decide +kernel)

end PastaOS
