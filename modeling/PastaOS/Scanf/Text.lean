import Mathlib.Data.List.TakeWhile
import PastaOS.Scanf.Defs

/-!
# What the scanner takes off a text

The helpers of `vsscanf` read a string up to its NUL.  On a text that is followed by its NUL they
succeed, and this file says what they take and what they leave in terms of the text: `%c` a number
of characters that the field width limits (`charCount`), `%s` as much of a word (`wordCount`), and
an integer conversion a numeral (`isNumeral`).
-/

set_option autoImplicit false

namespace PastaOS

variable {t : List Byte} {w : Int}

theorem sub_natCast_succ (w : Int) (n : ℕ) : w - ((n + 1 : ℕ) : Int) = w - 1 - n := by
  omega

/-! ## Words and white space -/

theorem skipSpace_cstr (t : List Byte) :
    skipSpace (cstr t) = some (cstr (t.dropWhile isspace)) := by
  induction t with
  | nil => rfl
  | cons c t ih =>
    rw [cstr, List.cons_append, skipSpace]
    by_cases hc : isspace c = true
    · rw [if_pos hc, List.dropWhile_cons_of_pos hc]
      exact ih
    · rw [if_neg hc, List.dropWhile_cons_of_neg hc]
      rfl

/-- A character of a word. -/
def isGraphic (c : Byte) : Bool := !isspace c

theorem skipWord_cstr (h0 : 0 ∉ t) : skipWord (cstr t) = some (cstr (t.dropWhile isGraphic)) := by
  induction t with
  | nil => rfl
  | cons c t ih =>
    rw [List.mem_cons, not_or] at h0
    rw [cstr, List.cons_append, skipWord, List.dropWhile_cons, isGraphic]
    cases isspace c with
    | true => rfl
    | false =>
      rw [if_pos ⟨rfl, Ne.symm h0.1⟩]
      exact ih h0.2

/-! ## `%c` -/

/-- The number of characters, out of `n`, that `%c` takes for the field width `w`. -/
def charCount (w : Int) (n : ℕ) : ℕ := min (w.toNat + 1) n

/-- The field width that `%c` leaves behind. -/
def charLeft (w : Int) (n : ℕ) : Int := i32 (w - charCount w n)

/-- A character in front of others, for a positive field width. -/
theorem copyChars_cons {c : Byte} (hw : 0 < w) (ht : t ≠ []) (h0 : 0 ∉ t) :
    copyChars w (cstr (c :: t))
      = (copyChars (i32 (w - 1)) (cstr t)).map fun x ↦ (c :: x.1, x.2) := by
  obtain ⟨d, t, rfl⟩ := List.exists_cons_of_ne_nil ht
  have hd : d ≠ 0 := fun h ↦ h0 (h ▸ List.mem_cons_self)
  rw [cstr, cstr, List.cons_append, List.cons_append, copyChars]
  simp only [if_pos (And.intro hw hd), Option.bind_eq_bind]
  cases copyChars (i32 (w - 1)) (d :: (t ++ [0])) <;> rfl

theorem copyChars_cstr (hw : IsInt w) (ht : t ≠ []) (h0 : 0 ∉ t) :
    copyChars w (cstr t) = some (t.take (charCount w t.length), charLeft w t.length,
      cstr (t.drop (charCount w t.length))) := by
  induction t generalizing w with
  | nil => exact absurd rfl ht
  | cons c t ih =>
    rw [List.mem_cons, not_or] at h0
    by_cases hgo : 0 < w ∧ t ≠ []
    · have hstep : i32 (w - 1) = w - 1 := i32_of_range (by omega) (by linarith [hw.2])
      have hcount : charCount w (t.length + 1) = charCount (w - 1) t.length + 1 := by
        rw [charCount, charCount]
        omega
      rw [copyChars_cons hgo.1 hgo.2 h0.2, hstep, ih ⟨by omega, by linarith [hw.2]⟩ hgo.2 h0.2,
        List.length_cons, charLeft, charLeft, hcount, sub_natCast_succ, List.take_succ_cons,
        List.drop_succ_cons, Option.map_some]
    · have hcount : charCount w (t.length + 1) = 1 := by
        rw [charCount]
        by_cases hpos : 0 < w
        · have hnil : t = [] := by
            by_contra ht'
            exact hgo ⟨hpos, ht'⟩
          rw [hnil, List.length_nil]
          omega
        · omega
      rw [List.length_cons, charLeft, hcount, cstr, List.cons_append]
      cases t with
      | nil => simp [copyChars, cstr]
      | cons d t =>
        have hstop : ¬ (0 < w ∧ d ≠ 0) := fun h ↦ hgo ⟨h.1, List.cons_ne_nil d t⟩
        rw [List.cons_append, copyChars]
        simp only [if_neg hstop]
        rfl

/-! ## `%s` -/

/-- The number of characters, out of `n`, that `%s` takes for the field width `w`: `field_width--`
does not come to 0 before it has been around. -/
def wordCount (w : Int) (n : ℕ) : ℕ := min (w % 2 ^ 32).toNat n

/-- The field width that `%s` leaves behind. -/
def wordLeft (w : Int) (n : ℕ) : Int := if wordCount w n < n then -1 else i32 (w - n)

theorem wordCount_step (hw : IsInt w) (hne : w ≠ 0) (n : ℕ) :
    wordCount w (n + 1) = wordCount (i32 (w - 1)) n + 1 ∧
      wordLeft w (n + 1) = wordLeft (i32 (w - 1)) n := by
  have hmod : (w % 2 ^ 32).toNat = (i32 (w - 1) % 2 ^ 32).toNat + 1 := by
    obtain ⟨hlo, hhi⟩ := hw
    rw [i32_emod]
    omega
  have hcount : wordCount w (n + 1) = wordCount (i32 (w - 1)) n + 1 := by
    rw [wordCount, wordCount, hmod]
    omega
  refine ⟨hcount, ?_⟩
  rw [wordLeft, wordLeft, hcount, i32_i32_sub, sub_natCast_succ]
  simp only [Nat.add_lt_add_iff_right]

theorem copyWord_cstr (hw : IsInt w) (h0 : 0 ∉ t) {n : ℕ}
    (hn : n = (t.takeWhile isGraphic).length) : copyWord w (cstr t)
      = some (t.take (wordCount w n), wordLeft w n, cstr (t.drop (wordCount w n))) := by
  induction t generalizing w n with
  | nil =>
    obtain rfl : n = 0 := hn
    simp [copyWord, cstr, wordCount, wordLeft, hw.i32_eq]
  | cons c t ih =>
    rw [List.mem_cons, not_or] at h0
    rw [cstr, List.cons_append, copyWord]
    cases hc : isspace c with
    | true =>
      have hg : isGraphic c = false := by rw [isGraphic, hc]; rfl
      obtain rfl : n = 0 := by rw [hn, List.takeWhile_cons, hg]; rfl
      rw [if_pos (.inr rfl)]
      simp [wordCount, wordLeft, hw.i32_eq, cstr]
    | false =>
      have hg : isGraphic c = true := by rw [isGraphic, hc]; rfl
      obtain ⟨m, hm⟩ : ∃ m, m = (t.takeWhile isGraphic).length := ⟨_, rfl⟩
      obtain rfl : n = m + 1 := by rw [hn, hm, List.takeWhile_cons, hg]; rfl
      rw [if_neg (by simpa using Ne.symm h0.1)]
      by_cases hzero : w = 0
      · subst hzero
        simp [wordCount, wordLeft, cstr]
      · obtain ⟨hcount, hleft⟩ := wordCount_step hw hzero m
        have hrec := ih (isInt_i32 (w - 1)) h0.2 hm
        rw [cstr] at hrec
        rw [if_neg hzero, hrec, hcount, hleft]
        rfl

/-! ## Integers -/

/-- A digit of a numeral, or the letter of one. -/
def isNumeral (base : Word) (c : Byte) : Bool := decide (isxdigit c = true ∧ strtoulValue c < base)

theorem strtoullValue_eq (c : Byte) :
    isxdigit c = true → strtoullValue c = (strtoulValue c).setWidth 64 := by
  revert c
  decide +kernel

/-- The two parsers agree on the digits. -/
theorem isNumeral_strtoull (base : Word) (c : Byte) :
    decide (isxdigit c = true ∧ strtoullValue c < base.setWidth 64) = isNumeral base c := by
  refine decide_eq_decide.mpr (and_congr_right fun hc ↦ ?_)
  have hlt (x : Word) : x.toNat % 2 ^ 64 = x.toNat := Nat.mod_eq_of_lt (by have := x.isLt; omega)
  rw [strtoullValue_eq c hc, BitVec.lt_def, BitVec.lt_def, BitVec.toNat_setWidth,
    BitVec.toNat_setWidth, hlt, hlt]

/-- The loop of the parsers stops behind the digits. -/
theorem strtoLoop_cstr {w : ℕ} (value : Byte → BitVec w) (base result : BitVec w) (t : List Byte) :
    ∃ v, strtoLoop value base result (cstr t)
      = some (v, cstr (t.dropWhile fun c ↦ decide (isxdigit c = true ∧ value c < base))) := by
  induction t generalizing result with
  | nil => exact ⟨result, if_neg fun h ↦ absurd h.1 (by decide)⟩
  | cons c t ih =>
    rw [cstr, List.cons_append, strtoLoop, List.dropWhile_cons]
    by_cases hc : isxdigit c = true ∧ value c < base
    · rw [if_pos hc, if_pos (decide_eq_true hc)]
      exact ih _
    · rw [if_neg hc, if_neg (by simpa using hc)]
      exact ⟨result, rfl⟩

section Parsers

variable {base : Word} {c : Byte}

theorem simpleStrtoul_cstr (hne : base ≠ 0) (t : List Byte) :
    ∃ v, simpleStrtoul base (cstr t) = some (v, cstr (t.dropWhile (isNumeral base))) := by
  rw [simpleStrtoul, strto_base hne, BitVec.setWidth_eq]
  exact strtoLoop_cstr strtoulValue base 0 t

theorem simpleStrtoull_cstr (hne : base ≠ 0) (t : List Byte) :
    ∃ v, simpleStrtoull base (cstr t) = some (v, cstr (t.dropWhile (isNumeral base))) := by
  obtain ⟨v, hv⟩ := strtoLoop_cstr strtoullValue (base.setWidth 64) 0 t
  rw [funext (isNumeral_strtoull base)] at hv
  exact ⟨v, by rw [simpleStrtoull, strto_base hne, hv]⟩

/-- A digit is not a sign. -/
theorem strtoSigned_digit {w : ℕ} (value : Byte → BitVec w) (hc : isdigit c = true)
    (cp : List Byte) :
    strtoSigned value base (c :: cp)
      = (strto value base (c :: cp)).map fun x ↦ (x.1.toInt, x.2) := by
  have hminus : c ≠ chr '-' := by
    rintro rfl
    exact absurd hc (by decide)
  rw [strtoSigned, if_neg hminus]

/-- **An integer conversion takes a numeral**, whatever its type. -/
theorem scanInteger_cstr (hne : base ≠ 0) (hc : isdigit c = true)
    (qualifier : Qualifier) (isSign : Bool) (t : List Byte) :
    ∃ bytes, scanInteger qualifier isSign base (cstr (c :: t))
      = some (bytes, cstr ((c :: t).dropWhile (isNumeral base))) := by
  obtain ⟨v, hv⟩ := simpleStrtoul_cstr hne (c :: t)
  obtain ⟨u, hu⟩ := simpleStrtoull_cstr hne (c :: t)
  have hv' : simpleStrtol base (cstr (c :: t))
      = some (v.toInt, cstr ((c :: t).dropWhile (isNumeral base))) := by
    rw [simpleStrtoul] at hv
    rw [simpleStrtol, cstr, List.cons_append, strtoSigned_digit _ hc, ← List.cons_append, ← cstr,
      hv]
    rfl
  have hu' : simpleStrtoll base (cstr (c :: t))
      = some (u.toInt, cstr ((c :: t).dropWhile (isNumeral base))) := by
    rw [simpleStrtoull] at hu
    rw [simpleStrtoll, cstr, List.cons_append, strtoSigned_digit _ hc, ← List.cons_append, ← cstr,
      hu]
    rfl
  cases qualifier <;> cases isSign <;> simp [scanInteger, hv, hu, hv', hu']

end Parsers

/-! ## The conversions -/

section Conversions

variable {buf : List Byte} {s : Scan}

/-- The field width `%c` works with. -/
def charWidth (w : Int) : Int := if w = -1 then 1 else w

/-- The field width `%s` works with. -/
def wordWidth (w : Int) : Int := if w = -1 then INT_MAX else w

theorem scanConvert_char (q : Qualifier) :
    scanConvert buf q (chr 'c') s = (copyChars (charWidth s.fieldWidth) s.str).map fun x ↦
      (true, { s.store x.1 with str := x.2.2, num := s.num + 1, fieldWidth := x.2.1 }) := by
  rw [scanConvert, if_pos rfl, charWidth, Option.map_eq_bind]
  rfl

theorem scanConvert_word (q : Qualifier) :
    scanConvert buf q (chr 's') s = (skipSpace s.str).bind fun str ↦
      (copyWord (wordWidth s.fieldWidth) str).map fun x ↦
        (true,
          { s.store (cstr x.1) with str := x.2.2, num := s.num + 1, fieldWidth := x.2.1 }) := by
  rw [scanConvert, if_neg (by decide), if_pos rfl, wordWidth]
  simp only [Option.map_eq_bind]
  rfl

theorem scanConvert_count (q : Qualifier) :
    scanConvert buf q (chr 'n') s
      = some (true, s.store (storedBytes (BitVec.ofNat 32 (buf.length - s.str.length)))) := rfl

theorem scanConvert_percent (q : Qualifier) :
    scanConvert buf q (chr '%') s = s.str.head?.map fun d ↦
      (decide (d = chr '%'), { s with str := s.str.tail }) := by
  rw [scanConvert, if_neg (by decide), if_neg (by decide), if_neg (by decide), if_pos rfl]
  cases s.str <;> rfl

/-- The conversions of the other characters. -/
theorem scanConvert_integer {c : Byte} (hc : c ≠ chr 'c') (hs : c ≠ chr 's') (hn : c ≠ chr 'n')
    (hpc : c ≠ chr '%') (q : Qualifier) :
    scanConvert buf q c s = match scanBase c with
      | none => some (false, s)
      | some x => (skipSpace s.str).bind fun str ↦ str.head?.bind fun d ↦
          if d = 0 ∨ isdigit d = false then some (false, { s with str := str })
          else (scanInteger q x.2 x.1 str).map fun y ↦
            (true, { s.store y.1 with str := y.2, num := s.num + 1 }) := by
  rw [scanConvert, if_neg hc, if_neg hs, if_neg hn, if_neg hpc]
  simp only [Option.map_eq_bind]
  cases scanBase c <;> rfl

theorem scanBase_ne_zero {c : Byte} {base : Word} {isSign : Bool}
    (h : scanBase c = some (base, isSign)) : base ≠ 0 := by
  rw [scanBase] at h
  split_ifs at h <;> simp only [Option.some.injEq, Prod.mk.injEq] at h <;> rw [← h.1] <;> decide

/-- A digit does not end the scan. -/
theorem isdigit_goOn {d : Byte} (hd : isdigit d = true) : ¬ (d = 0 ∨ isdigit d = false) := by
  rintro (rfl | h)
  · exact absurd hd (by decide)
  · exact Bool.false_ne_true (h.symm.trans hd)

/-- An integer conversion in front of a character that is not white space. -/
theorem scanConvert_base {c d : Byte} {base : Word} {isSign : Bool}
    (hbase : scanBase c = some (base, isSign)) (hspace : isspace d = false) {str : List Byte}
    (hs : s.str = d :: str) (q : Qualifier) :
    scanConvert buf q c s = if d = 0 ∨ isdigit d = false then some (false, s)
      else (scanInteger q isSign base (d :: str)).map fun y ↦
        (true, { s.store y.1 with str := y.2, num := s.num + 1 }) := by
  have hne (x : Byte) (hx : scanBase x = none) : c ≠ x := by
    rintro rfl
    rw [hx] at hbase
    contradiction
  have hskip : skipSpace s.str = some s.str := by
    rw [hs, skipSpace, if_neg (by simp [hspace])]
  have hhead : s.str.head? = some d := by rw [hs]; rfl
  rw [scanConvert_integer (hne _ rfl) (hne _ rfl) (hne _ rfl) (hne _ rfl), hbase]
  simp only [hskip, Option.bind_some, hhead]
  rw [hs, ← hs]

end Conversions

end PastaOS
