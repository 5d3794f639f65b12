import PastaOS.Strings.Compare

/-!
# The orders of strings

`strncmp`, `strcasecmp` and `strncasecmp` order strings lexicographically by their bytes as unsigned
characters.  `strcmp` takes the difference of signed characters: `sameOrder_iff` says when that does
not matter, namely when the first two bytes that differ lie in the same half of the table.
-/

set_option autoImplicit false

namespace PastaOS

variable {s t : List Byte} {p q : Ptr} {n : ℕ} {a b : Byte} {r : Int}

/-- A bound behind the NUL cuts nothing off. -/
theorem cstr_take (hn : s.length < n) : (cstr s).take n = cstr s := by
  refine List.take_of_length_le ?_
  rw [cstr, List.length_append, List.length_singleton]
  exact hn

theorem resultOrder_eq_lt : resultOrder r = .lt ↔ r < 0 := by
  rw [resultOrder]
  split_ifs <;> simp [*]

theorem resultOrder_eq_gt : resultOrder r = .gt ↔ 0 < r := by
  rw [resultOrder]
  split_ifs <;> simp <;> omega

/-! ## `strcmp` and `strncmp` -/

/-- The value of a signed character. -/
theorem toInt_eq_uchar (c : Byte) : c.toInt = uchar c - if c.msb then 256 else 0 := by
  rw [BitVec.toInt_eq_msb_cond, uchar]
  split_ifs <;> simp

/-- The difference of two characters has the same sign, signed and unsigned, when they are in the
same half. -/
theorem resultOrder_signed_iff (a b : Byte) :
    resultOrder (a.toInt - b.toInt) = resultOrder (uchar a - uchar b) ↔ a.msb = b.msb := by
  have hhigh {c : Byte} (hc : c.msb = true) : 128 ≤ uchar c ∧ c.toInt < 0 := by
    have hge := BitVec.toNat_ge_of_msb_true hc
    have hlt := c.isLt
    rw [toInt_eq_uchar, if_pos hc, uchar]
    omega
  have hlow {c : Byte} (hc : c.msb = false) : uchar c < 128 ∧ 0 ≤ c.toInt := by
    have hlt := BitVec.toNat_lt_of_msb_false hc
    rw [toInt_eq_uchar, hc, uchar]
    simp only [Bool.false_eq_true, if_false]
    omega
  cases ha : a.msb with
  | false =>
    cases hb : b.msb with
    | false => simp [toInt_eq_uchar, ha, hb]
    | true =>
      obtain ⟨ha, ha'⟩ := hlow ha
      obtain ⟨hb, hb'⟩ := hhigh hb
      have hgt : resultOrder (a.toInt - b.toInt) = .gt := resultOrder_eq_gt.mpr (by omega)
      have hlt : resultOrder (uchar a - uchar b) = .lt := resultOrder_eq_lt.mpr (by omega)
      simp [hgt, hlt]
  | true =>
    cases hb : b.msb with
    | false =>
      obtain ⟨ha, ha'⟩ := hhigh ha
      obtain ⟨hb, hb'⟩ := hlow hb
      have hlt : resultOrder (a.toInt - b.toInt) = .lt := resultOrder_eq_lt.mpr (by omega)
      have hgt : resultOrder (uchar a - uchar b) = .gt := resultOrder_eq_gt.mpr (by omega)
      simp [hgt, hlt]
    | true =>
      have hdiff : a.toInt - b.toInt = uchar a - uchar b := by
        rw [toInt_eq_uchar, toInt_eq_uchar, ha, hb]
        omega
      simp [hdiff]

/-- `strcmp` and `strncmp` give the strings the same order, and it is the lexicographic one. -/
def SameOrder (s t : CString) (p q : Ptr) (n : ℕ) : Prop :=
  ∃ r r', strcmp p q = some r ∧ strncmp p q n = some r' ∧ resultOrder r = resultOrder r' ∧
    resultOrder r = lexOrder s.bytes t.bytes

/-- The first two bytes of the strings that differ, if any do, are both below 0x80 or both not; the
NUL counts as a byte. -/
def SameHalf (s t : CString) : Prop :=
  (firstDifference s.text t.text).all (fun d ↦ d.1.msb == d.2.msb) = true

instance (s t : CString) : Decidable (SameHalf s t) := inferInstanceAs (Decidable (_ = true))

/-- `strncmp` compares unsigned characters. -/
theorem strncmp_eq (hs : 0 ∉ s) (ht : 0 ∉ t) (hp : p.PointsTo (cstr s)) (hq : q.PointsTo (cstr t))
    (hns : s.length < n) (hnt : t.length < n) :
    strncmp p q n = some (difference uchar (firstDifference (cstr s) (cstr t))) := by
  rw [← cstr_take hns] at hp
  rw [← cstr_take hnt] at hq
  have hcmp : strncmp p q n = some (difference uchar
      (firstDifference (((cstr s).take n).map id) (((cstr t).take n).map id))) :=
    compareUpTo_eq (fun _ ↦ Iff.rfl) hs ht hp hq
  rw [hcmp, cstr_take hns, cstr_take hnt, List.map_id, List.map_id]

/-- **The order of `strcmp` is that of `strncmp` and of the bytes as unsigned characters** if and
only if the first difference is within one half of the table. -/
theorem sameOrder_iff (s t : CString) (hp : p.PointsTo s.text) (hq : q.PointsTo t.text)
    (hs : s.bytes.length < n) (ht : t.bytes.length < n) :
    SameOrder s t p q n ↔ SameHalf s t := by
  set d := firstDifference s.text t.text with hd
  have hcmp : strcmp p q = some (difference BitVec.toInt d) := strcmp_eq s.nul t.nul hp hq
  have hncmp : strncmp p q n = some (difference uchar d) := strncmp_eq s.nul t.nul hp hq hs ht
  have hlex : lexOrder s.bytes t.bytes = resultOrder (difference uchar d) := by
    rw [resultOrder_difference, lexOrder, compareLex_eq byteOrder_zero s.nul t.nul]
    rfl
  have hsame : SameOrder s t p q n ↔
      resultOrder (difference BitVec.toInt d) = resultOrder (difference uchar d) := by
    constructor
    · rintro ⟨r, r', hr, hr', hsame, -⟩
      rwa [← Option.some.inj (hcmp.symm.trans hr), ← Option.some.inj (hncmp.symm.trans hr')]
        at hsame
    · intro hsame
      exact ⟨_, _, hcmp, hncmp, hsame, hsame.trans hlex.symm⟩
  rw [hsame, SameHalf, ← hd]
  cases d with
  | none => simp [difference]
  | some d => simpa [difference] using resultOrder_signed_iff d.1 d.2

/-- The theorem for `"abc"` and `"ab"`. -/
theorem sameOrder_abc :
    let s : CString := ⟨chrs ['a', 'b', 'c'], by decide⟩
    let t : CString := ⟨chrs ['a', 'b'], by decide⟩
    SameOrder s t s.ptr t.ptr 4 :=
  (sameOrder_iff _ _ (CString.pointsTo_ptr _) (CString.pointsTo_ptr _) (by decide) (by decide)).mpr
    (by decide)

/-- `strcmp` puts the byte 0x80 before the letter `a`, `strncmp` behind it. -/
theorem not_sameOrder : ¬ ∀ (s t : CString) (p q : Ptr) (n : ℕ), p.PointsTo s.text →
    q.PointsTo t.text → s.bytes.length < n → t.bytes.length < n → SameOrder s t p q n := by
  intro h
  obtain ⟨r, r', hr, hr', hsame, -⟩ := h ⟨[0x80], by decide⟩ ⟨chrs ['a'], by decide⟩ _ _ 2
    (CString.pointsTo_ptr _) (CString.pointsTo_ptr _) (by decide) (by decide)
  have hcmp : strcmp ⟨cstr [0x80], 0⟩ ⟨cstr (chrs ['a']), 0⟩ = some (-225) := by decide +kernel
  have hncmp : strncmp ⟨cstr [0x80], 0⟩ ⟨cstr (chrs ['a']), 0⟩ 2 = some 31 := by decide
  rw [← Option.some.inj (hcmp.symm.trans hr), ← Option.some.inj (hncmp.symm.trans hr')] at hsame
  exact absurd hsame (by decide)

/-! ## `strcasecmp` and `strncasecmp` -/

/-- **`strncasecmp` orders the first `n` bytes**, and reads no others. -/
theorem strncasecmp_order (hs : 0 ∉ s) (ht : 0 ∉ t) (hp : p.PointsTo ((cstr s).take n))
    (hq : q.PointsTo ((cstr t).take n)) : ∃ r, strncasecmp p q n = some r ∧
      resultOrder r = lexOrder (foldCase (s.take n)) (foldCase (t.take n)) :=
  compareUpTo_order tolower_eq_zero_iff hs ht hp hq

/-- **`strcasecmp` orders the strings.** -/
theorem strcasecmp_order (hs : 0 ∉ s) (ht : 0 ∉ t) (hp : p.PointsTo (cstr s))
    (hq : q.PointsTo (cstr t)) : ∃ r, strcasecmp p q = some r ∧
      resultOrder r = lexOrder (foldCase s) (foldCase t) := by
  have hns : s.length < s.length + t.length + 1 := by omega
  have hnt : t.length < s.length + t.length + 1 := by omega
  have hp' := hp
  have hq' := hq
  rw [← cstr_take hns] at hp'
  rw [← cstr_take hnt] at hq'
  obtain ⟨r, hr, horder⟩ := strncasecmp_order hs ht hp' hq'
  rw [List.take_of_length_le (Nat.le_of_lt hns), List.take_of_length_le (Nat.le_of_lt hnt)]
    at horder
  exact ⟨r, (strcasecmp_eq_strncasecmp hs ht hp hq hns).trans hr, horder⟩

/-- The relation that `strcasecmp` decides: its result is not positive. -/
def CaseLE (s t : CString) : Prop := ∃ r, strcasecmp s.ptr t.ptr = some r ∧ r ≤ 0

theorem resultOrder_isLE : (resultOrder r).isLE = true ↔ r ≤ 0 := by
  rw [resultOrder]
  split_ifs <;> simp <;> omega

theorem caseLE_iff {s t : CString} :
    CaseLE s t ↔ (lexOrder (foldCase s.bytes) (foldCase t.bytes)).isLE = true := by
  obtain ⟨r, hr, horder⟩ := strcasecmp_order s.nul t.nul s.pointsTo_ptr t.pointsTo_ptr
  rw [← horder, resultOrder_isLE]
  constructor
  · rintro ⟨r', hr', hle⟩
    rwa [← Option.some.inj (hr'.symm.trans hr)]
  · intro hle
    exact ⟨r, hr, hle⟩

/-- Strings that are neither before nor behind each other are the same but for the case. -/
theorem caseLE_antisymm_iff {s t : CString} :
    CaseLE s t ∧ CaseLE t s ↔ foldCase s.bytes = foldCase t.bytes := by
  rw [caseLE_iff, caseLE_iff, lexOrder, lexOrder]
  constructor
  · rintro ⟨hst, hts⟩
    exact Std.LawfulEqCmp.eq_of_compare (Std.OrientedCmp.isLE_antisymm hst hts)
  · intro h
    rw [h]
    exact ⟨Std.ReflCmp.isLE_rfl, Std.ReflCmp.isLE_rfl⟩

/-- **The orders of `strcasecmp` and `strncasecmp`.**  Their results have the sign of the
lexicographic order of the strings, or of their first `n` bytes, made small; so `strcasecmp` is a
total preorder, and its equivalence is equality but for the case; a bound behind both strings
changes nothing.  The arrays may end behind the NULs, and behind the first `n` bytes. -/
theorem casecmp_orders :
    (∀ (s t : CString) (p q : Ptr), p.PointsTo s.text → q.PointsTo t.text →
      ∃ r, strcasecmp p q = some r ∧
        resultOrder r = lexOrder (foldCase s.bytes) (foldCase t.bytes)) ∧
    (∀ (s t : CString) (n : ℕ) (p q : Ptr), p.PointsTo (s.text.take n) →
      q.PointsTo (t.text.take n) → ∃ r, strncasecmp p q n = some r ∧
        resultOrder r = lexOrder (foldCase (s.bytes.take n)) (foldCase (t.bytes.take n))) ∧
    (∀ s, CaseLE s s) ∧
    (∀ s t u, CaseLE s t → CaseLE t u → CaseLE s u) ∧
    (∀ s t, CaseLE s t ∨ CaseLE t s) ∧
    (∀ s t, CaseLE s t ∧ CaseLE t s ↔ foldCase s.bytes = foldCase t.bytes) ∧
    (∀ (s t : CString) (n : ℕ) (p q : Ptr), p.PointsTo s.text → q.PointsTo t.text →
      s.bytes.length < n → t.bytes.length < n → strncasecmp p q n = strcasecmp p q) := by
  refine ⟨?_, ?_, ?_, ?_, ?_, fun s t ↦ caseLE_antisymm_iff, ?_⟩
  · intro s t p q hp hq
    exact strcasecmp_order s.nul t.nul hp hq
  · intro s t n p q hp hq
    exact strncasecmp_order s.nul t.nul hp hq
  · intro s
    exact (caseLE_antisymm_iff.mpr rfl).1
  · intro s t u hst htu
    rw [caseLE_iff, lexOrder] at hst htu ⊢
    exact Std.TransCmp.isLE_trans hst htu
  · intro s t
    by_cases hst : CaseLE s t
    · exact .inl hst
    · rw [caseLE_iff, lexOrder] at hst
      refine .inr (caseLE_iff.mpr ?_)
      rw [lexOrder, Std.OrientedCmp.lt_of_not_isLE hst]
      rfl
  · intro s t n p q hp hq hs _
    exact (strcasecmp_eq_strncasecmp s.nul t.nul hp hq hs).symm

/-- The theorem for `"aB"` and `"Abc"`. -/
theorem casecmp_orders_ab :
    let s : CString := ⟨chrs ['a', 'B'], by decide⟩
    let t : CString := ⟨chrs ['A', 'b', 'c'], by decide⟩
    ∃ r, strcasecmp s.ptr t.ptr = some r ∧ resultOrder r = .lt :=
  casecmp_orders.1 _ _ _ _ (CString.pointsTo_ptr _) (CString.pointsTo_ptr _)

end PastaOS
