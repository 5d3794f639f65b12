import PastaOS.Lib.Occurrence
import PastaOS.Strings.Compare

/-!
# `strstr` finds the first occurrence

The inner loop of `strstr` goes to the next character `c` that the searched string begins with, and
past it; `strncmp` compares the rest of the searched string with what follows.  Taken together, one
place after another is tried (`strstrLoop_step`), as in `firstOccurrence`.
-/

set_option autoImplicit false

namespace PastaOS

variable {s f u : List Byte} {p q : Ptr} {a c : Byte}

/-! ## `strlen` -/

theorem strlenLoop_text (hs : 0 ∉ s) (hp : p.PointsTo (cstr s)) :
    strlenLoop p = some (p.add s.length) := by
  induction s generalizing p with
  | nil =>
    rw [strlenLoop_eq, hp.load, Option.bind_some, if_neg (not_not.mpr rfl)]
    rfl
  | cons a s ih =>
    obtain ⟨ha, hs⟩ := nul_notMem_cons hs
    rw [strlenLoop_eq, hp.load, Option.bind_some, if_pos ha, ih hs hp.next, Cursor.next_add]
    rfl

/-- **`strlen` returns the length.** -/
theorem strlen_eq (hs : 0 ∉ s) (hp : p.PointsTo (cstr s)) : strlen (some p) = some s.length := by
  have hlen : (p.add s.length).pos - p.pos = s.length := Nat.add_sub_cancel_left p.pos s.length
  rw [strlen, strlenLoop_text hs hp, Option.map_some, hlen]

/-! ## `strncmp` on a prefix -/

theorem difference_eq_zero_iff {u v : List Byte} :
    difference uchar (firstDifference u v) = 0 ↔ firstDifference u v = none := by
  cases hd : firstDifference u v with
  | none => simp [difference]
  | some d =>
    have hne : d.1.toNat ≠ d.2.toNat := fun h ↦ firstDifference_ne hd (BitVec.eq_of_toNat_eq h)
    simp only [difference, uchar, reduceCtorEq, iff_false]
    omega

/-- A word without the NUL is a prefix of a string with the NUL or without. -/
theorem prefix_cstr_iff (hf : 0 ∉ f) : f <+: cstr s ↔ f <+: s := by
  rw [cstr, List.prefix_concat_iff]
  refine or_iff_right ?_
  rintro rfl
  exact hf (List.mem_append_right _ List.mem_cons_self)

/-- **`strncmp` tells whether a string begins with a word.** -/
theorem strncmp_begins (hs : 0 ∉ s) (hf : 0 ∉ f) (hp : p.PointsTo (cstr s))
    (hq : q.PointsTo (cstr f)) : ∃ r, strncmp p q f.length = some r ∧ (r = 0 ↔ f <+: s) := by
  have hcmp : strncmp p q f.length = some (difference uchar (firstDifference
      (((cstr s).take f.length).map id) (((cstr f).take f.length).map id))) :=
    compareUpTo_eq (fun _ ↦ Iff.rfl) hs hf (hp.mono (List.take_prefix _ _))
      (hq.mono (List.take_prefix _ _))
  have htake : (cstr f).take f.length = f := List.take_left
  refine ⟨_, hcmp, ?_⟩
  rw [List.map_id, List.map_id, htake, difference_eq_zero_iff, firstDifference_eq_none_iff]
  refine Iff.trans ?_ (prefix_cstr_iff hf)
  constructor
  · rintro (hpre | hpre)
    · rcases Nat.lt_or_ge (cstr s).length f.length with hlt | hge
      · -- the NUL of the first string would be in the second one
        rw [List.take_of_length_le (Nat.le_of_lt hlt)] at hpre
        exact absurd (hpre.subset (List.mem_append_right s List.mem_cons_self)) hf
      · have hlen : ((cstr s).take f.length).length = f.length := List.length_take_of_le hge
        rw [← hpre.eq_of_length hlen]
        exact List.take_prefix _ _
    · exact hpre.trans (List.take_prefix _ _)
  · intro hpre
    exact .inr (List.prefix_take_iff.mpr ⟨hpre, Nat.le_refl _⟩)

/-! ## `strstr` -/

theorem strstrSkip_step (hp : p.PointsTo (a :: u)) (c : Byte) : strstrSkip c p
    = if a = 0 then some none else if a ≠ c then strstrSkip c p.next else some (some p.next) := by
  rw [strstrSkip_eq, hp.load, Option.bind_some]

/-- The loop passes over the characters other than `c`. -/
theorem strstrLoop_ne (hp : p.PointsTo (a :: u)) (ha : a ≠ 0) (hac : a ≠ c) (len : ℕ) :
    strstrLoop c q len p = strstrLoop c q len p.next := by
  rw [strstrLoop_eq, strstrSkip_step hp, if_neg ha, if_pos hac, ← strstrLoop_eq]

/-- At a `c`, the loop compares what follows. -/
theorem strstrLoop_self (hp : p.PointsTo (c :: u)) (hc : c ≠ 0) (len : ℕ) : strstrLoop c q len p
    = (strncmp p.next q len).bind fun r ↦
        if r ≠ 0 then strstrLoop c q len p.next else some (some p) := by
  rw [strstrLoop_eq, strstrSkip_step hp, if_neg hc, if_neg (not_not.mpr rfl)]
  rfl

/-- **The loop finds the first occurrence.** -/
theorem strstrLoop_text (hc : c ≠ 0) (hf : 0 ∉ f) (hq : q.PointsTo (cstr f)) (hs : 0 ∉ s)
    (hp : p.PointsTo (cstr s)) :
    strstrLoop c q f.length p = some ((firstOccurrence (c :: f) s).map p.add) := by
  induction s generalizing p with
  | nil =>
    rw [strstrLoop_eq, strstrSkip_step hp, if_pos rfl]
    rfl
  | cons a s ih =>
    obtain ⟨ha, hs⟩ := nul_notMem_cons hs
    have hnext : (firstOccurrence (c :: f) s).map p.next.add
        = ((firstOccurrence (c :: f) s).map (· + 1)).map p.add := by
      rw [Option.map_map]
      exact congrArg (Option.map · _) (funext (Cursor.next_add p))
    by_cases hac : a = c
    · subst hac
      obtain ⟨r, hr, hpre⟩ := strncmp_begins hs hf hp.next hq
      rw [strstrLoop_self hp hc, hr, Option.bind_some, firstOccurrence]
      by_cases hr0 : r = 0
      · rw [if_neg (not_not.mpr hr0), if_pos (List.prefix_cons_inj a |>.mpr (hpre.mp hr0))]
        rfl
      · rw [if_pos hr0, if_neg fun h ↦ hr0 (hpre.mpr (List.prefix_cons_inj a |>.mp h)),
          ih hs hp.next, hnext]
    · have hno : ¬ c :: f <+: a :: s := fun h ↦ hac (List.cons_prefix_cons.mp h).1.symm
      rw [strstrLoop_ne hp ha hac, ih hs hp.next, hnext, firstOccurrence, if_neg hno]

theorem strstr_eq (hs : 0 ∉ s) (hf : 0 ∉ f) (hp : p.PointsTo (cstr s)) (hq : q.PointsTo (cstr f)) :
    strstr p q = some ((firstOccurrence f s).map p.add) := by
  cases f with
  | nil =>
    rw [firstOccurrence_zero (List.nil_prefix)]
    simp [strstr, hq.load]
  | cons c f =>
    obtain ⟨hc, hf⟩ := nul_notMem_cons hf
    have hlen : strlen (some q.next) = some f.length := strlen_eq hf hq.next
    have hloop := strstrLoop_text hc hf hq.next hs hp
    simp only [strstr, hq.load, Option.bind_eq_bind, Option.bind_some, if_pos hc, hlen, hloop]

/-- **`strstr` returns a pointer to the first occurrence** of the searched string, and NULL when
there is none.  The arrays may end behind the NULs: nothing behind them is read. -/
theorem strstr_first (s find : CString) (hp : p.PointsTo s.text) (hq : q.PointsTo find.text) :
    ∃ r, strstr p q = some r ∧
      (∀ t, r = some t ↔ ∃ i, t = p.add i ∧ OccursFirst find.bytes s.bytes i) ∧
      (find.bytes = [] → r = some p) ∧
      (r = none ↔ ¬ find.bytes <:+: s.bytes) := by
  refine ⟨_, strstr_eq s.nul find.nul hp hq, ?_, ?_, ?_⟩
  · intro t
    rw [Option.map_eq_some_iff]
    simp only [firstOccurrence_eq_some_iff]
    exact exists_congr fun i ↦ by rw [and_comm, eq_comm]
  · intro hnil
    rw [hnil, firstOccurrence_zero List.nil_prefix]
    rfl
  · rw [Option.map_eq_none_iff, firstOccurrence_eq_none_iff]

/-- The theorem for `"aab"` and `"ab"`. -/
theorem strstr_first_ab :
    let s : CString := ⟨chrs ['a', 'a', 'b'], by decide⟩
    let find : CString := ⟨chrs ['a', 'b'], by decide⟩
    ∃ r, strstr s.ptr find.ptr = some r ∧ r = some (s.ptr.add 1) := by
  intro s find
  obtain ⟨r, hr, hfirst, -⟩ := strstr_first s find s.pointsTo_ptr find.pointsTo_ptr
  refine ⟨r, hr, (hfirst _).mpr ⟨1, rfl, ?_⟩⟩
  exact firstOccurrence_eq_some_iff.mp (by decide)

end PastaOS
