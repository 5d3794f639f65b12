import Mathlib.Data.List.Forall2
import PastaOS.Lib.Run
import PastaOS.Lib.Separators
import PastaOS.Strings.Compare

/-!
# `strsep` cuts a string up

Every call of `strsep` returns the piece of the string in front of the next delimiter and puts a NUL
in the place of the delimiter; the call that finds no delimiter any more returns the last piece and
leaves NULL.  `strsep_run` puts the calls together: one for each piece of `List.splitOnP`.
-/

set_option autoImplicit false

namespace PastaOS

variable {w ct t : List Byte} {p q : Ptr} {c d : Byte}

/-- The delimiters. -/
def isDelimiter (ct : List Byte) (c : Byte) : Bool := ct.contains c

/-- The string with its delimiters overwritten. -/
def blank (ct w : List Byte) : List Byte := w.map fun c ↦ if isDelimiter ct c then 0 else c

/-! ## `strpbrk` -/

theorem strpbrkFind_text (hct : 0 ∉ ct) (hq : q.PointsTo (cstr ct)) (c : Byte) :
    strpbrkFind c q = some (isDelimiter ct c) := by
  induction ct generalizing q with
  | nil =>
    rw [strpbrkFind_eq, hq.load, Option.bind_some, if_neg (not_not.mpr rfl)]
    rfl
  | cons d ct ih =>
    obtain ⟨hd, hct⟩ := nul_notMem_cons hct
    rw [strpbrkFind_eq, hq.load, Option.bind_some, if_pos hd, ih hct hq.next]
    by_cases hc : c = d
    · simp [isDelimiter, hc]
    · simp [isDelimiter, hc]

/-- **`strpbrk` returns a pointer to the first delimiter.** -/
theorem strpbrk_text (hct : 0 ∉ ct) (hq : q.PointsTo (cstr ct)) (hw : 0 ∉ w)
    (hp : p.PointsTo (cstr w)) :
    strpbrk p q = some ((w.findIdx? (isDelimiter ct)).map p.add) := by
  induction w generalizing p with
  | nil =>
    rw [strpbrk_eq, hp.load, Option.bind_some, if_neg (not_not.mpr rfl)]
    rfl
  | cons c w ih =>
    obtain ⟨hc, hw⟩ := nul_notMem_cons hw
    rw [strpbrk_eq, hp.load, Option.bind_some, if_pos hc, strpbrkFind_text hct hq,
      Option.bind_some, ih hw hp.next, List.findIdx?_cons]
    cases isDelimiter ct c with
    | true => rfl
    | false =>
      simp only [Bool.false_eq_true, if_false, Option.map_map]
      exact congrArg (fun f ↦ some (Option.map f _)) (funext (Cursor.next_add p))

/-! ## One call -/

section Call

variable (before after : List Byte) (hct : 0 ∉ ct) (hq : q.PointsTo (cstr ct))

include hct hq

/-- The call that finds no delimiter. -/
theorem strsep_last (ht : 0 ∉ t) (hfree : ∀ c ∈ t, isDelimiter ct c = false) :
    strsep q ⟨before ++ (cstr t ++ after), some before.length⟩
      = some (some before.length, ⟨before ++ (cstr t ++ after), none⟩) := by
  have hnone : t.findIdx? (isDelimiter ct) = none := List.findIdx?_eq_none_iff.mpr hfree
  have hfind := strpbrk_text hct hq ht (Cursor.pointsTo_mk before (cstr t) after)
  rw [hnone] at hfind
  rw [strsep]
  simp [hfind]

/-- The call that finds a delimiter. -/
theorem strsep_cut (hw : 0 ∉ t ++ d :: w) (hfree : ∀ c ∈ t, isDelimiter ct c = false)
    (hd : isDelimiter ct d = true) :
    strsep q ⟨before ++ (cstr (t ++ d :: w) ++ after), some before.length⟩
      = some (some before.length, ⟨before ++ t ++ [0] ++ (cstr w ++ after),
          some (before ++ t ++ [0]).length⟩) := by
  have hindex : (t ++ d :: w).findIdx? (isDelimiter ct) = some t.length := by
    rw [List.findIdx?_append, List.findIdx?_eq_none_iff.mpr hfree, List.findIdx?_cons, if_pos hd]
    simp
  have hfind := strpbrk_text hct hq hw (Cursor.pointsTo_mk before (cstr (t ++ d :: w)) after)
  rw [hindex] at hfind
  have hcells : before ++ (cstr (t ++ d :: w) ++ after) =
      before ++ t ++ d :: (cstr w ++ after) := by
    simp [cstr]
  have hstore : Cursor.store ⟨before ++ (cstr (t ++ d :: w) ++ after), before.length + t.length⟩ 0
      = some ⟨before ++ t ++ 0 :: (cstr w ++ after), before.length + t.length⟩ := by
    rw [hcells, ← List.length_append]
    exact Cursor.store_mk (before ++ t) (cstr w ++ after) d 0
  simp only [strsep, hfind, Option.map_some, Cursor.add, Option.bind_eq_bind, Option.bind_some,
    hstore, Cursor.next]
  simp [Nat.add_assoc]

end Call

/-! ## All calls -/

/-- A call while the pointer is not NULL.  The label is the pointer it returns, to the array as the
call leaves it. -/
def SepCall (ct : Ptr) (x : Sep) (token : Ptr) (y : Sep) : Prop :=
  x.s ≠ none ∧ strsep ct x = some (some token.pos, y) ∧ token.cells = y.cells

theorem SepCall.unique {x y y' : Sep} {token token' : Ptr} (h : SepCall q x token y)
    (h' : SepCall q x token' y') : token = token' ∧ y = y' := by
  obtain ⟨-, hcall, hcells⟩ := h
  obtain ⟨-, hcall', hcells'⟩ := h'
  rw [hcall] at hcall'
  simp only [Option.some.injEq, Prod.mk.injEq] at hcall'
  obtain ⟨hpos, rfl⟩ := hcall'
  refine ⟨?_, rfl⟩
  cases token
  cases token'
  simp_all

/-- The token is at the pointer that a call has returned: when it returns, and in the end. -/
structure Returns (cells : List Byte) (token : Ptr) (t : List Byte) : Prop where
  /-- When the call returns. -/
  now : token.PointsTo (cstr t)
  /-- In the array that the last call leaves. -/
  last : Cursor.PointsTo ⟨cells, token.pos⟩ (cstr t)

theorem blank_free (hfree : ∀ c ∈ t, isDelimiter ct c = false) : blank ct t = t := by
  refine (List.map_congr_left ?_).trans (List.map_id t)
  intro c hc
  rw [hfree c hc]
  rfl

theorem blank_cut (hfree : ∀ c ∈ t, isDelimiter ct c = false) (hd : isDelimiter ct d = true) :
    blank ct (t ++ d :: w) = t ++ 0 :: blank ct w := by
  have hfirst : blank ct (t ++ d :: w) = blank ct t ++ blank ct (d :: w) := List.map_append
  rw [hfirst, blank_free hfree, blank, List.map_cons, if_pos hd, blank]

/-- **The calls return the pieces** and overwrite the delimiters. -/
theorem strsep_run (hct : 0 ∉ ct) (hq : q.PointsTo (cstr ct)) (hw : 0 ∉ w)
    (before after : List Byte) : ∃ tokens,
      Run (SepCall q) ⟨before ++ (cstr w ++ after), some before.length⟩ tokens
        ⟨before ++ (cstr (blank ct w) ++ after), none⟩ ∧
      List.Forall₂ (Returns (before ++ (cstr (blank ct w) ++ after))) tokens
        (w.splitOnP (isDelimiter ct)) := by
  induction w using splitInduction (p := isDelimiter ct) generalizing before with
  | last t hfree =>
    have hcall := strsep_last before after hct hq hw hfree
    have hpoints := Cursor.pointsTo_mk before (cstr t) after
    rw [blank_free hfree, List.splitOnP_eq_singleton hfree]
    exact ⟨[⟨_, before.length⟩], .cons ⟨by simp, hcall, rfl⟩ (.nil _),
      .cons ⟨hpoints, hpoints⟩ .nil⟩
  | cut t d w hfree hd ih =>
    have hcall := strsep_cut before after hct hq hw hfree hd
    have hw' : 0 ∉ w := fun h ↦ hw (List.mem_append_right t (List.mem_cons_of_mem d h))
    obtain ⟨tokens, hrun, htokens⟩ := ih hw' (before ++ t ++ [0])
    have hcells : before ++ t ++ [0] ++ (cstr (blank ct w) ++ after)
        = before ++ (cstr (blank ct (t ++ d :: w)) ++ after) := by
      simp [blank_cut hfree hd, cstr]
    have hpoints (u : List Byte) :
        Cursor.PointsTo ⟨before ++ t ++ [0] ++ u, before.length⟩ (cstr t) := by
      simpa [cstr] using Cursor.pointsTo_mk before (cstr t) u
    rw [hcells] at hrun htokens
    rw [List.splitOnP_append_cons_of_forall_mem hfree d hd]
    refine ⟨⟨_, before.length⟩ :: tokens, .cons ⟨by simp, hcall, rfl⟩ hrun, .cons ?_ htokens⟩
    refine ⟨hpoints _, ?_⟩
    rw [← hcells]
    exact hpoints _

/-- **Calling `strsep` until the pointer is NULL** takes one call more than there are delimiters in
the string, wherever the string is.  The tokens are free of delimiters and make up the string
together with them, and of the array only the delimiters change: they are overwritten with NULs. -/
theorem strsep_cuts (w ct : CString) (hq : q.PointsTo ct.text) (before after : List Byte) :
    ∃ tokens pieces,
      (∀ tokens' cells,
        Run (SepCall q) ⟨before ++ (w.text ++ after), some before.length⟩ tokens' ⟨cells, none⟩ ↔
          tokens' = tokens ∧ cells = before ++ (cstr (blank ct.bytes w.bytes) ++ after)) ∧
      tokens.length = w.bytes.countP (isDelimiter ct.bytes) + 1 ∧
      List.Forall₂ (Returns (before ++ (cstr (blank ct.bytes w.bytes) ++ after))) tokens pieces ∧
      (∀ t ∈ pieces, ∀ c ∈ t, c ≠ 0 ∧ c ∉ ct.bytes) ∧
      interleave pieces (w.bytes.filter (isDelimiter ct.bytes)) = w.bytes := by
  obtain ⟨tokens, hrun, htokens⟩ := strsep_run ct.nul hq w.nul before after
  have hend (cells : List Byte) (token : Ptr) (y : Sep) : ¬ SepCall q ⟨cells, none⟩ token y :=
    fun h ↦ h.1 rfl
  refine ⟨tokens, w.bytes.splitOnP (isDelimiter ct.bytes), ?_, ?_, htokens, ?_,
    interleave_splitOnP w.bytes⟩
  · intro tokens' cells
    constructor
    · intro hrun'
      obtain ⟨htok, hx⟩ := Run.unique (fun _ _ _ _ _ h h' ↦ h.unique h') (hend _) (hend _)
        hrun' hrun
      simp only [Sep.mk.injEq, and_true] at hx
      exact ⟨htok, hx⟩
    · rintro ⟨rfl, rfl⟩
      exact hrun
  · rw [htokens.length_eq, length_splitOnP]
  · intro t ht c hc
    refine ⟨?_, ?_⟩
    · rintro rfl
      exact w.nul (mem_of_mem_splitOnP w.bytes t ht 0 hc)
    · intro hmem
      have hfree := free_of_mem_splitOnP w.bytes t ht c hc
      rw [isDelimiter, List.contains_iff_mem.mpr hmem] at hfree
      contradiction

/-- The theorem for `"a,,b"` and `","`. -/
theorem strsep_cuts_ab :
    let w : CString := ⟨chrs ['a', ',', ',', 'b'], by decide⟩
    let ct : CString := ⟨chrs [','], by decide⟩
    ∃ tokens, tokens.length = 3 ∧ Run (SepCall ct.ptr) ⟨w.text, some 0⟩ tokens
      ⟨[chr 'a', 0, 0, chr 'b', 0], none⟩ := by
  intro w ct
  obtain ⟨tokens, _, hrun, hlength, -⟩ := strsep_cuts w ct ct.pointsTo_ptr [] []
  exact ⟨tokens, hlength, (hrun tokens _).mpr ⟨rfl, by decide⟩⟩

end PastaOS
