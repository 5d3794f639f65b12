import Mathlib.Data.List.Basic

/-!
# Words with separators

`List.splitOnP p` cuts a word at the letters that satisfy `p`.  The pieces are free of separators,
there is one more of them than there are separators (`length_splitOnP`), and pieces and separators
make up the word (`interleave_splitOnP`).  All of this goes by `splitInduction`, the induction over
the pieces of a word, the first one first.
-/

set_option autoImplicit false

universe u

variable {α : Type u} {p : α → Bool}

/-- The words `ts` with the letters `ds` between them. -/
def interleave : List (List α) → List α → List α
  | t :: ts, d :: ds => t ++ d :: interleave ts ds
  | ts, [] => ts.flatten
  | [], ds => ds

/-- **Induction over the pieces of a word.** -/
theorem splitInduction {P : List α → Prop} (last : ∀ t, (∀ c ∈ t, p c = false) → P t)
    (cut : ∀ t d w, (∀ c ∈ t, p c = false) → p d = true → P w → P (t ++ d :: w)) (w : List α) :
    P w := by
  -- `t` is the beginning of the piece that the induction is in
  suffices h : ∀ t : List α, (∀ c ∈ t, p c = false) → P (t ++ w) from h [] (by simp)
  induction w with
  | nil =>
    intro t ht
    rw [List.append_nil]
    exact last t ht
  | cons c w ih =>
    intro t ht
    cases hc : p c with
    | true => exact cut t c w ht hc (ih [] (by simp))
    | false =>
      rw [List.append_cons]
      refine ih (t ++ [c]) ?_
      intro d hd
      rcases List.mem_append.mp hd with hd | hd
      · exact ht d hd
      · rwa [List.mem_singleton.mp hd]

theorem filter_eq_nil_of_free {t : List α} (ht : ∀ c ∈ t, p c = false) : t.filter p = [] := by
  simpa [List.filter_eq_nil_iff] using ht

theorem filter_cut {t w : List α} {d : α} (ht : ∀ c ∈ t, p c = false) (hd : p d = true) :
    (t ++ d :: w).filter p = d :: w.filter p := by
  rw [List.filter_append, filter_eq_nil_of_free ht, List.filter_cons_of_pos hd, List.nil_append]

/-- One piece more than separators. -/
theorem length_splitOnP (w : List α) : (w.splitOnP p).length = w.countP p + 1 := by
  induction w using splitInduction (p := p) with
  | last t ht =>
    rw [List.splitOnP_eq_singleton ht, List.countP_eq_length_filter, filter_eq_nil_of_free ht]
    rfl
  | cut t d w ht hd ih =>
    rw [List.splitOnP_append_cons_of_forall_mem ht d hd, List.length_cons, ih,
      List.countP_eq_length_filter, List.countP_eq_length_filter, filter_cut ht hd,
      List.length_cons]

/-- No piece has a separator in it. -/
theorem free_of_mem_splitOnP (w : List α) : ∀ t ∈ w.splitOnP p, ∀ c ∈ t, p c = false := by
  induction w using splitInduction (p := p) with
  | last t ht =>
    rw [List.splitOnP_eq_singleton ht]
    simpa using ht
  | cut t d w ht hd ih =>
    rw [List.splitOnP_append_cons_of_forall_mem ht d hd]
    exact List.forall_mem_cons.mpr ⟨ht, ih⟩

/-- The letters of the pieces are letters of the word. -/
theorem mem_of_mem_splitOnP (w : List α) : ∀ t ∈ w.splitOnP p, ∀ c ∈ t, c ∈ w := by
  induction w using splitInduction (p := p) with
  | last t ht =>
    rw [List.splitOnP_eq_singleton ht]
    simp
  | cut t d w ht hd ih =>
    rw [List.splitOnP_append_cons_of_forall_mem ht d hd]
    refine List.forall_mem_cons.mpr ⟨fun c hc ↦ List.mem_append_left _ hc, ?_⟩
    intro u hu c hc
    exact List.mem_append_right t (List.mem_cons_of_mem d (ih u hu c hc))

/-- The pieces and the separators make up the word. -/
theorem interleave_splitOnP (w : List α) : interleave (w.splitOnP p) (w.filter p) = w := by
  induction w using splitInduction (p := p) with
  | last t ht =>
    rw [List.splitOnP_eq_singleton ht, filter_eq_nil_of_free ht, interleave, List.flatten_singleton]
  | cut t d w ht hd ih =>
    rw [List.splitOnP_append_cons_of_forall_mem ht d hd, filter_cut ht hd, interleave, ih]
