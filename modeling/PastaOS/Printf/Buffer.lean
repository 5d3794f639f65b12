import PastaOS.Lib.Overlay
import PastaOS.Printf.Paper

/-!
# What `vsnprintf` leaves in memory

Paper and buffer run side by side.  While `str` has not reached the top of the address space, the
buffer holds the first characters of what is on paper, as many as there is room for, and `str` is
behind all of them: `InSync`.  `inSync_simulates` says that every operation of the formatter keeps
it so, up to a limit; past the limit, what happens is a parameter.

* `vsnprintf_prefix`: at a buffer other than NULL, with the text and its NUL below the top, all
  calls return the same value and store the same counts, and each one leaves as much of the text as
  its size admits.
* `vsnprintf_stays_iff`: the stores stay in the buffer exactly if the text ends below the top of the
  address space, or, at NULL, if it fits in the buffer — because there the test for wrap-around
  lifts the bound altogether, even for a buffer of size 0.
-/

set_option autoImplicit false

namespace PastaOS

/-! ## The buffer -/

/-- The first `k` cells from `buf` on, cut off at the top of the address space. -/
def InBuf (buf : Word) (k : ℕ) (a : Word) : Prop :=
  buf.toNat ≤ a.toNat ∧ a.toNat < buf.toNat + k

instance (buf : Word) (k : ℕ) : DecidablePred (InBuf buf k) :=
  fun a ↦ inferInstanceAs (Decidable (buf.toNat ≤ a.toNat ∧ a.toNat < buf.toNat + k))

/-- Strings and the targets of `%n` lie outside the first `k` cells of the buffer. -/
def offBuffer (buf : Word) (k : ℕ) : Access :=
  ⟨fun a ↦ !decide (InBuf buf k a), fun a ↦ !decide (InBuf buf k a)⟩

@[simp] theorem offBuffer_read {buf : Word} {k : ℕ} {a : Word} :
    (offBuffer buf k).read a = true ↔ ¬ InBuf buf k a := by
  simp [offBuffer]

@[simp] theorem offBuffer_write {buf : Word} {k : ℕ} {a : Word} :
    (offBuffer buf k).write a = true ↔ ¬ InBuf buf k a := by
  simp [offBuffer]

/-- Below the top of the address space, adding an offset does not wrap around. -/
theorem toNat_add_ofNat {buf : Word} {n : ℕ} (h : buf.toNat + n < 2 ^ 32) :
    (buf + BitVec.ofNat 32 n).toNat = buf.toNat + n := by
  rw [BitVec.toNat_add, BitVec.toNat_ofNat, Nat.mod_eq_of_lt (by omega : n < 2 ^ 32),
    Nat.mod_eq_of_lt h]

/-- A length that is an `int`. -/
theorem toInt_ofNat_of_lt {n : ℕ} (h : n < 2 ^ 31) : (BitVec.ofNat 32 n).toInt = n := by
  rw [BitVec.toInt_ofNat', Int.bmod_eq_of_le (by omega) (by omega)]

/-- A cell fewer than `l` behind `buf`. -/
theorem inBuf_of_sub_lt {buf a : Word} {l k : ℕ} (htop : buf.toNat + l ≤ 2 ^ 32) (hl : l ≤ k)
    (ha : (a - buf).toNat < l) : InBuf buf k a := by
  have hadd : a.toNat = buf.toNat + (a - buf).toNat := by
    have hsum : buf + BitVec.ofNat 32 (a - buf).toNat = a := by
      rw [BitVec.ofNat_toNat, BitVec.setWidth_eq, BitVec.add_comm, BitVec.sub_add_cancel]
    rw [← toNat_add_ofNat (by omega), hsum]
  constructor <;> omega

/-- The number of cells `vsnprintf` may write behind `buf`, its wrap-around test included. -/
def storeCap (buf size : Word) : ℕ :=
  if buf = 0 then 2 ^ 32 else min size.toNat (2 ^ 32 - buf.toNat)

section End

variable {buf : Word}

/-- At a buffer other than NULL, `end` and `size` are what they should be. -/
theorem bufferEnd_toNat (size : Word) (hbuf : buf ≠ 0) :
    (bufferEnd buf size).1.toNat + 1 = buf.toNat + storeCap buf size ∧
      (bufferEnd buf size).2.toNat = storeCap buf size := by
  have hsize := size.isLt
  have hpos : 0 < buf.toNat := BitVec.toNat_pos_of_ne_zero hbuf
  have hone : (1 : Word).toNat = 1 := by decide
  have hlt : buf + size - 1 < buf - 1 ↔ size.toNat ≠ 0 ∧ 2 ^ 32 ≤ buf.toNat + size.toNat - 1 := by
    rw [BitVec.lt_def, BitVec.toNat_sub, BitVec.toNat_sub, BitVec.toNat_add, hone]
    omega
  rw [bufferEnd, storeCap, if_neg hbuf]
  by_cases hwrap : buf + size - 1 < buf - 1
  · rw [if_pos hwrap]
    have := hlt.mp hwrap
    rw [BitVec.toNat_add, BitVec.toNat_sub, BitVec.toNat_allOnes, hone]
    omega
  · rw [if_neg hwrap]
    have := mt hlt.mpr hwrap
    dsimp only
    rw [BitVec.toNat_sub, BitVec.toNat_add, hone]
    omega

/-- At NULL, the test for wrap-around takes every `end` for one that has wrapped around. -/
theorem bufferEnd_null (size : Word) : bufferEnd 0 size = (BitVec.allOnes 32, 0) := by
  have hmax : (0 : Word) - 1 = BitVec.allOnes 32 := by decide
  have hzero : BitVec.allOnes 32 - 0 + 1 = (0 : Word) := by decide
  have hadd : 0 + size - 1 = size - 1 := by bv_omega
  rw [bufferEnd, hadd, hmax, hzero]
  by_cases hsize : size = 0
  · rw [hsize, hmax, if_neg (by decide)]
  · have hlt : size - 1 < BitVec.allOnes 32 := by
      rw [← hmax]
      bv_omega
    rw [if_pos hlt]

/-- `end` bounds the stores by `storeCap`. -/
theorem le_last_iff (size : Word) {n : ℕ} (h : buf.toNat + n < 2 ^ 32) :
    buf + BitVec.ofNat 32 n ≤ (bufferEnd buf size).1 ↔ n < storeCap buf size := by
  rw [BitVec.le_def, toNat_add_ofNat h]
  by_cases hbuf : buf = 0
  · subst hbuf
    rw [bufferEnd_null, storeCap, if_pos rfl, BitVec.toNat_allOnes]
    omega
  · have := bufferEnd_toNat size hbuf
    omega

end End

/-! ## Paper and buffer -/

/-- `*ip = (str - buf)` elsewhere does not disturb what has been written. -/
theorem store32_overlay {mem : Word → Byte} {buf p v : Word} {xs : List Byte}
    (h : ∀ a, (a - buf).toNat < xs.length → a ≠ p ∧ a ≠ p + 1 ∧ a ≠ p + 2 ∧ a ≠ p + 3) :
    store32 (overlay mem buf xs) p v = overlay (store32 mem p v) buf xs := by
  funext a
  rcases lt_or_ge (a - buf).toNat xs.length with ha | ha
  · obtain ⟨h0, h1, h2, h3⟩ := h a ha
    rw [store32_of_ne h0 h1 h2 h3, overlay_on ha]
  · rw [overlay_off ha, store32_congr (overlay_off ha)]

/-- The bounds of a run: `end` admits `cap` cells, of which the first `k` are off limits for strings
and `%n`; up to `limit` characters, `str` stays below the top, and the stores in those `k` cells. -/
structure Bounds (buf last : Word) (k cap limit : ℕ) : Prop where
  /-- `str` stays below the top. -/
  top : buf.toNat + limit ≤ 2 ^ 32
  /-- `end` admits `cap` cells. -/
  last : ∀ n, buf.toNat + n < 2 ^ 32 → (buf + BitVec.ofNat 32 n ≤ last ↔ n < cap)
  /-- The stores stay in the first `k` cells. -/
  inside : min cap limit ≤ k

/-- Paper and buffer agree on what has been printed so far. -/
structure InSync (buf : Word) (k cap limit : ℕ) (u : Paper) (b : Buffer) : Prop where
  /-- The limit has not been passed. -/
  short : u.text.length ≤ limit
  /-- `str` is behind the text. -/
  str : b.str = buf + BitVec.ofNat 32 u.text.length
  /-- Memory is that of the paper, with as much of the text in the buffer as there is room for. -/
  mem : b.mem = overlay u.mem buf (u.text.take cap)
  /-- All stores were to the buffer. -/
  stores : ∀ a ∈ b.stores, InBuf buf k a
  /-- The same counts have been stored. -/
  counts : b.counts = u.counts

section Simulation

variable {buf last : Word} {k cap limit : ℕ}

/-- No operation on the buffer fails. -/
theorem bufferSink_total (buf last : Word) : Total (bufferSink buf last) fun _ ↦ True :=
  ⟨⟨fun _ _ _ ↦ trivial, fun _ _ _ _ _ ↦ trivial⟩, fun _ _ _ ↦ ⟨_, rfl⟩, fun _ _ _ ↦ ⟨_, rfl⟩⟩

theorem bufferSink_put_of_le {b : Buffer} {c : Byte} (h : b.str ≤ last) :
    (bufferSink buf last).put c b = { b.store b.str c with str := b.str + 1 } := by
  simp only [bufferSink, if_pos h]
  rfl

theorem bufferSink_put_of_not_le {b : Buffer} {c : Byte} (h : ¬ b.str ≤ last) :
    (bufferSink buf last).put c b = { b with str := b.str + 1 } := by
  simp only [bufferSink, if_neg h]

theorem bufferSink_put_str (b : Buffer) (c : Byte) :
    ((bufferSink buf last).put c b).str = b.str + 1 := by
  by_cases h : b.str ≤ last
  · rw [bufferSink_put_of_le h]
  · rw [bufferSink_put_of_not_le h]

/-- Cells that are not in the buffer have not been written. -/
theorem InSync.off (hB : Bounds buf last k cap limit) {u : Paper} {b : Buffer}
    (h : InSync buf k cap limit u b) {a : Word} (ha : ¬ InBuf buf k a) :
    (u.text.take cap).length ≤ (a - buf).toNat := by
  have htop := hB.top
  have hshort := h.short
  have hinside := hB.inside
  have hlen : (u.text.take cap).length = min cap u.text.length := List.length_take
  by_contra hlt
  exact ha (inBuf_of_sub_lt (by omega) (by omega) (not_le.mp hlt))

/-- Below the limit, one more character leaves paper and buffer in agreement. -/
theorem InSync.put (hB : Bounds buf last k cap limit) {u : Paper} {b : Buffer}
    (h : InSync buf k cap limit u b) (hlt : u.text.length < limit) {acc : Access} (c : Byte) :
    InSync buf k cap limit ((paperSink acc).put c u) ((bufferSink buf last).put c b) := by
  have htop := hB.top
  have hfits := hB.last u.text.length (by omega)
  have hstr : b.str + 1 = buf + BitVec.ofNat 32 (u.text ++ [c]).length := by
    rw [h.str, List.length_append, List.length_singleton, BitVec.ofNat_add, BitVec.add_assoc]
    rfl
  have hlen : (u.text ++ [c]).length ≤ limit := by
    rw [List.length_append, List.length_singleton]
    omega
  by_cases hcap : u.text.length < cap
  · rw [bufferSink_put_of_le (h.str ▸ hfits.mpr hcap)]
    refine ⟨hlen, hstr, ?_, ?_, h.counts⟩
    · have htake : u.text.take cap = u.text := List.take_of_length_le hcap.le
      have htake' : (u.text ++ [c]).take cap = u.text ++ [c] := by
        rw [List.take_of_length_le]
        rw [List.length_append, List.length_singleton]
        omega
      simp only [Buffer.store, paperSink]
      rw [htake', overlay_concat (by omega), h.mem, htake, h.str]
    · intro a ha
      rcases List.mem_cons.mp ha with rfl | ha
      · rw [h.str]
        have := hB.inside
        have := toNat_add_ofNat (by omega : buf.toNat + u.text.length < 2 ^ 32)
        exact ⟨by omega, by omega⟩
      · exact h.stores a ha
  · rw [bufferSink_put_of_not_le (h.str ▸ mt hfits.mp hcap)]
    refine ⟨hlen, hstr, ?_, h.stores, h.counts⟩
    simp only [paperSink]
    rw [h.mem, List.take_append_of_le_length (not_lt.mp hcap)]

/-- **Paper and buffer, side by side.**  They agree up to the limit; past it, the buffer is in `V`,
if the character that goes past it leads there. -/
theorem inSync_simulates (hB : Bounds buf last k cap limit) {V : Buffer → Prop}
    (hV : Total (bufferSink buf last) V)
    (hpast : ∀ c b, b.str = buf + BitVec.ofNat 32 limit → V ((bufferSink buf last).put c b)) :
    Simulates (paperSink (offBuffer buf k)) (bufferSink buf last) (InSync buf k cap limit)
      (fun u ↦ limit < u.text.length) V where
  put c u b h := by
    rcases h.short.lt_or_eq with hlt | heq
    · exact .inl (h.put hB hlt c)
    · refine .inr ⟨?_, hpast c b (heq ▸ h.str)⟩
      simp only [paperSink, List.length_append, List.length_singleton]
      omega
  load u b a c h hc := by
    simp only [paperSink, Option.ite_none_right_eq_some, offBuffer_read] at hc
    simp only [bufferSink]
    rw [h.mem, overlay_off (h.off hB hc.1), hc.2]
  count p u b u' h hu := by
    obtain ⟨⟨h0, h1, h2, h3⟩, rfl⟩ := paperSink_storeCount.mp hu
    have hval : b.str - buf = BitVec.ofNat 32 u.text.length := by
      rw [h.str, BitVec.add_comm, BitVec.add_sub_cancel]
    refine ⟨_, rfl, .inl ⟨h.short, h.str, ?_, h.stores, ?_⟩⟩
    · simp only [offBuffer_write] at h0 h1 h2 h3 ⊢
      rw [hval, h.mem, store32_overlay]
      intro a ha
      have hne {q : Word} (hq : ¬ InBuf buf k q) : a ≠ q := by
        rintro rfl
        exact absurd (h.off hB hq) (not_le.mpr ha)
      exact ⟨hne h0, hne h1, hne h2, hne h3⟩
    · simp only [hval, h.counts]
  lost₁ := by
    refine ⟨?_, ?_⟩
    · intro c u h
      simp only [paperSink, List.length_append, List.length_singleton]
      omega
    · intro p u u' h hu
      obtain ⟨-, rfl⟩ := paperSink_storeCount.mp hu
      exact h
  lost₂ := hV

end Simulation

section Run

variable {mem : Word → Byte} {buf size : Word} {fmt : List Byte} {args args' : Args} {u : Paper}
  {k limit : ℕ}

theorem bounds_end (htop : buf.toNat + limit ≤ 2 ^ 32) (hk : min (storeCap buf size) limit ≤ k) :
    Bounds buf (bufferEnd buf size).1 k (storeCap buf size) limit :=
  ⟨htop, fun _ hn ↦ le_last_iff size hn, hk⟩

/-- Paper and buffer agree before the first character. -/
theorem inSync_start (buf : Word) (k cap limit : ℕ) (mem : Word → Byte) :
    InSync buf k cap limit ⟨mem, [], []⟩ ⟨mem, buf, [], []⟩ :=
  ⟨Nat.zero_le _, by simp, by simp, by simp, rfl⟩

/-- `vsnprintf` after its loop. -/
theorem vsnprintf_of_run {b : Buffer}
    (h : runItems (bufferSink buf (bufferEnd buf size).1) (parse (cstr fmt)) args ⟨mem, buf, [], []⟩
      = some (args', b)) :
    vsnprintf mem buf size (cstr fmt) args = some ((b.str - buf).toInt,
      b.terminate (bufferEnd buf size).1 (bufferEnd buf size).2) := by
  have hdef : vsnprintf mem buf size (cstr fmt) args
      = (vsnprintfLoop (bufferSink buf (bufferEnd buf size).1) (cstr fmt).length (cstr fmt) args
          ⟨mem, buf, [], []⟩).bind fun x ↦ some ((x.2.str - buf).toInt,
            x.2.terminate (bufferEnd buf size).1 (bufferEnd buf size).2) := rfl
  rw [hdef, vsnprintfLoop_cstr, h, Option.bind_some]

theorem terminate_counts (last size : Word) (b : Buffer) :
    (b.terminate last size).counts = b.counts := by
  rw [Buffer.terminate]
  split_ifs <;> rfl

/-- The NUL leaves the other stores alone. -/
theorem terminate_stores_subset (last size : Word) (b : Buffer) :
    b.stores ⊆ (b.terminate last size).stores := by
  rw [Buffer.terminate]
  split_ifs
  · exact List.subset_cons_self _ _
  · exact List.subset_cons_self _ _
  · exact List.Subset.refl _

/-- What a buffer of `n` cells keeps of a text. -/
def kept (text : List Byte) : ℕ → List Byte
  | 0 => []
  | n + 1 => text.take n ++ [0]

theorem kept_of_lt {text : List Byte} {n : ℕ} (h : text.length < n) :
    kept text n = text ++ [0] := by
  obtain ⟨n, rfl⟩ : ∃ k, n = k + 1 := ⟨n - 1, by omega⟩
  rw [kept, List.take_of_length_le (by omega)]

theorem kept_length (text : List Byte) (n : ℕ) :
    (kept text n).length = min n (text.length + 1) := by
  cases n with
  | zero => simp [kept]
  | succ n => simp [kept]

/-- A character of the text that is kept is in the buffer. -/
theorem overlay_kept {text : List Byte} (htext : text.length < 2 ^ 32) {n i : ℕ}
    (hi : i < text.length) (hn : i < n - 1) :
    overlay mem buf (kept text n) (buf + BitVec.ofNat 32 i) = text[i] := by
  obtain ⟨n, rfl⟩ : ∃ k, n = k + 1 := ⟨n - 1, by omega⟩
  have hlen := kept_length text (n + 1)
  have htake : i < (text.take n).length := by
    rw [List.length_take]
    omega
  rw [overlay_getElem (by omega) (by omega)]
  simp only [kept, List.getElem_append_left htake, List.getElem_take]

/-- The NUL behind the characters that are kept. -/
theorem overlay_kept_nul {text : List Byte} (htext : text.length < 2 ^ 32) {n : ℕ} (hn : 0 < n) :
    overlay mem buf (kept text n) (buf + BitVec.ofNat 32 (min text.length (n - 1))) = 0 := by
  obtain ⟨n, rfl⟩ : ∃ k, n = k + 1 := ⟨n - 1, by omega⟩
  have hlen := kept_length text (n + 1)
  have htake : (text.take n).length = min text.length n := by rw [List.length_take, min_comm]
  rw [Nat.add_sub_cancel, overlay_getElem (by omega) (by omega)]
  simp only [kept, ← htake, List.getElem_concat_length]

/-- **The NUL** completes what the buffer keeps. -/
theorem InSync.terminate (hbuf : buf ≠ 0) {b : Buffer}
    (h : InSync buf k (storeCap buf size) limit u b) (htop : buf.toNat + u.text.length < 2 ^ 32) :
    (b.terminate (bufferEnd buf size).1 (bufferEnd buf size).2).mem
      = overlay u.mem buf (kept u.text (storeCap buf size)) := by
  have hle := le_last_iff size htop
  obtain ⟨hlast, hsize⟩ := bufferEnd_toNat size hbuf
  rw [Buffer.terminate, h.str]
  by_cases hfits : u.text.length < storeCap buf size
  · rw [if_pos (hle.mpr hfits), kept_of_lt hfits, overlay_concat (by omega)]
    simp only [Buffer.store]
    rw [h.mem, List.take_of_length_le hfits.le]
  · rw [if_neg (mt hle.mp hfits)]
    cases hcap : storeCap buf size with
    | zero =>
      have hzero : ¬ (bufferEnd buf size).2 > 0 := by
        rw [gt_iff_lt, BitVec.lt_def, hsize, hcap]
        exact Nat.lt_irrefl _
      rw [if_neg hzero, h.mem, hcap, kept, List.take_zero]
    | succ n =>
      have hpos : (bufferEnd buf size).2 > 0 := by
        rw [gt_iff_lt, BitVec.lt_def, hsize, hcap]
        exact Nat.succ_pos n
      have hend : (bufferEnd buf size).1 = buf + BitVec.ofNat 32 n := by
        apply BitVec.eq_of_toNat_eq
        rw [toNat_add_ofNat (by omega)]
        omega
      have hn : n < u.text.length := by omega
      have hlen : (u.text.take n).length = n := by rw [List.length_take]; omega
      have hput (c : Byte) : overlay u.mem buf (u.text.take n ++ [c])
          = Function.update (overlay u.mem buf (u.text.take n)) (buf + BitVec.ofNat 32 n) c := by
        rw [overlay_concat (by omega), hlen]
      rw [if_pos hpos, kept, hput]
      simp only [Buffer.store]
      rw [h.mem, hcap, List.take_succ_eq_append_getElem hn, hput, hend, Function.update_idem]

/-- At the end of the loop, paper and buffer agree. -/
theorem runItems_inSync (size : Word) (hbuf : buf ≠ 0)
    (hu : untruncated (offBuffer buf k) mem (cstr fmt) args = some (args', u))
    (hk : min size.toNat u.text.length ≤ k) (htop : buf.toNat + u.text.length < 2 ^ 32) :
    ∃ b, runItems (bufferSink buf (bufferEnd buf size).1) (parse (cstr fmt)) args ⟨mem, buf, [], []⟩
        = some (args', b) ∧ InSync buf k (storeCap buf size) u.text.length u b := by
  have hcap : storeCap buf size = min size.toNat (2 ^ 32 - buf.toNat) := if_neg hbuf
  have hB : Bounds buf (bufferEnd buf size).1 k (storeCap buf size) u.text.length :=
    bounds_end (by omega) (by omega)
  rw [untruncated_eq] at hu
  obtain ⟨b, hb, h | h⟩ :=
    (inSync_simulates hB (bufferSink_total buf _) fun _ _ _ ↦ trivial).runItems
    (.inl (inSync_start buf k _ _ mem)) hu
  · exact ⟨b, hb, h⟩
  · exact absurd h.1 (Nat.lt_irrefl _)

/-- A size that is cut off at the top is larger than the text. -/
theorem kept_storeCap {text : List Byte} (hbuf : buf ≠ 0)
    (htop : buf.toNat + text.length < 2 ^ 32) :
    kept text (storeCap buf size) = kept text size.toNat := by
  rw [storeCap, if_neg hbuf]
  rcases le_total size.toNat (2 ^ 32 - buf.toNat) with hle | hle
  · rw [min_eq_left hle]
  · rw [min_eq_right hle, kept_of_lt (by omega), kept_of_lt (by omega)]

/-- **What a call leaves in memory**, at a buffer other than NULL. -/
theorem vsnprintf_leaves (size : Word) (hbuf : buf ≠ 0)
    (hu : untruncated (offBuffer buf k) mem (cstr fmt) args = some (args', u))
    (hk : min size.toNat u.text.length ≤ k) (htop : buf.toNat + u.text.length < 2 ^ 32) :
    ∃ b, vsnprintf mem buf size (cstr fmt) args
        = some ((BitVec.ofNat 32 u.text.length).toInt, b) ∧
      b.mem = overlay u.mem buf (kept u.text size.toNat) ∧ b.counts = u.counts := by
  obtain ⟨b, hb, h⟩ := runItems_inSync size hbuf hu hk htop
  refine ⟨b.terminate (bufferEnd buf size).1 (bufferEnd buf size).2, ?_, ?_, ?_⟩
  · rw [vsnprintf_of_run hb, h.str, BitVec.add_comm, BitVec.add_sub_cancel]
  · rw [h.terminate hbuf htop, kept_storeCap hbuf htop]
  · rw [terminate_counts, h.counts]

/-- Every cell that `str` has passed has been stored to, as far as `end` admits. -/
theorem bufferSink_covers (buf last : Word) : Keeps (bufferSink buf last) fun b ↦
    ∀ a, (a - buf).toNat < (b.str - buf).toNat → a ≤ last → a ∈ b.stores := by
  refine ⟨?_, ?_⟩
  · intro c b h a ha hle
    by_cases hstr : a = b.str
    · subst hstr
      rw [bufferSink_put_of_le hle]
      exact List.mem_cons_self
    · have hbefore : (a - buf).toNat < (b.str - buf).toNat := by
        rw [bufferSink_put_str] at ha
        bv_omega
      have hmem := h a hbefore hle
      by_cases hlast : b.str ≤ last
      · rw [bufferSink_put_of_le hlast]
        exact List.mem_cons_of_mem _ hmem
      · rw [bufferSink_put_of_not_le hlast]
        exact hmem
  · intro p b b' h hb
    obtain rfl := Option.some.inj hb
    exact h

/-- **A call stores to every cell** of what it leaves. -/
theorem vsnprintf_covers (size : Word) (hbuf : buf ≠ 0)
    (hu : untruncated (offBuffer buf k) mem (cstr fmt) args = some (args', u))
    (hk : min size.toNat u.text.length ≤ k) (htop : buf.toNat + u.text.length < 2 ^ 32) {r : Int}
    {b : Buffer} (hb : vsnprintf mem buf size (cstr fmt) args = some (r, b)) {i : ℕ}
    (hi : i < (kept u.text size.toNat).length) : buf + BitVec.ofNat 32 i ∈ b.stores := by
  obtain ⟨b₁, hb₁, h⟩ := runItems_inSync size hbuf hu hk htop
  obtain ⟨-, rfl⟩ := Prod.mk.inj (Option.some.inj ((vsnprintf_of_run hb₁).symm.trans hb))
  have hcovers : ∀ a, (a - buf).toNat < (b₁.str - buf).toNat → a ≤ (bufferEnd buf size).1 →
      a ∈ b₁.stores :=
    (bufferSink_covers buf _).runItems (by simp) hb₁
  rw [← kept_storeCap hbuf htop, kept_length] at hi
  have hpassed {n : ℕ} (hn : n < u.text.length) (hcap : n < storeCap buf size) :
      buf + BitVec.ofNat 32 n ∈ b₁.stores := by
    refine hcovers _ ?_ ((le_last_iff size (by omega)).mpr hcap)
    rw [h.str, BitVec.add_comm, BitVec.add_sub_cancel, BitVec.add_comm, BitVec.add_sub_cancel,
      BitVec.toNat_ofNat, BitVec.toNat_ofNat, Nat.mod_eq_of_lt (by omega),
      Nat.mod_eq_of_lt (by omega)]
    exact hn
  rcases Nat.lt_or_ge i u.text.length with hlt | hge
  · exact terminate_stores_subset _ _ b₁ (hpassed hlt (by omega))
  · obtain rfl : i = u.text.length := by omega
    have hle := (le_last_iff size htop).mpr (by omega)
    rw [← h.str] at hle ⊢
    rw [Buffer.terminate, if_pos hle]
    exact List.mem_cons_self

/-- **Truncation.**  Let a text and its NUL end below the top of the address space, and let strings
and the targets of `%n` lie outside the cells of the buffer that are written.  Then a call with a
smaller and one with a larger size return the length of the text, store the same counts — those on
paper — and leave the rest of memory alike; the call with the smaller size, if it is not 0, leaves
as many characters of the text as there is room for in front of a NUL, which the call with the
larger size leaves there too.  `vsprintf` leaves what any call with room for the whole text does. -/
theorem vsnprintf_truncates {n m : Word} (hbuf : buf ≠ 0) (hnm : n ≤ m)
    (hu : untruncated (offBuffer buf (min m.toNat (u.text.length + 1))) mem (cstr fmt) args
      = some (args', u))
    (hmax : u.text.length < 2 ^ 31) (htop : buf.toNat + u.text.length + 1 ≤ 2 ^ 32) :
    ∃ bn bm, vsnprintf mem buf n (cstr fmt) args = some ((u.text.length : Int), bn) ∧
      vsnprintf mem buf m (cstr fmt) args = some ((u.text.length : Int), bm) ∧
      bn.counts = u.counts ∧ bm.counts = u.counts ∧
      (∀ a, ¬ InBuf buf (min m.toNat (u.text.length + 1)) a →
        bn.mem a = u.mem a ∧ bm.mem a = u.mem a) ∧
      (n ≠ 0 →
        (∀ (i : ℕ) (hi : i < u.text.length), i < n.toNat - 1 →
          bn.mem (buf + BitVec.ofNat 32 i) = u.text[i] ∧
            bm.mem (buf + BitVec.ofNat 32 i) = u.text[i]) ∧
        bn.mem (buf + BitVec.ofNat 32 (min u.text.length (n.toNat - 1))) = 0) ∧
      (u.text.length < m.toNat → ∃ bv,
        vsprintf mem buf (cstr fmt) args = some ((u.text.length : Int), bv) ∧
          bv.counts = u.counts ∧ bv.mem = bm.mem) := by
  have hnm' : n.toNat ≤ m.toNat := hnm
  have hlen := toInt_ofNat_of_lt hmax
  obtain ⟨bn, hn, hmem, hcounts⟩ :=
    vsnprintf_leaves n hbuf hu (by omega) (by omega)
  obtain ⟨bm, hm, hmem', hcounts'⟩ :=
    vsnprintf_leaves m hbuf hu (by omega) (by omega)
  rw [hlen] at hn hm
  refine ⟨bn, bm, hn, hm, hcounts, hcounts', fun a ha ↦ ?_, fun hn0 ↦ ⟨fun i hi hin ↦ ?_, ?_⟩,
    fun hlt ↦ ?_⟩
  · have hoff (k : ℕ) (hk : k ≤ m.toNat) : (kept u.text k).length ≤ (a - buf).toNat := by
      have := kept_length u.text k
      by_contra hlt
      exact ha (inBuf_of_sub_lt (by omega) (by omega) (not_le.mp hlt))
    rw [hmem, hmem', overlay_off (hoff _ hnm'), overlay_off (hoff _ le_rfl)]
    exact ⟨rfl, rfl⟩
  · rw [hmem, hmem']
    exact ⟨overlay_kept (by omega) hi hin, overlay_kept (by omega) hi (by omega)⟩
  · have hpos : 0 < n.toNat := BitVec.toNat_pos_of_ne_zero hn0
    rw [hmem, overlay_kept_nul (by omega) hpos]
  · have hall : (0xFFFFFFFF : Word).toNat = 2 ^ 32 - 1 := by decide
    have hpos : 0 < buf.toNat := BitVec.toNat_pos_of_ne_zero hbuf
    obtain ⟨bv, hv, hmemv, hcountsv⟩ :=
      vsnprintf_leaves 0xFFFFFFFF hbuf hu (by omega) (by omega)
    rw [hlen] at hv
    refine ⟨bv, hv, hcountsv, ?_⟩
    rw [hmemv, hmem', kept_of_lt hlt, kept_of_lt (by omega)]

end Run

/-- The theorem for `"a%s%n"`, a buffer at `0x3000`, and the sizes 2 and 8. -/
theorem vsnprintf_truncates_hi : ∃ bn bm bv,
    let fmt := cstr (chrs ['a', '%', 's', '%', 'n'])
    let args : Args := [0x1000, 0x4000] ++ₛ Stream'.const 0
    vsnprintf hiMem 0x3000 2 fmt args = some (3, bn) ∧
      vsnprintf hiMem 0x3000 8 fmt args = some (3, bm) ∧
      vsprintf hiMem 0x3000 fmt args = some (3, bv) ∧
      bn.counts = [(0x4000, 3)] ∧ bm.counts = [(0x4000, 3)] ∧
      bn.mem 0x3000 = chr 'a' ∧ bn.mem 0x3001 = 0 ∧ bm.mem 0x3000 = chr 'a' ∧
      bv.mem = bm.mem := by
  have h : (untruncated (offBuffer 0x3000 4) hiMem (cstr (chrs ['a', '%', 's', '%', 'n']))
      ([0x1000, 0x4000] ++ₛ Stream'.const 0)).map (fun r ↦ (r.2.text, r.2.counts))
        = some (chrs ['a', 'h', 'i'], [(0x4000, 3)]) := by decide +kernel
  obtain ⟨⟨args', ⟨mem', _, _⟩⟩, hu, he⟩ := Option.map_eq_some_iff.mp h
  obtain ⟨rfl, rfl⟩ := Prod.mk.inj he
  have hbuf : (0x3000 : Word) ≠ 0 := by decide
  have hle : (2 : Word) ≤ 8 := by decide
  have hk : 4 = min (8 : Word).toNat ((chrs ['a', 'h', 'i']).length + 1) := rfl
  have hmax : (chrs ['a', 'h', 'i']).length < 2 ^ 31 := by decide
  have htop : (0x3000 : Word).toNat + (chrs ['a', 'h', 'i']).length + 1 ≤ 2 ^ 32 := by decide
  have hpos : 0 < (chrs ['a', 'h', 'i']).length := by decide
  have hroom : (chrs ['a', 'h', 'i']).length < (8 : Word).toNat := by decide
  rw [hk] at hu
  obtain ⟨bn, bm, hn, hm, hcn, hcm, -, htext, hv⟩ :=
    vsnprintf_truncates (u := ⟨mem', chrs ['a', 'h', 'i'], [(0x4000, 3)]⟩) hbuf hle hu hmax htop
  obtain ⟨hchars, hnul⟩ := htext (by decide)
  obtain ⟨hn0, hm0⟩ := hchars 0 hpos (by decide)
  obtain ⟨bv, hbv, -, hmem⟩ := hv hroom
  have h0 : (0x3000 : Word) + BitVec.ofNat 32 0 = 0x3000 := by decide
  have h1 : (0x3000 : Word) + BitVec.ofNat 32 (min (chrs ['a', 'h', 'i']).length
      ((2 : Word).toNat - 1)) = 0x3001 := by decide
  rw [h0] at hn0 hm0
  rw [h1] at hnul
  exact ⟨bn, bm, bv, hn, hm, hbv, hcn, hcm, hn0, hnul, hm0, hmem⟩

/-! ## Where the stores go -/

section Run

variable {mem : Word → Byte} {buf size : Word} {fmt : List Byte} {args args' : Args} {u : Paper}
  {limit : ℕ}

/-- The length of text at which a store goes astray: at NULL, where nothing bounds the stores, the
size of the buffer; elsewhere, the distance to the top of the address space. -/
def strayAt (buf size : Word) : ℕ := if buf = 0 then size.toNat else 2 ^ 32 - buf.toNat

/-- There, `str` is outside of the buffer, and `end` does not stop the store. -/
theorem stray {a : Word} (ha : a = buf + BitVec.ofNat 32 (strayAt buf size)) :
    a ≤ (bufferEnd buf size).1 ∧ ¬ InBuf buf size.toNat a := by
  by_cases hbuf : buf = 0
  · subst hbuf
    have ha' : a = size := by
      rw [ha, strayAt, if_pos rfl, BitVec.ofNat_toNat, BitVec.setWidth_eq]
      bv_omega
    rw [bufferEnd_null, ha', BitVec.le_def, BitVec.toNat_allOnes, InBuf]
    have hzero : (0 : Word).toNat = 0 := rfl
    have := size.isLt
    omega
  · have hpos : 0 < buf.toNat := BitVec.toNat_pos_of_ne_zero hbuf
    have ha' : a.toNat = 0 := by
      have := buf.isLt
      rw [ha, strayAt, if_neg hbuf, BitVec.toNat_add, BitVec.toNat_ofNat]
      omega
    rw [BitVec.le_def, ha', InBuf, ha']
    exact ⟨Nat.zero_le _, by omega⟩

/-- A store outside of the buffer remains one. -/
theorem stray_total (buf size last : Word) :
    Total (bufferSink buf last) fun b ↦ ∃ a ∈ b.stores, ¬ InBuf buf size.toNat a := by
  refine ⟨⟨fun c b ⟨a, ha, hout⟩ ↦ ⟨a, ?_, hout⟩, fun p b b' ⟨a, ha, hout⟩ hb ↦ ?_⟩,
    fun b a _ ↦ ⟨_, rfl⟩, fun p b _ ↦ ⟨_, rfl⟩⟩
  · by_cases hle : b.str ≤ last
    · rw [bufferSink_put_of_le hle]
      exact List.mem_cons_of_mem _ ha
    · rw [bufferSink_put_of_not_le hle]
      exact ha
  · obtain rfl := Option.some.inj hb
    exact ⟨a, ha, hout⟩

/-- The NUL of a text that ends before any store goes astray. -/
theorem InSync.terminate_stores {b : Buffer}
    (h : InSync buf size.toNat (storeCap buf size) limit u b)
    (hlt : u.text.length < strayAt buf size) :
    ∀ a ∈ (b.terminate (bufferEnd buf size).1 (bufferEnd buf size).2).stores,
      InBuf buf size.toNat a := by
  have hin : ∀ a ∈ b.stores, InBuf buf size.toNat a := h.stores
  have htop : buf.toNat + u.text.length < 2 ^ 32 := by
    rw [strayAt] at hlt
    split_ifs at hlt with hbuf
    · rw [hbuf]
      simp only [BitVec.ofNat_eq_ofNat, BitVec.toNat_zero]
      have := size.isLt
      omega
    · omega
  have hstr := toNat_add_ofNat htop
  have hle := le_last_iff size htop
  rw [Buffer.terminate, h.str]
  split_ifs with hfits hpos
  · have hcap := hle.mp hfits
    refine List.forall_mem_cons.mpr ⟨?_, hin⟩
    rw [InBuf, hstr]
    rw [strayAt] at hlt
    rw [storeCap] at hcap
    split_ifs at hlt hcap <;> omega
  · by_cases hbuf : buf = 0
    · rw [hbuf, bufferEnd_null] at hpos
      exact absurd hpos (by decide)
    · obtain ⟨hlast, hsize⟩ := bufferEnd_toNat size hbuf
      rw [gt_iff_lt, BitVec.lt_def, hsize] at hpos
      refine List.forall_mem_cons.mpr ⟨?_, hin⟩
      have hcap : storeCap buf size = min size.toNat (2 ^ 32 - buf.toNat) := if_neg hbuf
      rw [InBuf]
      simp only [BitVec.ofNat_eq_ofNat, BitVec.toNat_zero] at hpos
      omega
  · exact hin

/-- **Where the stores go.**  Let strings and the targets of `%n` lie outside of the buffer.  Then
the stores of a call other than those of `%n` stay in the buffer exactly if the text ends below the
top of the address space, and, at NULL, if it fits in the buffer with its NUL. -/
theorem vsnprintf_stays_iff
    (hu : untruncated (offBuffer buf size.toNat) mem (cstr fmt) args = some (args', u)) :
    ∃ r b, vsnprintf mem buf size (cstr fmt) args = some (r, b) ∧
      ((∀ a ∈ b.stores, InBuf buf size.toNat a) ↔
        if buf = 0 then u.text.length < size.toNat else buf.toNat + u.text.length < 2 ^ 32) := by
  have hiff : (if buf = 0 then u.text.length < size.toNat else
      buf.toNat + u.text.length < 2 ^ 32) ↔ u.text.length < strayAt buf size := by
    rw [strayAt]
    split_ifs <;> omega
  have hsize := size.isLt
  have hB : Bounds buf (bufferEnd buf size).1 size.toNat (storeCap buf size)
      (strayAt buf size) := by
    refine bounds_end ?_ ?_
    · rw [strayAt]
      split_ifs with hbuf
      · rw [hbuf]
        simp only [BitVec.ofNat_eq_ofNat, BitVec.toNat_zero]
        omega
      · omega
    · rw [storeCap, strayAt]
      split_ifs <;> omega
  have hpast (c : Byte) (b : Buffer) (hb : b.str = buf + BitVec.ofNat 32 (strayAt buf size)) :
      ∃ a ∈ ((bufferSink buf (bufferEnd buf size).1).put c b).stores, ¬ InBuf buf size.toNat a := by
    obtain ⟨hle, hout⟩ := stray hb
    rw [bufferSink_put_of_le hle]
    exact ⟨b.str, List.mem_cons_self, hout⟩
  rw [untruncated_eq] at hu
  obtain ⟨b, hb, h⟩ := (inSync_simulates hB (stray_total buf size _) hpast).runItems
    (.inl (inSync_start buf _ _ _ mem)) hu
  refine ⟨_, _, vsnprintf_of_run hb, ?_⟩
  rw [hiff]
  rcases h with h | ⟨hlt, a, ha, hout⟩
  · rcases h.short.lt_or_eq with hlt | heq
    · exact iff_of_true (h.terminate_stores hlt) hlt
    · obtain ⟨hle, hout⟩ := stray (heq ▸ h.str)
      refine iff_of_false (fun hall ↦ hout (hall b.str ?_)) (by omega)
      rw [Buffer.terminate, if_pos hle]
      exact List.mem_cons_self
  · exact iff_of_false (fun hall ↦ hout (hall a (terminate_stores_subset _ _ b ha))) (by omega)

end Run

/-- The theorem for `"abc"`, and a buffer of two bytes at `0x3000`. -/
theorem vsnprintf_stays_iff_abc : ∃ r b,
    vsnprintf hiMem 0x3000 2 (cstr (chrs ['a', 'b', 'c'])) (Stream'.const 0) = some (r, b) ∧
      ∀ a ∈ b.stores, InBuf 0x3000 (2 : Word).toNat a := by
  have h : (untruncated (offBuffer 0x3000 (2 : Word).toNat) hiMem (cstr (chrs ['a', 'b', 'c']))
      (Stream'.const 0)).map (fun r ↦ r.2.text) = some (chrs ['a', 'b', 'c']) := by decide +kernel
  obtain ⟨⟨args', u⟩, hu, ht⟩ := Option.map_eq_some_iff.mp h
  obtain ⟨r, b, hb, hiff⟩ := vsnprintf_stays_iff hu
  refine ⟨r, b, hb, hiff.mpr ?_⟩
  rw [if_neg (by decide), show u.text = _ from ht]
  decide

/-- **A store for a buffer of size 0.**  At NULL, even the smallest text is stored, NUL included. -/
theorem vsnprintf_null_stores :
    (untruncated (offBuffer 0 0) (fun _ ↦ 0) (cstr (chrs ['a'])) (Stream'.const 0)).isSome = true ∧
      ∃ r b, vsnprintf (fun _ ↦ 0) 0 0 (cstr (chrs ['a'])) (Stream'.const 0) = some (r, b) ∧
        b.stores = [1, 0] ∧ ∀ a ∈ b.stores, ¬ InBuf 0 (0 : Word).toNat a := by
  refine ⟨by decide +kernel, ?_⟩
  have h : (vsnprintf (fun _ ↦ 0) 0 0 (cstr (chrs ['a'])) (Stream'.const 0)).map
      (fun r ↦ r.2.stores) = some [1, 0] := by decide +kernel
  obtain ⟨⟨r, b⟩, hb, hs⟩ := Option.map_eq_some_iff.mp h
  refine ⟨r, b, hb, hs, ?_⟩
  rintro a _ ⟨hle, hlt⟩
  have hzero : (0 : Word).toNat = 0 := rfl
  omega

end PastaOS
