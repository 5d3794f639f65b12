import Mathlib.Data.List.Infix
import Mathlib.Data.List.TakeWhile
import PastaOS.Console.Tape
import PastaOS.Printf.Buffer

/-!
# `printk` (`kernel/console.c`)

`printk` formats into a buffer on its stack, and sends the bytes of the buffer to the console up to
the first NUL.  The buffer has a NUL at the end of the text or, if the text is too long, in its last
cell; a NUL that is part of the text ends the output as well.  So what is sent is `shown`: the text
cut off at 1023 bytes, up to its first NUL.

The loop over the buffer is written for an arbitrary function in the place of `kputchar`.  Reading a
cell of the buffer fails if the cell is outside of it or has not been written.
-/

set_option autoImplicit false

namespace PastaOS

/-! ## The function -/

/-- `sizeof(buf)` -/
def PRINTK_BUFSIZE : ℕ := 1024

/-- `buf[i]` -/
def Buffer.cell (buf : Word) (b : Buffer) (i : ℕ) : Option Byte :=
  if i < PRINTK_BUFSIZE ∧ buf + BitVec.ofNat 32 i ∈ b.stores then
    some (b.mem (buf + BitVec.ofNat 32 i))
  else none

section Loop

variable {κ : Type} (putchar : κ → Byte → Option κ)

/-- The loop of `printk`, with `n` rounds to go from the `i`-th on: the value that `i` is left with,
and the console. -/
def printkLoop (buf : Word) (b : Buffer) : ℕ → ℕ → κ → Option (ℕ × κ)
  | 0, i, c => some (i, c)
  | n + 1, i, c => do
    let ch ← b.cell buf i
    if ch = 0 then return (i, c)
    else do
      let c ← putchar c ch
      printkLoop buf b n (i + 1) c

/-- `printk`, with the stack buffer at `buf`: the value returned, the buffer and the memory around
it, and the console. -/
def printkWith (mem : Word → Byte) (buf : Word) (fmt : List Byte) (args : Args) (c : κ) :
    Option (ℕ × Buffer × κ) := do
  let (_, b) ← vsnprintf mem buf (BitVec.ofNat 32 PRINTK_BUFSIZE) fmt args
  let (i, c) ← printkLoop putchar buf b PRINTK_BUFSIZE 0 c
  return (i, b, c)

end Loop

/-- `printk` -/
def printk (mem : Word → Byte) (buf : Word) (fmt : List Byte) (args : Args) (c : Console) :
    Option (ℕ × Buffer × Console) :=
  printkWith kputchar mem buf fmt args c

/-! ## What is sent -/

/-- A byte that does not end the loop. -/
def isShown (c : Byte) : Bool := decide (c ≠ 0)

theorem isShown_iff {c : Byte} : isShown c = true ↔ c ≠ 0 := decide_eq_true_iff

/-- The bytes of a text in front of the first NUL, as far as the buffer has room for them. -/
def shown (text : List Byte) : List Byte :=
  (text.take (PRINTK_BUFSIZE - 1)).takeWhile isShown

/-- The longest prefix of a text that fits in the buffer and contains no NUL. -/
structure LongestShown (text t : List Byte) : Prop where
  /-- It is a prefix. -/
  isPrefix : t <+: text
  /-- It fits. -/
  length_le : t.length ≤ PRINTK_BUFSIZE - 1
  /-- It contains no NUL. -/
  noNul : 0 ∉ t
  /-- There is no longer one. -/
  longest : ∀ t', t' <+: text → t'.length ≤ PRINTK_BUFSIZE - 1 → 0 ∉ t' → t' <+: t

theorem takeWhile_prefix_takeWhile {α : Type} {p : α → Bool} {l l' : List α} (h : l <+: l')
    (hp : ∀ a ∈ l, p a = true) : l <+: l'.takeWhile p := by
  obtain ⟨r, rfl⟩ := h
  rw [List.takeWhile_append_of_pos hp]
  exact List.prefix_append _ _

theorem longestShown_shown (text : List Byte) : LongestShown text (shown text) := by
  have hshown : shown text <+: text.take (PRINTK_BUFSIZE - 1) := List.takeWhile_prefix _
  obtain ⟨hpre, hlength⟩ := List.prefix_take_iff.mp hshown
  refine ⟨hpre, hlength, ?_, ?_⟩
  · intro h
    exact absurd rfl (isShown_iff.mp (List.mem_takeWhile_imp h))
  · intro t' ht' hle h0
    refine takeWhile_prefix_takeWhile (List.prefix_take_iff.mpr ⟨ht', hle⟩) ?_
    intro c hc
    exact isShown_iff.mpr fun h ↦ h0 (h ▸ hc)

section Run

variable {mem : Word → Byte} {buf : Word} {fmt : List Byte} {args args' : Args} {u : Paper}
  {b : Buffer} {κ : Type}

/-- **The loop sends the bytes** in front of the first NUL of the cells `t` and a NUL. -/
theorem printkLoop_cells (putchar : κ → Byte → Option κ) {t : List Byte} {n i : ℕ}
    (hcells : ∀ j ≤ t.length, b.cell buf (i + j) = (cstr t)[j]?) (hn : t.length < n) (c : κ) :
    printkLoop putchar buf b n i c
      = ((t.takeWhile isShown).foldlM putchar c).map fun c' ↦
          (i + (t.takeWhile isShown).length, c') := by
  induction t generalizing n i c with
  | nil =>
    obtain ⟨n, rfl⟩ : ∃ m, n = m + 1 := ⟨n - 1, by omega⟩
    have hnul : b.cell buf i = some 0 := hcells 0 (Nat.zero_le _)
    rw [printkLoop, hnul]
    rfl
  | cons ch t ih =>
    rw [List.length_cons] at hn
    obtain ⟨n, rfl⟩ : ∃ m, n = m + 1 := ⟨n - 1, by omega⟩
    have hhead : b.cell buf i = some ch := hcells 0 (Nat.zero_le _)
    rw [printkLoop, hhead, Option.bind_eq_bind, Option.bind_some]
    by_cases hch : ch = 0
    · rw [if_pos hch, List.takeWhile_cons_of_neg fun h ↦ isShown_iff.mp h hch]
      rfl
    · rw [if_neg hch, List.takeWhile_cons_of_pos (isShown_iff.mpr hch), List.foldlM_cons]
      have htail (j : ℕ) (hj : j ≤ t.length) : b.cell buf (i + 1 + j) = (cstr t)[j]? := by
        rw [Nat.add_assoc, Nat.add_comm 1 j]
        exact hcells (j + 1) (Nat.succ_le_succ hj)
      cases hput : putchar c ch with
      | none => rfl
      | some c₁ =>
        simp only [Option.bind_eq_bind, Option.bind_some, List.length_cons]
        rw [ih htail (by omega), Nat.add_assoc, Nat.add_comm 1]

/-- The cells of the buffer that `vsnprintf` has written. -/
theorem vsnprintf_cell (hbuf : buf ≠ 0)
    (hu : untruncated (offBuffer buf PRINTK_BUFSIZE) mem (cstr fmt) args = some (args', u))
    (htop : buf.toNat + u.text.length < 2 ^ 32) :
    ∃ r b, vsnprintf mem buf (BitVec.ofNat 32 PRINTK_BUFSIZE) (cstr fmt) args = some (r, b) ∧
      ∀ j ≤ (u.text.take (PRINTK_BUFSIZE - 1)).length,
        b.cell buf j = (cstr (u.text.take (PRINTK_BUFSIZE - 1)))[j]? := by
  have hsize : (BitVec.ofNat 32 PRINTK_BUFSIZE).toNat = PRINTK_BUFSIZE := by decide
  have hkept : kept u.text (BitVec.ofNat 32 PRINTK_BUFSIZE).toNat
      = cstr (u.text.take (PRINTK_BUFSIZE - 1)) := by
    rw [hsize]
    rfl
  have hk : min (BitVec.ofNat 32 PRINTK_BUFSIZE).toNat u.text.length ≤ PRINTK_BUFSIZE := by omega
  obtain ⟨b, hb, hmem, -⟩ := vsnprintf_leaves _ hbuf hu hk htop
  refine ⟨_, b, hb, ?_⟩
  intro j hj
  have hlen := kept_length u.text (BitVec.ofNat 32 PRINTK_BUFSIZE).toNat
  have hlt : j < (kept u.text (BitVec.ofNat 32 PRINTK_BUFSIZE).toNat).length := by
    rw [hkept, cstr, List.length_append, List.length_singleton]
    omega
  have hbound : PRINTK_BUFSIZE ≤ 2 ^ 32 := by decide
  have hstored := vsnprintf_covers _ hbuf hu hk htop hb hlt
  rw [Buffer.cell, if_pos ⟨by omega, hstored⟩, hmem, overlay_getElem (by omega) hlt, ← hkept,
    List.getElem?_eq_getElem hlt]

/-- **`printk` sends the text**, up to its first NUL and as far as there is room for it, byte by
byte to `kputchar`, and returns the number of bytes sent. -/
theorem printk_shown (hbuf : buf ≠ 0)
    (hu : untruncated (offBuffer buf PRINTK_BUFSIZE) mem (cstr fmt) args = some (args', u))
    (htop : buf.toNat + u.text.length < 2 ^ 32) :
    LongestShown u.text (shown u.text) ∧ ∃ b,
      (∀ {κ : Type} (putchar : κ → Byte → Option κ) (c : κ),
        printkWith putchar mem buf (cstr fmt) args c
          = ((shown u.text).foldlM putchar c).map fun c' ↦ ((shown u.text).length, b, c')) ∧
      ∀ c, printk mem buf (cstr fmt) args c
        = (kputchars c (shown u.text)).map fun c' ↦ ((shown u.text).length, b, c') := by
  refine ⟨longestShown_shown u.text, ?_⟩
  obtain ⟨r, b, hb, hcells⟩ := vsnprintf_cell hbuf hu htop
  have hwith {κ : Type} (putchar : κ → Byte → Option κ) (c : κ) :
      printkWith putchar mem buf (cstr fmt) args c
        = ((shown u.text).foldlM putchar c).map fun c' ↦ ((shown u.text).length, b, c') := by
    have hlen : (u.text.take (PRINTK_BUFSIZE - 1)).length < PRINTK_BUFSIZE := by
      rw [List.length_take]
      exact (min_le_left _ _).trans_lt (by decide)
    have hloop := printkLoop_cells (i := 0) putchar
      (fun j hj ↦ by rw [Nat.zero_add]; exact hcells j hj) hlen c
    rw [Nat.zero_add, ← shown] at hloop
    rw [printkWith, hb]
    simp only [Option.bind_eq_bind, Option.bind_some, hloop]
    cases (shown u.text).foldlM putchar c <;> rfl
  exact ⟨b, hwith, hwith kputchar⟩

/-- On the screen, `printk` is what the terminal makes of the bytes. -/
theorem Screen.printk {c : Console} {tape : Tape} (h : Screen c tape) (hbuf : buf ≠ 0)
    (hu : untruncated (offBuffer buf PRINTK_BUFSIZE) mem (cstr fmt) args = some (args', u))
    (htop : buf.toNat + u.text.length < 2 ^ 32) :
    ∃ b c', PastaOS.printk mem buf (cstr fmt) args c = some ((shown u.text).length, b, c') ∧
      Screen c' ((shown u.text).foldl Tape.put tape) := by
  obtain ⟨-, b, -, hprintk⟩ := printk_shown hbuf hu htop
  obtain ⟨c', hc', hscreen⟩ := h.kputchars (shown u.text)
  exact ⟨b, c', by rw [hprintk, hc', Option.map_some], hscreen⟩

end Run

/-- The theorem for `"a%cb"` and a NUL. -/
theorem printk_shown_nul : ∃ b, ∀ c,
    printk hiMem 0x3000 (cstr (chrs ['a', '%', 'c', 'b'])) (Stream'.const 0) c
      = (kputchars c (chrs ['a'])).map fun c' ↦ (1, b, c') := by
  have h : (untruncated (offBuffer 0x3000 PRINTK_BUFSIZE) hiMem (cstr (chrs ['a', '%', 'c', 'b']))
      (Stream'.const 0)).map (fun r ↦ r.2.text) = some [chr 'a', 0, chr 'b'] := by decide +kernel
  obtain ⟨⟨args', u⟩, hu, ht⟩ := Option.map_eq_some_iff.mp h
  have htext : u.text = [chr 'a', 0, chr 'b'] := ht
  have hbuf : (0x3000 : Word) ≠ 0 := by decide
  have htop : (0x3000 : Word).toNat + u.text.length < 2 ^ 32 := by
    rw [htext]
    decide
  obtain ⟨-, b, -, hprintk⟩ := printk_shown hbuf hu htop
  have hshown : shown u.text = chrs ['a'] := by
    rw [htext]
    decide
  rw [hshown] at hprintk
  exact ⟨b, hprintk⟩

end PastaOS
