import Mathlib.Tactic.SplitIfs
import PastaOS.Console.Defs

/-!
# The console is a window on a tape

What the screen is for, without scrolling: a terminal that writes on a tape that never ends
(`Tape`), of which the screen shows the last 25 rows.  `kputchar_refines` says that a call of
`kputchar` is one step of that terminal, with the screen showing the tape from the start of the
window on, and `console_refines_tape` says so for whole runs after `console_clear`.
-/

set_option autoImplicit false

namespace PastaOS

/-! ## The terminal -/

/-- The cells the screen is cleared with. -/
def clearBlank : Cell := consoleEntry 0 GREY BLACK

/-- The cells scrolling brings in. -/
def scrollBlank : Cell := consoleEntry 0 WHITE BLACK

/-- A terminal with an endless tape. -/
structure Tape where
  /-- The absolute position of the cursor. -/
  pos : ℕ
  /-- The tape. -/
  cells : ℕ → Cell
  /-- Where the window on the tape starts. -/
  window : ℕ

namespace Tape

/-- A cleared terminal. -/
def clear : Tape where
  pos := 0
  cells i := if i < CONSOLE_BUFSIZE then clearBlank else scrollBlank
  window := 0

/-- What a byte does to the cursor and the tape. -/
def write (t : Tape) (ch : Byte) : Tape :=
  if ch = 10 then { t with pos := (t.pos / CONSOLE_WIDTH + 1) * CONSOLE_WIDTH }
  else if ch = 13 then { t with pos := t.pos / CONSOLE_WIDTH * CONSOLE_WIDTH }
  else if ch = 9 then { t with pos := t.pos + 8 }
  else if ch = 8 then
    if t.window < t.pos then
      { t with
        pos := t.pos - 1
        cells := Function.update t.cells (t.pos - 1) (consoleEntry 32 WHITE BLACK) }
    else t
  else
    { t with
      pos := t.pos + 1
      cells := Function.update t.cells t.pos (consoleEntry ch GREY BLACK) }

/-- The window follows the cursor by one row when the cursor leaves it. -/
def follow (t : Tape) : Tape :=
  if t.window + CONSOLE_BUFSIZE ≤ t.pos then { t with window := t.window + CONSOLE_WIDTH } else t

/-- A byte sent to the terminal. -/
def put (t : Tape) (ch : Byte) : Tape := (t.write ch).follow

end Tape

/-! ## The buffer and the cursor registers -/

section Access

variable {c : Console} {i : ℕ}

theorem load_eq (c : Console) (hi : i < CONSOLE_BUFSIZE) :
    c.load i = some (c.buffer ⟨i, hi⟩) := by
  rw [Console.load, dif_pos ⟨by omega, by omega⟩]
  rfl

theorem store_spec (c : Console) (v : Cell) (hi : i < CONSOLE_BUFSIZE) : ∃ c' : Console,
    c.store i v = some c' ∧ c'.pos = c.pos ∧
      ∀ j : Fin CONSOLE_BUFSIZE, c'.buffer j = if j.val = i then v else c.buffer j := by
  refine ⟨{ c with buffer := Function.update c.buffer ⟨i, hi⟩ v }, ?_, rfl, ?_⟩
  · rw [Console.store, dif_pos ⟨by omega, by omega⟩]
    rfl
  · intro j
    simp only [Function.update_apply, Fin.ext_iff]

/-- The position the cursor registers hold. -/
def Crt.cursor (r : Crt) : ℕ := (r.reg 14).toNat * 256 + (r.reg 15).toNat

@[simp] theorem refreshCursor_buffer (c : Console) : (refreshCursor c).buffer = c.buffer := rfl

@[simp] theorem refreshCursor_pos (c : Console) : (refreshCursor c).pos = c.pos := rfl

/-- `refresh_cursor` sends a position of 16 bits to the CRT controller. -/
theorem refreshCursor_cursor {p : ℕ} (hp : c.pos = p) (hlt : p < 2 ^ 16) :
    (refreshCursor c).crt.cursor = p := by
  have hreg : (refreshCursor c).crt.reg = Function.update
      (Function.update c.crt.reg 14 (BitVec.ofInt 8 (c.pos >>> (8 : ℕ)))) 15
      (BitVec.ofInt 8 (c.pos % 256)) := rfl
  have hhi : ((p : Int) >>> (8 : ℕ)) = ((p / 256 : ℕ) : Int) := by
    rw [Int.shiftRight_eq_div_pow]
    norm_cast
  rw [Crt.cursor, hreg, Function.update_self, Function.update_of_ne (by decide),
    Function.update_self, hp, hhi]
  simp only [BitVec.toNat_ofInt]
  omega

end Access

/-! ## The loops -/

/-- The loop of `__console_clear` fills the screen. -/
theorem clear_loop (c : Console) (fg bg : Byte) : ∃ c',
    countUp (clearCell fg bg) CONSOLE_BUFSIZE c = some c' ∧ c'.pos = c.pos ∧
      ∀ i : Fin CONSOLE_BUFSIZE, c'.buffer i = consoleEntry 0 fg bg := by
  refine countUp_spec _ _ (fun n c' ↦ c'.pos = c.pos ∧
      ∀ i : Fin CONSOLE_BUFSIZE, i.val < n → c'.buffer i = consoleEntry 0 fg bg)
    ⟨rfl, by omega⟩ ?_ (fun _ ⟨hpos, hbuf⟩ ↦ ⟨hpos, fun i ↦ hbuf i i.isLt⟩)
  rintro n c' hn ⟨hpos, hbuf⟩
  obtain ⟨c'', hc'', hpos', hbuf'⟩ := store_spec c' (consoleEntry 0 fg bg) hn
  refine ⟨c'', hc'', hpos'.trans hpos, ?_⟩
  intro i hi
  rw [hbuf']
  split
  · rfl
  · exact hbuf i (by omega)

/-- Moving the rows up in place loses nothing: a cell is read before it is overwritten. -/
theorem scroll_loop (c : Console) : ∃ c', countUp scrollCell LAST_LINE c = some c' ∧
    c'.pos = c.pos ∧ ∀ i (hi : i + CONSOLE_WIDTH < CONSOLE_BUFSIZE),
      c'.buffer ⟨i, by omega⟩ = c.buffer ⟨i + CONSOLE_WIDTH, hi⟩ := by
  have hlast : LAST_LINE + CONSOLE_WIDTH = CONSOLE_BUFSIZE := rfl
  have hwidth : CONSOLE_WIDTH = 80 := rfl
  -- below `n` the rows have moved, from `n` on nothing has changed
  refine countUp_spec _ _ (fun n c' ↦ c'.pos = c.pos ∧
      (∀ i (hi : i + CONSOLE_WIDTH < CONSOLE_BUFSIZE), i < n →
        c'.buffer ⟨i, by omega⟩ = c.buffer ⟨i + CONSOLE_WIDTH, hi⟩) ∧
      ∀ i : Fin CONSOLE_BUFSIZE, n ≤ i.val → c'.buffer i = c.buffer i)
    ⟨rfl, by omega, fun _ _ ↦ rfl⟩ ?_
    (fun _ ⟨hpos, hbuf, _⟩ ↦ ⟨hpos, fun i hi ↦ hbuf i hi (by omega)⟩)
  rintro n c' hn ⟨hpos, hlow, hhigh⟩
  have hread := load_eq c' (by omega : n + CONSOLE_WIDTH < CONSOLE_BUFSIZE)
  rw [hhigh _ (by simp), Int.natCast_add] at hread
  obtain ⟨c'', hc'', hpos', hbuf'⟩ :=
    store_spec c' (c.buffer ⟨n + CONSOLE_WIDTH, by omega⟩) (by omega : n < CONSOLE_BUFSIZE)
  refine ⟨c'', ?_, hpos'.trans hpos, ?_, ?_⟩
  · rw [scrollCell, hread, Option.bind_eq_bind, Option.bind_some, hc'']
  · intro i hi hin
    rw [hbuf']
    by_cases hne : i = n
    · subst hne
      simp only [if_true]
    · simp only [if_neg hne]
      exact hlow i hi (by omega)
  · intro i hi
    rw [hbuf', if_neg (by omega)]
    exact hhigh i (by omega)

/-- The second loop of `console_scroll_up` blanks the bottom line. -/
theorem blank_loop (c : Console) : ∃ c', countUp blankCell CONSOLE_WIDTH c = some c' ∧
    c'.pos = c.pos ∧ ∀ i : Fin CONSOLE_BUFSIZE,
      c'.buffer i = if i.val < LAST_LINE then c.buffer i else scrollBlank := by
  have hlast : LAST_LINE + CONSOLE_WIDTH = CONSOLE_BUFSIZE := rfl
  refine countUp_spec _ _ (fun n c' ↦ c'.pos = c.pos ∧ ∀ i : Fin CONSOLE_BUFSIZE,
      c'.buffer i = if LAST_LINE ≤ i.val ∧ i.val < LAST_LINE + n then scrollBlank else c.buffer i)
    ⟨rfl, fun i ↦ by rw [if_neg (by omega)]⟩ ?_ (fun c' ⟨hpos, hbuf⟩ ↦ ⟨hpos, fun i ↦ ?_⟩)
  · rintro n c' hn ⟨hpos, hbuf⟩
    obtain ⟨c'', hc'', hpos', hbuf'⟩ :=
      store_spec c' scrollBlank (by omega : LAST_LINE + n < CONSOLE_BUFSIZE)
    rw [Int.natCast_add] at hc''
    refine ⟨c'', hc'', hpos'.trans hpos, ?_⟩
    intro i
    rw [hbuf', hbuf]
    split_ifs <;> first | rfl | omega
  · have := i.isLt
    rw [hbuf]
    split_ifs <;> first | rfl | omega

/-- `console_scroll_up` -/
theorem consoleScrollUp_spec (c : Console) : ∃ c', consoleScrollUp c = some c' ∧
    c'.pos = c.pos - CONSOLE_WIDTH ∧ ∀ i : Fin CONSOLE_BUFSIZE, c'.buffer i =
      if hi : i.val + CONSOLE_WIDTH < CONSOLE_BUFSIZE then c.buffer ⟨i + CONSOLE_WIDTH, hi⟩
      else scrollBlank := by
  have hlast : LAST_LINE + CONSOLE_WIDTH = CONSOLE_BUFSIZE := rfl
  obtain ⟨c₁, h₁, hpos₁, hbuf₁⟩ := scroll_loop c
  obtain ⟨c₂, h₂, hpos₂, hbuf₂⟩ := blank_loop c₁
  refine ⟨{ c₂ with pos := c₂.pos - CONSOLE_WIDTH }, ?_, by simp [hpos₂, hpos₁], ?_⟩
  · simp [consoleScrollUp, h₁, h₂]
  · intro i
    rw [hbuf₂]
    by_cases hi : i.val < LAST_LINE
    · rw [if_pos hi, dif_pos (by omega)]
      exact hbuf₁ i (by omega)
    · rw [if_neg hi, dif_neg (by omega)]

/-! ## The refinement -/

/-- The screen shows the window of the tape, as far as the cursor position and the buffer go; the
cursor may have left the window. -/
structure Shows (c : Console) (t : Tape) : Prop where
  /-- The window starts at a row. -/
  aligned : CONSOLE_WIDTH ∣ t.window
  /-- The cursor is not before the window. -/
  left : t.window ≤ t.pos
  /-- `console_pos` is the position in the window. -/
  pos : c.pos = t.pos - t.window
  /-- The buffer shows the window. -/
  buffer : ∀ i : Fin CONSOLE_BUFSIZE, c.buffer i = t.cells (t.window + i)
  /-- Nothing has been written beyond the window. -/
  fresh : ∀ i, t.window + CONSOLE_BUFSIZE ≤ i → t.cells i = scrollBlank

/-- Between calls, moreover, the cursor is in the window and the CRT controller knows where. -/
structure Screen (c : Console) (t : Tape) : Prop extends Shows c t where
  /-- The cursor is in the window. -/
  right : t.pos < t.window + CONSOLE_BUFSIZE
  /-- The cursor registers hold `console_pos`. -/
  cursor : (c.crt.cursor : Int) = c.pos

/-- `console_pos % CONSOLE_WIDTH` does not see how far the window has moved. -/
theorem sub_tmod_width {p w : ℕ} (hw : CONSOLE_WIDTH ∣ w) (hle : w ≤ p) :
    ((p : Int) - w) - ((p : Int) - w).tmod CONSOLE_WIDTH
      = ((p / CONSOLE_WIDTH * CONSOLE_WIDTH : ℕ) : Int) - w := by
  obtain ⟨k, rfl⟩ := hw
  rw [Int.tmod_eq_emod_of_nonneg (by omega)]
  simp only [CONSOLE_WIDTH] at hle ⊢
  omega

/-- A cell written through the window. -/
theorem Shows.store {c : Console} {t : Tape} (h : Shows c t) {p : ℕ} (hw : t.window ≤ p)
    (hp : p < t.window + CONSOLE_BUFSIZE) (v : Cell) : ∃ c' : Console,
      c.store (p - t.window) v = some c' ∧ c'.pos = c.pos ∧
      (∀ i : Fin CONSOLE_BUFSIZE, c'.buffer i = Function.update t.cells p v (t.window + i)) ∧
      ∀ i, t.window + CONSOLE_BUFSIZE ≤ i → Function.update t.cells p v i = scrollBlank := by
  have hsub : (p : Int) - t.window = ((p - t.window : ℕ) : Int) := by omega
  have hlt : p - t.window < CONSOLE_BUFSIZE := by omega
  obtain ⟨c', hc', hpos, hbuf⟩ := store_spec c v hlt
  refine ⟨c', by rw [hsub, hc'], hpos, ?_, ?_⟩
  · intro i
    rw [hbuf, Function.update_apply, h.buffer]
    split_ifs <;> first | rfl | omega
  · intro i hi
    rw [Function.update_of_ne (by omega), h.fresh i hi]

/-- The `switch` of `kputchar` is a write on the tape, which takes the cursor at most one row past
the window. -/
theorem Screen.switch {c : Console} {t : Tape} (h : Screen c t) (ch : Byte) :
    ∃ c', kputcharSwitch c ch = some c' ∧ Shows c' (t.write ch) ∧
      (t.write ch).pos < t.window + CONSOLE_BUFSIZE + CONSOLE_WIDTH ∧
      (t.write ch).window = t.window := by
  have hal := h.aligned
  have hleft := h.left
  have hright := h.right
  have hpos := h.pos
  have hwidth : CONSOLE_WIDTH = 80 := rfl
  have hsize : CONSOLE_BUFSIZE = 2000 := rfl
  unfold kputcharSwitch Tape.write
  split_ifs with hnl hcr htab hbs hgt hwin hwin
  · have hrow := sub_tmod_width hal (by omega : t.window ≤ t.pos + CONSOLE_WIDTH)
    rw [Nat.add_div_right _ (by decide)] at hrow
    have hsum : c.pos + CONSOLE_WIDTH = ((t.pos + CONSOLE_WIDTH : ℕ) : Int) - t.window := by omega
    clear hpos
    rw [hwidth] at hal hrow hsum ⊢
    refine ⟨_, rfl, ⟨h.aligned, ?_, ?_, h.buffer, h.fresh⟩, ?_, rfl⟩
    · simp only; omega
    · simp only [hsum]
      exact hrow
    · simp only; omega
  · have hrow := sub_tmod_width hal hleft
    rw [hwidth] at hal hrow ⊢
    refine ⟨_, rfl, ⟨h.aligned, ?_, ?_, h.buffer, h.fresh⟩, ?_, rfl⟩
    · simp only; clear hrow; omega
    · simp only [hpos]
      exact hrow
    · simp only; clear hrow; omega
  · refine ⟨_, rfl, ⟨hal, ?_, ?_, h.buffer, h.fresh⟩, ?_, rfl⟩
    · simp only; omega
    · simp only; omega
    · simp only; omega
  · have hsub : c.pos - 1 = ((t.pos - 1 : ℕ) : Int) - t.window := by omega
    have hshow : Shows { c with pos := c.pos - 1 } { t with pos := t.pos - 1 } :=
      ⟨hal, by simp only; omega, hsub, h.buffer, h.fresh⟩
    obtain ⟨c', hc', hp, hbuf, hfresh⟩ := hshow.store (p := t.pos - 1)
      (by simp only; omega) (by simp only; omega) (consoleEntry 32 WHITE BLACK)
    refine ⟨c', by rw [hsub] at hc' ⊢; exact hc', ⟨hal, ?_, hp.trans hsub, hbuf, hfresh⟩, ?_, rfl⟩
    · simp only; omega
    · simp only; omega
  · omega
  · omega
  · exact ⟨c, rfl, h.toShows, by omega, rfl⟩
  · obtain ⟨c', hc', hp, hbuf, hfresh⟩ := h.store hleft hright (consoleEntry ch GREY BLACK)
    refine ⟨{ c' with pos := c'.pos + 1 }, by rw [hpos, hc']; rfl,
      ⟨hal, ?_, ?_, hbuf, hfresh⟩, ?_, rfl⟩
    · simp only; omega
    · simp only; omega
    · simp only; omega

/-- The scroll after it moves the window by a row. -/
theorem Shows.scroll {c : Console} {t : Tape} (h : Shows c t)
    (hfar : t.pos < t.window + CONSOLE_BUFSIZE + CONSOLE_WIDTH) :
    ∃ c', (if c.pos ≥ CONSOLE_BUFSIZE then consoleScrollUp c else some c) = some c' ∧
      Shows c' t.follow ∧ t.follow.pos < t.follow.window + CONSOLE_BUFSIZE := by
  have hleft := h.left
  have hpos := h.pos
  have hsize : CONSOLE_WIDTH ≤ CONSOLE_BUFSIZE := by decide
  unfold Tape.follow
  by_cases hout : t.window + CONSOLE_BUFSIZE ≤ t.pos
  · rw [if_pos hout, if_pos (by omega)]
    obtain ⟨c', hc', hp, hbuf⟩ := consoleScrollUp_spec c
    refine ⟨c', hc', ⟨?_, ?_, ?_, ?_, ?_⟩, ?_⟩
    · exact Nat.dvd_add h.aligned (Nat.dvd_refl _)
    · simp only; omega
    · simp only; omega
    · intro i
      have hi := i.isLt
      have hcell : t.window + CONSOLE_WIDTH + i = t.window + (i + CONSOLE_WIDTH) := by omega
      rw [hbuf]
      simp only [hcell]
      split
      · exact h.buffer _
      · exact (h.fresh _ (by omega)).symm
    · intro i hi
      simp only at hi
      exact h.fresh i (by omega)
    · simp only; omega
  · rw [if_neg hout, if_neg (by omega)]
    exact ⟨c, rfl, h, by omega⟩

theorem Shows.refresh {c : Console} {t : Tape} (h : Shows c t)
    (hright : t.pos < t.window + CONSOLE_BUFSIZE) : Screen (refreshCursor c) t := by
  have hleft := h.left
  have hpos : c.pos = ((t.pos - t.window : ℕ) : Int) := by rw [h.pos]; omega
  have hsize : CONSOLE_BUFSIZE < 2 ^ 16 := by decide
  refine ⟨⟨h.aligned, h.left, h.pos, h.buffer, h.fresh⟩, hright, ?_⟩
  rw [refreshCursor_cursor hpos (by omega), refreshCursor_pos, hpos]

/-- **A call of `kputchar` is a step of the terminal.** -/
theorem Screen.kputchar {c : Console} {t : Tape} (h : Screen c t) (ch : Byte) :
    ∃ c', PastaOS.kputchar c ch = some c' ∧ Screen c' (t.put ch) := by
  obtain ⟨c₁, h₁, hshow₁, hfar, hwin⟩ := h.switch ch
  obtain ⟨c₂, h₂, hshow₂, hright⟩ := hshow₁.scroll (hwin.symm ▸ hfar)
  refine ⟨refreshCursor c₂, ?_, hshow₂.refresh hright⟩
  rw [PastaOS.kputchar, h₁, Option.bind_eq_bind, Option.bind_some, h₂]
  rfl

theorem Screen.kputchars {c : Console} {t : Tape} (h : Screen c t) (bytes : List Byte) :
    ∃ c', PastaOS.kputchars c bytes = some c' ∧ Screen c' (bytes.foldl Tape.put t) := by
  induction bytes generalizing c t with
  | nil => exact ⟨c, rfl, h⟩
  | cons ch bytes ih =>
    obtain ⟨c₁, h₁, hs₁⟩ := h.kputchar ch
    obtain ⟨c₂, h₂, hs₂⟩ := ih hs₁
    refine ⟨c₂, ?_, hs₂⟩
    rw [PastaOS.kputchars, List.foldlM_cons, h₁]
    exact h₂

/-- `console_clear` clears the terminal. -/
theorem consoleClear_screen (c : Console) :
    ∃ c', consoleClear c = some c' ∧ Screen c' Tape.clear := by
  obtain ⟨c', hc', hpos, hbuf⟩ := clear_loop { c with pos := 0 } GREY BLACK
  have hshow : Shows c' Tape.clear := by
    refine ⟨Nat.dvd_zero _, Nat.le_refl _, hpos, ?_, ?_⟩
    · intro i
      simp [hbuf, Tape.clear, clearBlank]
    · intro i hi
      have hi' : ¬ i < CONSOLE_BUFSIZE := by simp only [Tape.clear] at hi; omega
      simp [Tape.clear, hi']
  refine ⟨refreshCursor c', ?_, hshow.refresh (by decide)⟩
  simp [consoleClear, consoleClearWith, hc']

/-- **The console is a window on a tape.**  After `console_clear` and any bytes sent to `kputchar`
— none of the calls having made an access outside the buffer — the cursor is on the screen,
`console_pos` is its position in the window of the terminal that was sent the same bytes, the buffer
shows that window, and the cursor registers of the CRT controller hold `console_pos`. -/
theorem console_refines_tape (c₀ : Console) (bytes : List Byte) : ∃ c₁ c t,
    consoleClear c₀ = some c₁ ∧ kputchars c₁ bytes = some c ∧ t = bytes.foldl Tape.put Tape.clear ∧
      0 ≤ c.pos ∧ c.pos < CONSOLE_BUFSIZE ∧ c.pos = t.pos - t.window ∧
      (∀ i : Fin CONSOLE_BUFSIZE, c.buffer i = t.cells (t.window + i)) ∧
      (c.crt.cursor : Int) = c.pos := by
  obtain ⟨c₁, h₁, hs₁⟩ := consoleClear_screen c₀
  obtain ⟨c, hc, hs⟩ := hs₁.kputchars bytes
  have hleft := hs.left
  have hright := hs.right
  have hpos := hs.pos
  exact ⟨c₁, c, _, h₁, hc, rfl, by omega, by omega, hpos, hs.buffer, hs.cursor⟩

end PastaOS
