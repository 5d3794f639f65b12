import Mathlib.Data.List.Induction
import PastaOS.Console.Tape

/-!
# Lines on the console

Most of what the kernel prints are lines, shorter than a row of the screen and without control
characters.  `Tape.Holds` says where such lines are on the tape, and `console_lines` what the screen
shows after any number of them: the last 24, each in a row of its own.
-/

set_option autoImplicit false

namespace PastaOS

/-- A byte that `kputchar` shows. -/
def IsPrintable (ch : Byte) : Prop := ch ≠ 10 ∧ ch ≠ 13 ∧ ch ≠ 9 ∧ ch ≠ 8

instance (ch : Byte) : Decidable (IsPrintable ch) := by
  unfold IsPrintable
  infer_instance

/-- A line that fits in a row. -/
structure IsLine (l : List Byte) : Prop where
  /-- It is shorter than a row. -/
  length_lt : l.length < CONSOLE_WIDTH
  /-- It consists of characters that are shown. -/
  printable : ∀ ch ∈ l, IsPrintable ch

/-- The bytes of some lines. -/
def lineBytes (ls : List (List Byte)) : List Byte := ls.flatMap fun l ↦ l ++ [10]

/-- A position of the tape that nothing has been written to. -/
def blankAt (i : ℕ) : Cell := if i < CONSOLE_BUFSIZE then clearBlank else scrollBlank

/-- The cell of a position of the tape, when there is a line in each row. -/
def pageCell (ls : List (List Byte)) (i : ℕ) : Cell :=
  match ls[i / CONSOLE_WIDTH]?.bind (·[i % CONSOLE_WIDTH]?) with
  | some ch => consoleEntry ch GREY BLACK
  | none => blankAt i

namespace Tape

/-- The tape holds these lines, from its beginning on, and the cursor is behind the last one. -/
structure Holds (t : Tape) (ls : List (List Byte)) (l : List Byte) : Prop where
  /-- The cursor is in the row behind, after the characters `l`. -/
  pos : t.pos = CONSOLE_WIDTH * ls.length + l.length
  /-- The window ends with this row, if it can. -/
  window : t.window = CONSOLE_WIDTH * (ls.length - (CONSOLE_HEIGHT - 1))
  /-- The lines. -/
  cells : t.cells = pageCell (ls ++ [l])

variable {t : Tape} {ls : List (List Byte)} {l : List Byte} {ch : Byte}

/-- The cell at a row and a column shows the character of the line there, or is blank. -/
theorem pageCell_row {row col : ℕ} (hcol : col < CONSOLE_WIDTH) :
    pageCell ls (CONSOLE_WIDTH * row + col) = match ls[row]?.bind (·[col]?) with
      | some ch => consoleEntry ch GREY BLACK
      | none => blankAt (CONSOLE_WIDTH * row + col) := by
  rw [pageCell, Nat.mul_add_div (by decide), Nat.div_eq_of_lt hcol, Nat.mul_add_mod,
    Nat.mod_eq_of_lt hcol, Nat.add_zero]

/-- A character more in the last row. -/
theorem pageCell_snoc (hl : l.length < CONSOLE_WIDTH) : pageCell (ls ++ [l ++ [ch]])
    = Function.update (pageCell (ls ++ [l])) (CONSOLE_WIDTH * ls.length + l.length)
      (consoleEntry ch GREY BLACK) := by
  funext i
  obtain ⟨row, col, hcol, rfl⟩ : ∃ row col, col < CONSOLE_WIDTH ∧ i = CONSOLE_WIDTH * row + col :=
    ⟨_, _, Nat.mod_lt i (by decide), (Nat.div_add_mod i CONSOLE_WIDTH).symm⟩
  rw [Function.update_apply, pageCell_row hcol, pageCell_row hcol]
  by_cases h : row = ls.length
  · rw [h, List.getElem?_concat_length, List.getElem?_concat_length, Option.bind_some,
      Option.bind_some]
    by_cases hi : col = l.length
    · rw [if_pos (by rw [hi]), hi, List.getElem?_concat_length]
    · rw [if_neg (by omega)]
      rcases Nat.lt_or_gt_of_ne hi with hlt | hgt
      · rw [List.getElem?_append_left hlt]
      · rw [List.getElem?_eq_none (by simp; omega), List.getElem?_eq_none (Nat.le_of_lt hgt)]
  · have hne : CONSOLE_WIDTH * row + col ≠ CONSOLE_WIDTH * ls.length + l.length := by
      simp only [CONSOLE_WIDTH] at hcol hl ⊢
      omega
    have hrow : (ls ++ [l ++ [ch]])[row]? = (ls ++ [l])[row]? := by
      rcases Nat.lt_or_gt_of_ne h with hlt | hgt
      · rw [List.getElem?_append_left hlt, List.getElem?_append_left hlt]
      · rw [List.getElem?_eq_none (by simp; omega), List.getElem?_eq_none (by simp; omega)]
    rw [if_neg hne, hrow]

/-- An empty row is no row at all. -/
theorem pageCell_concat_nil : pageCell (ls ++ [[]]) = pageCell ls := by
  funext i
  rw [pageCell, pageCell]
  have hrow : (ls ++ [[]])[i / CONSOLE_WIDTH]?.bind (·[i % CONSOLE_WIDTH]?)
      = ls[i / CONSOLE_WIDTH]?.bind (·[i % CONSOLE_WIDTH]?) := by
    rw [List.getElem?_append]
    split_ifs with h
    · rfl
    · rw [List.getElem?_eq_none (Nat.not_lt.mp h), List.getElem?_singleton]
      split_ifs <;> rfl
  rw [hrow]

theorem holds_clear : clear.Holds [] [] := by
  have hcells : pageCell ([] ++ [[]]) = pageCell [] := pageCell_concat_nil
  exact ⟨rfl, rfl, hcells.symm⟩

/-- A printable character is added to the line that is being written. -/
theorem Holds.char (h : t.Holds ls l) (hch : IsPrintable ch) (hl : l.length + 1 < CONSOLE_WIDTH) :
    (t.put ch).Holds ls (l ++ [ch]) := by
  obtain ⟨h10, h13, h9, h8⟩ := hch
  have hpos := h.pos
  have hwindow := h.window
  have hin : ¬ t.window + CONSOLE_BUFSIZE ≤ t.pos + 1 := by
    simp only [CONSOLE_WIDTH, CONSOLE_HEIGHT, CONSOLE_BUFSIZE] at hpos hwindow hl ⊢
    omega
  have hput : t.put ch = { t with
      pos := t.pos + 1
      cells := Function.update t.cells t.pos (consoleEntry ch GREY BLACK) } := by
    rw [put, write, if_neg h10, if_neg h13, if_neg h9, if_neg h8, follow, if_neg hin]
  rw [hput]
  refine ⟨?_, hwindow, ?_⟩
  · rw [List.length_append, List.length_singleton, ← Nat.add_assoc, ← hpos]
  · rw [pageCell_snoc (by omega), ← h.cells, ← hpos]

theorem Holds.chars (h : t.Holds ls []) (hl : IsLine l) : (l.foldl put t).Holds ls l := by
  induction l using List.reverseRecOn with
  | nil => exact h
  | append_singleton l ch ih =>
    have hlen := hl.length_lt
    rw [List.length_append, List.length_singleton] at hlen
    have hl' : IsLine l :=
      ⟨by omega, fun c hc ↦ hl.printable c (List.mem_append_left _ hc)⟩
    rw [List.foldl_append]
    exact (ih hl').char (hl.printable ch (by simp)) hlen

/-- A newline ends the line that is being written, and the next one begins. -/
theorem Holds.newline (h : t.Holds ls l) (hl : l.length < CONSOLE_WIDTH) :
    (t.put 10).Holds (ls ++ [l]) [] := by
  have hpos := h.pos
  have hwindow := h.window
  have hrow : (t.pos / CONSOLE_WIDTH + 1) * CONSOLE_WIDTH = CONSOLE_WIDTH * (ls.length + 1) := by
    rw [hpos, Nat.mul_add_div (by decide), Nat.div_eq_of_lt hl, Nat.add_zero, Nat.mul_comm]
  have hlen : (ls ++ [l]).length = ls.length + 1 := by simp
  rw [put, write, if_pos rfl, hrow, follow]
  split_ifs with hfollow
  · refine ⟨by rw [hlen]; rfl, ?_, pageCell_concat_nil.symm ▸ h.cells⟩
    simp only [CONSOLE_WIDTH, CONSOLE_HEIGHT, CONSOLE_BUFSIZE, hlen] at hwindow hfollow ⊢
    omega
  · refine ⟨by rw [hlen]; rfl, ?_, pageCell_concat_nil.symm ▸ h.cells⟩
    simp only [CONSOLE_WIDTH, CONSOLE_HEIGHT, CONSOLE_BUFSIZE, hlen] at hwindow hfollow ⊢
    omega

/-- **Lines go to rows**: printing lines adds them to the lines the tape holds. -/
theorem holds_lines {t : Tape} {ls ls' : List (List Byte)} (h : t.Holds ls [])
    (hls : ∀ l ∈ ls', IsLine l) : ((lineBytes ls').foldl put t).Holds (ls ++ ls') [] := by
  induction ls' generalizing t ls with
  | nil =>
    rw [List.append_nil]
    exact h
  | cons l ls' ih =>
    have hl := hls l List.mem_cons_self
    rw [lineBytes, List.flatMap_cons, List.foldl_append, List.foldl_append, List.append_cons]
    exact ih ((h.chars hl).newline hl.length_lt) fun l' hl' ↦ hls l' (List.mem_cons_of_mem _ hl')

end Tape

theorem cell_lt_bufsize {r col : ℕ} (hr : r < CONSOLE_HEIGHT) (hcol : col < CONSOLE_WIDTH) :
    CONSOLE_WIDTH * r + col < CONSOLE_BUFSIZE := by
  simp only [CONSOLE_HEIGHT, CONSOLE_WIDTH, CONSOLE_BUFSIZE] at hr hcol ⊢
  omega

/-- A screen with these lines: the last 24 of them are in its rows, one below the other, followed by
blanks, and the cursor is in the row behind. -/
structure ShowsLines (c : Console) (ls : List (List Byte)) : Prop where
  /-- The rows. -/
  rows : ∀ (r col : ℕ) (hr : r < CONSOLE_HEIGHT) (hcol : col < CONSOLE_WIDTH),
    c.buffer ⟨CONSOLE_WIDTH * r + col, cell_lt_bufsize hr hcol⟩ =
      match ls[ls.length - (CONSOLE_HEIGHT - 1) + r]?.bind (·[col]?) with
      | some ch => consoleEntry ch GREY BLACK
      | none => blankAt (CONSOLE_WIDTH * (ls.length - (CONSOLE_HEIGHT - 1) + r) + col)
  /-- `console_pos` -/
  pos : c.pos = CONSOLE_WIDTH * min ls.length (CONSOLE_HEIGHT - 1)
  /-- The cursor of the CRT controller. -/
  cursor : (c.crt.cursor : Int) = c.pos

theorem Screen.showsLines {c : Console} {t : Tape} {ls : List (List Byte)} (h : Screen c t)
    (hls : t.Holds ls []) : ShowsLines c ls := by
  refine ⟨fun r col hr hcol ↦ ?_, ?_, h.cursor⟩
  · rw [h.buffer, hls.cells, Tape.pageCell_concat_nil, hls.window]
    have hidx : CONSOLE_WIDTH * (ls.length - (CONSOLE_HEIGHT - 1)) + (CONSOLE_WIDTH * r + col)
        = CONSOLE_WIDTH * (ls.length - (CONSOLE_HEIGHT - 1) + r) + col := by
      rw [Nat.mul_add, Nat.add_assoc]
    rw [hidx, Tape.pageCell_row hcol]
  · rw [h.pos, hls.pos, hls.window, List.length_nil]
    simp only [CONSOLE_WIDTH, CONSOLE_HEIGHT]
    omega

/-- Since the console has been cleared, these lines have been printed. -/
def Printed (c : Console) (ls : List (List Byte)) : Prop := ∃ t, Screen c t ∧ t.Holds ls []

theorem Printed.showsLines {c : Console} {ls : List (List Byte)} (h : Printed c ls) :
    ShowsLines c ls := by
  obtain ⟨t, hscreen, hholds⟩ := h
  exact hscreen.showsLines hholds

theorem printed_clear {c₀ c : Console} (h : consoleClear c₀ = some c) : Printed c [] := by
  obtain ⟨c', hc', hscreen⟩ := consoleClear_screen c₀
  obtain rfl := Option.some.inj (h.symm.trans hc')
  exact ⟨_, hscreen, Tape.holds_clear⟩

/-- **The screen shows the last 24 lines.**  On a cleared console, any number of lines can be
printed, one after another, and then the screen shows the last 24 of them. -/
theorem console_lines (c₀ : Console) {ls : List (List Byte)} (hls : ∀ l ∈ ls, IsLine l) :
    ∃ c₁ c, consoleClear c₀ = some c₁ ∧ kputchars c₁ (lineBytes ls) = some c ∧
      ShowsLines c ls := by
  obtain ⟨c₁, hc₁, hscreen⟩ := consoleClear_screen c₀
  obtain ⟨c, hc, hscreen'⟩ := hscreen.kputchars (lineBytes ls)
  exact ⟨c₁, c, hc₁, hc, hscreen'.showsLines (Tape.holds_lines Tape.holds_clear hls)⟩

/-- The theorem for thirty lines `"hi"`. -/
theorem console_lines_thirty : ∃ c₁ c, consoleClear ⟨fun _ ↦ 0, 7, ⟨0, fun _ ↦ 0⟩⟩ = some c₁ ∧
    kputchars c₁ (lineBytes (List.replicate 30 (chrs ['h', 'i']))) = some c ∧
    ShowsLines c (List.replicate 30 (chrs ['h', 'i'])) := by
  have hi : IsLine (chrs ['h', 'i']) := ⟨by decide, by decide⟩
  refine console_lines _ fun l hl ↦ ?_
  rw [List.eq_of_mem_replicate hl]
  exact hi

end PastaOS
