import Mathlib.Data.BitVec
import Mathlib.Tactic.SplitIfs
import PastaOS.Interrupt.Defs

/-!
# What the functions of `interrupt.c` do to a line

For the sixteen lines, none of the shifts and none of the indices of `interrupt.c` is undefined, and
the functions do what their names say: `maskAndAckIrq_line`, `endOfIrq_line`, `uninstall_line` and
`install_line`.  `uninstall_cases` and `install_cases` say what the last two do for every `int`.
-/

set_option autoImplicit false

namespace PastaOS

/-! ## The mask -/

/-- The bit of a line in `irq_mask`. -/
def lineBit (i : Fin IRQ_NR) : BitVec 16 := 1 <<< i.val

variable {s s' : Interrupts} {i j : Fin IRQ_NR}

theorem lineBit_getLsbD (i j : Fin IRQ_NR) : (lineBit i).getLsbD j = decide (i = j) := by
  revert i j
  decide

theorem shl1_line (i : Fin IRQ_NR) : shl1 (BitVec.ofNat 32 i) = some ((lineBit i).setWidth 32) := by
  revert i
  decide

theorem orMask_line (i : Fin IRQ_NR) (s : Interrupts) : orMask ((lineBit i).setWidth 32) s
    = { s with irqMask := s.irqMask ||| lineBit i } := by
  rw [orMask, ← BitVec.setWidth_or, BitVec.setWidth_setWidth_of_le _ (by decide),
    BitVec.setWidth_eq]

theorem andMask_line (i : Fin IRQ_NR) (s : Interrupts) : andMask (~~~(lineBit i).setWidth 32) s
    = { s with irqMask := s.irqMask &&& ~~~lineBit i } := by
  have hmask : (s.irqMask.setWidth 32 &&& ~~~(lineBit i).setWidth 32).setWidth 16
      = s.irqMask &&& ~~~lineBit i := by
    refine BitVec.eq_of_getLsbD_eq ?_
    intro k hk
    have hk' : k < 32 := by omega
    simp only [BitVec.getLsbD_setWidth, BitVec.getLsbD_and, BitVec.getLsbD_not, hk, hk',
      decide_true, Bool.true_and]
  rw [andMask, hmask]

/-- Setting the bit of a line. -/
theorem getLsbD_or_lineBit (m : BitVec 16) (i j : Fin IRQ_NR) :
    (m ||| lineBit i).getLsbD j = (m.getLsbD j || decide (i = j)) := by
  rw [BitVec.getLsbD_or, lineBit_getLsbD]

/-- Clearing the bit of a line. -/
theorem getLsbD_and_lineBit (m : BitVec 16) (i j : Fin IRQ_NR) :
    (m &&& ~~~lineBit i).getLsbD j = (m.getLsbD j && decide (i ≠ j)) := by
  have hj : j.val < 16 := j.isLt
  rw [BitVec.getLsbD_and, BitVec.getLsbD_not, lineBit_getLsbD]
  simp [hj]

/-! ## Ports -/

/-- The mask and the tables are the same; the controllers need not be. -/
structure SameTables (s s' : Interrupts) : Prop where
  /-- `irq_mask` -/
  irqMask : s'.irqMask = s.irqMask
  /-- `irq_handler` -/
  irqHandler : s'.irqHandler = s.irqHandler
  /-- `idt` -/
  attribs : s'.attribs = s.attribs

theorem SameTables.trans {s₁ s₂ s₃ : Interrupts} (h : SameTables s₁ s₂) (h' : SameTables s₂ s₃) :
    SameTables s₁ s₃ :=
  ⟨h'.irqMask.trans h.irqMask, h'.irqHandler.trans h.irqHandler, h'.attribs.trans h.attribs⟩

/-- Talking to the controllers changes no table. -/
theorem sameTables_out (port : BitVec 16) (val : Byte) (s : Interrupts) :
    SameTables s (s.out port val) := by
  unfold Interrupts.out
  split_ifs <;> exact ⟨rfl, rfl, rfl⟩

theorem sameTables_outMask (irq : Byte) (s : Interrupts) : SameTables s (outMask irq s) := by
  unfold outMask
  split_ifs <;> exact sameTables_out _ _ _

/-- Asking a controller for its in-service register works. -/
theorem irqReal_line (i : Fin IRQ_NR) (s : Interrupts) :
    ∃ v s', irqReal (BitVec.ofNat 32 i) s = some (v, s') ∧ SameTables s s' := by
  have hread (p : Pic) : (p.command 0x0b).status = some (p.command 0x0b).isr := rfl
  have hM (s : Interrupts) : (s.out PORT_8259_M 0x0b).master = s.master.command 0x0b := rfl
  have hS (s : Interrupts) : (s.out PORT_8259_S 0x0b).slave = s.slave.command 0x0b := rfl
  have hsame (port : BitVec 16) : SameTables s ((s.out port 0x0b).out port 0x0a) :=
    (sameTables_out _ _ _).trans (sameTables_out _ _ _)
  rw [irqReal, shl1_line]
  simp only [Option.bind_eq_bind, Option.bind_some, hM, hS, hread]
  split_ifs
  · exact ⟨_, _, rfl, hsame _⟩
  · exact ⟨_, _, rfl, hsame _⟩

theorem handleSpuriousIrq_line (i : Fin IRQ_NR) (s : Interrupts) :
    ∃ s', handleSpuriousIrq (BitVec.ofNat 32 i) s = some s' ∧ SameTables s s' := by
  obtain ⟨v, s₁, hreal, hsame⟩ := irqReal_line i s
  rw [handleSpuriousIrq, shl1_line]
  simp only [Option.bind_eq_bind, Option.bind_some, hreal]
  split_ifs
  · exact ⟨s₁, rfl, hsame⟩
  · exact ⟨_, rfl, ⟨hsame.irqMask, hsame.irqHandler, hsame.attribs⟩⟩
  · exact ⟨s₁, rfl, hsame⟩

theorem checkSpurious_line (i : Fin IRQ_NR) (s : Interrupts) (mask : Word) :
    ∃ s', checkSpurious (BitVec.ofNat 32 i) mask s = some s' ∧ SameTables s s' := by
  unfold checkSpurious
  split_ifs
  · exact handleSpuriousIrq_line i s
  · exact ⟨s, rfl, ⟨rfl, rfl, rfl⟩⟩

theorem sameTables_ackIrq (irq : Word) (s : Interrupts) : SameTables s (ackIrq irq s) := by
  unfold ackIrq
  split_ifs
  · exact (sameTables_out _ _ _).trans <| (sameTables_out _ _ _).trans <|
      (sameTables_out _ _ _).trans <| (sameTables_out _ _ _).trans (sameTables_out _ _ _)
  · exact (sameTables_out _ _ _).trans <| (sameTables_out _ _ _).trans (sameTables_out _ _ _)

/-! ## The functions -/

theorem picDisableIrq_line (i : Fin IRQ_NR) (s : Interrupts) : picDisableIrq (BitVec.ofNat 8 i) s
    = some (outMask (BitVec.ofNat 8 i) { s with irqMask := s.irqMask ||| lineBit i }) := by
  have hi : (BitVec.ofNat 8 i).setWidth 32 = BitVec.ofNat 32 i := by
    revert i
    decide
  rw [picDisableIrq, hi, shl1_line, ← orMask_line]
  rfl

theorem picEnableIrq_line (i : Fin IRQ_NR) (s : Interrupts) : picEnableIrq (BitVec.ofNat 8 i) s
    = some (outMask (BitVec.ofNat 8 i) { s with irqMask := s.irqMask &&& ~~~lineBit i }) := by
  have hi : (BitVec.ofNat 8 i).setWidth 32 = BitVec.ofNat 32 i := by
    revert i
    decide
  rw [picEnableIrq, hi, shl1_line, ← andMask_line]
  rfl

/-- **`mask_and_ack_irq`** masks the line. -/
theorem maskAndAckIrq_line (i : Fin IRQ_NR) (s : Interrupts) :
    ∃ s', maskAndAckIrq (BitVec.ofNat 32 i) s = some s' ∧
      SameTables { s with irqMask := s.irqMask ||| lineBit i } s' := by
  obtain ⟨s₁, h₁, hsame⟩ := checkSpurious_line i s ((lineBit i).setWidth 32)
  have hor : SameTables { s with irqMask := s.irqMask ||| lineBit i }
      { s₁ with irqMask := s₁.irqMask ||| lineBit i } :=
    ⟨by simp only [hsame.irqMask], hsame.irqHandler, hsame.attribs⟩
  refine ⟨ackIrq (BitVec.ofNat 32 i) { s₁ with irqMask := s₁.irqMask ||| lineBit i }, ?_,
    hor.trans (sameTables_ackIrq _ _)⟩
  rw [maskAndAckIrq, shl1_line, ← orMask_line, Option.bind_eq_bind, Option.bind_some, h₁]
  rfl

/-- **`end_of_irq`** enables the line. -/
theorem endOfIrq_line (i : Fin IRQ_NR) (s : Interrupts) : endOfIrq (BitVec.ofNat 32 i) s
    = some (outMask (BitVec.ofNat 8 i) { s with irqMask := s.irqMask &&& ~~~lineBit i }) := by
  have hi : (BitVec.ofNat 32 i).setWidth 8 = BitVec.ofNat 8 i := by
    revert i
    decide
  rw [endOfIrq, hi, picEnableIrq_line]

theorem tableSet_of_mem {n : ℕ} {α : Type} (table : Fin n → α) (i : Fin n) (v : α) :
    tableSet table (i : ℕ) v = some (Function.update table i v) := by
  have hi : (0 : Int) ≤ (i : ℕ) ∧ ((i : ℕ) : Int) < n := by omega
  rw [tableSet, dif_pos hi]
  rfl

theorem tableSet_of_not_mem {n : ℕ} {α : Type} (table : Fin n → α) {i : Int} (v : α)
    (hi : ¬ (0 ≤ i ∧ i < n)) : tableSet table i v = none := by
  rw [tableSet, dif_neg hi]

/-- **`uninstall_interrupt_handler`** masks the line and forgets its handler. -/
theorem uninstall_line (i : Fin IRQ_NR) (s : Interrupts) :
    uninstallInterruptHandler (i : ℕ) s = some (0,
      { outMask (BitVec.ofNat 8 i) { s with irqMask := s.irqMask ||| lineBit i } with
        irqHandler := Function.update s.irqHandler i .null }) := by
  have hi : ¬ ((i : ℕ) : Int) > IRQ_NR := by omega
  rw [uninstallInterruptHandler, if_neg hi, BitVec.ofInt_natCast, picDisableIrq_line,
    Option.bind_eq_bind, Option.bind_some, tableSet_of_mem, (sameTables_outMask _ _).irqHandler]
  rfl

/-- **`install_interrupt_handler`** enables the line for its new handler. -/
theorem install_line (i : Fin IRQ_NR) (handler : Handler) (type : Int) (s : Interrupts) :
    installInterruptHandler (i : ℕ) handler type s = some (0,
      outMask (BitVec.ofNat 8 i) { s with
        irqMask := s.irqMask &&& ~~~lineBit i
        irqHandler := Function.update s.irqHandler i handler
        attribs := Function.update s.attribs (idtEntry i) (BitVec.ofInt 8 type) }) := by
  have hi : ¬ ((i : ℕ) : Int) > IRQ_NR := by omega
  have hidt : (0x20 : Int) + (i : ℕ) = ((idtEntry i : Fin IDT_SIZE) : ℕ) := by
    simp only [idtEntry]
    omega
  rw [installInterruptHandler, if_neg hi, hidt, BitVec.ofInt_natCast, tableSet_of_mem,
    tableSet_of_mem]
  simp only [Option.bind_eq_bind, Option.bind_some, picEnableIrq_line]
  rfl

/-- An `int` is a line, or it is refused, or it leads outside of the table. -/
theorem line_cases (irq : Int) :
    (∃ i : Fin IRQ_NR, irq = (i : ℕ)) ∨ irq > IRQ_NR ∨
      ¬ (0 ≤ irq ∧ irq < IRQ_NR) ∧ ¬ irq > IRQ_NR := by
  by_cases h : 0 ≤ irq ∧ irq < IRQ_NR
  · exact .inl ⟨⟨irq.toNat, by omega⟩, by simp only; omega⟩
  · by_cases h' : irq > IRQ_NR
    · exact .inr (.inl h')
    · exact .inr (.inr ⟨h, h'⟩)

/-- What `uninstall_interrupt_handler` does when it does something. -/
theorem uninstall_cases {irq r : Int} (h : uninstallInterruptHandler irq s = some (r, s')) :
    (irq > IRQ_NR ∧ r = -EINVAL ∧ s' = s) ∨
      ∃ i : Fin IRQ_NR, irq = (i : ℕ) ∧ r = 0 ∧
        s'.irqMask = s.irqMask ||| lineBit i ∧
        s'.irqHandler = Function.update s.irqHandler i .null := by
  rcases line_cases irq with ⟨i, rfl⟩ | hgt | ⟨hout, hle⟩
  · rw [uninstall_line] at h
    obtain ⟨rfl, rfl⟩ := Prod.mk.inj (Option.some.inj h)
    exact .inr ⟨i, rfl, rfl, (sameTables_outMask _ _).irqMask, rfl⟩
  · rw [uninstallInterruptHandler, if_pos hgt] at h
    obtain ⟨rfl, rfl⟩ := Prod.mk.inj (Option.some.inj h)
    exact .inl ⟨hgt, rfl, rfl⟩
  · rw [uninstallInterruptHandler, if_neg hle] at h
    simp [tableSet_of_not_mem _ _ hout] at h

/-- What `install_interrupt_handler` does when it does something. -/
theorem install_cases {irq type r : Int} {handler : Handler}
    (h : installInterruptHandler irq handler type s = some (r, s')) :
    (irq > IRQ_NR ∧ r = -EINVAL ∧ s' = s) ∨
      ∃ i : Fin IRQ_NR, irq = (i : ℕ) ∧ r = 0 ∧
        s'.irqMask = s.irqMask &&& ~~~lineBit i ∧
        s'.irqHandler = Function.update s.irqHandler i handler := by
  rcases line_cases irq with ⟨i, rfl⟩ | hgt | ⟨hout, hle⟩
  · rw [install_line] at h
    obtain ⟨rfl, rfl⟩ := Prod.mk.inj (Option.some.inj h)
    exact .inr ⟨i, rfl, rfl, (sameTables_outMask _ _).irqMask, (sameTables_outMask _ _).irqHandler⟩
  · rw [installInterruptHandler, if_pos hgt] at h
    obtain ⟨rfl, rfl⟩ := Prod.mk.inj (Option.some.inj h)
    exact .inl ⟨hgt, rfl, rfl⟩
  · rw [installInterruptHandler, if_neg hle, tableSet_of_not_mem _ _ hout] at h
    simp at h

end PastaOS
