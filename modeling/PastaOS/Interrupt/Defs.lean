import Mathlib.Data.Fin.Basic
import Mathlib.Data.Nat.Notation
import Mathlib.Logic.Function.Basic
import PastaOS.Types

/-!
# Interrupts (`kernel/interrupt.c`, `kernel/clock.c`)

The two interrupt controllers, the variables of `interrupt.c`, and its functions.

`none` stands for what C leaves undefined: an index outside of its table, a shift by the width of
the number or more, a call through a NULL pointer.  The sections between `irq_save` and
`irq_restore` cannot be interrupted, so a function that consists of one is a function here; the
sequence of such functions that `default_irq_handler` is belongs to `Interrupt.Machine`.
-/

set_option autoImplicit false

namespace PastaOS

/-- `EINVAL` -/
def EINVAL : Int := 22

/-- `IRQ_NR` -/
abbrev IRQ_NR : ℕ := 16

/-- `IDT_SIZE` -/
abbrev IDT_SIZE : ℕ := 256

/-- `INT_GATE` -/
def INT_GATE : Byte := 0x8e

/-- `TRAP_GATE` -/
def TRAP_GATE : Byte := 0x8f

/-- `PORT_8259_M` -/
def PORT_8259_M : BitVec 16 := 0x20

/-- `PORT_8259_S` -/
def PORT_8259_S : BitVec 16 := 0xa0

/-- `PORT_INT_MASK_M` -/
def PORT_INT_MASK_M : BitVec 16 := 0x21

/-- `PORT_INT_MASK_S` -/
def PORT_INT_MASK_S : BitVec 16 := 0xa1

/-- `EOI` -/
def EOI : Byte := 0x20

/-! ## The controllers -/

/-- An 8259A interrupt controller, as far as the kernel uses it. -/
structure Pic where
  /-- The interrupt mask register. -/
  imr : Byte
  /-- The in-service register. -/
  isr : Byte
  /-- Whether reading the command port reads the in-service register. -/
  readIsr : Bool
  /-- The number of initialization bytes still to come on the data port. -/
  icw : ℕ
  deriving DecidableEq

/-- A byte written to the command port: the start of the initialization, the choice of the register
to be read, a non-specific end of interrupt (for the lowest line in service), a specific one. -/
def Pic.command (v : Byte) (p : Pic) : Pic :=
  if v = 0x11 then { p with imr := 0, readIsr := false, icw := 3 }
  else if v = 0x0a then { p with readIsr := false }
  else if v = 0x0b then { p with readIsr := true }
  else if v = 0x20 then { p with isr := p.isr &&& (p.isr - 1) }
  else if 0x60 ≤ v ∧ v ≤ 0x67 then { p with isr := p.isr &&& ~~~((1 : Byte) <<< (v &&& 7).toNat) }
  else p

/-- A byte written to the data port: initialization, or the mask. -/
def Pic.data (v : Byte) (p : Pic) : Pic :=
  if p.icw = 0 then { p with imr := v } else { p with icw := p.icw - 1 }

/-- A byte read from the command port, when it is the in-service register that is to be read. -/
def Pic.status (p : Pic) : Option Byte := if p.readIsr then some p.isr else none

/-- A line goes into service. -/
def Pic.serve (n : ℕ) (p : Pic) : Pic := { p with isr := p.isr ||| (1 <<< n) }

/-! ## The variables -/

/-- What a `handler` may point to. -/
inductive Handler
  /-- Nothing. -/
  | null
  /-- `unhandled_interrupt` -/
  | unhandled
  /-- Any other function. -/
  | fn (name : ℕ)
  deriving DecidableEq

/-- The variables of `interrupt.c` and the two controllers. -/
structure Interrupts where
  /-- `irq_mask` -/
  irqMask : BitVec 16
  /-- `spurious_irq_mask` -/
  spuriousIrqMask : Word
  /-- `irq_handler[i].handler` -/
  irqHandler : Fin IRQ_NR → Handler
  /-- `idt[i].attribs` -/
  attribs : Fin IDT_SIZE → Byte
  /-- The master. -/
  master : Pic
  /-- The slave. -/
  slave : Pic

namespace Interrupts

/-- `irq_master_mask` -/
def irqMasterMask (s : Interrupts) : Byte := s.irqMask.setWidth 8

/-- `irq_slave_mask` -/
def irqSlaveMask (s : Interrupts) : Byte := (s.irqMask >>> 8).setWidth 8

/-- `out` -/
def out (port : BitVec 16) (val : Byte) (s : Interrupts) : Interrupts :=
  if port = PORT_8259_M then { s with master := s.master.command val }
  else if port = PORT_8259_S then { s with slave := s.slave.command val }
  else if port = PORT_INT_MASK_M then { s with master := s.master.data val }
  else if port = PORT_INT_MASK_S then { s with slave := s.slave.data val }
  else s

end Interrupts

/-- The entry of a line in the descriptor table. -/
def idtEntry (i : Fin IRQ_NR) : Fin IDT_SIZE :=
  ⟨0x20 + i, by have := i.isLt; simp only [IRQ_NR, IDT_SIZE] at *; omega⟩

/-- `table[i] = v` -/
def tableSet {n : ℕ} {α : Type} (table : Fin n → α) (i : Int) (v : α) : Option (Fin n → α) :=
  if h : 0 ≤ i ∧ i < n then
    some (Function.update table ⟨i.toNat, (Int.toNat_lt h.1).mpr h.2⟩ v)
  else none

/-- `1 << irq` -/
def shl1 (irq : Word) : Option Word := if irq.toNat < 32 then some (1 <<< irq.toNat) else none

/-! ## Acknowledging an interrupt -/

section Ack

open Interrupts

/-- `irq_real`: the bit of the line in the in-service register of its controller. -/
def irqReal (irq : Word) (s : Interrupts) : Option (Word × Interrupts) := do
  let irqmask ← shl1 irq
  if irq.toNat < 8 then
    let s := s.out PORT_8259_M 0x0b
    let value ← s.master.status
    return (value.setWidth 32 &&& irqmask, s.out PORT_8259_M 0x0a)
  else
    let s := s.out PORT_8259_S 0x0b
    let value ← s.slave.status
    return (value.setWidth 32 &&& (irqmask >>> 8), s.out PORT_8259_S 0x0a)

/-- `handle_spurious_irq` -/
def handleSpuriousIrq (irq : Word) (s : Interrupts) : Option Interrupts := do
  let mask ← shl1 irq
  let (real, s) ← irqReal irq s
  if real ≠ 0 then return s
  else if s.spuriousIrqMask &&& mask = 0 then
    return { s with spuriousIrqMask := s.spuriousIrqMask ||| mask }
  else return s

/-- `irq_mask |= mask;` -/
def orMask (mask : Word) (s : Interrupts) : Interrupts :=
  { s with irqMask := (s.irqMask.setWidth 32 ||| mask).setWidth 16 }

/-- `irq_mask &= mask;` -/
def andMask (mask : Word) (s : Interrupts) : Interrupts :=
  { s with irqMask := (s.irqMask.setWidth 32 &&& mask).setWidth 16 }

/-- `if (irq_mask & mask) handle_spurious_irq(irq);` -/
def checkSpurious (irq mask : Word) (s : Interrupts) : Option Interrupts :=
  if s.irqMask.setWidth 32 &&& mask ≠ 0 then handleSpuriousIrq irq s else some s

/-- The commands `mask_and_ack_irq` sends to the controllers. -/
def ackIrq (irq : Word) (s : Interrupts) : Interrupts :=
  if irq &&& 8 ≠ 0 then
    let s := s.out PORT_INT_MASK_S s.irqSlaveMask
    let s := s.out PORT_8259_S (0x60 + (irq &&& 7).setWidth 8)
    let s := s.out PORT_8259_S (0x60 + 2)
    let s := s.out PORT_8259_S EOI
    s.out PORT_8259_M EOI
  else
    let s := s.out PORT_INT_MASK_M s.irqMasterMask
    let s := s.out PORT_8259_M (0x60 + irq.setWidth 8)
    s.out PORT_8259_M EOI

/-- `mask_and_ack_irq` -/
def maskAndAckIrq (irq : Word) (s : Interrupts) : Option Interrupts := do
  let mask ← shl1 irq
  let s ← checkSpurious irq mask s
  return ackIrq irq (orMask mask s)

end Ack

/-! ## Enabling and disabling a line -/

/-- `if (irq & 8) out(PORT_INT_MASK_S, irq_slave_mask); else out(PORT_INT_MASK_M,
irq_master_mask);` -/
def outMask (irq : Byte) (s : Interrupts) : Interrupts :=
  if irq &&& 8 ≠ 0 then s.out PORT_INT_MASK_S s.irqSlaveMask
  else s.out PORT_INT_MASK_M s.irqMasterMask

/-- `pic_disable_irq` -/
def picDisableIrq (irq : Byte) (s : Interrupts) : Option Interrupts := do
  let mask ← shl1 (irq.setWidth 32)
  return outMask irq (orMask mask s)

/-- `pic_enable_irq` -/
def picEnableIrq (irq : Byte) (s : Interrupts) : Option Interrupts := do
  let mask ← shl1 (irq.setWidth 32)
  return outMask irq (andMask (~~~mask) s)

/-- `end_of_irq`, for `c->irq`. -/
def endOfIrq (irq : Word) (s : Interrupts) : Option Interrupts := picEnableIrq (irq.setWidth 8) s

/-- `uninstall_interrupt_handler` -/
def uninstallInterruptHandler (irq : Int) (s : Interrupts) : Option (Int × Interrupts) :=
  if irq > IRQ_NR then some (-EINVAL, s)
  else do
    let s ← picDisableIrq (BitVec.ofInt 8 irq) s
    let handlers ← tableSet s.irqHandler irq .null
    return (0, { s with irqHandler := handlers })

/-- `install_interrupt_handler` -/
def installInterruptHandler (irq : Int) (handler : Handler) (type : Int) (s : Interrupts) :
    Option (Int × Interrupts) :=
  if irq > IRQ_NR then some (-EINVAL, s)
  else do
    let handlers ← tableSet s.irqHandler irq handler
    let attribs ← tableSet s.attribs (0x20 + irq) (BitVec.ofInt 8 type)
    let s ← picEnableIrq (BitVec.ofInt 8 irq)
      { s with irqHandler := handlers, attribs := attribs }
    return (0, s)

/-! ## Initialization -/

/-- `irq_init` -/
def irqInit (s : Interrupts) : Interrupts :=
  let s := s.out PORT_8259_M 0x11
  let s := s.out PORT_INT_MASK_M 0x20
  let s := s.out PORT_INT_MASK_M (1 <<< 2)
  let s := s.out PORT_INT_MASK_M 0x01
  let s := s.out PORT_8259_S 0x11
  let s := s.out PORT_INT_MASK_S 0x28
  let s := s.out PORT_INT_MASK_S 2
  let s := s.out PORT_INT_MASK_S 0x01
  let s := andMask (~~~(1 <<< 2)) s
  let s := s.out PORT_INT_MASK_M s.irqMasterMask
  s.out PORT_INT_MASK_S s.irqSlaveMask

/-- `set_intr_gate` and `set_trap_gate`, as far as the attributes go: for the entries from `lo` to
`hi`. -/
def setGates (lo hi : ℕ) (gate : Byte) (s : Interrupts) : Interrupts :=
  { s with attribs := fun i ↦ if lo ≤ i ∧ i ≤ hi then gate else s.attribs i }

/-- `idt_init` -/
def idtInit (s : Interrupts) : Interrupts :=
  let s := setGates 0x00 0x1f INT_GATE s
  let s := setGates 0x00 0x01 TRAP_GATE s
  let s := setGates 0x02 0x02 INT_GATE s
  let s := setGates 0x03 0x0d TRAP_GATE s
  let s := setGates 0x0e 0x0f INT_GATE s
  let s := setGates 0x20 0xff INT_GATE s
  setGates 0x20 0x2f TRAP_GATE s

/-- `interrupt_init`, up to its `irq_enable`. -/
def interruptInit (s : Interrupts) : Interrupts := irqInit (idtInit s)

/-- The initial values of the variables, in front of the controllers as the firmware leaves them. -/
def initialInterrupts (master slave : Pic) : Interrupts where
  irqMask := 0xffff
  spuriousIrqMask := 0
  irqHandler _ := .unhandled
  attribs _ := 0
  master := master
  slave := slave

/-- `CLOCK_IRQ` -/
def CLOCK_IRQ : Int := 0

/-- `clock_handler` -/
def clockHandler : Handler := .fn 0

/-- `clock_init`, as far as interrupts go. -/
def clockInit (s : Interrupts) : Option Interrupts :=
  (installInterruptHandler CLOCK_IRQ clockHandler TRAP_GATE.toNat s).map Prod.snd

end PastaOS
