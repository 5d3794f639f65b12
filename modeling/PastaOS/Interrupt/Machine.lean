import PastaOS.Interrupt.Defs
import PastaOS.Lib.Run

/-!
# Interrupts in any nesting

`default_irq_handler` is three calls in a row: `mask_and_ack_irq`, the handler of the line, and
`end_of_irq`.  Another interrupt may come between any two of them, and while the handler runs; the
machine therefore keeps a stack of activations, each with the place it has come to.

The code that runs, the innermost handler or the kernel when no interrupt is being handled, may call
the functions of `interrupt.c` in any order.  The controllers may interrupt whenever the processor
accepts it: which line they choose, and whether the interrupt is a spurious one, is left open.
-/

set_option autoImplicit false

namespace PastaOS

/-- The place `default_irq_handler` has come to. -/
inductive Phase
  /-- In front of `mask_and_ack_irq(c->irq);` -/
  | entry
  /-- In front of the call of the handler. -/
  | acked
  /-- In the handler. -/
  | running
  /-- In front of `end_of_irq(c);` -/
  | returned
  /-- Behind it. -/
  | finished
  deriving DecidableEq

/-- An activation of `default_irq_handler`. -/
structure Frame where
  /-- `c->irq`: the hooks of the sixteen lines push these numbers. -/
  irq : Fin IRQ_NR
  /-- The place it has come to. -/
  phase : Phase
  /-- The interrupt flag of `c->eflags`. -/
  flag : Bool
  deriving DecidableEq

/-- The kernel, as far as interrupts go. -/
structure InterruptState where
  /-- The variables and the controllers. -/
  irqs : Interrupts
  /-- The activations, the innermost one first. -/
  frames : List Frame
  /-- The interrupt flag of the processor. -/
  flag : Bool
  /-- Whether `panic` has been called. -/
  panicked : Bool

/-- What may happen to the kernel. -/
inductive Event
  /-- The controllers interrupt. -/
  | interrupt (irq : Fin IRQ_NR) (spurious : Bool)
  /-- The innermost activation calls `mask_and_ack_irq`. -/
  | ack
  /-- It calls the handler. -/
  | dispatch
  /-- Its handler returns. -/
  | ret
  /-- It calls `end_of_irq`. -/
  | eoi
  /-- It returns to what has been interrupted. -/
  | iret
  /-- The running code calls `install_interrupt_handler`. -/
  | install (irq : Int) (handler : Handler) (type : Int)
  /-- The running code calls `uninstall_interrupt_handler`. -/
  | uninstall (irq : Int)
  /-- The running handler calls `end_of_irq` for its context. -/
  | endOfIrq
  /-- The running code executes `sti` or `cli`. -/
  | setFlag (flag : Bool)

namespace InterruptState

/-- What the controllers do when they deliver an interrupt: the line goes into service, a line of
the slave together with the cascade of the master.  A spurious interrupt is one whose line does not
go into service. -/
def deliver (irq : Fin IRQ_NR) (spurious : Bool) (s : Interrupts) : Interrupts :=
  let s := if 8 ≤ irq.val then { s with master := s.master.serve 2 } else s
  if spurious then s
  else if 8 ≤ irq.val then { s with slave := s.slave.serve (irq - 8) }
  else { s with master := s.master.serve irq }

/-- The interrupt flag behind the gate of an interrupt. -/
def gateFlag (attribs : Byte) (flag : Bool) : Option Bool :=
  if attribs = TRAP_GATE then some flag
  else if attribs = INT_GATE then some false
  else none

/-- Whether handlers or the kernel are running, rather than `default_irq_handler`. -/
def Running (s : InterruptState) : Prop := ∀ f ∈ s.frames.head?, f.phase = .running

instance (s : InterruptState) : Decidable s.Running :=
  inferInstanceAs (Decidable (∀ f ∈ s.frames.head?, f.phase = .running))

/-- The innermost activation, in the phase `p`, and the ones below it. -/
def top (p : Phase) (s : InterruptState) : Option (Frame × List Frame) :=
  match s.frames with
  | f :: fs => if f.phase = p then some (f, fs) else none
  | [] => none

/-- What an event does to the state; `none` if it cannot happen or is undefined. -/
def step (s : InterruptState) (e : Event) : Option InterruptState :=
  if s.panicked then none
  else
    match e with
    | .interrupt irq spurious =>
      if s.flag then do
        let flag ← gateFlag (s.irqs.attribs (idtEntry irq)) s.flag
        return { s with
          irqs := deliver irq spurious s.irqs
          frames := ⟨irq, .entry, s.flag⟩ :: s.frames
          flag := flag }
      else none
    | .ack => do
      let (f, fs) ← s.top .entry
      let irqs ← maskAndAckIrq (BitVec.ofNat 32 f.irq) s.irqs
      return { s with irqs := irqs, frames := { f with phase := .acked } :: fs }
    | .dispatch => do
      -- `c->irq < IRQ_NR` holds of every line
      let (f, fs) ← s.top .acked
      match s.irqs.irqHandler f.irq with
      | .null => none
      | .unhandled => return { s with panicked := true }
      | .fn _ => return { s with frames := { f with phase := .running } :: fs }
    | .ret => do
      let (f, fs) ← s.top .running
      return { s with frames := { f with phase := .returned } :: fs }
    | .eoi => do
      let (f, fs) ← s.top .returned
      let irqs ← endOfIrq (BitVec.ofNat 32 f.irq) s.irqs
      return { s with irqs := irqs, frames := { f with phase := .finished } :: fs }
    | .iret => do
      let (f, fs) ← s.top .finished
      return { s with frames := fs, flag := f.flag }
    | .install irq handler type =>
      if s.Running then do
        let (_, irqs) ← installInterruptHandler irq handler type s.irqs
        return { s with irqs := irqs }
      else none
    | .uninstall irq =>
      if s.Running then do
        let (_, irqs) ← uninstallInterruptHandler irq s.irqs
        return { s with irqs := irqs }
      else none
    | .endOfIrq => do
      let (f, _) ← s.top .running
      let irqs ← PastaOS.endOfIrq (BitVec.ofNat 32 f.irq) s.irqs
      return { s with irqs := irqs }
    | .setFlag flag => if s.Running then some { s with flag := flag } else none

/-- One step, as a relation. -/
def Step (s : InterruptState) (e : Event) (t : InterruptState) : Prop := s.step e = some t

/-- A controller after a reset. -/
def picReset : Pic := ⟨0, 0, false, 0⟩

/-- The kernel at the end of `interrupt_init`, started with the controllers as the firmware leaves
them. -/
def boot (master slave : Pic) : Option InterruptState := do
  let irqs ← clockInit (initialInterrupts master slave)
  return ⟨interruptInit irqs, [], true, false⟩

end InterruptState

end PastaOS
