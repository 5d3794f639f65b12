import PastaOS.Interrupt.Gates
import PastaOS.Lib.Processor

/-!
# Entering and leaving an interrupt (`kernel/irq.S`)

The hooks push the number of the interrupt and go to `__common_isr` or `COMMON_EXC`, which save the
registers, call the C code with a pointer to them, and take everything down again.

The gates of the lines are trap gates, so another interrupt may come in front of any of these
instructions, and in front of any instruction of the C code.  `Interrupted` runs code with
interrupts in any nesting.  Of `default_irq_handler` it only knows that some instructions are
executed and that it returns (`Honours`): its own cells are below the stack pointer it is called
with, and everything above is what it was.  That includes the word its argument is in, which
`popl %esp` reads afterwards.

`Interrupted.shaken` is the result: all that interrupts do to the code they interrupt is to shake
the machine.  `Entered` says what the C code finds when it is called.
-/

set_option autoImplicit false

universe u

namespace PastaOS

open StackMachine

/-! ## The code -/

/-- What a hook pushes: the number of the interrupt, and a zero where an exception has no error
code. -/
def Hook.numbers : Hook → List Word
  | .exc n =>
    if n.val ∈ [0x08, 0x0a, 0x0b, 0x0c, 0x0d, 0x0e] then [BitVec.ofNat 32 n]
    else [0, BitVec.ofNat 32 n]
  | .excUnhand => [0, 0x09]
  | .irq n => [BitVec.ofNat 32 n]
  | .irqUnhand => [0xff]

/-- Whether a hook goes to `COMMON_EXC`. -/
def Hook.isExc : Hook → Bool
  | .exc _ | .excUnhand => true
  | .irq _ | .irqUnhand => false

/-- The registers that are saved, in the order they are pushed. -/
def contextRegs : List Operand :=
  [.seg .ds, .seg .es, .gpr .eax, .gpr .ecx, .gpr .edx, .gpr .ebx, .gpr .ebp, .gpr .esi, .gpr .edi]

/-- `__common_isr` and `COMMON_EXC`, up to the call of the C code. -/
def saveContext (handler : Word) : List Insn :=
  .cld :: contextRegs.map .push ++ [.push (.gpr .esp), .call handler]

/-- `ret_from_isr` and `ret_from_exc`, which skip the numbers of their interrupt. -/
def restoreContext (skip : Word) : List Insn :=
  .pop (.gpr .esp) :: contextRegs.reverse.map .pop ++ [.addEsp skip, .iret]

/-- Where the linker put the code. -/
structure TextSection where
  /-- The instructions of a hook. -/
  hook : Hook → ℕ → Word
  /-- The instructions of `__common_isr`. -/
  commonIsr : ℕ → Word
  /-- The instructions of `COMMON_EXC`. -/
  commonExc : ℕ → Word
  /-- `default_irq_handler` -/
  defaultIrqHandler : Word
  /-- `default_exc_handler` -/
  defaultExcHandler : Word
  /-- Different hooks are in different places. -/
  apart : ∀ h h', hook h 0 = hook h' 0 → h = h'

namespace TextSection

variable (T : TextSection)

/-- The code a hook jumps to. -/
def common (h : Hook) : ℕ → Word := if h.isExc then T.commonExc else T.commonIsr

/-- The C function that is called there. -/
def handler (h : Hook) : Word := if h.isExc then T.defaultExcHandler else T.defaultIrqHandler

/-- From a hook to the C code. -/
def enter (h : Hook) : Code :=
  place (T.hook h) 0 (h.numbers.map .pushImm ++ [.jmp (T.common h 0)]) ++
    place (T.common h) 0 (saveContext (T.handler h))

/-- From the C code back to what has been interrupted. -/
def leave (h : Hook) : Code :=
  place (T.common h) (saveContext (T.handler h)).length
    (restoreContext (if h.isExc then 8 else 4))

end TextSection

/-- The flags behind a gate: trap, nested task, resume and virtual mode are cleared, and so is the
interrupt flag behind an interrupt gate. -/
def Gate.eflags (g : Gate) (f : Word) : Word :=
  let f := putFlag 17 false (putFlag 16 false (putFlag 14 false (putFlag 8 false f)))
  if g.trap then f else putFlag IF false f

/-- The processor goes through a gate, with an error code if the interrupt has one. -/
def Gate.enter (g : Gate) (error : Option Word) (c : Cpu) : Cpu :=
  let c' := c.trap
  let c' := match error with
    | none => c'
    | some e => c'.push e
  { c' with eip := g.offset, cs := g.selector, eflags := g.eflags c.eflags }

/-! ## The context -/

/-- `irq_context_t` -/
structure IrqContext where
  /-- The general registers. -/
  (edi esi ebp ebx edx ecx eax : Word)
  /-- The segment registers. -/
  (es ds : Word)
  /-- The interrupt number. -/
  irq : Word
  /-- What the processor has pushed. -/
  (eip cs eflags : Word)

/-- The members of the structure at an address. -/
def irqContextAt (mem : Word → Word) (c : Word) : IrqContext where
  edi := mem c
  esi := mem (c + 4)
  ebp := mem (c + 8)
  ebx := mem (c + 12)
  edx := mem (c + 16)
  ecx := mem (c + 20)
  eax := mem (c + 24)
  es := mem (c + 28)
  ds := mem (c + 32)
  irq := mem (c + 36)
  eip := mem (c + 40)
  cs := mem (c + 44)
  eflags := mem (c + 48)

/-- `exception_context_t` -/
structure ExceptionContext where
  /-- The general registers. -/
  (edi esi ebp ebx edx ecx eax : Word)
  /-- The segment registers. -/
  (es ds : Word)
  /-- The exception number and the error code. -/
  (exc err_code : Word)
  /-- What the processor has pushed. -/
  (eip cs eflags : Word)

/-- The members of the structure at an address. -/
def exceptionContextAt (mem : Word → Word) (c : Word) : ExceptionContext where
  edi := mem c
  esi := mem (c + 4)
  ebp := mem (c + 8)
  ebx := mem (c + 12)
  edx := mem (c + 16)
  ecx := mem (c + 20)
  eax := mem (c + 24)
  es := mem (c + 28)
  ds := mem (c + 32)
  exc := mem (c + 36)
  err_code := mem (c + 40)
  eip := mem (c + 44)
  cs := mem (c + 48)
  eflags := mem (c + 52)

/-- The words of a context, from the bottom upwards. -/
def contextWords (h : Hook) (error : Option Word) (c : Cpu) : List Word :=
  (contextRegs.map c.read).reverse ++ (h.numbers.reverse ++ (error.toList ++ c.trapWords))

/-! ## From the hook to the C code -/

variable {ι : Type u} {S : Stacks ι} {T : TextSection} {t : ι} {i : ℕ} {c c₁ c₂ c₃ d : Cpu}
  {g : Gate} {h : Hook} {error : Option Word}

theorem esp_notMem_contextRegs : Operand.gpr .esp ∉ contextRegs := by decide

theorem mem_contextRegs {x : Operand} (hx : x ≠ .gpr .esp) : x ∈ contextRegs := by
  cases x with
  | gpr r => cases r <;> first | decide | exact absurd rfl hx
  | seg s => cases s <;> decide

theorem pushed_enter (hesp : c.gpr .esp = S.word t i) (hi : i ≤ S.size t)
    (hfit : error.toList.length + 3 ≤ i) :
    Pushed S t i c contextRegs (error.toList ++ c.trapWords) (g.enter error c) := by
  have htrap : Pushed S t i c contextRegs c.trapWords c.trap :=
    pushed_trap hesp hi (by omega) esp_notMem_contextRegs
  cases error with
  | none => exact htrap.of_eq rfl rfl rfl
  | some e =>
    have hfit' : c.trapWords.length < i := hfit
    exact (htrap.push hi hfit' esp_notMem_contextRegs e).of_eq rfl rfl rfl

/-- The flags the C code is called with. -/
def Gate.handlerFlags (g : Gate) (f : Word) : Word := putFlag DF false (g.eflags f)

/-- The state in which a hook calls the C code. -/
structure Entered (S : Stacks ι) (t : ι) (i : ℕ) (T : TextSection) (h : Hook) (g : Gate)
    (error : Option Word) (c d : Cpu) : Prop where
  /-- The return address, the argument and what it points to. -/
  pushed : Pushed S t i c contextRegs
    (T.common h (saveContext (T.handler h)).length ::
      S.word t (i - (contextWords h error c).length) :: contextWords h error c) d
  /-- The C code. -/
  eip : d.eip = T.handler h
  /-- The flags. -/
  eflags : d.eflags = g.handlerFlags c.eflags

theorem Entered.stable (hi : i ≤ S.size t) : Stable S (Entered S t i T h g error c) := by
  intro d e hs h
  exact ⟨Pushed.stable hi d e hs h.pushed, by rw [hs.regs]; exact h.eip,
    by rw [hs.regs]; exact h.eflags⟩

/-- **From a hook to the C code**, shaken at every instruction. -/
theorem shaken_enter (hesp : c.gpr .esp = S.word t i) (hi : i ≤ S.size t)
    (hfit : (contextWords h error c).length + 2 ≤ i)
    (hr : Shaken S (T.enter h) (g.enter error c) d) : Entered S t i T h g error c d := by
  have hlen : (contextWords h error c).length
      = 9 + (h.numbers.length + (error.toList ++ c.trapWords).length) := by
    simp only [contextWords, List.length_append, List.length_reverse, List.length_map]
    rfl
  have hlen' : (error.toList ++ c.trapWords).length = error.toList.length + 3 := List.length_append
  have hroom : (contextWords h error c).length < i := by omega
  have hout := esp_notMem_contextRegs
  have hpushed : Pushed S t i c contextRegs (error.toList ++ c.trapWords) (g.enter error c) :=
    pushed_enter hesp hi (by omega)
  rw [TextSection.enter, place_append, List.append_assoc] at hr
  -- the hook
  obtain ⟨c₁, hc₁, hr₁⟩ := shaken_pushImms hi hout (by omega) hr ⟨hpushed, rfl⟩
  obtain ⟨c₂, hc₂, hr₂⟩ := hr₁.step (Pushed.stable_and hi) hc₁ (Q := fun d ↦
    Pushed S t i c contextRegs (h.numbers.reverse ++ (error.toList ++ c.trapWords)) d ∧
      d.eflags = g.eflags c.eflags)
    fun d hd ↦ ⟨hd.1.of_eq rfl rfl rfl, hd.2⟩
  -- the registers
  obtain ⟨c₃, hc₃, hr₃⟩ := hr₂.step (Pushed.stable_and hi) hc₂ (Q := fun d ↦
    Pushed S t i c contextRegs (h.numbers.reverse ++ (error.toList ++ c.trapWords)) d ∧
      d.eflags = g.handlerFlags c.eflags)
    fun d hd ↦ ⟨hd.1.of_eq rfl rfl rfl, congrArg (putFlag DF false) hd.2⟩
  rw [List.append_eq, place_append, ← List.append_nil (place _ _ [_, _])] at hr₃
  obtain ⟨c₄, hc₄, hr₄⟩ := shaken_pushes hi hout (fun x (hx : x ∈ contextRegs) ↦ hx) (by
    rw [List.length_append, List.length_reverse]
    have hregs : contextRegs.length = 9 := rfl
    omega) hr₃ hc₃
  -- the argument and the call
  obtain ⟨c₅, hc₅, hr₅⟩ := hr₄.step (Pushed.stable_and hi) hc₄ (Q := fun d ↦
    Pushed S t i c contextRegs
      (S.word t (i - (contextWords h error c).length) :: contextWords h error c) d ∧
      d.eflags = g.handlerFlags c.eflags) (by
    rintro d ⟨hd, hf⟩
    exact ⟨hd.placed_push hi hroom hout hd.esp, hf⟩)
  obtain ⟨c₆, hc₆, hr₆⟩ := hr₅.step (Pushed.stable_and hi) hc₅
    (Q := Entered S t i T h g error c) (by
    rintro d ⟨hd, hf⟩
    exact ⟨hd.placed_call hi (by rw [List.length_cons]; omega) hout, rfl, hf⟩)
  exact hr₆.finish (Entered.stable hi) hc₆

/-! ## And back -/

/-- The processor supplies an error code where the hook expects one. -/
def Hook.Supplied (h : Hook) (error : Option Word) : Prop :=
  (h.numbers.reverse ++ error.toList).length = if h.isExc then 2 else 1

/-- **From the C code back**, shaken at every instruction. -/
theorem shaken_leave (hesp : c.gpr .esp = S.word t i) (hi : i ≤ S.size t) (herr : h.Supplied error)
    (hc : Pushed S t i c []
      (S.word t (i - (contextWords h error c).length) :: contextWords h error c) c₁)
    (hr : Shaken S (T.leave h) c₁ d) : Shake S c d := by
  have hout : Operand.gpr .esp ∉ ([] : List Operand) := by simp
  -- the stack pointer and the registers
  obtain ⟨c₂, hc₂, hr₂⟩ := hr.step (Pushed.stable hi) hc
    (Q := Pushed S t i c [] (contextWords h error c)) fun d hd ↦ (hd.next _).popEsp hout
  rw [List.append_eq, place_append, ← List.append_nil (place _ _ [_, _])] at hr₂
  rw [contextWords, ← List.map_reverse] at hc₂
  have hout' : Operand.gpr .esp ∉ contextRegs.reverse := by decide
  obtain ⟨c₃, hc₃, hr₃⟩ := shaken_pops hi hout hout' hr₂ hc₂
  rw [List.reverse_reverse, List.append_nil] at hc₃
  -- the numbers
  have hskip : (if h.isExc then 8 else 4 : Word)
      = BitVec.ofNat 32 (4 * (h.numbers.reverse ++ error.toList).length) := by
    rw [herr]
    split <;> rfl
  rw [← List.append_assoc] at hc₃
  obtain ⟨c₄, hc₄, hr₄⟩ := hr₃.step (Pushed.stable hi) hc₃
    (Q := Pushed S t i c contextRegs c.trapWords) (by
      intro d hd
      rw [placed, Insn.exec, hskip]
      exact ((hd.next _).skip esp_notMem_contextRegs).of_eq rfl rfl rfl)
  -- the return
  obtain ⟨c₅, hc₅, hr₅⟩ := hr₄.step (Pushed.stable hi) hc₄ (Q := Shake S c) fun d hd ↦
    hd.iret hesp hi fun x hx ↦ mem_contextRegs hx
  exact hr₅.finish (fun _ _ hs h ↦ h.trans hs) hc₅

/-! ## Interrupts in any nesting -/

/-- There is room for what an interrupt pushes until it is in the C code. -/
def HasRoom (S : Stacks ι) (c : Cpu) : Prop :=
  ∃ t i, c.gpr .esp = S.word t i ∧ 15 ≤ i ∧ i ≤ S.size t

/-- A table that `idt_init` and `install_interrupt_handler` may have made. -/
def Filled (T : TextSection) (idt : Idt) : Prop := ∃ attribs, Leads (T.hook · 0) attribs idt

/-- What a function executes keeps to the calling convention, even if the machine is shaken in
front of every instruction: it returns to its caller and writes nothing above the stack pointer it
is called with.  The variables that a handler is there to change are not part of this memory. -/
def Honours (S : Stacks ι) (body : Cpu → Code → Prop) : Prop :=
  ∀ c js d, body c js → Shaken S js c d → Returns S c d

/-- Running code with interrupts.  `body` says what `default_irq_handler` may execute; it depends on
the handlers, and on what they read from variables and ports. -/
inductive Interrupted (T : TextSection) (S : Stacks ι) (body : Cpu → Code → Prop) :
    Code → Cpu → Cpu → Prop
  /-- Nothing is left to be done. -/
  | nil (c : Cpu) : Interrupted T S body [] c c
  /-- The next instruction. -/
  | cons {f : Cpu → Cpu} {is : Code} {c d : Cpu} (rest : Interrupted T S body is (f c) d) :
      Interrupted T S body (f :: is) c d
  /-- An interrupt in front of it.  The code that is run is what the gate leads to. -/
  | interrupt {is js : Code} {c c₁ c₂ c₃ d : Cpu} {irq : Fin IRQ_NR} {idt : Idt} {g : Gate}
      {h : Hook} (hflag : c.eflags.getLsbD IF = true) (hroom : HasRoom S c) (hidt : Filled T idt)
      (hgate : fetchGate idtLimit idt.bytes (BitVec.ofFin (idtEntry irq)) = some g)
      (hcode : T.hook h 0 = g.offset) (enter : Interrupted T S body (T.enter h) (g.enter none c) c₁)
      (hbody : body c₁ js) (run : Interrupted T S body js c₁ c₂)
      (leave : Interrupted T S body (T.leave h) c₂ c₃) (rest : Interrupted T S body is c₃ d) :
      Interrupted T S body is c d

variable {body : Cpu → Code → Prop} {is : Code} {idt : Idt} {v : Byte}

theorem hook_of_gate (hidt : Filled T idt) (hgate : fetchGate idtLimit idt.bytes v = some g)
    (hcode : T.hook h 0 = g.offset) : h = hookOf v := by
  obtain ⟨attribs, hleads⟩ := hidt
  rw [hleads.fetchGate] at hgate
  simp only [Option.ite_none_right_eq_some, Option.some.injEq] at hgate
  obtain ⟨-, rfl⟩ := hgate
  exact T.apart _ _ hcode

theorem contextWords_length (herr : h.Supplied error) :
    (contextWords h error c).length = if h.isExc then 14 else 13 := by
  rw [contextWords, ← List.append_assoc, ← List.append_assoc, List.append_assoc _ h.numbers.reverse,
    List.length_append, List.length_append, herr]
  split <;> rfl

/-- What an interrupted machine looks like in a context, with its selectors extended by zeros. -/
def contextOf (irq : Fin IRQ_NR) (c : Cpu) : IrqContext where
  edi := c.gpr .edi
  esi := c.gpr .esi
  ebp := c.gpr .ebp
  ebx := c.gpr .ebx
  edx := c.gpr .edx
  ecx := c.gpr .ecx
  eax := c.gpr .eax
  es := (c.seg .es).setWidth 32
  ds := (c.seg .ds).setWidth 32
  irq := BitVec.ofNat 32 irq
  eip := c.eip
  cs := c.cs.setWidth 32
  eflags := c.eflags

theorem irqContextAt_eq {irq : Fin IRQ_NR} {mem : Word → Word} {p : Word}
    (hw : Words mem p (contextWords (.irq irq) none c)) : irqContextAt mem p = contextOf irq c := by
  obtain ⟨h₀, h₁, h₂, h₃, h₄, h₅, h₆, h₇, h₈, h₉, h₁₀, h₁₁, h₁₂, -⟩ := hw
  simp only [BitVec.add_assoc, BitVec.reduceAdd] at h₂ h₃ h₄ h₅ h₆ h₇ h₈ h₉ h₁₀ h₁₁ h₁₂
  simp only [irqContextAt, contextOf, IrqContext.mk.injEq]
  exact ⟨h₀, h₁, h₂, h₃, h₄, h₅, h₆, h₇, h₈, h₉, h₁₀, h₁₁, h₁₂⟩

theorem Entered.argument (h' : Entered S t i T h g error c d) :
    Words d.mem (d.mem (d.gpr .esp + 4#32)) (contextWords h error c) := by
  obtain ⟨-, harg, hctx⟩ := h'.pushed.esp ▸ h'.pushed.words
  have hlen := h'.pushed.fits
  simp only [List.length_cons] at hlen
  have hptr : d.gpr .esp + 4#32 + 4#32 = S.word t (i - (contextWords h error c).length) := by
    rw [h'.pushed.esp, Stacks.word_succ, Stacks.word_succ]
    simp only [List.length_cons]
    congr 1
    omega
  rw [harg, ← hptr]
  exact hctx

theorem Gate.handlerFlags_DF (g : Gate) (f : Word) : (g.handlerFlags f).getLsbD DF = false := by
  rw [handlerFlags, putFlag_getLsbD (by decide), if_pos rfl]

theorem Gate.handlerFlags_IF (g : Gate) {f : Word} (hf : f.getLsbD IF = true) :
    (g.handlerFlags f).getLsbD IF = g.trap := by
  have hne {k : ℕ} {f : Word} (hk : IF ≠ k) : (putFlag k false f).getLsbD IF = f.getLsbD IF := by
    rw [putFlag_getLsbD (by decide), if_neg hk]
  rw [handlerFlags, hne (by decide), eflags]
  cases g.trap with
  | true => rw [if_pos rfl, hne (by decide), hne (by decide), hne (by decide), hne (by decide), hf]
  | false => rw [if_neg Bool.false_ne_true, putFlag_getLsbD (by decide), if_pos rfl]

/-- **An interrupt shakes the machine**, from its gate to its return, if all that comes in between
shakes it. -/
theorem shake_interrupt (hb : Honours S body) (hroom : HasRoom S c) (herr : h.Supplied none)
    (hirq : h.isExc = false) {js : Code} (henter : Shaken S (T.enter h) (g.enter none c) c₁)
    (hbody : body c₁ js) (hrun : Shaken S js c₁ c₂) (hleave : Shaken S (T.leave h) c₂ c₃) :
    (∃ t i, Entered S t i T h g none c c₁) ∧ Shake S c c₃ := by
  obtain ⟨t, i, hesp, hfit, hi⟩ := hroom
  have hlen : (contextWords h none c).length = 13 := by
    rw [contextWords_length herr, hirq]
    rfl
  have hentered := shaken_enter hesp hi (by omega) henter
  exact ⟨⟨t, i, hentered⟩,
    shaken_leave hesp hi herr (hentered.pushed.returns hi (hb _ _ _ hbody hrun)) hleave⟩

theorem supplied_irq (irq : Fin IRQ_NR) : (Hook.irq irq).Supplied none := rfl

/-- However interrupts nest, and wherever they come, all they do to the code they interrupt is to
shake the machine. -/
theorem Interrupted.shaken (hb : Honours S body) (hr : Interrupted T S body is c d) :
    Shaken S is c d := by
  induction hr with
  | nil c => exact .nil (.refl c)
  | cons _ ih => exact .cons (.refl _) ih
  | @interrupt _ _ _ _ _ _ _ irq _ _ _ _ hroom hidt hgate hcode _ hbody _ _ _ ihe ihr ihl ih =>
    obtain rfl := (hook_of_gate hidt hgate hcode).trans (hookOf_idtEntry irq)
    have hshake := (shake_interrupt hb hroom (supplied_irq irq) rfl ihe hbody ihr ihl).2
    exact ih.shake_left hshake

/-- **Interrupts are transparent.**  An interrupt is accepted, others come in front of any of the
instructions it executes, and it returns.  Then

* `default_irq_handler` has been called with a context that holds the number of the line and the
  registers of the interrupted code, with the direction flag clear, and with interrupts enabled
  exactly if the line has a trap gate;
* the interrupted code finds every register as it was, and every cell that is not below its stack
  pointer. -/
theorem interrupt_transparent (hb : Honours S body) {irq : Fin IRQ_NR} {js : Code}
    (hflag : c.eflags.getLsbD IF = true) (hroom : HasRoom S c) (hidt : Filled T idt)
    (hgate : fetchGate idtLimit idt.bytes (BitVec.ofFin (idtEntry irq)) = some g)
    (hcode : T.hook h 0 = g.offset) (henter : Interrupted T S body (T.enter h) (g.enter none c) c₁)
    (hbody : body c₁ js) (hrun : Interrupted T S body js c₁ c₂)
    (hleave : Interrupted T S body (T.leave h) c₂ c₃) :
    (c₁.eip = T.defaultIrqHandler ∧
      irqContextAt c₁.mem (c₁.mem (c₁.gpr .esp + 4#32)) = contextOf irq c ∧
      c₁.eflags.getLsbD DF = false ∧ c₁.eflags.getLsbD IF = g.trap) ∧
    (c₃.gpr = c.gpr ∧ c₃.seg = c.seg ∧ c₃.eip = c.eip ∧ c₃.cs = c.cs ∧ c₃.eflags = c.eflags ∧
      ∀ a, ¬ Dead S c a → c₃.mem a = c.mem a) := by
  obtain rfl := (hook_of_gate hidt hgate hcode).trans (hookOf_idtEntry irq)
  obtain ⟨⟨t, i, hentered⟩, hshake⟩ := shake_interrupt hb hroom (supplied_irq irq) rfl
    (henter.shaken hb) hbody (hrun.shaken hb) (hleave.shaken hb)
  refine ⟨⟨hentered.eip, irqContextAt_eq hentered.argument, ?_, ?_⟩, ?_⟩
  · rw [hentered.eflags, Gate.handlerFlags_DF]
  · rw [hentered.eflags, Gate.handlerFlags_IF g hflag]
  · obtain ⟨hregs, hmem⟩ := hshake
    rw [hregs]
    exact ⟨rfl, rfl, rfl, rfl, rfl, hmem⟩

/-! ## Exceptions -/

/-- What a machine that has run into an exception looks like in a context.  Exceptions without a
hook of their own all have the number 9, and where the processor has no error code, a zero stands
in its place. -/
def exceptionContextOf (v : Byte) (error : Option Word) (c : Cpu) : ExceptionContext where
  edi := c.gpr .edi
  esi := c.gpr .esi
  ebp := c.gpr .ebp
  ebx := c.gpr .ebx
  edx := c.gpr .edx
  ecx := c.gpr .ecx
  eax := c.gpr .eax
  es := (c.seg .es).setWidth 32
  ds := (c.seg .ds).setWidth 32
  exc := if v.toNat < 0x10 then v.setWidth 32 else 9
  err_code := error.getD 0
  eip := c.eip
  cs := c.cs.setWidth 32
  eflags := c.eflags

theorem hookOf_exc (hv : v.toNat < 0x20) : (hookOf v).isExc = true := by
  rw [hookOf]
  split_ifs <;> rfl

/-- The numbers of an exception, with its error code. -/
theorem exception_numbers (hv : v.toNat < 0x20) (herr : (hookOf v).Supplied error) :
    (hookOf v).numbers.reverse ++ error.toList
      = [if v.toNat < 0x10 then v.setWidth 32 else 9, error.getD 0] := by
  by_cases h10 : v.toNat < 0x10
  · have hhook : hookOf v = .exc ⟨v.toNat, h10⟩ := by
      rw [hookOf, if_pos h10]
      exact congrArg Hook.exc (Fin.ext (Nat.mod_eq_of_lt h10))
    rw [hhook] at herr ⊢
    rw [if_pos h10, ← BitVec.ofNat_toNat]
    simp only [Hook.Supplied, Hook.numbers, Hook.isExc, if_true] at herr ⊢
    split_ifs at herr ⊢ with hcode
    · cases error with
      | none => simp at herr
      | some e => rfl
    · cases error with
      | none => rfl
      | some e => simp at herr
  · have hhook : hookOf v = .excUnhand := by rw [hookOf, if_neg h10, if_pos hv]
    rw [hhook] at herr ⊢
    rw [if_neg h10]
    cases error with
    | none => rfl
    | some e => simp [Hook.Supplied, Hook.numbers, Hook.isExc] at herr

/-- **What `default_exc_handler` is called with.**  An exception goes through its gate, interrupts
come in front of any of the instructions of the hook and of `COMMON_EXC` (if the gate lets them),
and the C code finds `exceptionContextOf`: the vector below 0x10 and 9 above, the error code if the
processor has supplied one where the hook expects it (`Supplied`) and 0 otherwise, and the registers
of the code that has run into the exception. -/
theorem exception_context (hb : Honours S body) (hesp : c.gpr .esp = S.word t i)
    (hi : i ≤ S.size t) (hfit : 16 ≤ i) (hidt : Filled T idt) (hv : v.toNat < 0x20)
    (hgate : fetchGate idtLimit idt.bytes v = some g) (hcode : T.hook h 0 = g.offset)
    (herr : h.Supplied error) (hr : Interrupted T S body (T.enter h) (g.enter error c) d) :
    d.eip = T.defaultExcHandler ∧
      exceptionContextAt d.mem (d.mem (d.gpr .esp + 4#32)) = exceptionContextOf v error c := by
  obtain rfl := hook_of_gate hidt hgate hcode
  have hexc := hookOf_exc hv
  have hlen := contextWords_length (c := c) herr
  rw [hexc, if_pos rfl] at hlen
  have hentered := shaken_enter hesp hi (by omega) (hr.shaken hb)
  refine ⟨?_, ?_⟩
  · rw [hentered.eip, TextSection.handler, hexc, if_pos rfl]
  · have hw := hentered.argument
    rw [contextWords, ← List.append_assoc _ error.toList, exception_numbers hv herr] at hw
    obtain ⟨h₀, h₁, h₂, h₃, h₄, h₅, h₆, h₇, h₈, h₉, h₁₀, h₁₁, h₁₂, h₁₃, -⟩ := hw
    simp only [BitVec.add_assoc, BitVec.reduceAdd] at h₂ h₃ h₄ h₅ h₆ h₇ h₈ h₉ h₁₀ h₁₁ h₁₂ h₁₃
    simp only [exceptionContextAt, exceptionContextOf, ExceptionContext.mk.injEq]
    exact ⟨h₀, h₁, h₂, h₃, h₄, h₅, h₆, h₇, h₈, h₉, h₁₀, h₁₁, h₁₂, h₁₃⟩

/-! ## A small system

One stack, the hooks one after another, and a handler that uses its stack and changes registers, as
a compiled function does.
-/

/-- 64 words above 2 MiB. -/
def oneStack : Stacks Unit where
  base _ := 0x200000
  size _ := 64
  small := by decide
  apart _ _ _ _ _ _ _ := rfl

/-- The position of a hook. -/
def Hook.index : Hook → ℕ
  | .exc n => n
  | .excUnhand => 16
  | .irq n => 17 + n
  | .irqUnhand => 33

theorem Hook.index_inj {h h' : Hook} (heq : h.index = h'.index) : h = h' := by
  have hnr : IRQ_NR = 16 := rfl
  cases h <;> cases h' <;> simp only [Hook.index] at heq <;>
    first | rfl | omega | exact congrArg _ (Fin.ext (by omega))

/-- The hooks above 1 MiB, 64 bytes each. -/
def smallText : TextSection where
  hook h k := 0x100000#32 + BitVec.ofNat 32 (64 * h.index + k)
  commonIsr k := 0x110000#32 + BitVec.ofNat 32 k
  commonExc k := 0x120000#32 + BitVec.ofNat 32 k
  defaultIrqHandler := 0x130000
  defaultExcHandler := 0x140000
  apart := by
    intro h h' heq
    refine Hook.index_inj ?_
    have hnr : IRQ_NR = 16 := rfl
    have hlt (h : Hook) : h.index < 64 := by
      cases h <;> simp only [Hook.index] <;> omega
    have := hlt h
    have := hlt h'
    bv_omega

/-- The addresses of a handler. -/
def handlerText (k : ℕ) : Word := 0x130000#32 + BitVec.ofNat 32 k

/-- A handler, in the place of `default_irq_handler`: it writes two words below its return address,
and returns with new values in `eax` and `ecx`. -/
def smallHandler : Code :=
  place handlerText 0 [.pushImm 0xdead, .pushImm 0xbeef, .pop (.gpr .eax), .pop (.gpr .ecx), .ret]

/-- The handler is executed, on a stack with room for its two words. -/
def runsSmallHandler (S : Stacks ι) (c : Cpu) (js : Code) : Prop :=
  (∃ t i, c.gpr .esp = S.word t i ∧ 2 ≤ i ∧ i + 1 ≤ S.size t) ∧ js = smallHandler

theorem shaken_smallHandler (hesp : c.gpr .esp = S.word t i) (h2 : 2 ≤ i) (hi : i + 1 ≤ S.size t)
    (hr : Shaken S smallHandler c d) : Returns S c d ∧ d.gpr .eax = 0xbeef := by
  -- the registers it returns with
  set c₀ : Cpu :=
    { c with gpr := fun r ↦ if r = .eax then 0xbeef else if r = .ecx then 0xdead else c.gpr r }
  have hpushed : Pushed S t i c₀ [] [] c ∧ c.eflags = c.eflags :=
    ⟨⟨Nat.zero_le i, hesp, trivial, fun _ _ ↦ rfl, by simp⟩, rfl⟩
  have hsplit : smallHandler = place handlerText 0 ([0xdead, 0xbeef].map .pushImm) ++
      (place handlerText 2 ([.gpr .eax, .gpr .ecx].map .pop) ++ place handlerText 4 [.ret]) := rfl
  rw [hsplit] at hr
  obtain ⟨c₁, ⟨hc₁, -⟩, hr₁⟩ := shaken_pushImms (by omega) (by simp) h2 hr hpushed
  obtain ⟨c₂, hc₂, hr₂⟩ := shaken_pops (by omega) (by simp) (by decide) hr₁ hc₁
  have hstable : Stable S fun d ↦ Returns S c₀ d ∧ d.gpr .eax = 0xbeef := by
    intro d e hs h
    exact ⟨Returns.stable d e hs h.1, hs.gpr ▸ h.2⟩
  obtain ⟨c₃, hc₃, hr₃⟩ := hr₂.step (Pushed.stable (by omega)) hc₂
    (Q := fun d ↦ Returns S c₀ d ∧ d.gpr .eax = 0xbeef) fun d hd ↦
      ⟨hd.placed_ret hesp hi, hd.held (.gpr .eax) (by simp)⟩
  obtain ⟨hret, heax⟩ := hr₃.finish hstable hc₃
  exact ⟨⟨hret.esp, hret.mem⟩, heax⟩

theorem honours_runsSmallHandler : Honours S (runsSmallHandler S) := by
  rintro c _ d ⟨⟨t, i, hesp, h2, hi⟩, rfl⟩ hr
  exact (shaken_smallHandler hesp h2 hi hr).1

/-- Every register has a value of its own; interrupts are enabled, in the middle of the stack. -/
def smallCpu : Cpu where
  gpr
    | .eax => 1
    | .ecx => 2
    | .edx => 3
    | .ebx => 4
    | .ebp => 5
    | .esi => 6
    | .edi => 7
    | .esp => 0x2000c0
  eip := 0x150000
  mem a := ~~~a
  seg
    | .ds => 0x08
    | .es => 0x18
  cs := 0x10
  eflags := 0x200

theorem smallCpu_esp : smallCpu.gpr .esp = oneStack.word () 48 := by decide

/-- The table after `idt_init`. -/
def smallIdt : Idt := idtInitTable (smallText.hook · 0) fun _ ↦ ⟨0, 0, 0, 0, 0⟩

theorem smallIdt_filled : Filled smallText smallIdt :=
  ⟨_, leads_idtInit (initialInterrupts InterruptState.picReset InterruptState.picReset)⟩

theorem smallIdt_gate (v : Byte) : fetchGate idtLimit smallIdt.bytes v
    = some ⟨KERNEL_CODE, smallText.hook (hookOf v) 0, initialGate v &&& 1 ≠ 0⟩ := by
  have hgate : initialGate v &&& 0x9e = 0x8e := by
    rw [initialGate]
    split_ifs <;> rfl
  rw [smallIdt, (leads_idtInit (initialInterrupts InterruptState.picReset
    InterruptState.picReset)).fetchGate, idtInit_attribs, if_pos hgate]

/-- The gate of a hook. -/
def Hook.smallGate (h : Hook) (trap : Bool) : Gate := ⟨KERNEL_CODE, smallText.hook h 0, trap⟩

theorem smallIdt_line (irq : Fin IRQ_NR) :
    fetchGate idtLimit smallIdt.bytes (BitVec.ofFin (idtEntry irq))
      = some ((Hook.irq irq).smallGate true) := by
  have htrap : ∀ irq, initialGate (BitVec.ofFin (idtEntry irq)) &&& 1 ≠ 0 := by decide
  rw [smallIdt_gate, hookOf_idtEntry, decide_eq_true (htrap irq)]
  rfl

/-- Code can be run without any interrupt. -/
theorem Interrupted.plain (is : Code) (c : Cpu) :
    Interrupted T S body is c (is.foldl (fun c f ↦ f c) c) := by
  induction is generalizing c with
  | nil => exact .nil c
  | cons f is ih => exact .cons (ih (f c))

theorem Interrupted.append {js : Code} {e : Cpu} (h : Interrupted T S body is c d)
    (h' : Interrupted T S body js d e) : Interrupted T S body (is ++ js) c e := by
  induction h with
  | nil c => exact h'
  | cons _ ih => exact .cons (ih h')
  | interrupt hflag hroom hidt hgate hcode enter hbody run leave _ _ _ _ ih =>
    exact .interrupt hflag hroom hidt hgate hcode enter hbody run leave (ih h')

/-- An interrupt of a line in the small system, from its gate to its return. -/
structure LineInterrupt (S : Stacks ι) (irq : Fin IRQ_NR) (c c₁ c₂ c₃ : Cpu) : Prop where
  /-- To the handler. -/
  enter : Interrupted smallText S (runsSmallHandler S) (smallText.enter (.irq irq))
    (((Hook.irq irq).smallGate true).enter none c) c₁
  /-- The handler can be executed. -/
  body : runsSmallHandler S c₁ smallHandler
  /-- It is. -/
  run : Interrupted smallText S (runsSmallHandler S) smallHandler c₁ c₂
  /-- And back. -/
  leave : Interrupted smallText S (runsSmallHandler S) (smallText.leave (.irq irq)) c₂ c₃

/-- Whatever comes in between, a handler can be executed once its hook has called it. -/
theorem runs_smallHandler {irq : Fin IRQ_NR} (hesp : c.gpr .esp = S.word t i) (hfit : 17 ≤ i)
    (hi : i ≤ S.size t) (henter : Interrupted smallText S (runsSmallHandler S)
      (smallText.enter (.irq irq)) (((Hook.irq irq).smallGate true).enter none c) c₁) :
    c₁.gpr .esp = S.word t (i - 15) ∧ runsSmallHandler S c₁ smallHandler ∧
      c₁.eflags = ((Hook.irq irq).smallGate true).handlerFlags c.eflags := by
  have hlen : (contextWords (.irq irq) none c).length = 13 := rfl
  have hentered := shaken_enter hesp hi (by omega) (henter.shaken honours_runsSmallHandler)
  have hsp : c₁.gpr .esp = S.word t (i - 15) := hentered.pushed.esp
  exact ⟨hsp, ⟨⟨t, i - 15, hsp, by omega, by omega⟩, rfl⟩, hentered.eflags⟩

/-- A line interrupts, and nothing interrupts its handler. -/
theorem lineInterrupt_plain (irq : Fin IRQ_NR) (hesp : c.gpr .esp = S.word t i) (hfit : 17 ≤ i)
    (hi : i ≤ S.size t) : ∃ c₁ c₂ c₃, LineInterrupt S irq c c₁ c₂ c₃ := by
  obtain ⟨c₁, henter⟩ : ∃ c₁, Interrupted smallText S (runsSmallHandler S)
      (smallText.enter (.irq irq)) (((Hook.irq irq).smallGate true).enter none c) c₁ :=
    ⟨_, .plain _ _⟩
  exact ⟨c₁, _, _, henter, (runs_smallHandler hesp hfit hi henter).2.1, .plain _ _, .plain _ _⟩

/-- A line can interrupt whatever is executed. -/
theorem LineInterrupt.interrupted {irq : Fin IRQ_NR} (h : LineInterrupt S irq c c₁ c₂ c₃)
    (hflag : c.eflags.getLsbD IF = true) (hesp : c.gpr .esp = S.word t i) (hfit : 17 ≤ i)
    (hi : i ≤ S.size t) (hr : Interrupted smallText S (runsSmallHandler S) is c₃ d) :
    Interrupted smallText S (runsSmallHandler S) is c d :=
  .interrupt hflag ⟨t, i, hesp, by omega, hi⟩ smallIdt_filled (smallIdt_line irq) rfl h.enter h.body
    h.run h.leave hr

/-- The keyboard interrupts, and the clock interrupts its handler behind the first instruction. -/
theorem keyboard_interrupts (hflag : c.eflags.getLsbD IF = true) (hesp : c.gpr .esp = S.word t i)
    (hfit : 33 ≤ i) (hi : i ≤ S.size t) : ∃ c₁ n n₁ n₂ n₃ c₃,
      LineInterrupt S 1 c c₁ (smallHandler.tail.foldl (fun c f ↦ f c) n₃) c₃ ∧
      Interrupted smallText S (runsSmallHandler S) (smallHandler.take 1) c₁ n ∧
      LineInterrupt S 0 n n₁ n₂ n₃ := by
  obtain ⟨c₁, henter⟩ : ∃ c₁, Interrupted smallText S (runsSmallHandler S)
      (smallText.enter (.irq 1)) (((Hook.irq 1).smallGate true).enter none c) c₁ :=
    ⟨_, .plain _ _⟩
  obtain ⟨hsp, hbody, hflags⟩ := runs_smallHandler hesp (by omega) hi henter
  set n : Cpu := placed (handlerText 1) (.pushImm 0xdead) c₁
  have hn : n.gpr .esp = S.word t (i - 15 - 1) := by
    have hdown : n.gpr .esp = c₁.gpr .esp - 4#32 := Cpu.push_esp ..
    rw [hdown, hsp, Stacks.word_pred (by omega)]
  have hnflag : n.eflags.getLsbD IF = true := by
    have heq : n.eflags = c₁.eflags := rfl
    rw [heq, hflags, Gate.handlerFlags_IF _ hflag]
    rfl
  obtain ⟨n₁, n₂, n₃, hline⟩ := lineInterrupt_plain 0 hn (by omega) (by omega)
  have htail : Interrupted smallText S (runsSmallHandler S) smallHandler.tail n
      (smallHandler.tail.foldl (fun c f ↦ f c) n₃) :=
    hline.interrupted hnflag hn (by omega) (by omega) (.plain _ _)
  have hrun : Interrupted smallText S (runsSmallHandler S) smallHandler c₁
      (smallHandler.tail.foldl (fun c f ↦ f c) n₃) := .cons htail
  exact ⟨c₁, n, n₁, n₂, n₃, _, ⟨henter, hbody, hrun, .plain _ _⟩, .cons (.nil n), hline⟩

/-- The theorem for an interrupt of the keyboard with an interrupt of the clock in its handler. -/
theorem interrupt_transparent_keyboard : ∃ c₁ c₂ c₃ n n₁ n₂ n₃,
    LineInterrupt oneStack 1 smallCpu c₁ c₂ c₃ ∧ LineInterrupt oneStack 0 n n₁ n₂ n₃ ∧
    Interrupted smallText oneStack (runsSmallHandler oneStack) (smallHandler.take 1) c₁ n ∧
    c₂ = smallHandler.tail.foldl (fun c f ↦ f c) n₃ ∧
    irqContextAt c₁.mem (c₁.mem (c₁.gpr .esp + 4#32)) = contextOf 1 smallCpu ∧
    c₂.gpr .eax = 0xbeef ∧ c₃.gpr = smallCpu.gpr ∧ c₃.eip = 0x150000 ∧ c₃.eflags = 0x200 := by
  have hflag : smallCpu.eflags.getLsbD IF = true := by decide
  obtain ⟨c₁, n, n₁, n₂, n₃, c₃, hline, hn, hnested⟩ :=
    keyboard_interrupts hflag smallCpu_esp (by decide) (by decide)
  obtain ⟨⟨-, hctx, -⟩, hgpr, -, heip, -, heflags, -⟩ :=
    interrupt_transparent honours_runsSmallHandler hflag
      ⟨(), 48, smallCpu_esp, by decide, by decide⟩
      smallIdt_filled (smallIdt_line 1) rfl hline.enter hline.body hline.run hline.leave
  obtain ⟨⟨t, i, hesp, h2, hi⟩, -⟩ := hline.body
  have heax := (shaken_smallHandler hesp h2 hi (hline.run.shaken honours_runsSmallHandler)).2
  exact ⟨c₁, _, c₃, n, n₁, n₂, n₃, hline, hnested, hn, rfl, hctx, heax, hgpr, heip, heflags⟩

/-- The theorem for a general protection fault with the error code 0x18.  Its gate is a trap gate,
and the clock interrupts in front of the first instruction of the hook. -/
theorem exception_context_protection : ∃ d n₁ n₂ n₃,
    LineInterrupt oneStack 0 (((Hook.exc 0x0d).smallGate true).enter (some 0x18) smallCpu)
      n₁ n₂ n₃ ∧
    d = (smallText.enter (.exc 0x0d)).foldl (fun c f ↦ f c) n₃ ∧
    d.eip = 0x140000 ∧ (exceptionContextAt d.mem (d.mem (d.gpr .esp + 4#32))).exc = 0x0d ∧
    (exceptionContextAt d.mem (d.mem (d.gpr .esp + 4#32))).err_code = 0x18 := by
  set c : Cpu := ((Hook.exc 0x0d).smallGate true).enter (some 0x18) smallCpu
  have hesp : c.gpr .esp = oneStack.word () 44 := by decide
  obtain ⟨n₁, n₂, n₃, hline⟩ := lineInterrupt_plain 0 hesp (by decide) (by decide)
  have henter := hline.interrupted (by decide) hesp (by decide) (by decide)
    (.plain (smallText.enter (.exc 0x0d)) n₃)
  have hgate : fetchGate idtLimit smallIdt.bytes 0x0d = some ((Hook.exc 0x0d).smallGate true) := by
    have hhook : hookOf 0x0d = .exc 0x0d := by decide
    rw [smallIdt_gate, hhook]
    rfl
  have hcode : (Hook.exc 0x0d).Supplied (some 0x18) := rfl
  obtain ⟨heip, hctx⟩ := exception_context honours_runsSmallHandler smallCpu_esp (by decide)
    (by decide) smallIdt_filled (by decide) hgate rfl hcode henter
  exact ⟨_, n₁, n₂, n₃, hline, rfl, heip, by rw [hctx]; rfl, by rw [hctx]; rfl⟩

end PastaOS
