import PastaOS.Interrupt.Lines
import PastaOS.Interrupt.Machine

/-!
# What a step does to the lines

`Transition` lists the steps of the machine, and `step_iff` says that there are no others.  `Effect`
is what they do to the mask, the handlers and the activations: what a run keeps is shown by going
through that list.
-/

set_option autoImplicit false

namespace PastaOS

namespace InterruptState

variable {s t : InterruptState} {e : Event}

theorem top_eq_some {p : Phase} {f : Frame} {fs : List Frame} :
    s.top p = some (f, fs) ↔ s.frames = f :: fs ∧ f.phase = p := by
  rw [top]
  cases h : s.frames with
  | nil => simp
  | cons g gs =>
    simp only [Option.ite_none_right_eq_some, Option.some.injEq, Prod.mk.injEq, List.cons.injEq]
    constructor
    · rintro ⟨hp, rfl, rfl⟩
      exact ⟨⟨rfl, rfl⟩, hp⟩
    · rintro ⟨⟨rfl, rfl⟩, hp⟩
      exact ⟨hp, rfl, rfl⟩

/-! ## The steps -/

/-- The steps of the machine, each with the calls it makes. -/
inductive Transition (s : InterruptState) : Event → InterruptState → Prop
  /-- The controllers interrupt. -/
  | interrupt {irq : Fin IRQ_NR} {spurious flag : Bool} (hflag : s.flag = true)
      (hgate : gateFlag (s.irqs.attribs (idtEntry irq)) s.flag = some flag) :
      Transition s (.interrupt irq spurious)
        { s with
          irqs := deliver irq spurious s.irqs
          frames := ⟨irq, .entry, s.flag⟩ :: s.frames
          flag := flag }
  /-- `mask_and_ack_irq(c->irq);` -/
  | ack {f : Frame} {fs : List Frame} {irqs : Interrupts} (hf : s.frames = f :: fs)
      (hphase : f.phase = .entry)
      (hcall : maskAndAckIrq (BitVec.ofNat 32 f.irq) s.irqs = some irqs) :
      Transition s .ack { s with irqs := irqs, frames := { f with phase := .acked } :: fs }
  /-- The line has no handler. -/
  | panic {f : Frame} {fs : List Frame} (hf : s.frames = f :: fs) (hphase : f.phase = .acked)
      (hfn : s.irqs.irqHandler f.irq = .unhandled) :
      Transition s .dispatch { s with panicked := true }
  /-- Its handler is called. -/
  | dispatch {f : Frame} {fs : List Frame} {name : ℕ} (hf : s.frames = f :: fs)
      (hphase : f.phase = .acked) (hfn : s.irqs.irqHandler f.irq = .fn name) :
      Transition s .dispatch { s with frames := { f with phase := .running } :: fs }
  /-- It returns. -/
  | ret {f : Frame} {fs : List Frame} (hf : s.frames = f :: fs) (hphase : f.phase = .running) :
      Transition s .ret { s with frames := { f with phase := .returned } :: fs }
  /-- `end_of_irq(c);` -/
  | eoi {f : Frame} {fs : List Frame} {irqs : Interrupts} (hf : s.frames = f :: fs)
      (hphase : f.phase = .returned)
      (hcall : PastaOS.endOfIrq (BitVec.ofNat 32 f.irq) s.irqs = some irqs) :
      Transition s .eoi { s with irqs := irqs, frames := { f with phase := .finished } :: fs }
  /-- `iret` -/
  | iret {f : Frame} {fs : List Frame} (hf : s.frames = f :: fs) (hphase : f.phase = .finished) :
      Transition s .iret { s with frames := fs, flag := f.flag }
  /-- The running code installs a handler. -/
  | install {irq type r : Int} {handler : Handler} {irqs : Interrupts} (hrun : s.Running)
      (hcall : installInterruptHandler irq handler type s.irqs = some (r, irqs)) :
      Transition s (.install irq handler type) { s with irqs := irqs }
  /-- It uninstalls one. -/
  | uninstall {irq r : Int} {irqs : Interrupts} (hrun : s.Running)
      (hcall : uninstallInterruptHandler irq s.irqs = some (r, irqs)) :
      Transition s (.uninstall irq) { s with irqs := irqs }
  /-- It enables its line. -/
  | endOfIrq {f : Frame} {fs : List Frame} {irqs : Interrupts} (hf : s.frames = f :: fs)
      (hphase : f.phase = .running)
      (hcall : PastaOS.endOfIrq (BitVec.ofNat 32 f.irq) s.irqs = some irqs) :
      Transition s .endOfIrq { s with irqs := irqs }
  /-- It executes `sti` or `cli`. -/
  | setFlag {flag : Bool} (hrun : s.Running) : Transition s (.setFlag flag) { s with flag := flag }

theorem Step.transition (h : Step s e t) : Transition s e t := by
  unfold Step step at h
  split at h
  · contradiction
  cases e with
  | interrupt irq spurious =>
    simp only [Option.ite_none_right_eq_some] at h
    obtain ⟨hflag, h⟩ := h
    obtain ⟨flag, hgate, h⟩ := Option.bind_eq_some_iff.mp h
    obtain rfl := Option.some.inj h
    exact .interrupt hflag hgate
  | ack =>
    obtain ⟨⟨f, fs⟩, htop, h⟩ := Option.bind_eq_some_iff.mp h
    obtain ⟨hf, hphase⟩ := top_eq_some.mp htop
    obtain ⟨irqs, hcall, h⟩ := Option.bind_eq_some_iff.mp h
    obtain rfl := Option.some.inj h
    exact .ack hf hphase hcall
  | dispatch =>
    obtain ⟨⟨f, fs⟩, htop, h⟩ := Option.bind_eq_some_iff.mp h
    obtain ⟨hf, hphase⟩ := top_eq_some.mp htop
    cases hfn : s.irqs.irqHandler f.irq with
    | null => simp [hfn] at h
    | unhandled =>
      simp only [hfn] at h
      obtain rfl := Option.some.inj h
      exact .panic hf hphase hfn
    | fn name =>
      simp only [hfn] at h
      obtain rfl := Option.some.inj h
      exact .dispatch hf hphase hfn
  | ret =>
    obtain ⟨⟨f, fs⟩, htop, h⟩ := Option.bind_eq_some_iff.mp h
    obtain ⟨hf, hphase⟩ := top_eq_some.mp htop
    obtain rfl := Option.some.inj h
    exact .ret hf hphase
  | eoi =>
    obtain ⟨⟨f, fs⟩, htop, h⟩ := Option.bind_eq_some_iff.mp h
    obtain ⟨hf, hphase⟩ := top_eq_some.mp htop
    obtain ⟨irqs, hcall, h⟩ := Option.bind_eq_some_iff.mp h
    obtain rfl := Option.some.inj h
    exact .eoi hf hphase hcall
  | iret =>
    obtain ⟨⟨f, fs⟩, htop, h⟩ := Option.bind_eq_some_iff.mp h
    obtain ⟨hf, hphase⟩ := top_eq_some.mp htop
    obtain rfl := Option.some.inj h
    exact .iret hf hphase
  | install irq handler type =>
    simp only [Option.ite_none_right_eq_some] at h
    obtain ⟨hrun, h⟩ := h
    obtain ⟨⟨r, irqs⟩, hcall, h⟩ := Option.bind_eq_some_iff.mp h
    obtain rfl := Option.some.inj h
    exact .install hrun hcall
  | uninstall irq =>
    simp only [Option.ite_none_right_eq_some] at h
    obtain ⟨hrun, h⟩ := h
    obtain ⟨⟨r, irqs⟩, hcall, h⟩ := Option.bind_eq_some_iff.mp h
    obtain rfl := Option.some.inj h
    exact .uninstall hrun hcall
  | endOfIrq =>
    obtain ⟨⟨f, fs⟩, htop, h⟩ := Option.bind_eq_some_iff.mp h
    obtain ⟨hf, hphase⟩ := top_eq_some.mp htop
    obtain ⟨irqs, hcall, h⟩ := Option.bind_eq_some_iff.mp h
    obtain rfl := Option.some.inj h
    exact .endOfIrq hf hphase hcall
  | setFlag flag =>
    simp only [Option.ite_none_right_eq_some] at h
    obtain ⟨hrun, h⟩ := h
    obtain rfl := Option.some.inj h
    exact .setFlag hrun

theorem Transition.step (hp : s.panicked = false) (h : Transition s e t) : Step s e t := by
  cases h with
  | interrupt hflag hgate =>
    rw [hflag] at hgate
    simp [Step, InterruptState.step, hp, hflag, hgate]
  | ack hf hphase hcall =>
    simp [Step, InterruptState.step, hp, top_eq_some.mpr ⟨hf, hphase⟩, hcall]
  | panic hf hphase hfn =>
    simp [Step, InterruptState.step, hp, top_eq_some.mpr ⟨hf, hphase⟩, hfn]
  | dispatch hf hphase hfn =>
    simp [Step, InterruptState.step, hp, top_eq_some.mpr ⟨hf, hphase⟩, hfn]
  | ret hf hphase => simp [Step, InterruptState.step, hp, top_eq_some.mpr ⟨hf, hphase⟩]
  | eoi hf hphase hcall =>
    simp [Step, InterruptState.step, hp, top_eq_some.mpr ⟨hf, hphase⟩, hcall]
  | iret hf hphase => simp [Step, InterruptState.step, hp, top_eq_some.mpr ⟨hf, hphase⟩]
  | install hrun hcall => simp [Step, InterruptState.step, hp, hrun, hcall]
  | uninstall hrun hcall => simp [Step, InterruptState.step, hp, hrun, hcall]
  | endOfIrq hf hphase hcall =>
    simp [Step, InterruptState.step, hp, top_eq_some.mpr ⟨hf, hphase⟩, hcall]
  | setFlag hrun => simp [Step, InterruptState.step, hp, hrun]

/-- **The steps of the machine**: it stops once `panic` has been called. -/
theorem step_iff : Step s e t ↔ s.panicked = false ∧ Transition s e t := by
  constructor
  · intro h
    refine ⟨?_, h.transition⟩
    by_contra hp
    simp [Step, step, hp] at h
  · rintro ⟨hp, h⟩
    exact h.step hp

/-! ## What they do -/

/-- What a step does to the mask, the handlers and the activations. -/
inductive Effect (s t : InterruptState) : Event → Prop
  /-- An activation begins. -/
  | interrupt {irq : Fin IRQ_NR} {spurious : Bool} (hirqs : SameTables s.irqs t.irqs)
      (hframes : t.frames = ⟨irq, .entry, s.flag⟩ :: s.frames) :
      Effect s t (.interrupt irq spurious)
  /-- It masks its line. -/
  | ack {f : Frame} {fs : List Frame} (hf : s.frames = f :: fs) (hphase : f.phase = .entry)
      (hirqs : SameTables { s.irqs with irqMask := s.irqs.irqMask ||| lineBit f.irq } t.irqs)
      (hframes : t.frames = { f with phase := .acked } :: fs) : Effect s t .ack
  /-- It calls a handler. -/
  | dispatch {f : Frame} {fs : List Frame} {name : ℕ} (hf : s.frames = f :: fs)
      (hphase : f.phase = .acked) (hfn : s.irqs.irqHandler f.irq = .fn name)
      (hirqs : t.irqs = s.irqs)
      (hframes : t.frames = { f with phase := .running } :: fs) : Effect s t .dispatch
  /-- It finds no handler. -/
  | panic (hirqs : t.irqs = s.irqs) (hframes : t.frames = s.frames) (hpanic : t.panicked = true) :
      Effect s t .dispatch
  /-- The handler returns. -/
  | ret {f : Frame} {fs : List Frame} (hf : s.frames = f :: fs) (hphase : f.phase = .running)
      (hirqs : t.irqs = s.irqs)
      (hframes : t.frames = { f with phase := .returned } :: fs) : Effect s t .ret
  /-- It enables its line. -/
  | eoi {f : Frame} {fs : List Frame} (hf : s.frames = f :: fs) (hphase : f.phase = .returned)
      (hirqs : SameTables { s.irqs with irqMask := s.irqs.irqMask &&& ~~~lineBit f.irq } t.irqs)
      (hframes : t.frames = { f with phase := .finished } :: fs) : Effect s t .eoi
  /-- It ends. -/
  | iret {f : Frame} (hf : s.frames = f :: t.frames) (hphase : f.phase = .finished)
      (hirqs : t.irqs = s.irqs) : Effect s t .iret
  /-- A line is installed. -/
  | install {i : Fin IRQ_NR} {handler : Handler} {type : Int} (hframes : t.frames = s.frames)
      (hmask : t.irqs.irqMask = s.irqs.irqMask &&& ~~~lineBit i)
      (hhandler : t.irqs.irqHandler = Function.update s.irqs.irqHandler i handler) :
      Effect s t (.install (i : ℕ) handler type)
  /-- A line is uninstalled. -/
  | uninstall {i : Fin IRQ_NR} (hframes : t.frames = s.frames)
      (hmask : t.irqs.irqMask = s.irqs.irqMask ||| lineBit i)
      (hhandler : t.irqs.irqHandler = Function.update s.irqs.irqHandler i .null) :
      Effect s t (.uninstall (i : ℕ))
  /-- The running handler enables its line. -/
  | endOfIrq {f : Frame} {fs : List Frame} (hf : s.frames = f :: fs) (hphase : f.phase = .running)
      (hirqs : SameTables { s.irqs with irqMask := s.irqs.irqMask &&& ~~~lineBit f.irq } t.irqs)
      (hframes : t.frames = s.frames) : Effect s t .endOfIrq
  /-- An installation is refused. -/
  | installRefused {irq : Int} {handler : Handler} {type : Int} (hirq : irq > IRQ_NR)
      (hirqs : t.irqs = s.irqs) (hframes : t.frames = s.frames) :
      Effect s t (.install irq handler type)
  /-- An uninstallation is refused. -/
  | uninstallRefused {irq : Int} (hirq : irq > IRQ_NR) (hirqs : t.irqs = s.irqs)
      (hframes : t.frames = s.frames) : Effect s t (.uninstall irq)
  /-- Only the processor is concerned. -/
  | setFlag {flag : Bool} (hirqs : t.irqs = s.irqs) (hframes : t.frames = s.frames) :
      Effect s t (.setFlag flag)

theorem sameTables_deliver (irq : Fin IRQ_NR) (spurious : Bool) (s : Interrupts) :
    SameTables s (deliver irq spurious s) := by
  unfold deliver
  split_ifs <;> exact ⟨rfl, rfl, rfl⟩

/-- **Every step has the effect of its event.** -/
theorem Step.effect (h : Step s e t) : Effect s t e := by
  cases h.transition with
  | interrupt => exact .interrupt (sameTables_deliver _ _ _) rfl
  | @ack f fs irqs hf hphase hcall =>
    obtain ⟨irqs', hcall', hsame⟩ := maskAndAckIrq_line f.irq s.irqs
    obtain rfl := Option.some.inj (hcall.symm.trans hcall')
    exact .ack hf hphase hsame rfl
  | panic => exact .panic rfl rfl rfl
  | dispatch hf hphase hfn => exact .dispatch hf hphase hfn rfl rfl
  | ret hf hphase => exact .ret hf hphase rfl rfl
  | eoi hf hphase hcall =>
    rw [endOfIrq_line] at hcall
    obtain rfl := Option.some.inj hcall
    exact .eoi hf hphase (sameTables_outMask _ _) rfl
  | iret hf hphase => exact .iret hf hphase rfl
  | install _ hcall =>
    rcases install_cases hcall with ⟨hirq, -, rfl⟩ | ⟨i, rfl, -, hmask, hhandler⟩
    · exact .installRefused hirq rfl rfl
    · exact .install rfl hmask hhandler
  | uninstall _ hcall =>
    rcases uninstall_cases hcall with ⟨hirq, -, rfl⟩ | ⟨i, rfl, -, hmask, hhandler⟩
    · exact .uninstallRefused hirq rfl rfl
    · exact .uninstall rfl hmask hhandler
  | endOfIrq hf hphase hcall =>
    rw [endOfIrq_line] at hcall
    obtain rfl := Option.some.inj hcall
    exact .endOfIrq hf hphase (sameTables_outMask _ _) rfl
  | setFlag => exact .setFlag rfl rfl

end InterruptState

end PastaOS
