import PastaOS.Interrupt.Controllers
import PastaOS.Interrupt.Masked

/-!
# Which handler is called

The handler to be called for a line is the one installed last, or `unhandled_interrupt` when none is
installed: `due`, a function of the calls so far.  The table holds it (`irqHandler_eq`), except that
`uninstall_interrupt_handler` puts NULL where the table had `unhandled_interrupt` at the start, and
trusts the mask to keep interrupts away.

`called_iff` says when the right handler is called: exactly if the last call for the line is not an
uninstallation.  `called_of_disciplined` says what the mask is good for: if only unmasked lines
interrupt, and no line is uninstalled while an activation serves it, the right handler is called.
The controllers do not promise the first (`uninstalled_called`).
-/

set_option autoImplicit false

namespace PastaOS

namespace InterruptState

/-- The last call of `install_interrupt_handler` or `uninstall_interrupt_handler` for a line. -/
inductive LastCall
  /-- There has been none. -/
  | never
  /-- A handler was installed. -/
  | install (handler : Handler)
  /-- The line was uninstalled. -/
  | uninstall
  deriving DecidableEq

/-- The handler to be called. -/
def LastCall.due : LastCall → Handler
  | .never => .unhandled
  | .install handler => handler
  | .uninstall => .unhandled

/-- What the table holds. -/
def LastCall.entry : LastCall → Handler
  | .never => .unhandled
  | .install handler => handler
  | .uninstall => .null

/-- The last call for a line behind an event. -/
def record (i : Fin IRQ_NR) (c : LastCall) : Event → LastCall
  | .install irq handler _ => if irq = (i : ℕ) then .install handler else c
  | .uninstall irq => if irq = (i : ℕ) then .uninstall else c
  | _ => c

/-- The last call at the end of `interrupt_init`: the clock is installed. -/
def bootCall (i : Fin IRQ_NR) : LastCall := if i = 0 then .install clockHandler else .never

/-- The last call for a line, of a list of events. -/
def lastCall (es : List Event) (i : Fin IRQ_NR) : LastCall := es.foldl (record i) (bootCall i)

/-- The line whose handler `default_irq_handler` is about to call, and the handler. -/
def called (s : InterruptState) : Option (Fin IRQ_NR × Handler) :=
  (s.top .acked).map fun p ↦ (p.1.irq, s.irqs.irqHandler p.1.irq)

/-- No event of the list installs NULL. -/
def NonNull (es : List Event) : Prop := ∀ irq type, Event.install irq .null type ∉ es

variable {b s t : InterruptState} {e : Event} {es : List Event} {i : Fin IRQ_NR}
  {master slave : Pic} {f : Frame} {fs : List Frame}

/-! ## What the table holds -/

theorem LastCall.due_of_ne {c : LastCall} (hc : c ≠ .uninstall) : c.entry = c.due := by
  cases c with
  | never => rfl
  | install handler => rfl
  | uninstall => exact absurd rfl hc

theorem lastCall_snoc (es : List Event) (e : Event) (i : Fin IRQ_NR) :
    lastCall (es ++ [e]) i = record i (lastCall es i) e := List.foldl_concat _ _ _ _

theorem update_eq_ite {α : Type} (table : Fin IRQ_NR → α) (i j : Fin IRQ_NR) (v : α) :
    Function.update table j v i = if ((j : ℕ) : Int) = (i : ℕ) then v else table i := by
  by_cases h : i = j
  · subst h
    rw [Function.update_self, if_pos rfl]
  · have hne : ¬ ((j : ℕ) : Int) = (i : ℕ) := by
      intro heq
      exact h (Fin.ext (Int.ofNat_inj.mp heq).symm)
    rw [Function.update_of_ne h, if_neg hne]

/-- A step keeps the table in line with the calls. -/
theorem entry_step (hI : ∀ i, s.irqs.irqHandler i = (lastCall es i).entry) (hs : Step s e t) :
    ∀ i, t.irqs.irqHandler i = (lastCall (es ++ [e]) i).entry := by
  intro i
  rw [lastCall_snoc]
  have hfar {irq : Int} (hirq : irq > IRQ_NR) : ¬ irq = (i : ℕ) := by
    have hlt : i.val < 16 := i.isLt
    omega
  cases hs.effect with
  | interrupt hirqs => rw [hirqs.irqHandler]; exact hI i
  | ack _ _ hirqs => rw [hirqs.irqHandler]; exact hI i
  | dispatch _ _ _ hirqs => rw [hirqs]; exact hI i
  | panic hirqs => rw [hirqs]; exact hI i
  | ret _ _ hirqs => rw [hirqs]; exact hI i
  | eoi _ _ hirqs => rw [hirqs.irqHandler]; exact hI i
  | iret _ _ hirqs => rw [hirqs]; exact hI i
  | install _ _ hhandler =>
    rw [hhandler, update_eq_ite, record]
    split_ifs
    · rfl
    · exact hI i
  | uninstall _ _ hhandler =>
    rw [hhandler, update_eq_ite, record]
    split_ifs
    · rfl
    · exact hI i
  | endOfIrq _ _ hirqs => rw [hirqs.irqHandler]; exact hI i
  | installRefused hirq hirqs => rw [hirqs, record, if_neg (hfar hirq)]; exact hI i
  | uninstallRefused hirq hirqs => rw [hirqs, record, if_neg (hfar hirq)]; exact hI i
  | setFlag hirqs => rw [hirqs]; exact hI i

/-- **What the table holds**, at any time. -/
theorem irqHandler_eq (hb : boot master slave = some b) (hr : Run Step b es s) (i : Fin IRQ_NR) :
    s.irqs.irqHandler i = (lastCall es i).entry := by
  refine hr.invariant_history (I := fun es s ↦ ∀ i, s.irqs.irqHandler i = (lastCall es i).entry)
    (fun _ _ _ _ hI hs ↦ entry_step hI hs) ?_ i
  intro i
  rw [(boot_spec hb).irqHandler]
  revert i
  decide

/-- An installed handler is not NULL when none of the calls is. -/
theorem lastCall_ne_null (hes : NonNull es) (i : Fin IRQ_NR) : lastCall es i ≠ .install .null := by
  induction es using List.reverseRecOn with
  | nil =>
    revert i
    decide
  | append_singleton es e ih =>
    have hes' : NonNull es := fun irq type hmem ↦ hes irq type (List.mem_append_left _ hmem)
    rw [lastCall_snoc]
    cases e with
    | install irq handler type =>
      rw [record]
      split_ifs
      · intro hnull
        obtain rfl := LastCall.install.inj hnull
        exact hes irq type (List.mem_append_right _ List.mem_cons_self)
      · exact ih hes'
    | uninstall irq =>
      rw [record]
      split_ifs
      · exact LastCall.noConfusion
      · exact ih hes'
    | _ => exact ih hes'

/-! ## Which handler is called -/

theorem called_eq_some {handler : Handler} (h : s.called = some (i, handler)) :
    ∃ f fs, s.frames = f :: fs ∧ f.phase = .acked ∧ f.irq = i ∧ s.irqs.irqHandler i = handler := by
  obtain ⟨⟨f, fs⟩, htop, h⟩ := Option.map_eq_some_iff.mp h
  obtain ⟨rfl, rfl⟩ := Prod.mk.inj h
  obtain ⟨hf, hphase⟩ := top_eq_some.mp htop
  exact ⟨f, fs, hf, hphase, rfl, rfl⟩

/-- **The right handler is called**, and not NULL, exactly if the last call for the line is not an
uninstallation. -/
theorem called_iff {handler : Handler} (hb : boot master slave = some b) (hr : Run Step b es s)
    (hes : NonNull es) (hcall : s.called = some (i, handler)) :
    (handler = (lastCall es i).due ∧ handler ≠ .null) ↔ lastCall es i ≠ .uninstall := by
  obtain ⟨f, fs, -, -, -, rfl⟩ := called_eq_some hcall
  rw [irqHandler_eq hb hr]
  constructor
  · rintro ⟨-, hnull⟩ hun
    rw [hun] at hnull
    exact hnull rfl
  · intro hun
    refine ⟨LastCall.due_of_ne hun, ?_⟩
    intro hnull
    cases hlast : lastCall es i with
    | never => simp [hlast, LastCall.entry] at hnull
    | install handler =>
      rw [hlast, LastCall.entry] at hnull
      exact lastCall_ne_null hes i (hnull ▸ hlast)
    | uninstall => exact hun hlast

/-- The theorem for the clock. -/
theorem called_iff_clock : ∃ b s, boot picReset picReset = some b ∧
    Run Step b [.interrupt 0 false, .ack] s ∧ s.called = some (0, clockHandler) ∧
    clockHandler = (lastCall [.interrupt 0 false, .ack] 0).due ∧ clockHandler ≠ .null := by
  have h : ((boot picReset picReset).bind fun b ↦
      ([.interrupt 0 false, .ack] : List Event).foldlM step b).map called
        = some (some (0, clockHandler)) := by
    decide +kernel
  obtain ⟨s, h, hcall⟩ := Option.map_eq_some_iff.mp h
  obtain ⟨b, hb, h⟩ := Option.bind_eq_some_iff.mp h
  have hr := Run.of_foldlM h
  exact ⟨b, s, hb, hr, hcall, (called_iff hb hr (by simp [NonNull]) hcall).mpr (by decide)⟩

/-- **NULL is called** when a spurious interrupt comes on line 7 after it has been uninstalled. -/
theorem uninstalled_called : ∃ b s, boot picReset picReset = some b ∧
    Run Step b [.install 7 (.fn 1) 0x8f, .uninstall 7, .interrupt 7 true, .ack] s ∧
    NonNull [.install 7 (.fn 1) 0x8f, .uninstall 7, .interrupt 7 true, .ack] ∧
    s.called = some (7, .null) := by
  have h : ((boot picReset picReset).bind fun b ↦
      ([.install 7 (.fn 1) 0x8f, .uninstall 7, .interrupt 7 true, .ack] : List Event).foldlM
        step b).map called = some (some (7, .null)) := by
    decide +kernel
  obtain ⟨s, h, hcall⟩ := Option.map_eq_some_iff.mp h
  obtain ⟨b, hb, h⟩ := Option.bind_eq_some_iff.mp h
  exact ⟨b, s, hb, Run.of_foldlM h, by simp [NonNull], hcall⟩

/-! ## What the mask is good for -/

/-- A step in which only unmasked lines interrupt, only lines that no activation serves are
uninstalled, and NULL is not installed. -/
structure Disciplined (s : InterruptState) (e : Event) (t : InterruptState) : Prop where
  /-- It is a step. -/
  step : Step s e t
  /-- A line that interrupts is not masked. -/
  unmasked : ∀ irq spurious, e = .interrupt irq spurious → s.irqs.irqMask.getLsbD irq = false
  /-- A line that is uninstalled is not being served. -/
  unserved : ∀ i : Fin IRQ_NR, e = .uninstall (i : ℕ) → ∀ f ∈ s.frames, f.serves i = false
  /-- NULL is not installed. -/
  nonNull : ∀ irq type, e ≠ .install irq .null type

/-- The line has a handler, or it is masked and nothing serves it. -/
def Guarded (s : InterruptState) (i : Fin IRQ_NR) : Prop :=
  s.irqs.irqHandler i = .null →
    s.irqs.irqMask.getLsbD i = true ∧ ∀ f ∈ s.frames, f.serves i = false

/-- An activation that goes on serves what it has served. -/
theorem Guarded.frames {p : Phase} (h : Guarded s i) (hf : s.frames = f :: fs)
    (hphase : f.phase ≠ .finished) (hp : t.frames = { f with phase := p } :: fs)
    (hhandler : t.irqs.irqHandler i = s.irqs.irqHandler i)
    (hmask : f.irq ≠ i → t.irqs.irqMask.getLsbD i = s.irqs.irqMask.getLsbD i) : Guarded t i := by
  intro hnull
  rw [hhandler] at hnull
  obtain ⟨hbit, hall⟩ := h hnull
  rw [hf] at hall
  have hirq : f.irq ≠ i := by
    have hserves := hall f List.mem_cons_self
    simp only [Frame.serves, decide_eq_false_iff_not, not_and, not_not] at hserves
    exact fun hirq ↦ hphase (hserves hirq)
  refine ⟨(hmask hirq).trans hbit, ?_⟩
  rw [hp]
  intro g hg
  rcases List.mem_cons.mp hg with rfl | hg
  · exact serves_of_ne hirq
  · exact hall g (List.mem_cons_of_mem _ hg)

/-- A line stays guarded while its handler and its mask bit are the same and no activation is
added. -/
theorem Guarded.same (h : Guarded s i) (hhandler : t.irqs.irqHandler i = s.irqs.irqHandler i)
    (hmask : t.irqs.irqMask.getLsbD i = s.irqs.irqMask.getLsbD i)
    (hframes : ∀ f ∈ t.frames, f ∈ s.frames) : Guarded t i := by
  intro hnull
  obtain ⟨hbit, hall⟩ := h (hhandler ▸ hnull)
  exact ⟨hmask ▸ hbit, fun f hf ↦ hall f (hframes f hf)⟩

/-- A disciplined step guards every line. -/
theorem Guarded.step (h : ∀ i, Guarded s i) (hs : Disciplined s e t) (i : Fin IRQ_NR) :
    Guarded t i := by
  cases hs.step.effect with
  | @interrupt irq spurious hirqs hframes =>
    intro hnull
    rw [hirqs.irqHandler] at hnull
    obtain ⟨hbit, hall⟩ := h i hnull
    rw [hirqs.irqMask, hframes]
    refine ⟨hbit, ?_⟩
    intro f hf
    rcases List.mem_cons.mp hf with rfl | hf
    · refine serves_of_ne ?_
      rintro rfl
      exact Bool.false_ne_true ((hs.unmasked _ _ rfl).symm.trans hbit)
    · exact hall f hf
  | ack hf hphase hirqs hframes =>
    refine (h i).frames hf (by simp [hphase]) hframes (congrFun hirqs.irqHandler i) ?_
    intro hirq
    rw [hirqs.irqMask, getLsbD_or_lineBit, decide_eq_false hirq, Bool.or_false]
  | dispatch hf hphase _ hirqs hframes =>
    exact (h i).frames hf (by simp [hphase]) hframes (by rw [hirqs]) (fun _ ↦ by rw [hirqs])
  | panic hirqs hframes => exact (h i).same (by rw [hirqs]) (by rw [hirqs]) (by simp [hframes])
  | ret hf hphase hirqs hframes =>
    exact (h i).frames hf (by simp [hphase]) hframes (by rw [hirqs]) (fun _ ↦ by rw [hirqs])
  | eoi hf hphase hirqs hframes =>
    refine (h i).frames hf (by simp [hphase]) hframes (congrFun hirqs.irqHandler i) ?_
    intro hirq
    rw [hirqs.irqMask, getLsbD_and_lineBit, decide_eq_true hirq, Bool.and_true]
  | iret hf hphase hirqs =>
    refine (h i).same (by rw [hirqs]) (by rw [hirqs]) ?_
    intro f hmem
    rw [hf]
    exact List.mem_cons_of_mem _ hmem
  | @install j handler type hframes hmask hhandler =>
    by_cases hj : j = i
    · -- the new handler is not NULL
      subst hj
      intro hnull
      rw [hhandler, Function.update_self] at hnull
      subst hnull
      exact absurd rfl (hs.nonNull _ _)
    · refine (h i).same ?_ ?_ (by simp [hframes])
      · rw [hhandler, Function.update_of_ne (Ne.symm hj)]
      · rw [hmask, getLsbD_and_lineBit, decide_eq_true hj, Bool.and_true]
  | @uninstall j hframes hmask hhandler =>
    by_cases hj : j = i
    · subst hj
      intro _
      rw [hmask, getLsbD_or_lineBit, decide_eq_true rfl, Bool.or_true, hframes]
      exact ⟨rfl, hs.unserved _ rfl⟩
    · refine (h i).same ?_ ?_ (by simp [hframes])
      · rw [hhandler, Function.update_of_ne (Ne.symm hj)]
      · rw [hmask, getLsbD_or_lineBit, decide_eq_false hj, Bool.or_false]
  | @endOfIrq f fs hf hphase hirqs hframes =>
    have hsame : ({ f with phase := .running } : Frame) = f := by rw [← hphase]
    refine (h i).frames (p := .running) hf (by simp [hphase]) ?_ (congrFun hirqs.irqHandler i) ?_
    · rw [hsame, hframes, hf]
    · intro hirq
      rw [hirqs.irqMask, getLsbD_and_lineBit, decide_eq_true hirq, Bool.and_true]
  | installRefused _ hirqs hframes =>
    exact (h i).same (by rw [hirqs]) (by rw [hirqs]) (by simp [hframes])
  | uninstallRefused _ hirqs hframes =>
    exact (h i).same (by rw [hirqs]) (by rw [hirqs]) (by simp [hframes])
  | setFlag hirqs hframes => exact (h i).same (by rw [hirqs]) (by rw [hirqs]) (by simp [hframes])

/-- **In a disciplined run**, the right handler is called. -/
theorem called_of_disciplined {handler : Handler} (hb : boot master slave = some b)
    (hr : Run Disciplined b es s) (hcall : s.called = some (i, handler)) :
    handler = (lastCall es i).due ∧ handler ≠ .null := by
  have hguarded : ∀ i, Guarded s i := by
    refine hr.invariant (I := fun s ↦ ∀ i, Guarded s i) (fun _ _ _ ↦ Guarded.step) ?_
    intro i hnull
    rw [(boot_spec hb).irqHandler] at hnull
    exfalso
    revert i
    decide
  obtain ⟨f, fs, hf, hphase, rfl, rfl⟩ := called_eq_some hcall
  have hnull : s.irqs.irqHandler f.irq ≠ .null := by
    intro hnull
    have hserves := (hguarded f.irq hnull).2 f (hf ▸ List.mem_cons_self)
    simp [Frame.serves, hphase] at hserves
  refine ⟨?_, hnull⟩
  rw [irqHandler_eq hb (hr.mono fun _ _ _ h ↦ h.step)] at hnull ⊢
  refine LastCall.due_of_ne ?_
  intro hun
  rw [hun] at hnull
  exact hnull rfl

end InterruptState

end PastaOS
