import PastaOS.Interrupt.Controllers

/-!
# The controllers mirror the mask

`irq_mask` is kept three times: as a word, and as the mask registers of the two controllers.  Every
function of a line writes only one of the registers, so that the other one is right only because it
was right before: `Mirror.updates` is the step and `masks_mirror` the run.
-/

set_option autoImplicit false

namespace PastaOS

/-- The controllers are initialised and have the bytes of `irq_mask` for masks. -/
structure Mirror (s : Interrupts) : Prop where
  /-- Both are initialised. -/
  ready : Ready s
  /-- The low byte. -/
  master : s.master.imr = s.irqMasterMask
  /-- The high byte. -/
  slave : s.slave.imr = s.irqSlaveMask

/-- The bit of a line in the mask register of its controller. -/
def hardwareMask (s : Interrupts) (j : Fin IRQ_NR) : Bool :=
  if 8 ≤ j.val then s.slave.imr.getLsbD (j - 8) else s.master.imr.getLsbD j

/-- Of all masks, in the variable and in the controllers, only those of the line change. -/
structure OnlyLine (i : Fin IRQ_NR) (s s' : Interrupts) : Prop where
  /-- The variable. -/
  software : OtherLines i s.irqMask s'.irqMask
  /-- The controllers. -/
  hardware : ∀ j, j ≠ i → hardwareMask s' j = hardwareMask s j

variable {s s' : Interrupts} {i j : Fin IRQ_NR}

theorem irqMasterMask_getLsbD (s : Interrupts) {k : ℕ} (hk : k < 8) :
    s.irqMasterMask.getLsbD k = s.irqMask.getLsbD k := by
  rw [Interrupts.irqMasterMask, BitVec.getLsbD_setWidth, decide_eq_true hk, Bool.true_and]

theorem irqSlaveMask_getLsbD (s : Interrupts) {k : ℕ} (hk : k < 8) :
    s.irqSlaveMask.getLsbD k = s.irqMask.getLsbD (8 + k) := by
  rw [Interrupts.irqSlaveMask, BitVec.getLsbD_setWidth, decide_eq_true hk, Bool.true_and,
    BitVec.getLsbD_ushiftRight]

/-- A line of the slave does not show in the master's byte. -/
theorem OtherLines.irqMasterMask (h : OtherLines i s.irqMask s'.irqMask) (hi : 8 ≤ i.val) :
    s'.irqMasterMask = s.irqMasterMask := by
  refine BitVec.eq_of_getLsbD_eq ?_
  intro k hk
  have hlt : k < IRQ_NR := by simp only [IRQ_NR]; omega
  have hne : (⟨k, hlt⟩ : Fin IRQ_NR) ≠ i := by
    intro heq
    rw [← heq] at hi
    exact absurd hk (not_lt.mpr hi)
  rw [irqMasterMask_getLsbD _ hk, irqMasterMask_getLsbD _ hk]
  exact h _ hne

/-- A line of the master does not show in the slave's byte. -/
theorem OtherLines.irqSlaveMask (h : OtherLines i s.irqMask s'.irqMask) (hi : ¬ 8 ≤ i.val) :
    s'.irqSlaveMask = s.irqSlaveMask := by
  refine BitVec.eq_of_getLsbD_eq ?_
  intro k hk
  have hlt : 8 + k < IRQ_NR := by simp only [IRQ_NR]; omega
  have hne : (⟨8 + k, hlt⟩ : Fin IRQ_NR) ≠ i := by
    intro heq
    rw [← heq] at hi
    exact hi (Nat.le_add_right 8 k)
  rw [irqSlaveMask_getLsbD _ hk, irqSlaveMask_getLsbD _ hk]
  exact h _ hne

/-- The register of the other controller is right because it was right before. -/
theorem Mirror.writes (hm : Mirror s) (hl : OtherLines i s.irqMask s'.irqMask)
    (hw : WritesMask i s s') : Mirror s' := by
  refine ⟨hw.ready, ?_, ?_⟩
  · rw [hw.master]
    split_ifs with hi
    · rw [hm.master, hl.irqMasterMask hi]
    · rfl
  · rw [hw.slave]
    split_ifs with hi
    · rfl
    · rw [hm.slave, hl.irqSlaveMask hi]

/-- What the mirror shows of a line. -/
theorem Mirror.hardwareMask_eq (hm : Mirror s) (j : Fin IRQ_NR) :
    hardwareMask s j = s.irqMask.getLsbD j := by
  have hlt : j.val < 16 := j.isLt
  rw [hardwareMask, hm.master, hm.slave]
  split_ifs with hj
  · rw [irqSlaveMask_getLsbD _ (by omega), Nat.add_sub_cancel' hj]
  · rw [irqMasterMask_getLsbD _ (by omega)]

/-- Between two mirrored states, the controllers change where the variable does. -/
theorem Mirror.onlyLine (hm : Mirror s) (hm' : Mirror s')
    (hl : OtherLines i s.irqMask s'.irqMask) : OnlyLine i s s' := by
  refine ⟨hl, ?_⟩
  intro j hj
  rw [hm.hardwareMask_eq, hm'.hardwareMask_eq, hl j hj]

theorem Mirror.updates (hm : Mirror s) (hu : Updates i s s') : Mirror s' :=
  hm.writes hu.lines hu.writes

/-- `mask_and_ack_irq` keeps the mirror, too. -/
theorem Mirror.maskAndAckIrq (hm : Mirror s)
    (h : maskAndAckIrq (BitVec.ofNat 32 i) s = some s') :
    Mirror s' ∧ OtherLines i s.irqMask s'.irqMask := by
  obtain ⟨hmask, hwrites, -, -⟩ := maskAndAckIrq_pics hm.ready h
  have hl : OtherLines i s.irqMask s'.irqMask := hmask ▸ otherLines_or i s.irqMask
  exact ⟨hm.writes hl hwrites, hl⟩

namespace InterruptState

/-- What may change the masks: an event of the machine, or the running code's call of `end_of_irq`
with the context of any line. -/
inductive MaskEvent
  /-- An event of the machine. -/
  | event (e : Event)
  /-- `end_of_irq` -/
  | endOfIrq (i : Fin IRQ_NR)

/-- What an event does to the state. -/
def MaskStep (s : InterruptState) : MaskEvent → InterruptState → Prop
  | .event e, t => Step s e t
  | .endOfIrq i, t => s.Running ∧ ∃ irqs, PastaOS.endOfIrq (BitVec.ofNat 32 i) s.irqs = some irqs ∧
      t = { s with irqs := irqs }

variable {b s t : InterruptState} {master slave : Pic}

/-- Delivering an interrupt changes no mask. -/
theorem mirror_deliver {s : Interrupts} (hm : Mirror s) (irq : Fin IRQ_NR) (spurious : Bool) :
    Mirror (deliver irq spurious s) := by
  unfold deliver
  split_ifs <;> exact ⟨⟨hm.ready.master, hm.ready.slave⟩, hm.master, hm.slave⟩

theorem mirror_boot (hb : boot master slave = some b) : Mirror b.irqs := by
  have hboot := boot_spec hb
  exact ⟨⟨congrArg Pic.icw hboot.master, congrArg Pic.icw hboot.slave⟩,
    congrArg Pic.imr hboot.master, congrArg Pic.imr hboot.slave⟩

theorem mirror_step {e : MaskEvent} (hm : Mirror s.irqs) (hs : MaskStep s e t) : Mirror t.irqs := by
  cases e with
  | event e =>
    cases Step.picEffect hm.ready hs with
    | interrupt hirqs => exact hirqs ▸ mirror_deliver hm _ _
    | ack hf hack => exact (hm.maskAndAckIrq hack).1
    | updates _ hu => exact hm.updates hu
    | same _ hirqs => exact hirqs ▸ hm
  | endOfIrq i =>
    obtain ⟨-, irqs, hcall, rfl⟩ := hs
    exact hm.updates (endOfIrq_updates hm.ready hcall)

/-- **The mask registers mirror `irq_mask`** from the end of `interrupt_init` on, whatever is
installed and uninstalled, and whatever interrupts are delivered in whatever nesting; and a
function of a line changes no other mask. -/
theorem masks_mirror {es : List MaskEvent} (hb : boot master slave = some b)
    (hr : Run MaskStep b es s) :
    (s.irqs.master.imr = s.irqs.irqMasterMask ∧ s.irqs.slave.imr = s.irqs.irqSlaveMask) ∧
      ∀ i : Fin IRQ_NR,
        (∃ t, maskAndAckIrq (BitVec.ofNat 32 i) s.irqs = some t ∧ OnlyLine i s.irqs t) ∧
        (∃ t, picEnableIrq (BitVec.ofNat 8 i) s.irqs = some t ∧ OnlyLine i s.irqs t) ∧
        ∃ t, picDisableIrq (BitVec.ofNat 8 i) s.irqs = some t ∧ OnlyLine i s.irqs t := by
  have hm : Mirror s.irqs :=
    hr.invariant (I := fun s ↦ Mirror s.irqs) (fun _ _ _ ↦ mirror_step) (mirror_boot hb)
  refine ⟨⟨hm.master, hm.slave⟩, ?_⟩
  intro i
  refine ⟨?_, ?_, ?_⟩
  · obtain ⟨t, hack, -⟩ := maskAndAckIrq_line i s.irqs
    obtain ⟨hm', hl⟩ := hm.maskAndAckIrq hack
    exact ⟨t, hack, hm.onlyLine hm' hl⟩
  · have hcall := picEnableIrq_line i s.irqs
    have hu := picEnableIrq_updates hm.ready hcall
    exact ⟨_, hcall, hm.onlyLine (hm.updates hu) hu.lines⟩
  · have hcall := picDisableIrq_line i s.irqs
    have hu := picDisableIrq_updates hm.ready hcall
    exact ⟨_, hcall, hm.onlyLine (hm.updates hu) hu.lines⟩

/-- The masks are mirrored in every run of the machine, in particular. -/
theorem maskStep_run {es : List Event} (hr : Run Step s es t) :
    Run MaskStep s (es.map .event) t := by
  induction hr with
  | nil => exact .nil _
  | cons hs _ ih => exact .cons hs ih

/-- The theorem for an interrupt that comes while another one is being handled. -/
theorem masks_mirror_nested : ∃ b es s, boot picReset picReset = some b ∧
    Run MaskStep b es s ∧ s.frames.map Frame.irq = [0, 1] ∧
    (s.irqs.master.imr = s.irqs.irqMasterMask ∧ s.irqs.slave.imr = s.irqs.irqSlaveMask) := by
  have h : ((boot picReset picReset).bind fun b ↦
      ([.install 1 (.fn 1) 0x8f, .interrupt 1 false, .ack, .dispatch, .interrupt 0 false, .ack] :
        List Event).foldlM step b).map (fun s ↦ s.frames.map Frame.irq) = some [0, 1] := by
    decide +kernel
  obtain ⟨s, h, hframes⟩ := Option.map_eq_some_iff.mp h
  obtain ⟨b, hb, h⟩ := Option.bind_eq_some_iff.mp h
  have hr := maskStep_run (Run.of_foldlM h)
  exact ⟨b, _, s, hb, hr, hframes, (masks_mirror hb hr).1⟩

end InterruptState

end PastaOS
