import PastaOS.Interrupt.Dispatch
import PastaOS.Interrupt.InService
import PastaOS.Interrupt.Mirror

/-!
# No line is lost

`mask_and_ack_irq` masks its line, and `end_of_irq` enables it again.  In between the line is *held*
by its activation, and other activations come and go.  `lines_reopen` says that nothing is left
behind: a line that is installed and not held is enabled, in the variable and in the controller, and
when nothing waits to be acknowledged, nothing is in service.

The registers are not what they should be in between: an acknowledgement may take a line out of
service that still waits for its own.  It never leaves one in service that does not wait, though,
because the non-specific end of interrupt that the master gets for a line of the slave finds the
cascade as the first line in service (`Service.cascade`).
-/

set_option autoImplicit false

namespace PastaOS

/-- The activation is between `mask_and_ack_irq` and `end_of_irq` for the line. -/
def Frame.holds (i : Fin IRQ_NR) (f : Frame) : Prop :=
  f.irq = i ∧ f.phase ≠ .entry ∧ f.phase ≠ .finished

namespace InterruptState

variable {b s t : InterruptState} {e : Event} {es : List Event} {i : Fin IRQ_NR}
  {master slave : Pic} {f : Frame} {fs : List Frame}

/-! ## The masks -/

/-- The line is to be enabled: it is installed, or it is the cascade. -/
def Wanted (es : List Event) (i : Fin IRQ_NR) : Prop :=
  (∃ handler, lastCall es i = .install handler) ∨ (i.val = 2 ∧ lastCall es i = .never)

/-- No activation holds the line. -/
def Free (i : Fin IRQ_NR) (frames : List Frame) : Prop := ∀ f ∈ frames, ¬ f.holds i

/-- The lines that are to be enabled, and are not held, are enabled. -/
def Reopens (es : List Event) (s : InterruptState) : Prop :=
  ∀ i, Wanted es i → Free i s.frames → s.irqs.irqMask.getLsbD i = false

theorem Wanted.of_record (h : Wanted (es ++ [e]) i)
    (hr : record i (lastCall es i) e = lastCall es i) : Wanted es i := by
  rwa [Wanted, lastCall_snoc, hr] at h

theorem Free.of_cons (h : Free i (f :: fs)) : Free i fs := fun g hg ↦
  h g (List.mem_cons_of_mem _ hg)

/-- A line stays free when the innermost activation is replaced by one that holds no more. -/
theorem Free.cons {g : Frame} (h : Free i (g :: fs)) (hf : f.holds i → g.holds i) :
    Free i (f :: fs) := by
  intro a ha
  rcases List.mem_cons.mp ha with rfl | ha
  · exact fun hold ↦ h g List.mem_cons_self (hf hold)
  · exact h.of_cons a ha

/-- Enabling a line leaves no other line disabled. -/
theorem Reopens.enable {j : Fin IRQ_NR} (h : Reopens es s)
    (hmask : t.irqs.irqMask = s.irqs.irqMask &&& ~~~lineBit j) (hw : i ≠ j → Wanted es i)
    (hfree : i ≠ j → Free i s.frames) : t.irqs.irqMask.getLsbD i = false := by
  rw [hmask, getLsbD_and_lineBit]
  by_cases hij : i = j
  · rw [decide_eq_false (not_not.mpr hij.symm), Bool.and_false]
  · rw [h i (hw hij) (hfree hij), Bool.false_and]

theorem Reopens.step (h : Reopens es s) (hs : Step s e t) : Reopens (es ++ [e]) t := by
  intro i hw hfree
  have hne {j : Fin IRQ_NR} (hij : i ≠ j) : ¬ ((j : ℕ) : Int) = (i : ℕ) := fun heq ↦
    hij (Fin.ext (Int.ofNat_inj.mp heq).symm)
  have hfar {irq : Int} (hirq : irq > IRQ_NR) : ¬ irq = (i : ℕ) := by
    have hlt : i.val < 16 := i.isLt
    omega
  cases hs.effect with
  | interrupt hirqs hframes =>
    rw [hirqs.irqMask]
    exact h i (hw.of_record rfl) (hframes ▸ hfree).of_cons
  | @ack f fs hf hphase hirqs hframes =>
    rw [hframes] at hfree
    have hij : f.irq ≠ i := by
      intro hij
      exact hfree _ List.mem_cons_self ⟨hij, by simp, by simp⟩
    rw [hirqs.irqMask, getLsbD_or_lineBit, decide_eq_false hij, Bool.or_false]
    exact h i (hw.of_record rfl) (hf ▸ hfree.cons fun hold ↦ absurd hphase hold.2.1)
  | dispatch hf hphase _ hirqs hframes =>
    rw [hirqs]
    rw [hframes] at hfree
    exact h i (hw.of_record rfl) (hf ▸ hfree.cons fun hold ↦ ⟨hold.1, by simp, by simp⟩)
  | panic hirqs hframes =>
    rw [hirqs]
    exact h i (hw.of_record rfl) (hframes ▸ hfree)
  | ret hf hphase hirqs hframes =>
    rw [hirqs]
    rw [hframes] at hfree
    exact h i (hw.of_record rfl) (hf ▸ hfree.cons fun hold ↦ ⟨hold.1, by simp, by simp⟩)
  | @eoi f fs hf hphase hirqs hframes =>
    rw [hframes] at hfree
    refine h.enable hirqs.irqMask (fun _ ↦ hw.of_record rfl) fun hij ↦ ?_
    exact hf ▸ hfree.cons fun hold ↦ absurd hold.1.symm hij
  | iret hf hphase hirqs =>
    rw [hirqs]
    refine h i (hw.of_record rfl) ?_
    rw [hf]
    rintro g hg
    rcases List.mem_cons.mp hg with rfl | hg
    · exact fun hold ↦ hold.2.2 hphase
    · exact hfree g hg
  | install hframes hmask _ =>
    exact h.enable hmask (fun hij ↦ hw.of_record (if_neg (hne hij))) fun _ ↦ hframes ▸ hfree
  | @uninstall j hframes hmask _ =>
    have hij : i ≠ j := by
      rintro rfl
      have hgone : lastCall (es ++ [.uninstall (i : ℕ)]) i = .uninstall := by
        rw [lastCall_snoc, record, if_pos rfl]
      rw [Wanted, hgone] at hw
      simp at hw
    rw [hmask, getLsbD_or_lineBit, decide_eq_false hij.symm, Bool.or_false]
    exact h i (hw.of_record (if_neg (hne hij))) (hframes ▸ hfree)
  | endOfIrq hf _ hirqs hframes =>
    exact h.enable hirqs.irqMask (fun _ ↦ hw.of_record rfl) fun _ ↦ hframes ▸ hfree
  | installRefused hirq hirqs hframes =>
    rw [hirqs]
    exact h i (hw.of_record (if_neg (hfar hirq))) (hframes ▸ hfree)
  | uninstallRefused hirq hirqs hframes =>
    rw [hirqs]
    exact h i (hw.of_record (if_neg (hfar hirq))) (hframes ▸ hfree)
  | setFlag hirqs hframes =>
    rw [hirqs]
    exact h i (hw.of_record rfl) (hframes ▸ hfree)

theorem reopens_boot (hb : boot master slave = some b) : Reopens [] b := by
  intro i hw _
  have hbits : ∀ i : Fin IRQ_NR, i = 0 ∨ i.val = 2 → (0xfffa : BitVec 16).getLsbD i = false := by
    decide
  rw [(boot_spec hb).irqMask]
  refine hbits i ?_
  rcases hw with ⟨handler, hcall⟩ | ⟨h2, -⟩
  · by_contra hne
    rw [lastCall, List.foldl_nil, bootCall, if_neg (fun h0 ↦ hne (.inl h0))] at hcall
    simp at hcall
  · exact .inr h2

end InterruptState

/-! ## The lines in service -/

theorem clearLowest_le {m : Byte} {k : ℕ} (h : (clearLowest m).getLsbD k = true) :
    m.getLsbD k = true := by
  rw [clearLowest, BitVec.getLsbD_and, Bool.and_eq_true] at h
  exact h.1

/-- If a bit is the lowest one that is set, `clearLowest` clears it. -/
theorem clearLowest_getLsbD {m : Byte} {n : ℕ} (hn : n < 8) (h : ∀ k < n, m.getLsbD k = false) :
    (clearLowest m).getLsbD n = false := by
  have hall : ∀ (m : Fin 256) (n : Fin 8),
      (∀ k : Fin 8, k < n → (BitVec.ofFin (w := 8) m).getLsbD k = false) →
        (clearLowest (BitVec.ofFin m)).getLsbD n = false := by decide +kernel
  exact hall m.toFin ⟨n, hn⟩ fun k hk ↦ h k hk

theorem and_not_picBit {m : Byte} {n k : ℕ} (hn : n < 8)
    (h : (m &&& ~~~picBit n).getLsbD k = true) : m.getLsbD k = true ∧ k ≠ n := by
  rw [BitVec.getLsbD_and, BitVec.getLsbD_not, picBit_getLsbD hn, Bool.and_eq_true] at h
  refine ⟨h.1, ?_⟩
  rintro rfl
  simp at h

variable {i : Fin IRQ_NR} {m : Byte} {k : ℕ}

/-- The master's line goes out of service, and none comes in: for a line of the slave, if the
cascade is the first line in service. -/
theorem ackMaster_getLsbD (hi : 8 ≤ i.val → ∀ j ≤ 2, m.getLsbD j = true → j = 2)
    (h : (ackMaster i m).getLsbD k = true) : m.getLsbD k = true ∧ k ≠ masterLine i := by
  rw [ackMaster] at h
  rw [masterLine]
  split_ifs at h ⊢ with h8
  · refine ⟨clearLowest_le h, ?_⟩
    rintro rfl
    have hlow : ∀ j < 2, m.getLsbD j = false := by
      intro j hj
      by_contra hbit
      have := hi h8 j hj.le (by simpa using hbit)
      omega
    rw [clearLowest_getLsbD (by decide) hlow] at h
    exact absurd h (by decide)
  · exact and_not_picBit (Nat.not_le.mp h8) (clearLowest_le h)

/-- What an acknowledgement leaves of the service register of the slave was set before, and is not
the bit of the line itself. -/
theorem ackSlave_getLsbD (h : (ackSlave i m).getLsbD k = true) :
    m.getLsbD k = true ∧ (8 ≤ i.val → k ≠ i - 8) := by
  rw [ackSlave] at h
  split_ifs at h with h8
  · have hlt : i.val < 16 := i.isLt
    obtain ⟨h, -⟩ := and_not_picBit (by decide) (clearLowest_le h)
    obtain ⟨h, hne⟩ := and_not_picBit (by omega) h
    exact ⟨h, fun _ ↦ hne⟩
  · exact ⟨h, fun hi ↦ absurd hi h8⟩

namespace InterruptState

variable {b s t : InterruptState} {e : Event} {es : List Event} {master slave : Pic}
  {irqs : Interrupts} {lines : List (Fin IRQ_NR)}

/-- Only lines that wait are in service. -/
structure Service (lines : List (Fin IRQ_NR)) (irqs : Interrupts) : Prop where
  /-- At the master. -/
  master : ∀ k, irqs.master.isr.getLsbD k = true → ∃ i ∈ lines, masterLine i = k
  /-- At the slave. -/
  slave : ∀ k, irqs.slave.isr.getLsbD k = true → ∃ i ∈ lines, 8 ≤ i.val ∧ i - 8 = k
  /-- When a line of the slave is the innermost one that waits, no line of the master that has
  priority over the cascade is in service. -/
  cascade : ∀ above i below, lines = above ++ i :: below → 8 ≤ i.val →
    ∀ k ≤ 2, irqs.master.isr.getLsbD k = true → ∃ j ∈ above ++ [i], masterLine j = k

/-- A step in which a line of the slave is delivered only if the master accepts the cascade: neither
it nor a line that has priority over it is in service. -/
structure Cascades (s : InterruptState) (e : Event) (t : InterruptState) : Prop where
  /-- It is a step. -/
  step : Step s e t
  /-- The cascade is accepted. -/
  accepts : ∀ irq spurious, e = .interrupt irq spurious → 8 ≤ irq.val →
    ∀ k ≤ 2, s.irqs.master.isr.getLsbD k = false

/-- The registers behind the delivery of an interrupt. -/
theorem deliver_isr (irq : Fin IRQ_NR) (spurious : Bool) (irqs : Interrupts) {k : ℕ} :
    ((deliver irq spurious irqs).master.isr.getLsbD k = true →
      irqs.master.isr.getLsbD k = true ∨ masterLine irq = k) ∧
    ((deliver irq spurious irqs).slave.isr.getLsbD k = true →
      irqs.slave.isr.getLsbD k = true ∨ 8 ≤ irq.val ∧ irq - 8 = k) := by
  have hserve (n : ℕ) (hn : n < 8) (p : Pic) (h : (p.serve n).isr.getLsbD k = true) :
      p.isr.getLsbD k = true ∨ n = k := by
    have hbit : (p.serve n).isr = p.isr ||| picBit n := rfl
    rw [hbit, BitVec.getLsbD_or, picBit_getLsbD hn, Bool.or_eq_true, decide_eq_true_iff] at h
    exact h
  have hlt : irq.val < 16 := irq.isLt
  rw [deliver, masterLine]
  by_cases hi : 8 ≤ irq.val
  · rw [if_pos hi, if_pos hi, if_pos hi]
    refine ⟨fun h ↦ hserve 2 (by decide) irqs.master ?_, fun h ↦ ?_⟩
    · split_ifs at h <;> exact h
    · split_ifs at h
      · exact .inl h
      · exact (hserve _ (by omega) _ h).imp_right fun hk ↦ ⟨hi, hk⟩
  · rw [if_neg hi, if_neg hi, if_neg hi]
    split_ifs
    · exact ⟨.inl, .inl⟩
    · exact ⟨hserve _ (by omega) _, .inl⟩

theorem Service.deliver (h : Service lines irqs) {irq : Fin IRQ_NR} {spurious : Bool}
    (haccepts : 8 ≤ irq.val → ∀ k ≤ 2, irqs.master.isr.getLsbD k = false) :
    Service (irq :: lines) (deliver irq spurious irqs) := by
  refine ⟨fun k hk ↦ ?_, fun k hk ↦ ?_, fun above i below hsplit hi k hk2 hk ↦ ?_⟩
  · rcases (deliver_isr irq spurious irqs).1 hk with hk | hk
    · obtain ⟨i, hi, hline⟩ := h.master k hk
      exact ⟨i, List.mem_cons_of_mem _ hi, hline⟩
    · exact ⟨irq, List.mem_cons_self, hk⟩
  · rcases (deliver_isr irq spurious irqs).2 hk with hk | hk
    · obtain ⟨i, hi, hline⟩ := h.slave k hk
      exact ⟨i, List.mem_cons_of_mem _ hi, hline⟩
    · exact ⟨irq, List.mem_cons_self, hk⟩
  · cases above with
    | nil =>
      obtain ⟨rfl, rfl⟩ := List.cons.inj hsplit
      rcases (deliver_isr irq spurious irqs).1 hk with hk | hk
      · rw [haccepts hi k hk2] at hk
        exact absurd hk (by decide)
      · exact ⟨irq, List.mem_cons_self, hk⟩
    | cons a above =>
      obtain ⟨rfl, rfl⟩ := List.cons.inj hsplit
      rcases (deliver_isr irq spurious irqs).1 hk with hk | hk
      · obtain ⟨j, hj, hline⟩ := h.cascade above i below rfl hi k hk2 hk
        exact ⟨j, List.mem_cons_of_mem _ hj, hline⟩
      · exact ⟨irq, List.mem_cons_self, hk⟩

/-- An acknowledgement of the innermost line. -/
theorem Service.ack {irqs' : Interrupts} (h : Service (i :: lines) irqs) (hr : Ready irqs)
    (hack : maskAndAckIrq (BitVec.ofNat 32 i) irqs = some irqs') : Service lines irqs' := by
  obtain ⟨-, -, hmaster, hslave⟩ := maskAndAckIrq_pics hr hack
  have hfirst (hi : 8 ≤ i.val) (j : ℕ) (hj : j ≤ 2) (hbit : irqs.master.isr.getLsbD j = true) :
      j = 2 := by
    obtain ⟨i', hi', hline⟩ := h.cascade [] i lines rfl hi j hj hbit
    rw [← hline, List.mem_singleton.mp hi']
    exact if_pos hi
  refine ⟨fun k hk ↦ ?_, fun k hk ↦ ?_, fun above i' below hsplit hi' k hk2 hk ↦ ?_⟩
  · rw [hmaster] at hk
    obtain ⟨hk, hne⟩ := ackMaster_getLsbD hfirst hk
    obtain ⟨j, hj, hline⟩ := h.master k hk
    rcases List.mem_cons.mp hj with rfl | hj
    · exact absurd hline.symm hne
    · exact ⟨j, hj, hline⟩
  · rw [hslave] at hk
    obtain ⟨hk, hne⟩ := ackSlave_getLsbD hk
    obtain ⟨j, hj, h8, hline⟩ := h.slave k hk
    rcases List.mem_cons.mp hj with rfl | hj
    · exact absurd hline.symm (hne h8)
    · exact ⟨j, hj, h8, hline⟩
  · rw [hmaster] at hk
    obtain ⟨hk, hne⟩ := ackMaster_getLsbD hfirst hk
    obtain ⟨j, hj, hline⟩ := h.cascade (i :: above) i' below (hsplit ▸ rfl) hi' k hk2 hk
    rcases List.mem_cons.mp hj with rfl | hj
    · exact absurd hline.symm hne
    · exact ⟨j, hj, hline⟩

theorem Service.of_same {irqs' : Interrupts} (h : Service lines irqs)
    (hs : SameService irqs irqs') : Service lines irqs' := by
  refine ⟨?_, ?_, ?_⟩
  · rw [hs.master]
    exact h.master
  · rw [hs.slave]
    exact h.slave
  · rw [hs.master]
    exact h.cascade

theorem Service.step (h : Service (waiting s.frames) s.irqs) (hr : Ready s.irqs)
    (hs : Cascades s e t) : Service (waiting t.frames) t.irqs ∧ Ready t.irqs := by
  cases hs.step.picEffect hr with
  | @interrupt irq spurious hirqs =>
    rw [hs.step.waiting_interrupt, hirqs]
    exact ⟨h.deliver (hs.accepts irq spurious rfl), ready_deliver hr irq spurious⟩
  | ack hf hack =>
    obtain ⟨f, fs, hf', hwait, hwait'⟩ := hs.step.waiting_ack
    obtain ⟨rfl, rfl⟩ := List.cons.inj (hf.symm.trans hf')
    rw [hwait] at h
    rw [hwait']
    exact ⟨h.ack hr hack, (maskAndAckIrq_pics hr hack).2.1.ready⟩
  | updates he hu =>
    rw [hs.step.waiting_silent he]
    exact ⟨h.of_same hu.service, hu.writes.ready⟩
  | same he hirqs =>
    rw [hs.step.waiting_silent he, hirqs]
    exact ⟨h, hr⟩

theorem service_boot (hb : boot master slave = some b) (hm : master.isr = 0)
    (hs : slave.isr = 0) : Service (waiting b.frames) b.irqs := by
  have hboot := boot_spec hb
  have hm' : b.irqs.master.isr = 0 := (congrArg Pic.isr hboot.master).trans hm
  have hs' : b.irqs.slave.isr = 0 := (congrArg Pic.isr hboot.slave).trans hs
  refine ⟨?_, ?_, ?_⟩
  · simp [hm']
  · simp [hs']
  · simp [hm']

/-- When nothing waits, nothing is in service. -/
theorem Service.eq_zero (h : Service [] irqs) :
    irqs.master.isr = 0 ∧ irqs.slave.isr = 0 := by
  have hzero {m : Byte} (hm : ∀ k, m.getLsbD k ≠ true) : m = 0 :=
    BitVec.eq_of_getLsbD_eq fun k _ ↦ by simpa using hm k
  refine ⟨hzero fun k hk ↦ ?_, hzero fun k hk ↦ ?_⟩
  · obtain ⟨i, hi, -⟩ := h.master k hk
    exact absurd hi List.not_mem_nil
  · obtain ⟨i, hi, -⟩ := h.slave k hk
    exact absurd hi List.not_mem_nil

/-! ## Runs -/

/-- What every run from boot keeps up. -/
structure Reopening (es : List Event) (s : InterruptState) : Prop where
  /-- The mask. -/
  reopens : Reopens es s
  /-- The mask registers. -/
  mirror : Mirror s.irqs
  /-- The in-service registers. -/
  service : Service (waiting s.frames) s.irqs

/-- **No line is lost.**  After any run of installations, uninstallations and interrupts in any
nesting, a line that is installed, and the cascade, is enabled in `irq_mask` and in the controller
whenever no activation is between `mask_and_ack_irq` and `end_of_irq` for it; and when no activation
has its `mask_and_ack_irq` still before it, no line is in service. -/
theorem lines_reopen (hb : boot master slave = some b) (hm : master.isr = 0) (hs : slave.isr = 0)
    (hr : Run Cascades b es s) :
    (∀ i, Wanted es i → Free i s.frames →
      s.irqs.irqMask.getLsbD i = false ∧ hardwareMask s.irqs i = false) ∧
    ((∀ f ∈ s.frames, f.phase ≠ .entry) →
      s.irqs.master.isr = 0 ∧ s.irqs.slave.isr = 0) := by
  have hinv : Reopening es s := by
    refine Run.invariant_history (I := Reopening) ?_ ?_ hr
    · intro es s e t h hs
      exact ⟨h.reopens.step hs.step, mirror_step (e := .event e) h.mirror hs.step,
        (h.service.step h.mirror.ready hs).1⟩
    · exact ⟨reopens_boot hb, mirror_boot hb, service_boot hb hm hs⟩
  refine ⟨fun i hw hfree ↦ ?_, fun hnone ↦ ?_⟩
  · have hbit := hinv.reopens i hw hfree
    exact ⟨hbit, (hinv.mirror.hardwareMask_eq i).trans hbit⟩
  · have hwait : waiting s.frames = [] := by
      rw [waiting, List.filter_eq_nil_iff.mpr fun f hf ↦ by simpa using hnone f hf]
      rfl
    have hservice := hinv.service
    rw [hwait] at hservice
    exact hservice.eq_zero

/-- A run without lines of the slave. -/
theorem cascades_run (hr : Run Step s es t)
    (hes : ∀ irq spurious, Event.interrupt irq spurious ∈ es → irq.val < 8) :
    Run Cascades s es t := by
  induction hr with
  | nil => exact .nil _
  | @cons _ _ _ e _ hs _ ih =>
    refine .cons ⟨hs, ?_⟩ (ih fun irq spurious h ↦ hes irq spurious (List.mem_cons_of_mem _ h))
    rintro irq spurious rfl h8
    exact absurd (hes irq spurious List.mem_cons_self) (Nat.not_lt.mpr h8)

/-- The theorem for an interrupt of the keyboard that the clock interrupts. -/
theorem lines_reopen_keyboard : ∃ b s, boot picReset picReset = some b ∧
    Run Cascades b [.install 1 (.fn 1) 0x8f, .interrupt 1 false, .interrupt 0 false, .ack,
      .dispatch, .ret, .eoi, .iret, .ack, .dispatch, .ret, .eoi, .iret] s ∧
    hardwareMask s.irqs 1 = false ∧ s.irqs.master.isr = 0 := by
  have h : ((boot picReset picReset).bind fun b ↦
      ([.install 1 (.fn 1) 0x8f, .interrupt 1 false, .interrupt 0 false, .ack, .dispatch, .ret,
        .eoi, .iret, .ack, .dispatch, .ret, .eoi, .iret] : List Event).foldlM step b).map frames
      = some [] := by
    decide +kernel
  obtain ⟨s, h, hframes⟩ := Option.map_eq_some_iff.mp h
  obtain ⟨b, hb, h⟩ := Option.bind_eq_some_iff.mp h
  have hr := cascades_run (Run.of_foldlM h) (by simp)
  obtain ⟨hlines, hservice⟩ := lines_reopen hb rfl rfl hr
  refine ⟨b, s, hb, hr, (hlines 1 (.inl ⟨.fn 1, by decide⟩) ?_).2, (hservice ?_).1⟩
  · rw [hframes]
    exact fun f hf ↦ absurd hf List.not_mem_nil
  · rw [hframes]
    exact fun f hf ↦ absurd hf List.not_mem_nil

end InterruptState

end PastaOS
