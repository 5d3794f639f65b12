import PastaOS.Interrupt.Masked

/-!
# A spurious interrupt is never harmless

`handle_spurious_irq` finds out that an interrupt is spurious, and keeps it to itself:
`default_irq_handler` goes on to call the handler of the line and `end_of_irq`.  So an activation
for a spurious interrupt cannot return without having called its handler (`Quiet.pending`), and
`spurious_effect` says what comes of the call: it is undefined, or it panics, or it ends with the
line enabled.
-/

set_option autoImplicit false

namespace PastaOS

variable {i : Fin IRQ_NR}

/-! ## The record of spurious interrupts -/

section Bits

variable {w n : ℕ} {m bit : BitVec w}

/-- A bit that is set already. -/
theorem or_eq_of_getLsbD (hbit : ∀ k, bit.getLsbD k = decide (n = k)) (hm : m.getLsbD n = true) :
    m ||| bit = m := by
  refine BitVec.eq_of_getLsbD_eq ?_
  intro k _
  rw [BitVec.getLsbD_or, hbit]
  by_cases hk : n = k
  · rw [← hk, hm, Bool.true_or]
  · rw [decide_eq_false hk, Bool.or_false]

/-- A bit that is not set. -/
theorem and_eq_zero_of_getLsbD (hbit : ∀ k, bit.getLsbD k = decide (n = k))
    (hm : m.getLsbD n = false) : m &&& bit = 0#w := by
  refine BitVec.eq_of_getLsbD_eq ?_
  intro k _
  rw [BitVec.getLsbD_and, hbit, BitVec.getLsbD_zero]
  by_cases hk : n = k
  · rw [← hk, hm, Bool.false_and]
  · rw [decide_eq_false hk, Bool.and_false]

end Bits

theorem lineBit_bit (i : Fin IRQ_NR) (k : ℕ) : (lineBit i).getLsbD k = decide (i.val = k) := by
  by_cases hk : k < 16
  · have hbit := lineBit_getLsbD i ⟨k, hk⟩
    rw [hbit]
    simp [Fin.ext_iff]
  · have hi : ¬ i.val = k := by
      have hlt : i.val < 16 := i.isLt
      omega
    rw [BitVec.getLsbD_of_ge _ _ (by omega), decide_eq_false hi]

theorem lineBit_word_bit (i : Fin IRQ_NR) (k : ℕ) :
    ((lineBit i).setWidth 32).getLsbD k = decide (i.val = k) := by
  have hlt : i.val < 16 := i.isLt
  rw [BitVec.getLsbD_setWidth, lineBit_bit]
  by_cases hk : i.val = k
  · rw [decide_eq_true (by omega : k < 32), Bool.true_and]
  · rw [decide_eq_false hk, Bool.and_false]

/-- `irq_real` does not touch the record. -/
theorem irqReal_spuriousIrqMask {irq v : Word} {s s' : Interrupts}
    (h : irqReal irq s = some (v, s')) : s'.spuriousIrqMask = s.spuriousIrqMask := by
  rw [irqReal] at h
  obtain ⟨mask, -, h⟩ := Option.bind_eq_some_iff.mp h
  split_ifs at h
  · obtain ⟨value, -, h⟩ := Option.bind_eq_some_iff.mp h
    obtain ⟨-, rfl⟩ := Prod.mk.inj (Option.some.inj h)
    rfl
  · obtain ⟨value, -, h⟩ := Option.bind_eq_some_iff.mp h
    obtain ⟨-, rfl⟩ := Prod.mk.inj (Option.some.inj h)
    rfl

theorem out_spuriousIrqMask (port : BitVec 16) (val : Byte) (s : Interrupts) :
    (s.out port val).spuriousIrqMask = s.spuriousIrqMask := by
  unfold Interrupts.out
  split_ifs <;> rfl

theorem ackIrq_spuriousIrqMask (irq : Word) (s : Interrupts) :
    (ackIrq irq s).spuriousIrqMask = s.spuriousIrqMask := by
  unfold ackIrq
  split_ifs <;> simp only [out_spuriousIrqMask]

/-- A spurious interrupt is put on record, and changes no table. -/
theorem maskAndAckIrq_spurious {s irqs : Interrupts} (hmasked : s.irqMask.getLsbD i = true)
    (hreal : irqReal (BitVec.ofNat 32 i) s = some (0, irqs)) :
    ∃ s', maskAndAckIrq (BitVec.ofNat 32 i) s = some s' ∧ SameTables s s' ∧
      s'.spuriousIrqMask = s.spuriousIrqMask ||| (lineBit i).setWidth 32 := by
  have hword : s.irqMask.setWidth 32 &&& (lineBit i).setWidth 32 ≠ 0 := by
    intro hzero
    have hbit := congrArg (BitVec.getLsbD · i) hzero
    have hlt : i.val < 16 := i.isLt
    rw [BitVec.getLsbD_and, lineBit_word_bit, BitVec.getLsbD_setWidth, hmasked,
      decide_eq_true (by omega : i.val < 32), decide_eq_true rfl] at hbit
    simp at hbit
  obtain ⟨s₁, hcheck, hspurious⟩ : ∃ s₁,
      checkSpurious (BitVec.ofNat 32 i) ((lineBit i).setWidth 32) s = some s₁ ∧
        s₁.spuriousIrqMask = s.spuriousIrqMask ||| (lineBit i).setWidth 32 := by
    have hkeep := irqReal_spuriousIrqMask hreal
    rw [checkSpurious, if_pos hword, handleSpuriousIrq, shl1_line]
    simp only [Option.bind_eq_bind, Option.bind_some, hreal, hkeep]
    rw [if_neg (by simp)]
    by_cases hrecord : s.spuriousIrqMask &&& (lineBit i).setWidth 32 = 0
    · rw [if_pos hrecord]
      exact ⟨_, rfl, rfl⟩
    · rw [if_neg hrecord]
      refine ⟨_, rfl, hkeep.trans (or_eq_of_getLsbD (lineBit_word_bit i) ?_).symm⟩
      by_contra hbit
      exact hrecord (and_eq_zero_of_getLsbD (lineBit_word_bit i) (by simpa using hbit))
  obtain ⟨s', hack, htables⟩ := maskAndAckIrq_line i s
  rw [or_eq_of_getLsbD (lineBit_bit i) hmasked] at htables
  refine ⟨s', hack, htables, ?_⟩
  rw [maskAndAckIrq, shl1_line, Option.bind_eq_bind, Option.bind_some, hcheck] at hack
  obtain rfl := Option.some.inj hack
  rw [ackIrq_spuriousIrqMask, orMask, hspurious]

namespace InterruptState

variable {s t : InterruptState} {e : Event} {es : List Event} {f : Frame} {fs : List Frame}

/-- The innermost activation begins to handle a spurious interrupt: its line is masked, and not in
service. -/
structure Spurious (f : Frame) (fs : List Frame) (s : InterruptState) : Prop where
  /-- It is the innermost one. -/
  frames : s.frames = f :: fs
  /-- It begins. -/
  phase : f.phase = .entry
  /-- Its line is masked. -/
  masked : s.irqs.irqMask.getLsbD f.irq = true
  /-- Its line is not in service. -/
  unreal : ∃ irqs, irqReal (BitVec.ofNat 32 f.irq) s.irqs = some (0, irqs)

/-- A step in which the activation does not call its handler. -/
structure Quiet (f : Frame) (fs : List Frame) (s : InterruptState) (e : Event)
    (t : InterruptState) : Prop where
  /-- It is a step. -/
  step : Step s e t
  /-- The handler is not running behind it. -/
  quiet : t.frames ≠ { f with phase := .running } :: fs

/-- The activation can return without having called its handler and without a panic, and then
nothing has changed but for the record. -/
def Harmless (f : Frame) (fs : List Frame) (s : InterruptState) : Prop :=
  ∃ es t, Run (Quiet f fs) s es t ∧ t.frames = fs ∧ t.panicked = false ∧
    t.irqs.irqMask = s.irqs.irqMask ∧ t.irqs.irqHandler = s.irqs.irqHandler ∧
    t.irqs.spuriousIrqMask = s.irqs.spuriousIrqMask ||| (lineBit f.irq).setWidth 32

/-! ## No way around the handler -/

/-- The activation has not called its handler yet, whatever has come on top of it. -/
def Pending (f : Frame) (fs : List Frame) (s : InterruptState) : Prop :=
  ∃ pre p, s.frames = pre ++ { f with phase := p } :: fs ∧ (p = .entry ∨ p = .acked)

/-- A step changes the innermost activation, or ends it, or puts another one on top. -/
theorem Pending.step (h : Pending f fs s) (hs : Quiet f fs s e t) : Pending f fs t := by
  obtain ⟨pre, p, hframes, hp⟩ := h
  have hsame (heq : t.frames = s.frames) : Pending f fs t := ⟨pre, p, heq.trans hframes, hp⟩
  have hhead {g : Frame} {gs : List Frame} (hg : s.frames = g :: gs) :
      (pre = [] ∧ g = { f with phase := p } ∧ gs = fs) ∨
        ∃ pre', pre = g :: pre' ∧ gs = pre' ++ { f with phase := p } :: fs := by
    rw [hg] at hframes
    cases pre with
    | nil =>
      obtain ⟨rfl, rfl⟩ := List.cons.inj hframes
      exact .inl ⟨rfl, rfl, rfl⟩
    | cons g' pre' =>
      obtain ⟨rfl, rfl⟩ := List.cons.inj hframes
      exact .inr ⟨pre', rfl, rfl⟩
  -- what changes only the innermost activation, when that is not the one in question
  have hnext {g g' : Frame} {gs : List Frame} (hg : s.frames = g :: gs)
      (hphase : g.phase ≠ .entry ∧ g.phase ≠ .acked) (ht : t.frames = g' :: gs) :
      Pending f fs t := by
    rcases hhead hg with ⟨-, rfl, rfl⟩ | ⟨pre', rfl, rfl⟩
    · rcases hp with rfl | rfl
      · exact absurd rfl hphase.1
      · exact absurd rfl hphase.2
    · exact ⟨g' :: pre', p, ht, hp⟩
  cases hs.step.effect with
  | interrupt _ ht => exact ⟨_ :: pre, p, by rw [ht, hframes, List.cons_append], hp⟩
  | @ack g gs hg _ _ ht =>
    rcases hhead hg with ⟨-, rfl, rfl⟩ | ⟨pre', rfl, rfl⟩
    · exact ⟨[], .acked, ht, .inr rfl⟩
    · exact ⟨_ :: pre', p, ht, hp⟩
  | @dispatch g gs name hg _ _ _ ht =>
    rcases hhead hg with ⟨-, rfl, rfl⟩ | ⟨pre', rfl, rfl⟩
    · exact absurd ht hs.quiet
    · exact ⟨_ :: pre', p, ht, hp⟩
  | panic _ ht => exact hsame ht
  | ret hg hphase _ ht => exact hnext hg (by simp [hphase]) ht
  | eoi hg hphase _ ht => exact hnext hg (by simp [hphase]) ht
  | iret hg hphase _ =>
    rcases hhead hg with ⟨-, rfl, -⟩ | ⟨pre', -, ht⟩
    · rcases hp with rfl | rfl <;> simp at hphase
    · exact ⟨pre', p, ht, hp⟩
  | install ht => exact hsame ht
  | uninstall ht => exact hsame ht
  | endOfIrq _ _ _ ht => exact hsame ht
  | installRefused _ _ ht => exact hsame ht
  | uninstallRefused _ _ ht => exact hsame ht
  | setFlag _ ht => exact hsame ht

/-- An activation that has not called its handler has not returned. -/
theorem Pending.not_returned (h : Pending f fs s) : s.frames ≠ fs := by
  obtain ⟨pre, p, hframes, -⟩ := h
  intro heq
  have hlength := congrArg List.length (heq.symm.trans hframes)
  simp only [List.length_append, List.length_cons] at hlength
  omega

/-- There is no way around the handler. -/
theorem Quiet.pending (hr : Run (Quiet f fs) s es t) (hframes : s.frames = f :: fs)
    (hphase : f.phase = .entry) : Pending f fs t :=
  hr.invariant (fun _ _ _ ↦ Pending.step) ⟨[], .entry, by rw [hframes, ← hphase]; rfl, .inl rfl⟩

/-- **A spurious interrupt is never harmless**: there is no way for its activation to return without
having called the handler of the line. -/
theorem not_harmless (hs : Spurious f fs s) : ¬ Harmless f fs s := by
  rintro ⟨es, t, hr, hreturned, -⟩
  exact (Quiet.pending hr hs.frames hs.phase).not_returned hreturned

/-- A spurious interrupt on line 7 right after the start. -/
theorem spurious_seven : ∃ b s t, boot picReset picReset = some b ∧
    Run Step b [.interrupt 7 true] s ∧ Spurious ⟨7, .entry, true⟩ [] s ∧
    Run Step s [.ack, .dispatch] t ∧ t.panicked = true := by
  have h : ((boot picReset picReset).bind fun b ↦ (b.step (.interrupt 7 true)).bind fun s ↦
      (([.ack, .dispatch] : List Event).foldlM step s).map fun t ↦
        (s.frames, s.irqs.irqMask.getLsbD (7 : Fin IRQ_NR),
          (irqReal (BitVec.ofNat 32 (7 : Fin IRQ_NR)) s.irqs).map Prod.fst, t.panicked))
      = some ([⟨7, .entry, true⟩], true, some 0, true) := by
    decide +kernel
  obtain ⟨b, hb, h⟩ := Option.bind_eq_some_iff.mp h
  obtain ⟨s, hs, h⟩ := Option.bind_eq_some_iff.mp h
  obtain ⟨t, ht, h⟩ := Option.map_eq_some_iff.mp h
  simp only [Prod.mk.injEq] at h
  obtain ⟨hframes, hmasked, hreal, hpanic⟩ := h
  obtain ⟨⟨v, irqs⟩, hreal, rfl⟩ := Option.map_eq_some_iff.mp hreal
  exact ⟨b, s, t, hb, .cons hs (.nil s), ⟨hframes, rfl, hmasked, irqs, hreal⟩, Run.of_foldlM ht,
    hpanic⟩

/-- The theorem for that interrupt. -/
theorem not_harmless_seven : ∃ b s, boot picReset picReset = some b ∧
    Run Step b [.interrupt 7 true] s ∧ ¬ Harmless ⟨7, .entry, true⟩ [] s := by
  obtain ⟨b, s, -, hb, hr, hs, -⟩ := spurious_seven
  exact ⟨b, s, hb, hr, not_harmless hs⟩

/-- **A spurious interrupt can panic the kernel.** -/
theorem spurious_panics : ∃ b s t, boot picReset picReset = some b ∧
    Run Step b [.interrupt 7 true] s ∧ Spurious ⟨7, .entry, true⟩ [] s ∧
    Run Step s [.ack, .dispatch] t ∧ t.panicked = true ∧ ¬ Harmless ⟨7, .entry, true⟩ [] s := by
  obtain ⟨b, s, t, hb, hr, hs, ht, hpanic⟩ := spurious_seven
  refine ⟨b, s, t, hb, hr, hs, ht, hpanic, ?_⟩
  rintro ⟨es, t, hquiet, hreturned, -⟩
  exact (Quiet.pending hquiet hs.frames hs.phase).not_returned hreturned

/-- **What comes of a spurious interrupt** when nothing else happens. -/
theorem spurious_effect (hs : Spurious f fs s) (hp : s.panicked = false) :
    ∃ s₁, Step s .ack s₁ ∧ SameTables s.irqs s₁.irqs ∧
      s₁.irqs.spuriousIrqMask = s.irqs.spuriousIrqMask ||| (lineBit f.irq).setWidth 32 ∧
      (s.irqs.irqHandler f.irq = .null → s₁.step .dispatch = none) ∧
      (s.irqs.irqHandler f.irq = .unhandled → ∃ t, Step s₁ .dispatch t ∧ t.panicked = true) ∧
      ∀ name, s.irqs.irqHandler f.irq = .fn name →
        ∃ t, Run Step s₁ [.dispatch, .ret, .eoi, .iret] t ∧ t.frames = fs ∧
          t.irqs.irqMask.getLsbD f.irq = false := by
  obtain ⟨irqs, hreal⟩ := hs.unreal
  obtain ⟨irqs₁, hack, htables, hrecord⟩ := maskAndAckIrq_spurious hs.masked hreal
  refine ⟨{ s with irqs := irqs₁, frames := { f with phase := .acked } :: fs }, ?_, htables,
    hrecord,
    ?_, ?_, ?_⟩
  · exact step_iff.mpr ⟨hp, .ack hs.frames hs.phase hack⟩
  · intro hnull
    rw [← htables.irqHandler] at hnull
    simp [step, hp, top, hnull]
  · intro hun
    rw [← htables.irqHandler] at hun
    exact ⟨{ s with irqs := irqs₁, frames := { f with phase := .acked } :: fs, panicked := true },
      step_iff.mpr ⟨hp, .panic rfl rfl hun⟩, rfl⟩
  · intro name hfn
    rw [← htables.irqHandler] at hfn
    obtain ⟨irqs₂, heoi, hbit⟩ : ∃ irqs₂, endOfIrq (BitVec.ofNat 32 f.irq) irqs₁ = some irqs₂ ∧
        irqs₂.irqMask.getLsbD f.irq = false := by
      refine ⟨_, endOfIrq_line f.irq irqs₁, ?_⟩
      rw [(sameTables_outMask _ _).irqMask, getLsbD_and_lineBit]
      simp
    let behind (p : Phase) (irqs : Interrupts) : InterruptState :=
      { s with irqs := irqs, frames := { f with phase := p } :: fs }
    refine ⟨{ s with irqs := irqs₂, frames := fs, flag := f.flag }, ?_, rfl, hbit⟩
    refine .cons (t := behind .running irqs₁) ?_ <| .cons (t := behind .returned irqs₁) ?_ <|
      .cons (t := behind .finished irqs₂) ?_ <| .cons ?_ (.nil _)
    · exact step_iff.mpr ⟨hp, .dispatch (f := { f with phase := .acked }) rfl rfl hfn⟩
    · exact step_iff.mpr ⟨hp, .ret (f := { f with phase := .running }) rfl rfl⟩
    · exact step_iff.mpr ⟨hp, .eoi (f := { f with phase := .returned }) rfl rfl heoi⟩
    · exact step_iff.mpr ⟨hp, .iret (f := { f with phase := .finished }) rfl rfl⟩

end InterruptState

end PastaOS
