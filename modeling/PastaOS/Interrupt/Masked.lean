import PastaOS.Interrupt.Effect

/-!
# An uninstalled line stays masked

`uninstall_interrupt_handler` masks its line, and four functions write the mask afterwards.  The one
to fear is `end_of_irq`, which `default_irq_handler` calls without asking whether the line is still
installed.

`uninstall_masks_iff` says when the line stays masked until the next installation, whatever happens:
exactly if the innermost activation that is handling the line, if there is one, has not called its
handler yet.  Such an activation finds no handler to call; one that has called its handler ends with
`end_of_irq`.  `uninstall_in_handler` is the shortest run in which that happens: a handler that
uninstalls itself.
-/

set_option autoImplicit false

namespace PastaOS

/-- The activation is for the line, and has not called `end_of_irq` yet. -/
def Frame.serves (i : Fin IRQ_NR) (f : Frame) : Bool := f.irq = i ∧ f.phase ≠ .finished

/-- The phase behind a phase. -/
def Phase.next : Phase → Phase
  | .entry => .acked
  | .acked => .running
  | .running => .returned
  | .returned => .finished
  | .finished => .finished

/-- The number of phases to go. -/
def Phase.left : Phase → ℕ
  | .entry => 4
  | .acked => 3
  | .running => 2
  | .returned => 1
  | .finished => 0

namespace InterruptState

/-- The innermost activation that serves the line, if there is one, has not called its handler. -/
def Undispatched (i : Fin IRQ_NR) (frames : List Frame) : Prop :=
  ∀ f, frames.find? (Frame.serves i) = some f → f.phase = .entry ∨ f.phase = .acked

/-- No event of the list installs the line. -/
def NoInstall (i : Fin IRQ_NR) (es : List Event) : Prop :=
  ∀ handler type, Event.install (i : ℕ) handler type ∉ es

variable {s t : InterruptState} {e : Event} {i : Fin IRQ_NR} {f : Frame} {fs : List Frame}

/-! ## While nothing serves the line -/

theorem undispatched_cons_of_serves (hf : f.serves i = true) :
    Undispatched i (f :: fs) ↔ f.phase = .entry ∨ f.phase = .acked := by
  simp [Undispatched, hf]

theorem undispatched_cons_of_not_serves (hf : f.serves i = false) :
    Undispatched i (f :: fs) ↔ Undispatched i fs := by
  simp [Undispatched, hf]

theorem serves_of_ne (hf : f.irq ≠ i) : f.serves i = false := by simp [Frame.serves, hf]

/-- An activation for another line does not matter. -/
theorem Undispatched.cons (hf : f.irq ≠ i) (h : Undispatched i fs) : Undispatched i (f :: fs) :=
  (undispatched_cons_of_not_serves (serves_of_ne hf)).mpr h

/-- An activation that has called its handler serves another line. -/
theorem Undispatched.ne (h : Undispatched i (f :: fs))
    (hf : f.phase = .running ∨ f.phase = .returned) :
    f.irq ≠ i := by
  intro hirq
  have hserves : f.serves i = true := by rcases hf with hf | hf <;> simp [Frame.serves, hirq, hf]
  rcases (undispatched_cons_of_serves hserves).mp h with h | h <;> rcases hf with hf | hf <;>
    simp [h] at hf

/-- The line is masked, there is no handler to call, and none has been called. -/
structure Masked (i : Fin IRQ_NR) (s : InterruptState) : Prop where
  /-- The line is masked. -/
  bit : s.irqs.irqMask.getLsbD i = true
  /-- There is no handler to call. -/
  handler : s.irqs.irqHandler i = .null
  /-- None has been called. -/
  undispatched : Undispatched i s.frames

/-- **A masked line stays masked** by every step but its installation. -/
theorem Masked.step (hM : Masked i s) (hs : Step s e t)
    (he : ∀ handler type, e ≠ .install (i : ℕ) handler type) : Masked i t := by
  obtain ⟨hbit, hnull, hun⟩ := hM
  cases hs.effect with
  | @interrupt irq _ hirqs hframes =>
    refine ⟨hirqs.irqMask ▸ hbit, hirqs.irqHandler ▸ hnull, ?_⟩
    rw [hframes]
    by_cases hirq : irq = i
    · exact (undispatched_cons_of_serves (by simp [Frame.serves, hirq])).mpr (.inl rfl)
    · exact .cons hirq hun
  | @ack f fs hf hphase hirqs hframes =>
    refine ⟨?_, hirqs.irqHandler ▸ hnull, ?_⟩
    · rw [hirqs.irqMask, getLsbD_or_lineBit, hbit, Bool.true_or]
    · rw [hf] at hun
      rw [hframes]
      by_cases hirq : f.irq = i
      · exact (undispatched_cons_of_serves (by simp [Frame.serves, hirq])).mpr (.inr rfl)
      · rw [undispatched_cons_of_not_serves (serves_of_ne hirq)] at hun
        exact .cons hirq hun
  | @dispatch f fs name hf hphase hfn hirqs hframes =>
    -- the line itself has no handler to call
    have hirq : f.irq ≠ i := by
      rintro rfl
      rw [hnull] at hfn
      contradiction
    rw [hf, undispatched_cons_of_not_serves (serves_of_ne hirq)] at hun
    refine ⟨hirqs ▸ hbit, hirqs ▸ hnull, ?_⟩
    rw [hframes]
    exact .cons hirq hun
  | panic hirqs hframes hpanic => exact ⟨hirqs ▸ hbit, hirqs ▸ hnull, hframes ▸ hun⟩
  | @ret f fs hf hphase hirqs hframes =>
    rw [hf] at hun
    have hirq := hun.ne (.inl hphase)
    rw [undispatched_cons_of_not_serves (serves_of_ne hirq)] at hun
    refine ⟨hirqs ▸ hbit, hirqs ▸ hnull, ?_⟩
    rw [hframes]
    exact .cons hirq hun
  | @eoi f fs hf hphase hirqs hframes =>
    rw [hf] at hun
    have hirq := hun.ne (.inr hphase)
    rw [undispatched_cons_of_not_serves (serves_of_ne hirq)] at hun
    refine ⟨?_, hirqs.irqHandler ▸ hnull, ?_⟩
    · rw [hirqs.irqMask, getLsbD_and_lineBit, hbit, decide_eq_true hirq, Bool.true_and]
    · rw [hframes]
      exact .cons hirq hun
  | @iret f hf hphase hirqs =>
    have hserves : f.serves i = false := by simp [Frame.serves, hphase]
    rw [hf, undispatched_cons_of_not_serves hserves] at hun
    exact ⟨hirqs ▸ hbit, hirqs ▸ hnull, hun⟩
  | @install j handler type hframes hmask hhandler =>
    have hj : j ≠ i := by
      rintro rfl
      exact he handler type rfl
    refine ⟨?_, ?_, hframes ▸ hun⟩
    · rw [hmask, getLsbD_and_lineBit, hbit, decide_eq_true hj, Bool.true_and]
    · rw [hhandler, Function.update_of_ne hj.symm, hnull]
  | @uninstall j hframes hmask hhandler =>
    refine ⟨?_, ?_, hframes ▸ hun⟩
    · rw [hmask, getLsbD_or_lineBit, hbit, Bool.true_or]
    · by_cases hj : j = i
      · rw [hhandler, hj, Function.update_self]
      · rw [hhandler, Function.update_of_ne (Ne.symm hj), hnull]
  | @endOfIrq f fs hf hphase hirqs hframes =>
    have hirq := (hf ▸ hun : Undispatched i (f :: fs)).ne (.inl hphase)
    refine ⟨?_, hirqs.irqHandler ▸ hnull, hframes ▸ hun⟩
    rw [hirqs.irqMask, getLsbD_and_lineBit, hbit, decide_eq_true hirq, Bool.true_and]
  | installRefused hirq hirqs hframes => exact ⟨hirqs ▸ hbit, hirqs ▸ hnull, hframes ▸ hun⟩
  | uninstallRefused hirq hirqs hframes => exact ⟨hirqs ▸ hbit, hirqs ▸ hnull, hframes ▸ hun⟩
  | setFlag hirqs hframes => exact ⟨hirqs ▸ hbit, hirqs ▸ hnull, hframes ▸ hun⟩

/-- A masked line stays masked over a whole run. -/
theorem Masked.run {es : List Event} (hM : Masked i s) (hr : Run Step s es t)
    (hes : NoInstall i es) : Masked i t := by
  refine hr.invariant_of_labels (P := fun e ↦ ∀ handler type, e ≠ .install (i : ℕ) handler type)
    (fun _ _ _ hI he hs ↦ hI.step hs he) hM ?_
  rintro _ he handler type rfl
  exact hes handler type he

/-! ## Once the handler has been called -/

/-- `default_irq_handler` can go on to the next phase, and enables the line on its way to the
last one. -/
theorem exists_next (hf : s.frames = f :: fs) (hp : s.panicked = false)
    (hphase : f.phase ≠ .finished)
    (hfn : f.phase = .acked → ∃ name, s.irqs.irqHandler f.irq = .fn name) :
    ∃ e t, Step s e t ∧ (∀ j, NoInstall j [e]) ∧ t.frames = { f with phase := f.phase.next } :: fs ∧
      t.panicked = false ∧ t.irqs.irqHandler = s.irqs.irqHandler ∧
      (f.phase = .returned → t.irqs.irqMask.getLsbD f.irq = false) := by
  cases hph : f.phase with
  | entry =>
    obtain ⟨irqs, hack, hsame⟩ := maskAndAckIrq_line f.irq s.irqs
    refine ⟨.ack, { s with irqs := irqs, frames := { f with phase := .acked } :: fs }, ?_,
      by simp [NoInstall], rfl, hp, hsame.irqHandler, by simp⟩
    exact step_iff.mpr ⟨hp, .ack hf hph hack⟩
  | acked =>
    obtain ⟨name, hname⟩ := hfn hph
    refine ⟨.dispatch, { s with frames := { f with phase := .running } :: fs }, ?_,
      by simp [NoInstall], rfl, hp, rfl, by simp⟩
    exact step_iff.mpr ⟨hp, .dispatch hf hph hname⟩
  | running =>
    refine ⟨.ret, { s with frames := { f with phase := .returned } :: fs }, ?_,
      by simp [NoInstall], rfl, hp, rfl, by simp⟩
    exact step_iff.mpr ⟨hp, .ret hf hph⟩
  | returned =>
    have hsame := sameTables_outMask (BitVec.ofNat 8 f.irq)
      { s.irqs with irqMask := s.irqs.irqMask &&& ~~~lineBit f.irq }
    refine ⟨.eoi, { s with
        irqs := outMask (BitVec.ofNat 8 f.irq)
          { s.irqs with irqMask := s.irqs.irqMask &&& ~~~lineBit f.irq }
        frames := { f with phase := .finished } :: fs }, ?_,
      by simp [NoInstall], rfl, hp, hsame.irqHandler, ?_⟩
    · exact step_iff.mpr ⟨hp, .eoi hf hph (endOfIrq_line f.irq s.irqs)⟩
    · intro _
      simp only
      rw [hsame.irqMask, getLsbD_and_lineBit]
      simp
  | finished => exact absurd hph hphase

/-- `default_irq_handler` can go on to its end. -/
theorem exists_iret (hf : s.frames = f :: fs) (hp : s.panicked = false)
    (hfn : f.phase ≠ .finished → ∃ name, s.irqs.irqHandler f.irq = .fn name) :
    ∃ es t, Run Step s es t ∧ (∀ j, NoInstall j es) ∧ t.frames = fs ∧ t.panicked = false ∧
      t.irqs.irqHandler = s.irqs.irqHandler := by
  induction hn : f.phase.left generalizing s f with
  | zero =>
    have hphase : f.phase = .finished := by
      cases hph : f.phase <;> simp [hph, Phase.left] at hn ⊢
    refine ⟨[.iret], { s with frames := fs, flag := f.flag }, .cons ?_ (.nil _),
      by simp [NoInstall], rfl, hp, rfl⟩
    exact step_iff.mpr ⟨hp, .iret hf hphase⟩
  | succ n ih =>
    have hphase : f.phase ≠ .finished := by
      intro hph
      simp [hph, Phase.left] at hn
    have hnext : f.phase.next.left = n := by
      cases hph : f.phase <;> simp [hph, Phase.left, Phase.next] at hn ⊢ <;> omega
    obtain ⟨e, s₁, hs, hno, hf₁, hp₁, hh₁, -⟩ := exists_next hf hp hphase fun _ ↦ hfn hphase
    obtain ⟨es, t, hr, hno', hft, hpt, hht⟩ :=
      ih hf₁ hp₁ (fun _ ↦ by rw [hh₁]; exact hfn hphase) hnext
    refine ⟨e :: es, t, .cons hs hr, ?_, hft, hpt, hht.trans hh₁⟩
    intro j handler type hmem
    rcases List.mem_cons.mp hmem with rfl | hmem
    · exact hno j handler type List.mem_cons_self
    · exact hno' j handler type hmem

theorem NoInstall.append {es es' : List Event} (h : NoInstall i es) (h' : NoInstall i es') :
    NoInstall i (es ++ es') := fun handler type hmem ↦
  (List.mem_append.mp hmem).elim (h handler type) (h' handler type)

/-- The running code can install a line. -/
theorem exists_install (hrun : s.Running) (hp : s.panicked = false) (j : Fin IRQ_NR)
    (handler : Handler) (type : Int) : ∃ t, Step s (.install (j : ℕ) handler type) t ∧
      t.frames = s.frames ∧ t.panicked = false ∧
      t.irqs.irqHandler = Function.update s.irqs.irqHandler j handler := by
  have hcall := install_line j handler type s.irqs
  obtain ⟨irqs, hirqs, hhandler⟩ : ∃ irqs,
      installInterruptHandler (j : ℕ) handler type s.irqs = some (0, irqs) ∧
        irqs.irqHandler = Function.update s.irqs.irqHandler j handler :=
    ⟨_, hcall, (sameTables_outMask _ _).irqHandler⟩
  refine ⟨{ s with irqs := irqs }, ?_, rfl, hp, hhandler⟩
  exact step_iff.mpr ⟨hp, .install hrun hirqs⟩

/-- The running code can install all the other lines. -/
theorem exists_installed (hrun : s.Running) (hp : s.panicked = false) (i : Fin IRQ_NR)
    (js : List (Fin IRQ_NR)) : ∃ es t, Run Step s es t ∧ NoInstall i es ∧ t.frames = s.frames ∧
      t.panicked = false ∧ ∀ j ∈ js, j ≠ i → ∃ name, t.irqs.irqHandler j = .fn name := by
  induction js with
  | nil => exact ⟨[], s, .nil s, by simp [NoInstall], rfl, hp, by simp⟩
  | cons j js ih =>
    obtain ⟨es, t, hr, hno, hft, hpt, hall⟩ := ih
    by_cases hj : j = i
    · refine ⟨es, t, hr, hno, hft, hpt, ?_⟩
      intro k hk hki
      rcases List.mem_cons.mp hk with rfl | hk
      · exact absurd hj hki
      · exact hall k hk hki
    · have hrun' : t.Running := by rw [Running, hft]; exact hrun
      obtain ⟨t', hs, hft', hpt', hhandler⟩ := exists_install hrun' hpt j (.fn 0) TRAP_GATE.toNat
      refine ⟨es ++ [.install (j : ℕ) (.fn 0) TRAP_GATE.toNat], t', hr.snoc hs,
        hno.append ?_, hft'.trans hft, hpt', ?_⟩
      · intro handler type hmem
        simp only [List.mem_singleton, Event.install.injEq, Nat.cast_inj, Fin.val_inj] at hmem
        exact hj hmem.1.symm
      · intro k hk hki
        rw [hhandler]
        by_cases hkj : k = j
        · exact ⟨0, by rw [hkj, Function.update_self]⟩
        · rw [Function.update_of_ne hkj]
          exact hall k (List.mem_of_ne_of_mem hkj hk) hki

/-- When all activations above can be ended, an activation that has called its handler can come to
its `end_of_irq`. -/
theorem exists_unmasked {pre post : List Frame} {g : Frame} (hf : s.frames = pre ++ g :: post)
    (hp : s.panicked = false) (hpre : ∀ f ∈ pre, f.serves i = false) (hg : g.irq = i)
    (hphase : g.phase = .running ∨ g.phase = .returned)
    (hall : ∀ j, j ≠ i → ∃ name, s.irqs.irqHandler j = .fn name) :
    ∃ es t, Run Step s es t ∧ NoInstall i es ∧ t.irqs.irqMask.getLsbD i = false := by
  induction pre generalizing s with
  | nil =>
    rw [List.nil_append] at hf
    have hfin : g.phase ≠ .finished := by rcases hphase with h | h <;> simp [h]
    have hack : g.phase ≠ .acked := by rcases hphase with h | h <;> simp [h]
    obtain ⟨e, s₁, hs, hno, hf₁, hp₁, -, hbit⟩ := exists_next hf hp hfin fun h ↦ absurd h hack
    rcases hphase with hrun | hret
    · have hret : g.phase.next = .returned := by rw [hrun]; rfl
      obtain ⟨e', s₂, hs', hno', -, -, -, hbit'⟩ :=
        exists_next hf₁ hp₁ (by simp [hret]) fun h ↦ by simp [hret] at h
      exact ⟨[e] ++ [e'], s₂, .cons hs (.cons hs' (.nil _)), (hno i).append (hno' i),
        hg ▸ hbit' hret⟩
    · exact ⟨[e], s₁, .cons hs (.nil _), hno i, hg ▸ hbit hret⟩
  | cons f pre ih =>
    have hfn : f.phase ≠ .finished → ∃ name, s.irqs.irqHandler f.irq = .fn name := fun hfin ↦ by
      refine hall f.irq ?_
      intro hirq
      have hserves := hpre f List.mem_cons_self
      simp [Frame.serves, hirq, hfin] at hserves
    obtain ⟨es, s₁, hr, hno, hf₁, hp₁, hh₁⟩ := exists_iret hf hp hfn
    obtain ⟨es', t, hr', hno', hbit⟩ :=
      ih hf₁ hp₁ (fun f hf ↦ hpre f (List.mem_cons_of_mem _ hf)) fun j hj ↦ by
        rw [hh₁]; exact hall j hj
    exact ⟨es ++ es', t, hr.append hr', (hno i).append hno', hbit⟩

/-! ## When an uninstalled line stays masked -/

/-- What a call of `uninstall_interrupt_handler` for a line does. -/
theorem Step.uninstall (hs : Step s (.uninstall (i : ℕ)) t) :
    uninstallInterruptHandler (i : ℕ) s.irqs = some (0, t.irqs) ∧ s.Running ∧ t.panicked = false ∧
    t.frames = s.frames ∧ t.irqs.irqMask = s.irqs.irqMask ||| lineBit i ∧
    t.irqs.irqHandler = Function.update s.irqs.irqHandler i .null := by
  obtain ⟨hp, hs⟩ := step_iff.mp hs
  cases hs with
  | uninstall hrun hcall =>
    rw [uninstall_line] at hcall
    obtain ⟨-, rfl⟩ := Prod.mk.inj (Option.some.inj hcall)
    exact ⟨uninstall_line i _, hrun, hp, rfl, (sameTables_outMask _ _).irqMask, rfl⟩

/-- **An uninstalled line stays masked** until its next installation, whatever is installed and
uninstalled, and whatever interrupts are delivered in whatever nesting, exactly if the innermost
activation that serves the line, if there is one, has not called its handler at the time of the
call. -/
theorem uninstall_masks_iff (hs : Step s (.uninstall (i : ℕ)) t) :
    uninstallInterruptHandler (i : ℕ) s.irqs = some (0, t.irqs) ∧
      ((∀ es r, Run Step t es r → NoInstall i es → r.irqs.irqMask.getLsbD i = true) ↔
        Undispatched i s.frames) := by
  obtain ⟨hret, hrun, hpt, hft, hmask, hhandler⟩ := hs.uninstall
  refine ⟨hret, ?_⟩
  constructor
  · intro hall g hg
    by_contra hphase
    obtain ⟨hserves, pre, post, hframes, hpre⟩ := List.find?_eq_some_iff_append.mp hg
    obtain ⟨es, t₁, hr, hno, hf₁, hp₁, hall₁⟩ :=
      exists_installed (by rw [Running, hft]; exact hrun) hpt i (List.finRange IRQ_NR)
    have hphase' : g.phase = .running ∨ g.phase = .returned := by
      have hfin : g.phase ≠ .finished := by
        simp only [Frame.serves, decide_eq_true_eq] at hserves
        exact hserves.2
      cases h : g.phase <;> simp [h] at hphase hfin ⊢
    have hirq : g.irq = i := by
      simp only [Frame.serves, decide_eq_true_eq] at hserves
      exact hserves.1
    have hpre' : ∀ f ∈ pre, f.serves i = false := fun f hf ↦ by simpa using hpre f hf
    obtain ⟨es', r, hr', hno', hbit⟩ :=
      exists_unmasked (by rw [hf₁, hft, hframes]) hp₁ hpre' hirq hphase' fun j hj ↦
        hall₁ j (List.mem_finRange j) hj
    rw [hall _ r (hr.append hr') (hno.append hno')] at hbit
    contradiction
  · intro hun es r hr hno
    have hM : Masked i t := by
      refine ⟨?_, ?_, hft ▸ hun⟩
      · rw [hmask, getLsbD_or_lineBit, decide_eq_true rfl, Bool.or_true]
      · rw [hhandler, Function.update_self]
    exact (hM.run hr hno).bit

/-- The theorem for a line that is uninstalled by the handler of another one, which has come in
front of its acknowledgement. -/
theorem uninstall_masks_iff_nested : ∃ b s t, boot picReset picReset = some b ∧
    Run Step b [.install 3 (.fn 3) 0x8f, .install 1 (.fn 1) 0x8f, .interrupt 3 false,
      .interrupt 1 false, .ack, .dispatch] s ∧
    s.frames = [⟨1, .running, true⟩, ⟨3, .entry, true⟩] ∧
    Step s (.uninstall ((3 : Fin IRQ_NR) : ℕ)) t ∧
    ∀ es r, Run Step t es r → NoInstall 3 es → r.irqs.irqMask.getLsbD (3 : Fin IRQ_NR) = true := by
  have h : ((boot picReset picReset).bind fun b ↦
      (([.install 3 (.fn 3) 0x8f, .install 1 (.fn 1) 0x8f, .interrupt 3 false, .interrupt 1 false,
        .ack, .dispatch] : List Event).foldlM step b).bind fun s ↦
      (s.step (.uninstall ((3 : Fin IRQ_NR) : ℕ))).map fun _ ↦ s.frames)
        = some [⟨1, .running, true⟩, ⟨3, .entry, true⟩] := by decide +kernel
  obtain ⟨b, hb, h⟩ := Option.bind_eq_some_iff.mp h
  obtain ⟨s, hs, h⟩ := Option.bind_eq_some_iff.mp h
  obtain ⟨t, ht, hframes⟩ := Option.map_eq_some_iff.mp h
  refine ⟨b, s, t, hb, Run.of_foldlM hs, hframes, ht, (uninstall_masks_iff ht).2.mpr ?_⟩
  rw [hframes]
  intro g hg
  obtain rfl : (⟨3, .entry, true⟩ : Frame) = g := Option.some.inj hg
  exact .inl rfl

/-- **A handler that uninstalls itself** finds its line enabled afterwards, without a handler:
`end_of_irq` follows. -/
theorem uninstall_in_handler : ∃ b s t r, boot picReset picReset = some b ∧
    Run Step b [.install 3 (.fn 1) 0x8f, .interrupt 3 false, .ack, .dispatch] s ∧
    Step s (.uninstall ((3 : Fin IRQ_NR) : ℕ)) t ∧ Run Step t [.ret, .eoi, .iret] r ∧
    NoInstall 3 [.ret, .eoi, .iret] ∧ r.irqs.irqMask.getLsbD (3 : Fin IRQ_NR) = false ∧
    r.irqs.irqHandler 3 = .null := by
  have h : ((boot picReset picReset).bind fun b ↦
      ([.install 3 (.fn 1) 0x8f, .interrupt 3 false, .ack, .dispatch] ++
        [.uninstall ((3 : Fin IRQ_NR) : ℕ), .ret, .eoi, .iret] : List Event).foldlM step b).map
      (fun r ↦ (r.irqs.irqMask.getLsbD (3 : Fin IRQ_NR), r.irqs.irqHandler 3))
        = some (false, .null) := by decide +kernel
  obtain ⟨r, h, hr⟩ := Option.map_eq_some_iff.mp h
  obtain ⟨b, hb, h⟩ := Option.bind_eq_some_iff.mp h
  obtain ⟨s, h₁, h₂⟩ := Run.append_iff.mp (Run.of_foldlM h)
  obtain ⟨t, hs, h₃⟩ := Run.cons_iff.mp h₂
  obtain ⟨hbit, hnull⟩ := Prod.mk.inj hr
  exact ⟨b, s, t, r, hb, h₁, hs, h₃, by simp [NoInstall], hbit, hnull⟩

end InterruptState

end PastaOS
