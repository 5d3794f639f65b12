import PastaOS.Interrupt.Mirror

/-!
# The lines that are refused

`install_interrupt_handler` and `uninstall_interrupt_handler` take an `int` for the number of a
line, and check that it is not greater than `IRQ_NR`.  So they refuse the numbers above, do what
they should for the sixteen lines, and lead outside of the table of the handlers for `IRQ_NR` itself
and for every negative number: `checksLine_iff`.
-/

set_option autoImplicit false

namespace PastaOS

/-! ## What may be touched -/

/-- The handler and the mask bit of the line have changed, the bit to `masked`, and the attributes
of the descriptors; nothing else. -/
structure Touches (i : Fin IRQ_NR) (handler : Handler) (masked : Bool)
    (attribs : Fin IDT_SIZE → Byte) (s s' : Interrupts) : Prop where
  /-- The table of the handlers. -/
  irqHandler : s'.irqHandler = Function.update s.irqHandler i handler
  /-- The table of the descriptors. -/
  attribs : s'.attribs = attribs
  /-- The mask. -/
  irqMask : ∀ j : Fin IRQ_NR,
    s'.irqMask.getLsbD j = if i = j then masked else s.irqMask.getLsbD j
  /-- The mask registers. -/
  hardware : ∀ j, hardwareMask s' j = if i = j then masked else hardwareMask s j
  /-- The other registers of the master. -/
  master : s'.master = { s.master with imr := s'.master.imr }
  /-- The other registers of the slave. -/
  slave : s'.slave = { s.slave with imr := s'.slave.imr }
  /-- The lines that have been spurious. -/
  spurious : s'.spuriousIrqMask = s.spuriousIrqMask

/-- The line has the handler, of the given type, and is enabled. -/
def Installed (handler : Handler) (type : Int) (i : Fin IRQ_NR) (s s' : Interrupts) : Prop :=
  Touches i handler false (Function.update s.attribs (idtEntry i) (BitVec.ofInt 8 type)) s s'

/-- The line has no handler and is disabled. -/
def Uninstalled (i : Fin IRQ_NR) (s s' : Interrupts) : Prop :=
  Touches i .null true s.attribs s s'

/-- A call for one of the lines succeeds and does what it should; any other one is refused with
`-EINVAL` and changes nothing. -/
structure ChecksLine (irq : Int) (call : Option (Int × Interrupts))
    (done : Fin IRQ_NR → Interrupts → Interrupts → Prop) (s : Interrupts) : Prop where
  /-- A line. -/
  line : ∀ i : Fin IRQ_NR, irq = (i : ℕ) → ∃ s', call = some (0, s') ∧ done i s s'
  /-- No line. -/
  other : (∀ i : Fin IRQ_NR, irq ≠ (i : ℕ)) → call = some (-EINVAL, s)

variable {s s' : Interrupts} {i : Fin IRQ_NR}

/-! ## What is touched -/

/-- Writing the mask of a line changes no other register. -/
theorem outMask_registers (hr : Ready s) (i : Fin IRQ_NR) :
    (outMask (BitVec.ofNat 8 i) s).master
        = { s.master with imr := (outMask (BitVec.ofNat 8 i) s).master.imr } ∧
      (outMask (BitVec.ofNat 8 i) s).slave
        = { s.slave with imr := (outMask (BitVec.ofNat 8 i) s).slave.imr } ∧
      (outMask (BitVec.ofNat 8 i) s).spuriousIrqMask = s.spuriousIrqMask := by
  rw [outMask_pics hr]
  split_ifs <;> exact ⟨rfl, rfl, rfl⟩

/-- Between two mirrored states, it is enough to look at the variables. -/
theorem Mirror.touches (hm : Mirror s) (hm' : Mirror s') {handler : Handler} {masked : Bool}
    {attribs : Fin IDT_SIZE → Byte}
    (hhandler : s'.irqHandler = Function.update s.irqHandler i handler)
    (hattribs : s'.attribs = attribs)
    (hmask : ∀ j : Fin IRQ_NR,
      s'.irqMask.getLsbD j = if i = j then masked else s.irqMask.getLsbD j)
    (hmaster : s'.master = { s.master with imr := s'.master.imr })
    (hslave : s'.slave = { s.slave with imr := s'.slave.imr })
    (hspurious : s'.spuriousIrqMask = s.spuriousIrqMask) :
    Touches i handler masked attribs s s' := by
  refine ⟨hhandler, hattribs, hmask, ?_, hmaster, hslave, hspurious⟩
  intro j
  rw [hm'.hardwareMask_eq, hm.hardwareMask_eq]
  exact hmask j

theorem Mirror.uninstall (hm : Mirror s) {irq r : Int}
    (h : uninstallInterruptHandler irq s = some (r, s')) : Mirror s' := by
  rcases uninstall_updates hm.ready h with rfl | ⟨i, hu⟩
  · exact hm
  · exact hm.updates hu

theorem Mirror.install (hm : Mirror s) {irq type r : Int} {handler : Handler}
    (h : installInterruptHandler irq handler type s = some (r, s')) : Mirror s' := by
  rcases install_updates hm.ready h with rfl | ⟨i, hu⟩
  · exact hm
  · exact hm.updates hu

theorem uninstall_touches (hm : Mirror s) (i : Fin IRQ_NR) :
    ∃ s', uninstallInterruptHandler (i : ℕ) s = some (0, s') ∧ Uninstalled i s s' := by
  have hcall := uninstall_line i s
  set s₁ : Interrupts := { s with irqMask := s.irqMask ||| lineBit i } with hs₁
  obtain ⟨hmaster, hslave, hspurious⟩ := outMask_registers (s := s₁)
    ⟨hm.ready.master, hm.ready.slave⟩ i
  have htables := sameTables_outMask (BitVec.ofNat 8 i) s₁
  refine ⟨_, hcall, hm.touches (hm.uninstall hcall) rfl htables.attribs ?_ hmaster hslave
    hspurious⟩
  intro j
  rw [htables.irqMask, getLsbD_or_lineBit]
  by_cases hj : i = j
  · rw [decide_eq_true hj, Bool.or_true, if_pos hj]
  · rw [decide_eq_false hj, Bool.or_false, if_neg hj]

theorem install_touches (hm : Mirror s) (i : Fin IRQ_NR) (handler : Handler) (type : Int) :
    ∃ s', installInterruptHandler (i : ℕ) handler type s = some (0, s') ∧
      Installed handler type i s s' := by
  have hcall := install_line i handler type s
  set s₁ : Interrupts := { s with
    irqMask := s.irqMask &&& ~~~lineBit i
    irqHandler := Function.update s.irqHandler i handler
    attribs := Function.update s.attribs (idtEntry i) (BitVec.ofInt 8 type) } with hs₁
  obtain ⟨hmaster, hslave, hspurious⟩ := outMask_registers (s := s₁)
    ⟨hm.ready.master, hm.ready.slave⟩ i
  have htables := sameTables_outMask (BitVec.ofNat 8 i) s₁
  refine ⟨_, hcall, hm.touches (hm.install hcall) htables.irqHandler htables.attribs ?_ hmaster
    hslave hspurious⟩
  intro j
  rw [htables.irqMask, getLsbD_and_lineBit]
  by_cases hj : i = j
  · rw [decide_eq_false (not_not.mpr hj), Bool.and_false, if_pos hj]
  · rw [decide_eq_true hj, Bool.and_true, if_neg hj]

/-! ## What is refused -/

/-- **A call checks its line** exactly when the number is neither negative nor `IRQ_NR`, if it does
what it should for the lines, refuses what is greater, and fails outside of its table. -/
theorem checksLine_iff_of (call : Int → Option (Int × Interrupts))
    {done : Fin IRQ_NR → Interrupts → Interrupts → Prop}
    (hline : ∀ i : Fin IRQ_NR, ∃ s', call (i : ℕ) = some (0, s') ∧ done i s s')
    (hgreat : ∀ irq : Int, irq > IRQ_NR → call irq = some (-EINVAL, s))
    (hout : ∀ irq : Int, ¬ irq > IRQ_NR → ¬ (0 ≤ irq ∧ irq < IRQ_NR) → call irq = none)
    (irq : Int) :
    ChecksLine irq (call irq) done s ↔ 0 ≤ irq ∧ irq ≠ IRQ_NR := by
  rcases line_cases irq with ⟨i, rfl⟩ | hgt | ⟨hnot, hle⟩
  · refine iff_of_true ⟨?_, fun h ↦ absurd rfl (h i)⟩ ⟨by omega, by omega⟩
    intro j hj
    obtain rfl : i = j := Fin.ext (by exact_mod_cast hj)
    exact hline i
  · refine iff_of_true ⟨?_, fun _ ↦ hgreat irq hgt⟩ ⟨by omega, by omega⟩
    rintro j rfl
    omega
  · refine iff_of_false ?_ (by omega)
    intro h
    have hcall := h.other fun j hj ↦ hnot (by omega)
    rw [hout irq hle hnot] at hcall
    contradiction

theorem uninstall_checksLine_iff (hm : Mirror s) (irq : Int) :
    ChecksLine irq (uninstallInterruptHandler irq s) Uninstalled s ↔ 0 ≤ irq ∧ irq ≠ IRQ_NR := by
  refine checksLine_iff_of (fun irq ↦ uninstallInterruptHandler irq s)
    (uninstall_touches hm) (fun irq hgt ↦ if_pos hgt) ?_ irq
  intro irq hle hnot
  rw [uninstallInterruptHandler, if_neg hle]
  simp [tableSet_of_not_mem _ _ hnot]

theorem install_checksLine_iff (hm : Mirror s) (handler : Handler) (type irq : Int) :
    ChecksLine irq (installInterruptHandler irq handler type s) (Installed handler type) s ↔
      0 ≤ irq ∧ irq ≠ IRQ_NR := by
  refine checksLine_iff_of (fun irq ↦ installInterruptHandler irq handler type s)
    (fun i ↦ install_touches hm i handler type) (fun irq hgt ↦ if_pos hgt) ?_ irq
  intro irq hle hnot
  rw [installInterruptHandler, if_neg hle, tableSet_of_not_mem _ _ hnot]
  rfl

namespace InterruptState

variable {b s : InterruptState} {master slave : Pic}

/-- **The functions check their line** for every `int` but `IRQ_NR` and the negative ones, in every
state that the machine can reach. -/
theorem checksLine_iff {es : List MaskEvent} (hb : boot master slave = some b)
    (hr : Run MaskStep b es s) (irq : Int) (handler : Handler) (type : Int) :
    (ChecksLine irq (installInterruptHandler irq handler type s.irqs) (Installed handler type)
        s.irqs ↔ 0 ≤ irq ∧ irq ≠ IRQ_NR) ∧
      (ChecksLine irq (uninstallInterruptHandler irq s.irqs) Uninstalled s.irqs ↔
        0 ≤ irq ∧ irq ≠ IRQ_NR) := by
  have hm : Mirror s.irqs :=
    hr.invariant (I := fun s ↦ Mirror s.irqs) (fun _ _ _ ↦ mirror_step) (mirror_boot hb)
  exact ⟨install_checksLine_iff hm handler type irq, uninstall_checksLine_iff hm irq⟩

/-- The theorem for the handler of the keyboard. -/
theorem checksLine_keyboard : ∃ b s', boot picReset picReset = some b ∧
    installInterruptHandler 1 (.fn 1) 0x8f b.irqs = some (0, s') ∧
    Installed (.fn 1) 0x8f 1 b.irqs s' := by
  have hsome : (boot picReset picReset).isSome = true := by decide +kernel
  obtain ⟨b, hb⟩ := Option.isSome_iff_exists.mp hsome
  have hchecks := (checksLine_iff hb (.nil b) 1 (.fn 1) 0x8f).1.mpr ⟨by decide, by decide⟩
  obtain ⟨s', hcall, hdone⟩ := hchecks.line 1 rfl
  exact ⟨b, s', hb, hcall, hdone⟩

/-- **A seventeenth line** is not refused, nor is a negative one: the table of the handlers ends in
front of the one, and begins behind the other. -/
theorem not_checksLine_sixteen : ∃ b, boot picReset picReset = some b ∧
    installInterruptHandler 16 (.fn 1) 0x8f b.irqs = none ∧
    uninstallInterruptHandler 16 b.irqs = none ∧ uninstallInterruptHandler (-1) b.irqs = none ∧
    ¬ ChecksLine 16 (installInterruptHandler 16 (.fn 1) 0x8f b.irqs) (Installed (.fn 1) 0x8f)
      b.irqs ∧
    ¬ ChecksLine 16 (uninstallInterruptHandler 16 b.irqs) Uninstalled b.irqs := by
  have hnone : (boot picReset picReset).map (fun b ↦
      ((installInterruptHandler 16 (.fn 1) 0x8f b.irqs).isNone,
        (uninstallInterruptHandler 16 b.irqs).isNone,
        (uninstallInterruptHandler (-1) b.irqs).isNone)) = some (true, true, true) := by
    decide +kernel
  obtain ⟨b, hb, hcalls⟩ := Option.map_eq_some_iff.mp hnone
  simp only [Prod.mk.injEq, Option.isNone_iff_eq_none] at hcalls
  obtain ⟨hinstall, huninstall, hnegative⟩ := hcalls
  have hother (i : Fin IRQ_NR) : (16 : Int) ≠ (i : ℕ) := by
    have hi : i.val < 16 := i.isLt
    omega
  refine ⟨b, hb, hinstall, huninstall, hnegative, ?_, ?_⟩
  · intro h
    exact absurd (h.other hother) (by rw [hinstall]; exact Option.some_ne_none _ ∘ Eq.symm)
  · intro h
    exact absurd (h.other hother) (by rw [huninstall]; exact Option.some_ne_none _ ∘ Eq.symm)

end InterruptState

end PastaOS
