import PastaOS.Interrupt.Effect

/-!
# What the functions of `interrupt.c` do to the controllers

Once both controllers are initialised (`Ready`), a byte on a data port is a mask.  The functions of
a line write the mask register of the controller the line belongs to, and no other
(`WritesMask`); of the in-service registers only `mask_and_ack_irq` changes anything, and
`maskAndAckIrq_isr` says what.

`Step.picEffect` lists what a step of the machine does to the controllers, the way `Effect` lists
what it does to the tables, and `boot_spec` says in which state it starts.
-/

set_option autoImplicit false

namespace PastaOS

/-! ## Registers -/

/-- The registers that a read of a status register leaves alone. -/
structure Pic.Same (p p' : Pic) : Prop where
  /-- The mask. -/
  imr : p'.imr = p.imr
  /-- The lines in service. -/
  isr : p'.isr = p.isr
  /-- The state of the initialization. -/
  icw : p'.icw = p.icw

theorem Pic.Same.trans {p₁ p₂ p₃ : Pic} (h : Pic.Same p₁ p₂) (h' : Pic.Same p₂ p₃) :
    Pic.Same p₁ p₃ :=
  ⟨h'.imr.trans h.imr, h'.isr.trans h.isr, h'.icw.trans h.icw⟩

/-- Neither controller was touched, but for the choice of the register to be read. -/
structure SamePics (s s' : Interrupts) : Prop where
  /-- The master. -/
  master : Pic.Same s.master s'.master
  /-- The slave. -/
  slave : Pic.Same s.slave s'.slave

theorem SamePics.refl (s : Interrupts) : SamePics s s := ⟨⟨rfl, rfl, rfl⟩, ⟨rfl, rfl, rfl⟩⟩

/-- Both controllers are initialised. -/
structure Ready (s : Interrupts) : Prop where
  /-- The master. -/
  master : s.master.icw = 0
  /-- The slave. -/
  slave : s.slave.icw = 0

theorem SamePics.ready {s s' : Interrupts} (h : SamePics s s') (hr : Ready s) : Ready s' :=
  ⟨h.master.icw.trans hr.master, h.slave.icw.trans hr.slave⟩

/-- The bit of a line in a register of its controller. -/
def picBit (n : ℕ) : Byte := 1 <<< n

/-- The non-specific end of interrupt: the lowest line in service is done. -/
def clearLowest (isr : Byte) : Byte := isr &&& (isr - 1)

/-- What the commands of `mask_and_ack_irq` make of the master's in-service register. -/
def ackMaster (i : Fin IRQ_NR) (isr : Byte) : Byte :=
  if 8 ≤ i.val then clearLowest isr else clearLowest (isr &&& ~~~picBit i)

/-- What they make of the slave's. -/
def ackSlave (i : Fin IRQ_NR) (isr : Byte) : Byte :=
  if 8 ≤ i.val then clearLowest (isr &&& ~~~picBit (i - 8) &&& ~~~picBit 2) else isr

/-- The mask register of the controller of a line is brought up to date; the other one stays as it
is. -/
structure WritesMask (i : Fin IRQ_NR) (s s' : Interrupts) : Prop where
  /-- The master. -/
  master : s'.master.imr = if 8 ≤ i.val then s.master.imr else s'.irqMasterMask
  /-- The slave. -/
  slave : s'.slave.imr = if 8 ≤ i.val then s'.irqSlaveMask else s.slave.imr
  /-- The controllers stay initialised. -/
  ready : Ready s'

variable {s s' : Interrupts} {i : Fin IRQ_NR}

/-! ## Reading the in-service register -/

theorem irqReal_pics {irq v : Word} (h : irqReal irq s = some (v, s')) : SamePics s s' := by
  rw [irqReal] at h
  obtain ⟨mask, -, h⟩ := Option.bind_eq_some_iff.mp h
  split_ifs at h
  · obtain ⟨value, -, h⟩ := Option.bind_eq_some_iff.mp h
    obtain ⟨-, rfl⟩ := Prod.mk.inj (Option.some.inj h)
    exact ⟨⟨rfl, rfl, rfl⟩, ⟨rfl, rfl, rfl⟩⟩
  · obtain ⟨value, -, h⟩ := Option.bind_eq_some_iff.mp h
    obtain ⟨-, rfl⟩ := Prod.mk.inj (Option.some.inj h)
    exact ⟨⟨rfl, rfl, rfl⟩, ⟨rfl, rfl, rfl⟩⟩

theorem handleSpuriousIrq_pics {irq : Word} (h : handleSpuriousIrq irq s = some s') :
    SamePics s s' := by
  rw [handleSpuriousIrq] at h
  obtain ⟨mask, -, h⟩ := Option.bind_eq_some_iff.mp h
  obtain ⟨⟨real, s₁⟩, hreal, h⟩ := Option.bind_eq_some_iff.mp h
  have hsame := irqReal_pics hreal
  simp only at h
  split_ifs at h
  · exact Option.some.inj h ▸ hsame
  · obtain rfl := Option.some.inj h
    exact ⟨hsame.master, hsame.slave⟩
  · exact Option.some.inj h ▸ hsame

theorem checkSpurious_pics {irq mask : Word} (h : checkSpurious irq mask s = some s') :
    SamePics s s' := by
  rw [checkSpurious] at h
  split_ifs at h
  · exact handleSpuriousIrq_pics h
  · exact Option.some.inj h ▸ SamePics.refl s

/-! ## Commands -/

/-- The bit of the line number that tells the slave's lines. -/
theorem and_eight (i : Fin IRQ_NR) : BitVec.ofNat 32 i &&& 8 ≠ 0 ↔ 8 ≤ i.val := by
  revert i
  decide

theorem and_eight_byte (i : Fin IRQ_NR) : BitVec.ofNat 8 i &&& 8 ≠ 0 ↔ 8 ≤ i.val := by
  revert i
  decide

theorem out_master (v : Byte) (s : Interrupts) :
    s.out PORT_8259_M v = { s with master := s.master.command v } := rfl

theorem out_slave (v : Byte) (s : Interrupts) :
    s.out PORT_8259_S v = { s with slave := s.slave.command v } := rfl

theorem out_dataMaster (v : Byte) (s : Interrupts) :
    s.out PORT_INT_MASK_M v = { s with master := s.master.data v } := rfl

theorem out_dataSlave (v : Byte) (s : Interrupts) :
    s.out PORT_INT_MASK_S v = { s with slave := s.slave.data v } := rfl

/-- A specific end of interrupt clears the bit of its own line. -/
theorem command_specific (p : Pic) {n : ℕ} (hn : n < 8) :
    p.command (0x60 + BitVec.ofNat 8 n) = { p with isr := p.isr &&& ~~~picBit n } := by
  obtain rfl | rfl | rfl | rfl | rfl | rfl | rfl | rfl :
    n = 0 ∨ n = 1 ∨ n = 2 ∨ n = 3 ∨ n = 4 ∨ n = 5 ∨ n = 6 ∨ n = 7 := by omega
  all_goals rfl

theorem command_two (p : Pic) : p.command (0x60 + 2) = { p with isr := p.isr &&& ~~~picBit 2 } :=
  rfl

theorem command_eoi (p : Pic) : p.command EOI = { p with isr := clearLowest p.isr } := rfl

/-- A mask written to an initialised controller. -/
theorem data_ready {p : Pic} (hp : p.icw = 0) (v : Byte) : p.data v = { p with imr := v } :=
  if_pos hp

theorem outMask_pics (hr : Ready s) (i : Fin IRQ_NR) : outMask (BitVec.ofNat 8 i) s
    = if 8 ≤ i.val then { s with slave := { s.slave with imr := s.irqSlaveMask } }
      else { s with master := { s.master with imr := s.irqMasterMask } } := by
  rw [outMask]
  by_cases hi : 8 ≤ i.val
  · rw [if_pos ((and_eight_byte i).mpr hi), if_pos hi, ← data_ready hr.slave]
    rfl
  · rw [if_neg (mt (and_eight_byte i).mp hi), if_neg hi, ← data_ready hr.master]
    rfl

/-- What `mask_and_ack_irq` sends to the controllers. -/
theorem ackIrq_pics (hr : Ready s) (i : Fin IRQ_NR) : ackIrq (BitVec.ofNat 32 i) s
    = { s with
        master := { s.master with
          imr := if 8 ≤ i.val then s.master.imr else s.irqMasterMask
          isr := ackMaster i s.master.isr }
        slave := { s.slave with
          imr := if 8 ≤ i.val then s.irqSlaveMask else s.slave.imr
          isr := ackSlave i s.slave.isr } } := by
  have hlow : (BitVec.ofNat 32 i &&& 7).setWidth 8 = BitVec.ofNat 8 (i.val % 8) := by
    revert i
    decide
  have hbyte : (BitVec.ofNat 32 i).setWidth 8 = BitVec.ofNat 8 i := by
    revert i
    decide
  rw [ackIrq, ackMaster, ackSlave]
  by_cases hi : 8 ≤ i.val
  · have hlt : i.val < 16 := i.isLt
    have hmod : i.val % 8 = i.val - 8 := by omega
    rw [if_pos ((and_eight i).mpr hi)]
    simp only [if_pos hi, out_dataSlave, out_slave, out_master, Interrupts.irqSlaveMask,
      data_ready hr.slave, hlow, hmod, command_specific _ (by omega : i.val - 8 < 8), command_two,
      command_eoi]
  · rw [if_neg (mt (and_eight i).mp hi)]
    simp only [if_neg hi, out_dataMaster, out_master, Interrupts.irqMasterMask,
      data_ready hr.master, hbyte, command_specific _ (by omega : i.val < 8), command_eoi]

/-! ## The functions -/

/-- Of the in-service registers, nothing has changed. -/
structure SameService (s s' : Interrupts) : Prop where
  /-- The master. -/
  master : s'.master.isr = s.master.isr
  /-- The slave. -/
  slave : s'.slave.isr = s.slave.isr

/-- **`mask_and_ack_irq`** masks its line, and sends more than one end of interrupt. -/
theorem maskAndAckIrq_pics (hr : Ready s) (h : maskAndAckIrq (BitVec.ofNat 32 i) s = some s') :
    s'.irqMask = s.irqMask ||| lineBit i ∧ WritesMask i s s' ∧
      s'.master.isr = ackMaster i s.master.isr ∧ s'.slave.isr = ackSlave i s.slave.isr := by
  rw [maskAndAckIrq, shl1_line, Option.bind_eq_bind, Option.bind_some] at h
  obtain ⟨s₁, h₁, h⟩ := Option.bind_eq_some_iff.mp h
  obtain ⟨s₂, h₂, htables⟩ := checkSpurious_line i s ((lineBit i).setWidth 32)
  obtain rfl : s₁ = s₂ := Option.some.inj (h₁.symm.trans h₂)
  have hpics := checkSpurious_pics h₁
  have hr₁ := hpics.ready hr
  obtain rfl := Option.some.inj h
  rw [orMask_line, ackIrq_pics (s := { s₁ with irqMask := s₁.irqMask ||| lineBit i })
    ⟨hr₁.master, hr₁.slave⟩]
  refine ⟨by rw [htables.irqMask], ⟨?_, ?_, hr₁.master, hr₁.slave⟩, ?_, ?_⟩
  · simp only [hpics.master.imr]
    rfl
  · simp only [hpics.slave.imr]
    rfl
  · rw [hpics.master.isr]
  · rw [hpics.slave.isr]

/-- The other functions of a line write its mask and end no interrupt. -/
theorem outMask_writes (hr : Ready s) (i : Fin IRQ_NR) :
    WritesMask i s (outMask (BitVec.ofNat 8 i) s) ∧
      SameService s (outMask (BitVec.ofNat 8 i) s) := by
  rw [outMask_pics hr]
  split_ifs with hi
  · exact ⟨⟨(if_pos hi).symm, (if_pos hi).symm, hr.master, hr.slave⟩, rfl, rfl⟩
  · exact ⟨⟨(if_neg hi).symm, (if_neg hi).symm, hr.master, hr.slave⟩, rfl, rfl⟩

/-- The mask of the other lines is the same. -/
def OtherLines (i : Fin IRQ_NR) (m m' : BitVec 16) : Prop :=
  ∀ j, j ≠ i → m'.getLsbD j = m.getLsbD j

theorem otherLines_or (i : Fin IRQ_NR) (m : BitVec 16) : OtherLines i m (m ||| lineBit i) := by
  intro j hj
  rw [getLsbD_or_lineBit, decide_eq_false (Ne.symm hj), Bool.or_false]

theorem otherLines_and (i : Fin IRQ_NR) (m : BitVec 16) : OtherLines i m (m &&& ~~~lineBit i) := by
  intro j hj
  rw [getLsbD_and_lineBit, decide_eq_true (Ne.symm hj), Bool.and_true]

/-- A function that changes the mask of a line, writes it to the controller, and leaves the lines in
service alone. -/
structure Updates (i : Fin IRQ_NR) (s s' : Interrupts) : Prop where
  /-- The variable. -/
  lines : OtherLines i s.irqMask s'.irqMask
  /-- The registers. -/
  writes : WritesMask i s s'
  /-- The lines in service. -/
  service : SameService s s'

theorem picDisableIrq_updates (hr : Ready s) (h : picDisableIrq (BitVec.ofNat 8 i) s = some s') :
    Updates i s s' := by
  rw [picDisableIrq_line] at h
  obtain rfl := Option.some.inj h
  obtain ⟨hw, hs⟩ := outMask_writes (s := { s with irqMask := s.irqMask ||| lineBit i })
    ⟨hr.master, hr.slave⟩ i
  refine ⟨?_, ⟨hw.master, hw.slave, hw.ready⟩, ⟨hs.master, hs.slave⟩⟩
  rw [(sameTables_outMask _ _).irqMask]
  exact otherLines_or i s.irqMask

theorem picEnableIrq_updates (hr : Ready s) (h : picEnableIrq (BitVec.ofNat 8 i) s = some s') :
    Updates i s s' := by
  rw [picEnableIrq_line] at h
  obtain rfl := Option.some.inj h
  obtain ⟨hw, hs⟩ := outMask_writes (s := { s with irqMask := s.irqMask &&& ~~~lineBit i })
    ⟨hr.master, hr.slave⟩ i
  refine ⟨?_, ⟨hw.master, hw.slave, hw.ready⟩, ⟨hs.master, hs.slave⟩⟩
  rw [(sameTables_outMask _ _).irqMask]
  exact otherLines_and i s.irqMask

theorem endOfIrq_updates (hr : Ready s) (h : endOfIrq (BitVec.ofNat 32 i) s = some s') :
    Updates i s s' := by
  rw [endOfIrq_line, ← picEnableIrq_line] at h
  exact picEnableIrq_updates hr h

/-- `uninstall_interrupt_handler` refuses its argument or updates a line. -/
theorem uninstall_updates (hr : Ready s) {irq r : Int}
    (h : uninstallInterruptHandler irq s = some (r, s')) : s' = s ∨ ∃ i, Updates i s s' := by
  rcases line_cases irq with ⟨i, rfl⟩ | hgt | ⟨hout, hle⟩
  · have hi : ¬ ((i : ℕ) : Int) > IRQ_NR := by omega
    rw [uninstallInterruptHandler, if_neg hi, BitVec.ofInt_natCast] at h
    obtain ⟨s₁, h₁, h⟩ := Option.bind_eq_some_iff.mp h
    obtain ⟨handlers, -, h⟩ := Option.bind_eq_some_iff.mp h
    obtain ⟨-, rfl⟩ := Prod.mk.inj (Option.some.inj h)
    have hu := picDisableIrq_updates hr h₁
    exact .inr ⟨i, hu.lines, ⟨hu.writes.master, hu.writes.slave,
      ⟨hu.writes.ready.master, hu.writes.ready.slave⟩⟩, ⟨hu.service.master, hu.service.slave⟩⟩
  · rw [uninstallInterruptHandler, if_pos hgt] at h
    exact .inl (Prod.mk.inj (Option.some.inj h)).2.symm
  · rw [uninstallInterruptHandler, if_neg hle] at h
    simp [tableSet_of_not_mem _ _ hout] at h

/-- `install_interrupt_handler` refuses its argument or updates a line. -/
theorem install_updates (hr : Ready s) {irq type r : Int} {handler : Handler}
    (h : installInterruptHandler irq handler type s = some (r, s')) :
    s' = s ∨ ∃ i, Updates i s s' := by
  rcases line_cases irq with ⟨i, rfl⟩ | hgt | ⟨hout, hle⟩
  · have hi : ¬ ((i : ℕ) : Int) > IRQ_NR := by omega
    rw [installInterruptHandler, if_neg hi, BitVec.ofInt_natCast] at h
    obtain ⟨handlers, -, h⟩ := Option.bind_eq_some_iff.mp h
    obtain ⟨attribs, -, h⟩ := Option.bind_eq_some_iff.mp h
    obtain ⟨s₁, h₁, h⟩ := Option.bind_eq_some_iff.mp h
    obtain ⟨-, rfl⟩ := Prod.mk.inj (Option.some.inj h)
    have hu := picEnableIrq_updates
      (s := { s with irqHandler := handlers, attribs := attribs }) ⟨hr.master, hr.slave⟩ h₁
    exact .inr ⟨i, hu.lines, ⟨hu.writes.master, hu.writes.slave, hu.writes.ready⟩,
      ⟨hu.service.master, hu.service.slave⟩⟩
  · rw [installInterruptHandler, if_pos hgt] at h
    exact .inl (Prod.mk.inj (Option.some.inj h)).2.symm
  · rw [installInterruptHandler, if_neg hle, tableSet_of_not_mem _ _ hout] at h
    simp at h

namespace InterruptState

/-! ## A step -/

variable {s t : InterruptState} {e : Event}

/-- The event is neither an interrupt nor its acknowledgement. -/
def Silent : Event → Prop
  | .interrupt _ _ => False
  | .ack => False
  | _ => True

/-- What a step does to the controllers. -/
inductive PicEffect (s t : InterruptState) : Event → Prop
  /-- They interrupt. -/
  | interrupt {irq : Fin IRQ_NR} {spurious : Bool} (hirqs : t.irqs = deliver irq spurious s.irqs) :
      PicEffect s t (.interrupt irq spurious)
  /-- An interrupt is acknowledged. -/
  | ack {f : Frame} {fs : List Frame} (hf : s.frames = f :: fs)
      (hack : maskAndAckIrq (BitVec.ofNat 32 f.irq) s.irqs = some t.irqs) : PicEffect s t .ack
  /-- A line is enabled or disabled. -/
  | updates {e : Event} {i : Fin IRQ_NR} (he : Silent e) (hu : Updates i s.irqs t.irqs) :
      PicEffect s t e
  /-- Nothing is sent to them. -/
  | same {e : Event} (he : Silent e) (hirqs : t.irqs = s.irqs) : PicEffect s t e

/-- **What a step does to the controllers.** -/
theorem Step.picEffect (hr : Ready s.irqs) (h : Step s e t) : PicEffect s t e := by
  cases h.transition with
  | interrupt => exact .interrupt rfl
  | ack hf _ hcall => exact .ack hf hcall
  | panic => exact .same trivial rfl
  | dispatch => exact .same trivial rfl
  | ret => exact .same trivial rfl
  | eoi _ _ hcall => exact .updates trivial (endOfIrq_updates hr hcall)
  | iret => exact .same trivial rfl
  | install _ hcall =>
    rcases install_updates hr hcall with rfl | ⟨i, hu⟩
    · exact .same trivial rfl
    · exact .updates trivial hu
  | uninstall _ hcall =>
    rcases uninstall_updates hr hcall with rfl | ⟨i, hu⟩
    · exact .same trivial rfl
    · exact .updates trivial hu
  | endOfIrq _ _ hcall => exact .updates trivial (endOfIrq_updates hr hcall)
  | setFlag => exact .same trivial rfl

/-! ## The start -/

/-- The kernel at the end of `interrupt_init`. -/
structure Booted (master slave : Pic) (s : InterruptState) : Prop where
  /-- The clock and the cascade are enabled. -/
  irqMask : s.irqs.irqMask = 0xfffa
  /-- The clock has a handler. -/
  irqHandler : s.irqs.irqHandler = Function.update (fun _ ↦ .unhandled) 0 clockHandler
  /-- The master has its mask. -/
  master : s.irqs.master = ⟨s.irqs.irqMasterMask, master.isr, false, 0⟩
  /-- The slave has its mask. -/
  slave : s.irqs.slave = ⟨s.irqs.irqSlaveMask, slave.isr, false, 0⟩
  /-- No interrupt is being handled. -/
  frames : s.frames = []
  /-- Nothing has gone wrong. -/
  panicked : s.panicked = false

theorem command_init (p : Pic) : p.command 0x11 = ⟨0, p.isr, false, 3⟩ := rfl

theorem data_succ (v imr isr : Byte) (readIsr : Bool) (n : ℕ) :
    Pic.data v ⟨imr, isr, readIsr, n + 1⟩ = ⟨imr, isr, readIsr, n⟩ := rfl

theorem data_isr (v : Byte) (p : Pic) : (p.data v).isr = p.isr := by
  rw [Pic.data]
  split_ifs <;> rfl

theorem interruptInit_pics (s : Interrupts) :
    (interruptInit s).master = ⟨(interruptInit s).irqMasterMask, s.master.isr, false, 0⟩ ∧
      (interruptInit s).slave = ⟨(interruptInit s).irqSlaveMask, s.slave.isr, false, 0⟩ := by
  simp only [interruptInit, idtInit, setGates, irqInit, andMask, out_master, out_slave,
    out_dataMaster, out_dataSlave, command_init, data_succ, Interrupts.irqMasterMask,
    Interrupts.irqSlaveMask, data_ready, and_self]

theorem interruptInit_tables (s : Interrupts) :
    (interruptInit s).irqMask = (s.irqMask.setWidth 32 &&& ~~~(1 <<< 2 : Word)).setWidth 16 ∧
      (interruptInit s).irqHandler = s.irqHandler := by
  simp only [interruptInit, idtInit, setGates, irqInit, andMask, out_master, out_slave,
    out_dataMaster, out_dataSlave, and_self]

theorem outMask_isr (irq : Byte) (s : Interrupts) : SameService s (outMask irq s) := by
  rw [outMask]
  split_ifs
  · exact ⟨rfl, data_isr _ _⟩
  · exact ⟨data_isr _ _, rfl⟩

/-- What `clock_init` leaves to `irq_init`. -/
theorem clockInit_spec {master slave : Pic} {irqs : Interrupts}
    (h : clockInit (initialInterrupts master slave) = some irqs) :
    irqs.irqMask = 0xfffe ∧
      irqs.irqHandler = Function.update (fun _ ↦ .unhandled) 0 clockHandler ∧
      SameService (initialInterrupts master slave) irqs := by
  have hline := install_line 0 clockHandler TRAP_GATE.toNat (initialInterrupts master slave)
  obtain ⟨⟨r, irqs'⟩, hcall, hirqs⟩ := Option.map_eq_some_iff.mp h
  obtain rfl : irqs' = irqs := hirqs
  obtain ⟨-, rfl⟩ := Prod.mk.inj (Option.some.inj (hcall.symm.trans hline))
  have hbit : (0xffff : BitVec 16) &&& ~~~lineBit 0 = 0xfffe := by decide
  have htables := sameTables_outMask (BitVec.ofNat 8 (0 : Fin IRQ_NR))
  refine ⟨(htables _).irqMask.trans hbit, (htables _).irqHandler, ?_⟩
  have hservice := outMask_isr (BitVec.ofNat 8 (0 : Fin IRQ_NR))
  exact ⟨(hservice _).master, (hservice _).slave⟩

/-- **`interrupt_init` leaves** the mask in both controllers. -/
theorem boot_spec {master slave : Pic} (h : boot master slave = some s) :
    Booted master slave s := by
  rw [boot] at h
  obtain ⟨irqs, hclock, h⟩ := Option.bind_eq_some_iff.mp h
  obtain rfl := Option.some.inj h
  obtain ⟨hmask, hhandler, hisr⟩ := clockInit_spec hclock
  obtain ⟨hmaster, hslave⟩ := interruptInit_pics irqs
  obtain ⟨hmask', hhandler'⟩ := interruptInit_tables irqs
  refine ⟨?_, hhandler'.trans hhandler, ?_, ?_, rfl, rfl⟩
  · rw [hmask', hmask]
    decide
  · exact hmaster.trans (congrArg (Pic.mk _ · false 0) hisr.master)
  · exact hslave.trans (congrArg (Pic.mk _ · false 0) hisr.slave)

end InterruptState

end PastaOS
