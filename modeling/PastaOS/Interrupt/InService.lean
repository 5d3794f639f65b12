import PastaOS.Interrupt.Controllers

/-!
# The lines in service

A controller delivers an interrupt only when its line has priority over all lines in service
(`Accepts`).  So the lines that have been delivered and wait for `mask_and_ack_irq` are in the order
of their priorities, the innermost one first (`Ranked`), and their bits are the in-service
registers (`InService`) as long as every acknowledgement clears the bits of its own line.

`mask_and_ack_irq` sends two commands to a controller where one would do: the specific end of
interrupt for the line, and then the non-specific one, which finds the line out of service and takes
the next one.  For the slave's lines, the specific one for the cascade goes to the slave, so that
the master's non-specific one is just right.  `owned_iff_timely` says which runs have nothing but
acknowledgements of their own line: those in which a line of the master is never acknowledged while
another one waits.
-/

set_option autoImplicit false

namespace PastaOS

/-! ## Bits -/

theorem picBit_getLsbD {n : ℕ} (hn : n < 8) (k : ℕ) :
    (picBit n).getLsbD k = decide (n = k) := by
  by_cases hk : k < 8
  · have hall : ∀ n k : Fin 8, (picBit n).getLsbD k = decide (n.val = k.val) := by decide
    exact hall ⟨n, hn⟩ ⟨k, hk⟩
  · rw [BitVec.getLsbD_of_ge _ _ (by omega), decide_eq_false (by omega)]

/-- A bit goes when it has come. -/
theorem or_picBit_and_not {n : ℕ} (hn : n < 8) {m : Byte} (hm : m.getLsbD n = false) :
    (picBit n ||| m) &&& ~~~picBit n = m := by
  refine BitVec.eq_of_getLsbD_eq ?_
  intro k hk
  rw [BitVec.getLsbD_and, BitVec.getLsbD_or, BitVec.getLsbD_not, picBit_getLsbD hn,
    decide_eq_true hk, Bool.true_and]
  by_cases hkn : n = k
  · rw [← hkn, hm, decide_eq_true rfl, Bool.not_true, Bool.and_false]
  · rw [decide_eq_false hkn, Bool.false_or, Bool.not_false, Bool.and_true]

/-- The non-specific end of interrupt takes the lowest bit. -/
theorem clearLowest_or {n : ℕ} (hn : n < 8) {m : Byte} (hm : ∀ k ≤ n, m.getLsbD k = false) :
    clearLowest (picBit n ||| m) = m := by
  have hall : ∀ (m : Fin 256) (n : Fin 8),
      (∀ k : Fin 8, k ≤ n → (BitVec.ofFin (w := 8) m).getLsbD k = false) →
        clearLowest (picBit n ||| BitVec.ofFin m) = BitVec.ofFin m := by decide +kernel
  exact hall m.toFin ⟨n, hn⟩ fun k hk ↦ hm k hk

/-- It takes a bit if there is one. -/
theorem clearLowest_eq_self {m : Byte} : clearLowest m = m ↔ m = 0 := by
  have hall : ∀ m : Fin 256, clearLowest (BitVec.ofFin m) = BitVec.ofFin m ↔
      BitVec.ofFin m = (0 : Byte) := by decide +kernel
  exact hall m.toFin

/-! ## Registers -/

/-- The line of the master by which a line comes in. -/
def masterLine (i : Fin IRQ_NR) : ℕ := if 8 ≤ i.val then 2 else i

/-- The master's in-service register when these lines are in service. -/
def masterService (lines : List (Fin IRQ_NR)) : Byte :=
  lines.foldr (fun i m ↦ picBit (masterLine i) ||| m) 0

/-- The bits of the lines of the slave. -/
def slaveService (lines : List (Fin IRQ_NR)) : Byte :=
  lines.foldr (fun (i : Fin IRQ_NR) m ↦ if 8 ≤ i.val then picBit (i - 8) ||| m else m) 0

variable {s s' : Interrupts} {i : Fin IRQ_NR} {lines : List (Fin IRQ_NR)}

theorem masterLine_lt (i : Fin IRQ_NR) : masterLine i < 8 := by
  rw [masterLine]
  split_ifs with hi
  · decide
  · omega

theorem masterService_cons (i : Fin IRQ_NR) (lines : List (Fin IRQ_NR)) :
    masterService (i :: lines) = picBit (masterLine i) ||| masterService lines := rfl

theorem slaveService_cons (i : Fin IRQ_NR) (lines : List (Fin IRQ_NR)) :
    slaveService (i :: lines)
      = if 8 ≤ i.val then picBit (i - 8) ||| slaveService lines else slaveService lines := rfl

theorem masterService_getLsbD (lines : List (Fin IRQ_NR)) (k : ℕ) :
    (masterService lines).getLsbD k = true ↔ ∃ i ∈ lines, masterLine i = k := by
  induction lines with
  | nil => simp [masterService]
  | cons i lines ih =>
    rw [masterService_cons, BitVec.getLsbD_or, picBit_getLsbD (masterLine_lt i),
      Bool.or_eq_true, ih]
    simp

/-- The slave is not concerned by lines of the master. -/
theorem slaveService_eq_zero (h : ∀ i ∈ lines, masterLine i ≠ 2) : slaveService lines = 0 := by
  induction lines with
  | nil => rfl
  | cons i lines ih =>
    have hi : ¬ 8 ≤ i.val := by
      intro hi
      exact h i List.mem_cons_self (if_pos hi)
    rw [slaveService_cons, if_neg hi]
    exact ih fun j hj ↦ h j (List.mem_cons_of_mem _ hj)

/-- Each line has priority over the ones behind it. -/
def Ranked (lines : List (Fin IRQ_NR)) : Prop :=
  lines.Pairwise fun i j ↦ masterLine i < masterLine j

/-- The bits up to the innermost line belong to no other line. -/
theorem Ranked.low (h : Ranked (i :: lines)) {k : ℕ} (hk : k ≤ masterLine i) :
    (masterService lines).getLsbD k = false := by
  by_contra hbit
  rw [Bool.not_eq_false, masterService_getLsbD] at hbit
  obtain ⟨j, hj, rfl⟩ := hbit
  exact absurd ((List.pairwise_cons.mp h).1 j hj) (not_lt.mpr hk)

/-- A line of the slave has priority over no other line of the slave. -/
theorem Ranked.slaveService (h : Ranked (i :: lines)) (hi : 8 ≤ i.val) :
    slaveService lines = 0 := by
  refine slaveService_eq_zero ?_
  intro j hj hline
  have hrank := (List.pairwise_cons.mp h).1 j hj
  rw [hline, masterLine, if_pos hi] at hrank
  exact lt_irrefl 2 hrank

theorem masterService_eq_zero : masterService lines = 0 ↔ lines = [] := by
  constructor
  · intro h
    by_contra hne
    obtain ⟨i, rest, rfl⟩ := List.exists_cons_of_ne_nil hne
    have hbit := (masterService_getLsbD (i :: rest) (masterLine i)).mpr ⟨i, List.mem_cons_self, rfl⟩
    rw [h] at hbit
    simp at hbit
  · rintro rfl
    rfl

/-! ## Acknowledging -/

/-- Of the in-service bits, those of the line are cleared, and no others. -/
structure ClearsOwn (i : Fin IRQ_NR) (s s' : Interrupts) : Prop where
  /-- The master's bit of the line, or of the cascade. -/
  master : s'.master.isr = s.master.isr &&& ~~~picBit (masterLine i)
  /-- The slave's bit of the line. -/
  slave : s'.slave.isr = if 8 ≤ i.val then s.slave.isr &&& ~~~picBit (i - 8) else s.slave.isr

/-- The in-service registers are those of the lines. -/
structure Serves (lines : List (Fin IRQ_NR)) (s : Interrupts) : Prop where
  /-- The master's. -/
  master : s.master.isr = masterService lines
  /-- The slave's. -/
  slave : s.slave.isr = slaveService lines

/-- Clearing the bits of the innermost line leaves those of the others. -/
theorem Serves.clearsOwn (hs : Serves (i :: lines) s) (hr : Ranked (i :: lines))
    (h : ClearsOwn i s s') : Serves lines s' := by
  refine ⟨?_, ?_⟩
  · rw [h.master, hs.master, masterService_cons, or_picBit_and_not (masterLine_lt i)
      (hr.low le_rfl)]
  · rw [h.slave, hs.slave, slaveService_cons]
    split_ifs with hi
    · have hlt : i.val < 16 := i.isLt
      exact or_picBit_and_not (by omega) (by rw [hr.slaveService hi]; exact BitVec.getLsbD_zero)
    · rfl

/-- **What `mask_and_ack_irq` clears** when the innermost line is acknowledged: its own bits, unless
it is a line of the master and another one waits. -/
theorem clearsOwn_iff (hready : Ready s) (hs : Serves (i :: lines) s) (hr : Ranked (i :: lines))
    (h : maskAndAckIrq (BitVec.ofNat 32 i) s = some s') :
    ClearsOwn i s s' ↔ 8 ≤ i.val ∨ lines = [] := by
  obtain ⟨-, -, hmaster, hslave⟩ := maskAndAckIrq_pics hready h
  have hrest : s.master.isr &&& ~~~picBit (masterLine i) = masterService lines := by
    rw [hs.master, masterService_cons]
    exact or_picBit_and_not (masterLine_lt i) (hr.low le_rfl)
  by_cases hi : 8 ≤ i.val
  · have hline : masterLine i = 2 := if_pos hi
    have hlt : i.val < 16 := i.isLt
    -- nothing but the line itself is in service at the slave
    have hown : s.slave.isr &&& ~~~picBit (i - 8) = 0 := by
      rw [hs.slave, slaveService_cons, if_pos hi, hr.slaveService hi]
      exact or_picBit_and_not (by omega) BitVec.getLsbD_zero
    refine iff_of_true ⟨?_, ?_⟩ (.inl hi)
    · rw [hmaster, hrest, ackMaster, if_pos hi, hs.master, masterService_cons]
      exact clearLowest_or (masterLine_lt i) fun k hk ↦ hr.low hk
    · rw [hslave, if_pos hi, ackSlave, if_pos hi, hown]
      rfl
  · have hline : masterLine i = i := if_neg hi
    rw [hline] at hrest
    constructor
    · intro hown
      have hlowest := hmaster.symm.trans hown.master
      rw [ackMaster, if_neg hi, hline, hrest, clearLowest_eq_self, masterService_eq_zero] at hlowest
      exact .inr hlowest
    · rintro (hi' | rfl)
      · exact absurd hi' hi
      · refine ⟨?_, ?_⟩
        · rw [hmaster, ackMaster, if_neg hi, hline, hrest]
          rfl
        · rw [hslave, ackSlave, if_neg hi, if_neg hi]

namespace InterruptState

/-! ## Runs -/

/-- The lines that have been delivered and not been acknowledged yet, the innermost one first. -/
def waiting (frames : List Frame) : List (Fin IRQ_NR) :=
  (frames.filter fun f ↦ f.phase = .entry).map Frame.irq

/-- The in-service registers are those of the lines that wait to be acknowledged. -/
def InService (s : InterruptState) : Prop := Serves (waiting s.frames) s.irqs

/-- The controllers accept an interrupt: its line has priority over all lines in service. -/
structure Accepts (irq : Fin IRQ_NR) (s : Interrupts) : Prop where
  /-- At the master. -/
  master : ∀ k < 8, s.master.isr.getLsbD k = true → masterLine irq < k
  /-- At the slave, for a line of the slave. -/
  slave : 8 ≤ irq.val → ∀ k < 8, s.slave.isr.getLsbD k = true → irq.val - 8 < k

/-- A step in which the controllers deliver an interrupt only if they accept it. -/
structure Legal (s : InterruptState) (e : Event) (t : InterruptState) : Prop where
  /-- It is a step. -/
  step : Step s e t
  /-- The interrupt is accepted, and its line goes into service. -/
  accepts : ∀ irq spurious, e = .interrupt irq spurious → spurious = false ∧ Accepts irq s.irqs

/-- An acknowledgement clears the bits of its own line, and no others. -/
structure Owned (s : InterruptState) (e : Event) (t : InterruptState) : Prop where
  /-- It is a step of the machine and the controllers. -/
  legal : Legal s e t
  /-- What is cleared. -/
  own : e = .ack → ∀ f fs, s.frames = f :: fs → ClearsOwn f.irq s.irqs t.irqs

/-- A line of the master is acknowledged only when no other line waits. -/
structure Timely (s : InterruptState) (e : Event) (t : InterruptState) : Prop where
  /-- It is a step of the machine and the controllers. -/
  legal : Legal s e t
  /-- When a line is acknowledged. -/
  timely : e = .ack → ∀ f fs, s.frames = f :: fs → 8 ≤ f.irq.val ∨ waiting fs = []

variable {b s t : InterruptState} {e : Event} {es : List Event} {f : Frame} {fs : List Frame}
  {master slave : Pic}

theorem waiting_cons_of_entry (hf : f.phase = .entry) :
    waiting (f :: fs) = f.irq :: waiting fs := by
  simp [waiting, hf]

theorem waiting_cons_of_ne (hf : f.phase ≠ .entry) : waiting (f :: fs) = waiting fs := by
  simp [waiting, hf]

/-- The innermost activation may change among the phases behind the first one. -/
theorem waiting_next {p : Phase} (hs : s.frames = f :: fs) (hf : f.phase ≠ .entry)
    (hp : p ≠ .entry) (ht : t.frames = { f with phase := p } :: fs) :
    waiting t.frames = waiting s.frames := by
  rw [hs, ht, waiting_cons_of_ne hf, waiting_cons_of_ne (f := { f with phase := p }) hp]

/-- Only interrupts and their acknowledgements change what waits. -/
theorem Step.waiting_silent (hs : Step s e t) (he : Silent e) :
    waiting t.frames = waiting s.frames := by
  cases hs.effect with
  | interrupt => exact he.elim
  | ack => exact he.elim
  | dispatch hf hphase _ _ ht => exact waiting_next hf (by simp [hphase]) (by simp) ht
  | panic _ ht => rw [ht]
  | ret hf hphase _ ht => exact waiting_next hf (by simp [hphase]) (by simp) ht
  | eoi hf hphase _ ht => exact waiting_next hf (by simp [hphase]) (by simp) ht
  | iret hf hphase _ => rw [hf, waiting_cons_of_ne (by simp [hphase])]
  | install ht => rw [ht]
  | uninstall ht => rw [ht]
  | endOfIrq _ _ _ ht => rw [ht]
  | installRefused _ _ ht => rw [ht]
  | uninstallRefused _ _ ht => rw [ht]
  | setFlag _ ht => rw [ht]

theorem Step.waiting_interrupt {irq : Fin IRQ_NR} {spurious : Bool}
    (hs : Step s (.interrupt irq spurious) t) : waiting t.frames = irq :: waiting s.frames := by
  cases hs.effect with
  | interrupt _ ht => rw [ht, waiting_cons_of_entry rfl]

theorem Step.waiting_ack (hs : Step s .ack t) : ∃ f fs, s.frames = f :: fs ∧
    waiting s.frames = f.irq :: waiting fs ∧ waiting t.frames = waiting fs := by
  cases hs.effect with
  | @ack f fs hf hphase _ ht =>
    refine ⟨f, fs, hf, ?_, ?_⟩
    · rw [hf, waiting_cons_of_entry hphase]
    · rw [ht, waiting_cons_of_ne (by simp)]

/-- What a delivered interrupt does to the in-service registers. -/
theorem serves_deliver {lines : List (Fin IRQ_NR)} {irqs : Interrupts} (hs : Serves lines irqs)
    (irq : Fin IRQ_NR) : Serves (irq :: lines) (deliver irq false irqs) := by
  rw [deliver]
  by_cases hi : 8 ≤ irq.val
  · refine ⟨?_, ?_⟩
    · rw [masterService_cons, masterLine, if_pos hi, BitVec.or_comm, ← hs.master]
      simp [hi, Pic.serve, picBit]
    · rw [slaveService_cons, if_pos hi, BitVec.or_comm, ← hs.slave]
      simp [hi, Pic.serve, picBit]
  · refine ⟨?_, ?_⟩
    · rw [masterService_cons, masterLine, if_neg hi, BitVec.or_comm, ← hs.master]
      simp [hi, Pic.serve, picBit]
    · rw [slaveService_cons, if_neg hi, ← hs.slave]
      simp [hi]

/-- The controllers are initialised, and have in service the lines that wait, in the order of
their priorities. -/
structure Nested (s : InterruptState) : Prop where
  /-- The controllers are initialised. -/
  ready : Ready s.irqs
  /-- Each line that waits has priority over the ones below it. -/
  ranked : Ranked (waiting s.frames)
  /-- The lines that wait are in service. -/
  inService : InService s

theorem ready_deliver {irqs : Interrupts} (hr : Ready irqs) (irq : Fin IRQ_NR) (spurious : Bool) :
    Ready (deliver irq spurious irqs) := by
  unfold deliver
  split_ifs <;> exact ⟨hr.master, hr.slave⟩

/-- A step keeps the order when its acknowledgement clears the bits of its own line. -/
theorem Nested.step (h : Nested s) (hs : Owned s e t) : Nested t := by
  have hstep := hs.legal.step
  obtain ⟨hready, hranked, hin⟩ := h
  cases hstep.picEffect hready with
  | @interrupt irq spurious hirqs =>
    obtain ⟨rfl, haccepts⟩ := hs.legal.accepts irq spurious rfl
    refine ⟨hirqs ▸ ready_deliver hready irq false, ?_, ?_⟩
    · rw [hstep.waiting_interrupt]
      refine List.pairwise_cons.mpr ⟨?_, hranked⟩
      intro j hj
      refine haccepts.master _ (masterLine_lt j) ?_
      rw [hin.master]
      exact (masterService_getLsbD _ _).mpr ⟨j, hj, rfl⟩
    · rw [InService, hstep.waiting_interrupt, hirqs]
      exact serves_deliver hin irq
  | ack hf hack =>
    obtain ⟨f, fs, hf', hwait, hwait'⟩ := hstep.waiting_ack
    obtain ⟨rfl, rfl⟩ := List.cons.inj (hf.symm.trans hf')
    rw [InService, hwait] at hin
    rw [hwait] at hranked
    refine ⟨(maskAndAckIrq_pics hready hack).2.1.ready, ?_, ?_⟩
    · rw [hwait']
      exact hranked.of_cons
    · rw [InService, hwait']
      exact hin.clearsOwn hranked (hs.own rfl _ _ hf)
  | updates he hu =>
    refine ⟨hu.writes.ready, ?_, ?_⟩
    · rw [hstep.waiting_silent he]
      exact hranked
    · rw [InService, hstep.waiting_silent he]
      exact ⟨hu.service.master.trans hin.master, hu.service.slave.trans hin.slave⟩
  | same he hirqs =>
    refine ⟨hirqs ▸ hready, ?_, ?_⟩
    · rw [hstep.waiting_silent he]
      exact hranked
    · rw [InService, hstep.waiting_silent he, hirqs]
      exact hin

/-- In the right order, the two conditions on an acknowledgement say the same. -/
theorem Nested.clearsOwn_iff (h : Nested s) (hs : Step s .ack t) (hf : s.frames = f :: fs) :
    ClearsOwn f.irq s.irqs t.irqs ↔ 8 ≤ f.irq.val ∨ waiting fs = [] := by
  obtain ⟨hready, hranked, hin⟩ := h
  obtain ⟨f', fs', hf', hwait, -⟩ := hs.waiting_ack
  obtain ⟨rfl, rfl⟩ := List.cons.inj (hf.symm.trans hf')
  rw [InService, hwait] at hin
  rw [hwait] at hranked
  cases hs.picEffect hready with
  | ack hf'' hack =>
    obtain ⟨rfl, rfl⟩ := List.cons.inj (hf.symm.trans hf'')
    exact PastaOS.clearsOwn_iff hready hin hranked hack
  | updates he => exact he.elim
  | same he => exact he.elim

theorem nested_boot (hb : boot master slave = some b) (hm : master.isr = 0) (hs : slave.isr = 0) :
    Nested b := by
  have hboot := boot_spec hb
  have hwait : waiting b.frames = [] := by rw [hboot.frames]; rfl
  refine ⟨⟨congrArg Pic.icw hboot.master, congrArg Pic.icw hboot.slave⟩, ?_, ?_⟩
  · rw [hwait]
    exact .nil
  · rw [InService, hwait]
    exact ⟨(congrArg Pic.isr hboot.master).trans hm, (congrArg Pic.isr hboot.slave).trans hs⟩

/-- **Which runs have nothing but acknowledgements of their own line**: those in which a line of the
master is acknowledged only when no other line waits.  All the way, the lines in service are the
ones that wait. -/
theorem owned_iff_timely (hb : boot master slave = some b) (hm : master.isr = 0)
    (hs : slave.isr = 0) :
    (Run Owned b es s ↔ Run Timely b es s) ∧ (Run Timely b es s → InService s) := by
  have hnested := nested_boot hb hm hs
  have htimely (s e t) (h : Nested s) (ho : Owned s e t) : Timely s e t ∧ Nested t := by
    refine ⟨⟨ho.legal, ?_⟩, h.step ho⟩
    rintro rfl f fs hf
    exact (h.clearsOwn_iff ho.legal.step hf).mp (ho.own rfl f fs hf)
  have howned (s e t) (h : Nested s) (ht : Timely s e t) : Owned s e t ∧ Nested t := by
    have ho : Owned s e t := by
      refine ⟨ht.legal, ?_⟩
      rintro rfl f fs hf
      exact (h.clearsOwn_iff ht.legal.step hf).mpr (ht.timely rfl f fs hf)
    exact ⟨ho, h.step ho⟩
  refine ⟨⟨?_, ?_⟩, ?_⟩
  · exact fun hr ↦ (hr.mono_of_invariant htimely hnested).1
  · exact fun hr ↦ (hr.mono_of_invariant howned hnested).1
  · exact fun hr ↦ (hr.mono_of_invariant howned hnested).2.inService

/-- The delivery of a line of the master. -/
theorem legal_interrupt {irq : Fin IRQ_NR} {isr : Byte} (hs : Step s (.interrupt irq false) t)
    (hirq : irq.val < 8) (hisr : s.irqs.master.isr = isr)
    (hrank : ∀ k < 8, isr.getLsbD k = true → masterLine irq < k) :
    Legal s (.interrupt irq false) t := by
  refine ⟨hs, ?_⟩
  rintro irq spurious heq
  obtain ⟨rfl, rfl⟩ := Event.interrupt.inj heq
  exact ⟨rfl, hisr ▸ hrank, fun hi ↦ absurd hirq (not_lt.mpr hi)⟩

/-- The theorem for a line of the slave that interrupts in front of the acknowledgement of line 5,
and is acknowledged first. -/
theorem owned_iff_timely_slave : ∃ b s, boot picReset picReset = some b ∧
    Run Timely b [.install 8 (.fn 1) 0x8f, .interrupt 5 false, .interrupt 8 false, .ack] s ∧
    waiting s.frames = [5] ∧ s.irqs.master.isr = 0x20 ∧ s.irqs.slave.isr = 0 ∧ InService s := by
  have h : ((boot picReset picReset).bind fun b ↦ (b.step (.install 8 (.fn 1) 0x8f)).bind fun s₁ ↦
      (s₁.step (.interrupt 5 false)).bind fun s₂ ↦ (s₂.step (.interrupt 8 false)).bind fun s ↦
        (s.step .ack).map fun t ↦ (s₁.irqs.master.isr, s₂.irqs.master.isr, s₂.irqs.slave.isr,
          s.frames, t.irqs.master.isr, t.irqs.slave.isr, waiting t.frames))
      = some (0, 0x20, 0, [⟨8, .entry, true⟩, ⟨5, .entry, true⟩], 0x20, 0, [5]) := by
    rfl
  obtain ⟨b, hb, h⟩ := Option.bind_eq_some_iff.mp h
  obtain ⟨s₁, h₁, h⟩ := Option.bind_eq_some_iff.mp h
  obtain ⟨s₂, h₂, h⟩ := Option.bind_eq_some_iff.mp h
  obtain ⟨s, hs, h⟩ := Option.bind_eq_some_iff.mp h
  obtain ⟨t, ht, h⟩ := Option.map_eq_some_iff.mp h
  simp only [Prod.mk.injEq] at h
  obtain ⟨hisr₁, hisr₂, hslave₂, hframes, hisr, hslave, hwait⟩ := h
  have hinstall : Timely b (.install 8 (.fn 1) 0x8f) s₁ := ⟨⟨h₁, by simp⟩, by simp⟩
  have hfive : Timely s₁ (.interrupt 5 false) s₂ :=
    ⟨legal_interrupt h₂ (by decide) hisr₁ (by decide), by simp⟩
  have height : Timely s₂ (.interrupt 8 false) s := by
    refine ⟨⟨hs, ?_⟩, by simp⟩
    rintro irq spurious heq
    obtain ⟨rfl, rfl⟩ := Event.interrupt.inj heq
    exact ⟨rfl, hisr₂ ▸ by decide, fun _ ↦ hslave₂ ▸ by decide⟩
  have hack : Timely s .ack t := by
    refine ⟨⟨ht, by simp⟩, ?_⟩
    rintro - f fs hf
    obtain ⟨rfl, -⟩ := List.cons.inj (hframes.symm.trans hf)
    exact .inl le_rfl
  have hr : Run Timely b
      [.install 8 (.fn 1) 0x8f, .interrupt 5 false, .interrupt 8 false, .ack] t :=
    .cons hinstall (.cons hfive (.cons height (.cons hack (.nil t))))
  exact ⟨b, t, hb, hr, hwait, hisr, hslave, (owned_iff_timely hb rfl rfl).2 hr⟩

/-- **A line loses its bit** when the clock interrupts in front of its acknowledgement. -/
theorem clock_clears_keyboard : ∃ b s t, boot picReset picReset = some b ∧
    Run Legal b [.install 1 (.fn 1) 0x8f, .interrupt 1 false, .interrupt 0 false] s ∧
    Step s .ack t ∧ ¬ ClearsOwn 0 s.irqs t.irqs ∧ waiting t.frames = [1] ∧ ¬ InService t := by
  have h : ((boot picReset picReset).bind fun b ↦ (b.step (.install 1 (.fn 1) 0x8f)).bind fun s₁ ↦
      (s₁.step (.interrupt 1 false)).bind fun s₂ ↦ (s₂.step (.interrupt 0 false)).bind fun s ↦
        (s.step .ack).map fun t ↦ (s₁.irqs.master.isr, s₂.irqs.master.isr, s.irqs.master.isr,
          t.irqs.master.isr, waiting t.frames)) = some (0, 2, 3, 0, [1]) := by
    decide +kernel
  obtain ⟨b, hb, h⟩ := Option.bind_eq_some_iff.mp h
  obtain ⟨s₁, h₁, h⟩ := Option.bind_eq_some_iff.mp h
  obtain ⟨s₂, h₂, h⟩ := Option.bind_eq_some_iff.mp h
  obtain ⟨s, hs, h⟩ := Option.bind_eq_some_iff.mp h
  obtain ⟨t, ht, h⟩ := Option.map_eq_some_iff.mp h
  simp only [Prod.mk.injEq] at h
  obtain ⟨hisr₁, hisr₂, hisr, hisr', hwait⟩ := h
  have hinstall : Legal b (.install 1 (.fn 1) 0x8f) s₁ := ⟨h₁, by simp⟩
  have hkeyboard := legal_interrupt h₂ (by decide) hisr₁ (by decide)
  have hclock := legal_interrupt hs (by decide) hisr₂ (by decide)
  refine ⟨b, s, t, hb, .cons hinstall (.cons hkeyboard (.cons hclock (.nil s))), ht, ?_, hwait, ?_⟩
  · intro hown
    have hmaster := hown.master
    rw [hisr, hisr'] at hmaster
    revert hmaster
    decide
  · intro hin
    have hmaster := hin.master
    rw [hisr', hwait] at hmaster
    revert hmaster
    decide

end InterruptState

end PastaOS
