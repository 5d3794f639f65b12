import Mathlib.Data.List.Basic
import PastaOS.Interrupt.Effect

/-!
# The descriptor table

The table the processor looks an interrupt up in, as `idt_init` fills it in and
`install_interrupt_handler` changes it afterwards.

`Interrupts.attribs` is all of the table that the rest of `interrupt.c` cares about; here are whole
descriptors, and what the processor makes of the bytes they consist of (`fetchGate`).
`fetchGate_of_run` puts the two together: wherever the calls of `interrupt.c` have led to, every
vector still leads to its own hook.
-/

set_option autoImplicit false

namespace PastaOS

/-- `KERNEL_CODE` -/
def KERNEL_CODE : BitVec 16 := 0x10

/-! ## Descriptors -/

/-- `idt_entry_t` -/
structure IdtEntry where
  /-- The lower half of the offset. -/
  offset0_15 : BitVec 16
  /-- The code segment. -/
  selector : BitVec 16
  /-- The number of parameters. -/
  paramcnt : Byte
  /-- The kind of gate. -/
  attribs : Byte
  /-- The upper half of the offset. -/
  offset16_31 : BitVec 16
  deriving DecidableEq

/-- `idt`; an index of `setup_idt_entry` is a byte. -/
abbrev Idt := Byte → IdtEntry

/-- `idt_ptr.limit` -/
def idtLimit : BitVec 16 := BitVec.ofNat 16 (IDT_SIZE * 8 - 1)

/-- The bytes of a descriptor. -/
def IdtEntry.bytes (e : IdtEntry) : List Byte :=
  [e.offset0_15.setWidth 8, (e.offset0_15 >>> 8).setWidth 8,
    e.selector.setWidth 8, (e.selector >>> 8).setWidth 8, e.paramcnt, e.attribs,
    e.offset16_31.setWidth 8, (e.offset16_31 >>> 8).setWidth 8]

/-- The bytes of the table. -/
def Idt.bytes (idt : Idt) (k : ℕ) : Byte := (idt (BitVec.ofNat 8 (k / 8))).bytes.getD (k % 8) 0

/-- What the processor reads from a descriptor. -/
structure Gate where
  /-- The code segment. -/
  selector : BitVec 16
  /-- The address of the first instruction. -/
  offset : Word
  /-- Whether interrupts stay enabled. -/
  trap : Bool
  deriving DecidableEq

/-- The bytes of a present 32-bit gate. -/
def decodeGate (b : ℕ → Byte) : Option Gate :=
  if b 5 &&& 0x9e = 0x8e then
    some ⟨b 3 ++ b 2, (b 7 ++ b 6) ++ (b 1 ++ b 0), b 5 &&& 1 ≠ 0⟩
  else none

/-- The processor looks a vector up in the table at the address in its register. -/
def fetchGate (limit : BitVec 16) (mem : ℕ → Byte) (v : Byte) : Option Gate :=
  if limit.toNat < 8 * v.toNat + 7 then none else decodeGate fun k ↦ mem (8 * v.toNat + k)

/-! ## The hooks -/

/-- The hooks of `irq.S`. -/
inductive Hook
  /-- `_exc_00` to `_exc_0F` -/
  | exc (n : Fin 16)
  /-- `_exc_unhand` -/
  | excUnhand
  /-- `_irq_00` to `_irq_0F` -/
  | irq (n : Fin IRQ_NR)
  /-- `_irq_unhand` -/
  | irqUnhand
  deriving DecidableEq

/-- `setup_idt_entry` -/
def setupIdtEntry (i : Byte) (selector : BitVec 16) (offset : Word) (attribs paramcnt : Byte)
    (idt : Idt) : Idt :=
  Function.update idt i
    { offset0_15 := (offset &&& 0xFFFF).setWidth 16
      offset16_31 := (offset >>> 16).setWidth 16
      selector := selector
      attribs := attribs
      paramcnt := paramcnt }

/-- `set_intr_gate` -/
def setIntrGate (i : Word) (addr : Word) (idt : Idt) : Idt :=
  setupIdtEntry (i.setWidth 8) KERNEL_CODE addr INT_GATE 0 idt

/-- `set_trap_gate` -/
def setTrapGate (i : Word) (addr : Word) (idt : Idt) : Idt :=
  setupIdtEntry (i.setWidth 8) KERNEL_CODE addr TRAP_GATE 0 idt

section

local instance : NeZero IRQ_NR := ⟨by decide⟩

/-- `idt_init`, for hooks at given addresses. -/
def idtInitTable (addr : Hook → Word) (idt : Idt) : Idt :=
  let idt := (List.range' 0x00 0x20).foldl
    (fun idt i ↦ setIntrGate (BitVec.ofNat 32 i) (addr .excUnhand) idt) idt
  let idt := setTrapGate 0x00 (addr (.exc 0x00)) idt
  let idt := setTrapGate 0x01 (addr (.exc 0x01)) idt
  let idt := setIntrGate 0x02 (addr (.exc 0x02)) idt
  let idt := setTrapGate 0x03 (addr (.exc 0x03)) idt
  let idt := setTrapGate 0x04 (addr (.exc 0x04)) idt
  let idt := setTrapGate 0x05 (addr (.exc 0x05)) idt
  let idt := setTrapGate 0x06 (addr (.exc 0x06)) idt
  let idt := setTrapGate 0x07 (addr (.exc 0x07)) idt
  let idt := setTrapGate 0x08 (addr (.exc 0x08)) idt
  let idt := setTrapGate 0x09 (addr (.exc 0x09)) idt
  let idt := setTrapGate 0x0a (addr (.exc 0x0a)) idt
  let idt := setTrapGate 0x0b (addr (.exc 0x0b)) idt
  let idt := setTrapGate 0x0c (addr (.exc 0x0c)) idt
  let idt := setTrapGate 0x0d (addr (.exc 0x0d)) idt
  let idt := setIntrGate 0x0e (addr (.exc 0x0e)) idt
  let idt := setIntrGate 0x0f (addr (.exc 0x0f)) idt
  let idt := (List.range' 0x20 0xe0).foldl
    (fun idt i ↦ setIntrGate (BitVec.ofNat 32 i) (addr .irqUnhand) idt) idt
  let idt := setTrapGate 0x20 (addr (.irq 0x00)) idt
  let idt := setTrapGate 0x21 (addr (.irq 0x01)) idt
  let idt := setTrapGate 0x22 (addr (.irq 0x02)) idt
  let idt := setTrapGate 0x23 (addr (.irq 0x03)) idt
  let idt := setTrapGate 0x24 (addr (.irq 0x04)) idt
  let idt := setTrapGate 0x25 (addr (.irq 0x05)) idt
  let idt := setTrapGate 0x26 (addr (.irq 0x06)) idt
  let idt := setTrapGate 0x27 (addr (.irq 0x07)) idt
  let idt := setTrapGate 0x28 (addr (.irq 0x08)) idt
  let idt := setTrapGate 0x29 (addr (.irq 0x09)) idt
  let idt := setTrapGate 0x2a (addr (.irq 0x0a)) idt
  let idt := setTrapGate 0x2b (addr (.irq 0x0b)) idt
  let idt := setTrapGate 0x2c (addr (.irq 0x0c)) idt
  let idt := setTrapGate 0x2d (addr (.irq 0x0d)) idt
  let idt := setTrapGate 0x2e (addr (.irq 0x0e)) idt
  setTrapGate 0x2f (addr (.irq 0x0f)) idt

/-- `idt[0x20 + irq].attribs = type;`, which `install_interrupt_handler` does for a line it does not
reject. -/
def installGate (irq type : Int) (idt : Idt) : Idt :=
  if irq > IRQ_NR then idt
  else
    let i := BitVec.ofInt 8 (0x20 + irq)
    Function.update idt i { idt i with attribs := BitVec.ofInt 8 type }

/-! ## What `idt_init` leaves behind -/

/-- The hook of a vector. -/
def hookOf (v : Byte) : Hook :=
  if v.toNat < 0x10 then .exc (Fin.ofNat 16 v.toNat)
  else if v.toNat < 0x20 then .excUnhand
  else if v.toNat < 0x30 then .irq (Fin.ofNat IRQ_NR (v.toNat - 0x20))
  else .irqUnhand

/-- A descriptor of the kernel. -/
def kernelEntry (offset : Word) (attribs : Byte) : IdtEntry :=
  ⟨(offset &&& 0xFFFF).setWidth 16, KERNEL_CODE, 0, attribs, (offset >>> 16).setWidth 16⟩

/-- The kind of gate `idt_init` gives a vector. -/
def initialGate (v : Byte) : Byte :=
  if v.toNat = 0x02 ∨ (0x0e ≤ v.toNat ∧ v.toNat < 0x20) ∨ 0x30 ≤ v.toNat then INT_GATE
  else TRAP_GATE

/-- The calls for the exceptions that have a hook. -/
def excCalls : List (Word × Hook × Byte) :=
  [(0x00, .exc 0x00, TRAP_GATE), (0x01, .exc 0x01, TRAP_GATE), (0x02, .exc 0x02, INT_GATE),
    (0x03, .exc 0x03, TRAP_GATE), (0x04, .exc 0x04, TRAP_GATE), (0x05, .exc 0x05, TRAP_GATE),
    (0x06, .exc 0x06, TRAP_GATE), (0x07, .exc 0x07, TRAP_GATE), (0x08, .exc 0x08, TRAP_GATE),
    (0x09, .exc 0x09, TRAP_GATE), (0x0a, .exc 0x0a, TRAP_GATE), (0x0b, .exc 0x0b, TRAP_GATE),
    (0x0c, .exc 0x0c, TRAP_GATE), (0x0d, .exc 0x0d, TRAP_GATE), (0x0e, .exc 0x0e, INT_GATE),
    (0x0f, .exc 0x0f, INT_GATE)]

/-- The calls for the lines. -/
def irqCalls : List (Word × Hook × Byte) :=
  [(0x20, .irq 0x00, TRAP_GATE), (0x21, .irq 0x01, TRAP_GATE), (0x22, .irq 0x02, TRAP_GATE),
    (0x23, .irq 0x03, TRAP_GATE), (0x24, .irq 0x04, TRAP_GATE), (0x25, .irq 0x05, TRAP_GATE),
    (0x26, .irq 0x06, TRAP_GATE), (0x27, .irq 0x07, TRAP_GATE), (0x28, .irq 0x08, TRAP_GATE),
    (0x29, .irq 0x09, TRAP_GATE), (0x2a, .irq 0x0a, TRAP_GATE), (0x2b, .irq 0x0b, TRAP_GATE),
    (0x2c, .irq 0x0c, TRAP_GATE), (0x2d, .irq 0x0d, TRAP_GATE), (0x2e, .irq 0x0e, TRAP_GATE),
    (0x2f, .irq 0x0f, TRAP_GATE)]

/-- The calls of `set_intr_gate` and `set_trap_gate` in `idt_init`. -/
def idtCalls : List (Word × Hook × Byte) :=
  (List.range' 0x00 0x20).map (fun i ↦ (BitVec.ofNat 32 i, .excUnhand, INT_GATE)) ++ excCalls ++
  (List.range' 0x20 0xe0).map (fun i ↦ (BitVec.ofNat 32 i, .irqUnhand, INT_GATE)) ++ irqCalls

/-- A call of `setup_idt_entry` by `idt_init`, with the address of its hook. -/
def idtCall (addr : Hook → Word) (idt : Idt) (c : Word × Hook × Byte) : Idt :=
  setupIdtEntry (c.1.setWidth 8) KERNEL_CODE (addr c.2.1) c.2.2 0 idt

end

variable {addr : Hook → Word} {idt : Idt} {v : Byte}

theorem idtInitTable_eq : idtInitTable addr idt = idtCalls.foldl (idtCall addr) idt := by
  simp only [idtCalls, excCalls, irqCalls, List.foldl_append, List.foldl_map]
  rfl

/-- The last call for a vector decides. -/
theorem foldl_idtCall {cs : List (Word × Hook × Byte)} {hook : Hook} {attribs : Byte}
    (h : (cs.reverse.find? fun c ↦ Nat.beq (c.1.toNat % 256) v.toNat).map Prod.snd
      = some (hook, attribs)) :
    cs.foldl (idtCall addr) idt v = kernelEntry (addr hook) attribs := by
  induction cs using List.reverseRecOn with
  | nil => simp at h
  | append_singleton cs c ih =>
    rw [List.reverse_append, List.reverse_singleton, List.singleton_append, List.find?_cons] at h
    rw [List.foldl_append, List.foldl_cons, List.foldl_nil, idtCall, setupIdtEntry]
    have hkey : (c.1.setWidth 8).toNat = c.1.toNat % 256 := BitVec.toNat_setWidth 8 c.1
    by_cases hv : c.1.setWidth 8 = v
    · rw [← hkey, hv, Nat.beq_refl] at h
      obtain ⟨rfl, rfl⟩ := Prod.mk.inj (Option.some.inj h)
      rw [hv, Function.update_self]
      rfl
    · have hne : Nat.beq (c.1.toNat % 256) v.toNat = false := by
        rw [← hkey, ← Bool.not_eq_true, Nat.beq_eq]
        exact fun he ↦ hv (BitVec.eq_of_toNat_eq he)
      rw [hne] at h
      rw [Function.update_of_ne (Ne.symm hv)]
      exact ih h

theorem idtCalls_find : ∀ v : Fin 256,
    (idtCalls.reverse.find? fun c ↦ Nat.beq (c.1.toNat % 256) v.val).map Prod.snd
      = some (hookOf (BitVec.ofFin v), initialGate (BitVec.ofFin v)) := by
  decide +kernel

/-- **Every vector has its hook.** -/
theorem idtInitTable_apply (v : Byte) :
    idtInitTable addr idt v = kernelEntry (addr (hookOf v)) (initialGate v) := by
  rw [idtInitTable_eq]
  exact foldl_idtCall (idtCalls_find v.toFin)

/-! ## What the processor reads -/

theorem append_halves {n : ℕ} (w : BitVec (n + n)) :
    (w >>> n).setWidth n ++ w.setWidth n = w := by
  ext i hi
  rw [BitVec.getElem_append]
  split
  · simp [BitVec.getLsbD_eq_getElem hi]
  · rename_i h
    have hni : n + (i - n) = i := by omega
    simp [hni, BitVec.getLsbD_eq_getElem hi]

theorem lower_half (w : Word) : (w &&& 0xFFFF).setWidth 16 = w.setWidth 16 := by
  have hones : (0xFFFF : Word).setWidth 16 = BitVec.allOnes 16 := by decide
  rw [BitVec.setWidth_and, hones, BitVec.and_allOnes]

/-- A descriptor, taken apart into bytes and put together. -/
theorem kernelEntry_offset (offset : Word) (attribs : Byte) :
    (kernelEntry offset attribs).offset16_31 ++ (kernelEntry offset attribs).offset0_15
      = offset := by
  rw [kernelEntry, lower_half]
  exact append_halves (n := 16) offset

theorem idt_bytes (idt : Idt) (v : Byte) {k : ℕ} (hk : k < 8) :
    idt.bytes (8 * v.toNat + k) = (idt v).bytes.getD k 0 := by
  have hdiv : (8 * v.toNat + k) / 8 = v.toNat := by omega
  have hmod : (8 * v.toNat + k) % 8 = k := by omega
  rw [Idt.bytes, hdiv, hmod, BitVec.ofNat_toNat, BitVec.setWidth_eq]

/-- The processor reads what has been written. -/
theorem fetchGate_eq (idt : Idt) (v : Byte) : fetchGate idtLimit idt.bytes v
    = if (idt v).attribs &&& 0x9e = 0x8e then
        some ⟨(idt v).selector, (idt v).offset16_31 ++ (idt v).offset0_15,
            (idt v).attribs &&& 1 ≠ 0⟩
      else none := by
  have hlimit : ¬ idtLimit.toNat < 8 * v.toNat + 7 := by
    have hv := v.isLt
    have hl : idtLimit.toNat = 2047 := rfl
    omega
  have hword {w : BitVec 16} : (w >>> 8).setWidth 8 ++ w.setWidth 8 = w := append_halves (n := 8) w
  rw [fetchGate, if_neg hlimit, decodeGate]
  simp only [idt_bytes idt v (show 0 < 8 by decide), idt_bytes idt v (show 1 < 8 by decide),
    idt_bytes idt v (show 2 < 8 by decide), idt_bytes idt v (show 3 < 8 by decide),
    idt_bytes idt v (show 5 < 8 by decide), idt_bytes idt v (show 6 < 8 by decide),
    idt_bytes idt v (show 7 < 8 by decide), IdtEntry.bytes, List.getD_cons_zero,
    List.getD_cons_succ, hword]

/-! ## Runs -/

/-- The table holds the hooks, and these attributes. -/
def Leads (addr : Hook → Word) (attribs : Fin IDT_SIZE → Byte) (idt : Idt) : Prop :=
  ∀ v, idt v = kernelEntry (addr (hookOf v)) (attribs v.toFin)

theorem Leads.fetchGate {attribs : Fin IDT_SIZE → Byte} (h : Leads addr attribs idt) (v : Byte) :
    fetchGate idtLimit idt.bytes v
      = if attribs v.toFin &&& 0x9e = 0x8e then
          some ⟨KERNEL_CODE, addr (hookOf v), attribs v.toFin &&& 1 ≠ 0⟩
        else none := by
  rw [fetchGate_eq, h v, kernelEntry_offset]
  rfl

theorem idtInit_attribs (s : Interrupts) (v : Byte) :
    (idtInit s).attribs v.toFin = initialGate v := by
  have hv : (v.toFin : ℕ) < 0x100 := v.isLt
  simp only [idtInit, setGates, initialGate, BitVec.toNat]
  split_ifs <;> first | rfl | omega

/-- The two models of `idt_init` agree. -/
theorem leads_idtInit (s : Interrupts) :
    Leads addr (idtInit s).attribs (idtInitTable addr idt) := by
  intro v
  rw [idtInit_attribs]
  exact idtInitTable_apply v

/-- What an event does to the table. -/
def Event.table : Event → Idt → Idt
  | .install irq _ type, idt => installGate irq type idt
  | _, idt => idt

/-- The table after these events. -/
def idtAfter (addr : Hook → Word) (idt : Idt) (es : List Event) : Idt :=
  es.foldl (fun idt e ↦ e.table idt) (idtInitTable addr idt)

theorem ofInt_idtEntry (i : Fin IRQ_NR) :
    BitVec.ofInt 8 (0x20 + (i : ℕ)) = BitVec.ofFin (idtEntry i) := by
  revert i
  decide

theorem hookOf_idtEntry (i : Fin IRQ_NR) : hookOf (BitVec.ofFin (idtEntry i)) = .irq i := by
  revert i
  decide

/-- The two models of `install_interrupt_handler` agree. -/
theorem leads_install {irq type r : Int} {handler : Handler} {irqs irqs' : Interrupts}
    (hI : Leads addr irqs.attribs idt)
    (h : installInterruptHandler irq handler type irqs = some (r, irqs')) :
    Leads addr irqs'.attribs (installGate irq type idt) := by
  rcases install_cases h with ⟨hirq, -, rfl⟩ | ⟨i, rfl, -, -, -⟩
  · rwa [installGate, if_pos hirq]
  · have hi : ¬ ((i : ℕ) : Int) > IRQ_NR := by omega
    rw [install_line] at h
    obtain ⟨-, rfl⟩ := Prod.mk.inj (Option.some.inj h)
    rw [(sameTables_outMask _ _).attribs, installGate, if_neg hi, ofInt_idtEntry]
    intro v
    by_cases hv : v = BitVec.ofFin (idtEntry i)
    · subst hv
      rw [Function.update_self, hI]
      simp only [kernelEntry, Function.update_self]
    · have hv' : v.toFin ≠ idtEntry i := fun he ↦ hv (BitVec.eq_of_toFin_eq he)
      rw [Function.update_of_ne hv, hI]
      simp only [kernelEntry, Function.update_of_ne hv']

theorem uninstall_attribs {irq r : Int} {irqs irqs' : Interrupts}
    (h : uninstallInterruptHandler irq irqs = some (r, irqs')) : irqs'.attribs = irqs.attribs := by
  rcases uninstall_cases h with ⟨-, -, rfl⟩ | ⟨i, rfl, -⟩
  · rfl
  · rw [uninstall_line] at h
    obtain ⟨-, rfl⟩ := Prod.mk.inj (Option.some.inj h)
    exact (sameTables_outMask _ _).attribs

namespace InterruptState

variable {s t b : InterruptState} {e : Event} {es : List Event} {master slave : Pic}

/-- The attributes only change when a line is installed. -/
theorem Step.attribs (h : Step s e t) : t.irqs.attribs = s.irqs.attribs ∨
    ∃ i : Fin IRQ_NR, ∃ handler type, e = .install (i : ℕ) handler type ∧
      t.irqs.attribs = Function.update s.irqs.attribs (idtEntry i) (BitVec.ofInt 8 type) := by
  cases h.transition with
  | interrupt => exact .inl (sameTables_deliver _ _ _).attribs
  | @ack f _ _ _ _ hcall =>
    obtain ⟨irqs', hcall', heq⟩ := maskAndAckIrq_line f.irq s.irqs
    obtain rfl := Option.some.inj (hcall.symm.trans hcall')
    exact .inl heq.attribs
  | panic | dispatch | ret | iret | setFlag => exact .inl rfl
  | eoi _ _ hcall | endOfIrq _ _ hcall =>
    rw [endOfIrq_line] at hcall
    obtain rfl := Option.some.inj hcall
    exact .inl (sameTables_outMask _ _).attribs
  | install _ hcall =>
    rcases install_cases hcall with ⟨-, -, rfl⟩ | ⟨i, rfl, -⟩
    · exact .inl rfl
    · rw [install_line] at hcall
      obtain ⟨-, rfl⟩ := Prod.mk.inj (Option.some.inj hcall)
      exact .inr ⟨i, _, _, rfl, (sameTables_outMask _ _).attribs⟩
  | uninstall _ hcall => exact .inl (uninstall_attribs hcall)

/-- The two models of the table stay together. -/
theorem Step.leads (h : Step s e t) (hI : Leads addr s.irqs.attribs idt) :
    Leads addr t.irqs.attribs (e.table idt) := by
  cases h.transition with
  | install _ hcall => exact leads_install hI hcall
  | interrupt | ack | panic | dispatch | ret | iret | setFlag | eoi | endOfIrq | uninstall =>
    rcases h.attribs with heq | ⟨i, handler, type, he, -⟩
    · exact heq ▸ hI
    · contradiction

theorem boot_attribs (hb : boot master slave = some b) :
    ∃ irqs, b.irqs.attribs = (idtInit irqs).attribs := by
  rw [boot] at hb
  obtain ⟨irqs, -, h⟩ := Option.bind_eq_some_iff.mp hb
  obtain rfl := Option.some.inj h
  refine ⟨irqs, ?_⟩
  simp only [interruptInit, irqInit, andMask, (sameTables_out _ _ _).attribs]

theorem leads_run (hb : boot master slave = some b) (hr : Run Step b es s) :
    Leads addr s.irqs.attribs (idtAfter addr idt es) := by
  refine Run.invariant_history (I := fun es s ↦ Leads addr s.irqs.attribs (idtAfter addr idt es)) ?_
    ?_ hr
  · intro js s e t hI hs
    rw [idtAfter, List.foldl_append]
    exact hs.leads hI
  · obtain ⟨irqs, hirqs⟩ := boot_attribs hb
    exact hirqs ▸ leads_idtInit irqs

/-- Vectors that are no lines keep their gates. -/
theorem attribs_run (hb : boot master slave = some b) (hr : Run Step b es s)
    (hv : v.toNat < 0x20 ∨ 0x30 ≤ v.toNat) : s.irqs.attribs v.toFin = initialGate v := by
  refine Run.invariant (I := fun s ↦ s.irqs.attribs v.toFin = initialGate v) ?_ ?_ hr
  · intro s e t hI hs
    rcases hs.attribs with heq | ⟨i, handler, type, -, heq⟩
    · rw [heq, hI]
    · have hne : v.toFin ≠ idtEntry i := by
        intro he
        have hval := congrArg Fin.val he
        have hi : i.val < 16 := i.isLt
        change v.toNat = 0x20 + i.val at hval
        omega
      rw [heq, Function.update_of_ne hne, hI]
  · obtain ⟨irqs, hirqs⟩ := boot_attribs hb
    rw [hirqs, idtInit_attribs]

/-- **Every vector leads to its hook.**  Wherever the calls of `interrupt.c` and the interrupts have
led to:

* what the processor finds for a vector is the hook of the vector, in the kernel's code segment;
* only a line can be without a gate, after an installation with a type that is none;
* an interrupt that is accepted finds the hook of its line, and keeps interrupts enabled exactly if
  the gate is a trap gate. -/
theorem fetchGate_of_run (hb : boot master slave = some b) (hr : Run Step b es s) :
    (∀ v g, fetchGate idtLimit (idtAfter addr idt es).bytes v = some g →
      g.selector = KERNEL_CODE ∧ g.offset = addr (hookOf v)) ∧
    (∀ v : Byte, v.toNat < 0x20 ∨ 0x30 ≤ v.toNat →
      fetchGate idtLimit (idtAfter addr idt es).bytes v ≠ none) ∧
    ∀ irq spurious t, Step s (.interrupt irq spurious) t →
      ∃ g, fetchGate idtLimit (idtAfter addr idt es).bytes (BitVec.ofFin (idtEntry irq)) = some g ∧
        g.offset = addr (.irq irq) ∧ t.flag = g.trap := by
  have hleads : Leads addr s.irqs.attribs (idtAfter addr idt es) := leads_run hb hr
  have hfetch := hleads.fetchGate
  refine ⟨?_, ?_, ?_⟩
  · intro v g hg
    rw [hfetch v] at hg
    simp only [Option.ite_none_right_eq_some, Option.some.injEq] at hg
    obtain ⟨-, rfl⟩ := hg
    exact ⟨rfl, rfl⟩
  · intro v hv
    have hgate : initialGate v &&& 0x9e = 0x8e := by
      rw [initialGate]
      split_ifs <;> rfl
    rw [hfetch v, attribs_run hb hr hv, if_pos hgate]
    exact Option.some_ne_none _
  · intro irq spurious t hs
    cases hs.transition with
    | interrupt hflag hgate =>
      rw [hfetch, hookOf_idtEntry]
      rw [gateFlag, hflag] at hgate
      split_ifs at hgate with htrap hint
      · obtain rfl := Option.some.inj hgate
        exact ⟨_, by rw [htrap]; rfl, rfl, rfl⟩
      · obtain rfl := Option.some.inj hgate
        exact ⟨_, by rw [hint]; rfl, rfl, rfl⟩

/-- The theorem for a keyboard that is installed behind an interrupt gate. -/
theorem fetchGate_of_run_keyboard : ∃ b s t, boot picReset picReset = some b ∧
    Run Step b [.install 1 (.fn 1) 0x8e] s ∧ Step s (.interrupt 1 false) t ∧ t.flag = false ∧
    ∃ g, fetchGate idtLimit
        (idtAfter (fun _ ↦ 0x101230) (fun _ ↦ ⟨0, 0, 0, 0, 0⟩) [.install 1 (.fn 1) 0x8e]).bytes
        (BitVec.ofFin (idtEntry 1)) = some g ∧ g.offset = 0x101230 ∧ t.flag = g.trap := by
  have h : ((boot picReset picReset).bind fun b ↦ (b.step (.install 1 (.fn 1) 0x8e)).bind fun s ↦
      (s.step (.interrupt 1 false)).map flag) = some false := by
    decide +kernel
  obtain ⟨b, hb, h⟩ := Option.bind_eq_some_iff.mp h
  obtain ⟨s, hs, h⟩ := Option.bind_eq_some_iff.mp h
  obtain ⟨t, ht, hflag⟩ := Option.map_eq_some_iff.mp h
  have hr : Run Step b [.install 1 (.fn 1) 0x8e] s := .cons hs (.nil s)
  exact ⟨b, s, t, hb, hr, ht, hflag, (fetchGate_of_run hb hr).2.2 1 false t ht⟩

end InterruptState

end PastaOS
