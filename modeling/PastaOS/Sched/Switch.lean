import PastaOS.Sched.Defs

/-!
# Stacks and the context switch

What the assembly of `switch_to` and the hand-built frame of `stack_init` do to memory, and whose
memory that is.

Every task has *private* cells: the words of its stack and its `sp`.  The layout keeps the private
cells of different tasks apart (`Layout.Private.disjoint`).  `switch_to` writes only private cells
of the task it leaves (`switchTo_frame`), where it lays out a frame (`switchTo_saves`), and it
loads the registers from whatever frame lies at the stack pointer it is given
(`switchTo_restores`, `switchTo_loads`).  `stack_init` writes only private cells of the new task
(`taskInit_frame`), where it lays out the same kind of frame (`taskInit_words`).
-/

set_option autoImplicit false

namespace PastaOS

open StackMachine

universe u

variable {τ : Type u} [DecidableEq τ]

/-! ## Private memory -/

namespace Layout

variable (L : Layout τ)

/-- The lowest address of the stack a task runs on. -/
def stackBase (t : τ) : Word := if t = L.initTask then L.bootStack else L.stack t

/-- The `i`-th word of the stack a task runs on. -/
def stackWord (t : τ) (i : ℕ) : Word := L.stackBase t + BitVec.ofNat 32 (4 * i)

/-- The words of a task's stack. -/
def OwnWord (t : τ) (a : Word) : Prop := ∃ i, i < 1024 ∧ a = L.stackWord t i

/-- The cells nobody but the task itself and the scheduler on its behalf may write. -/
def Private (t : τ) (a : Word) : Prop := L.OwnWord t a ∨ a = L.spCell t

variable {L} {t u : τ} {a : Word}

omit [DecidableEq τ] in
theorem spCell_toNat : (L.spCell t).toNat = (L.addr t).toNat + 4104 := by
  have := L.inSpace t
  simp only [spCell]
  bv_omega

omit [DecidableEq τ] in
theorem stack_toNat : (L.stack t).toNat = (L.addr t).toNat + 8 := by
  have := L.inSpace t
  simp only [stack]
  bv_omega

theorem stackBase_of_ne (ht : t ≠ L.initTask) : L.stackBase t = L.stack t := if_neg ht

theorem stackBase_bound : (L.stackBase t).toNat + 4096 ≤ 2 ^ 32 := by
  rw [stackBase]
  split
  · exact L.bootInSpace
  · have := L.inSpace t
    rw [stack_toNat]
    omega

theorem stackWord_toNat {i : ℕ} (hi : i < 1024) :
    (L.stackWord t i).toNat = (L.stackBase t).toNat + 4 * i := by
  have := L.stackBase_bound (t := t)
  simp only [stackWord]
  bv_omega

/-- Going down the stack by words. -/
theorem stackWord_sub {i j : ℕ} (hj : j ≤ i) :
    L.stackWord t i - BitVec.ofNat 32 (4 * j) = L.stackWord t (i - j) := by
  simp only [stackWord]
  bv_omega

/-- Going up the stack by words. -/
theorem stackWord_add (i j : ℕ) :
    L.stackWord t i + BitVec.ofNat 32 (4 * j) = L.stackWord t (i + j) := by
  simp only [stackWord]
  bv_omega

/-- The private cells of a task lie inside the task or, for `init_task`, in the boot stack. -/
theorem Private.range (ha : L.Private t a) :
    ((L.addr t).toNat ≤ a.toNat ∧ a.toNat < (L.addr t).toNat + 4120) ∨
      (t = L.initTask ∧ L.bootStack.toNat ≤ a.toNat ∧ a.toNat < L.bootStack.toNat + 4096) := by
  rcases ha with ⟨i, hi, rfl⟩ | rfl
  · rw [stackWord_toNat hi]
    by_cases ht : t = L.initTask
    · simp only [stackBase, if_pos ht]
      exact .inr ⟨ht, by omega⟩
    · rw [stackBase_of_ne ht, stack_toNat]
      exact .inl (by omega)
  · rw [spCell_toNat]
    exact .inl (by omega)

/-- **Private means private.**  Different tasks have no private cell in common. -/
theorem Private.disjoint (htu : t ≠ u) (ht : L.Private t a) : ¬ L.Private u a := by
  intro hu
  have hap := L.apart t u htu
  have hbt := L.bootApart t
  have hbu := L.bootApart u
  rcases ht.range with h | ⟨rfl, h⟩ <;> rcases hu.range with h' | ⟨rfl, h'⟩
  · omega
  · omega
  · omega
  · exact htu rfl

/-- The `sp` of a task is not on its stack. -/
theorem spCell_ne_stackWord {i : ℕ} (hi : i < 1024) : L.spCell t ≠ L.stackWord t i := by
  intro h
  have hnat := congrArg BitVec.toNat h
  rw [spCell_toNat, stackWord_toNat hi, stackBase] at hnat
  split at hnat
  · have := L.bootApart t
    omega
  · rw [stack_toNat] at hnat
    omega

end Layout

/-! ## `switch_to` -/

/-- The registers `switch_to` saves, in the order it pushes them. -/
def savedRegs : List Reg := [.eax, .ecx, .edx, .ebx, .ebp, .esi, .edi]

theorem esp_notMem_savedRegs : Reg.esp ∉ savedRegs := by decide

theorem mem_savedRegs {r : Reg} (hr : r ≠ .esp) : r ∈ savedRegs := by
  cases r <;> first | decide | exact absurd rfl hr

/-- The frame of a machine: its registers, from the bottom upwards. -/
def frameOf (m : Machine) : List Word := savedRegs.reverse.map m.gpr

variable {L : Layout τ} {o : Operands}

theorem switchToAsm_eq : switchToAsm o = savedRegs.map .push ++
    [.movStore .esp o.old, .mov o.new .esp] ++ savedRegs.reverse.map .pop ++ [.ret] := rfl

@[simp] theorem atSwitchTo_esp (n s : Word) (m : Machine) :
    (atSwitchTo o n s m).gpr .esp = m.gpr .esp := by
  simp [atSwitchTo, o.new_ne_esp.symm, o.old_ne_esp.symm]

@[simp] theorem atSwitchTo_mem (n s : Word) (m : Machine) : (atSwitchTo o n s m).mem = m.mem := rfl

@[simp] theorem atSwitchTo_old (n s : Word) (m : Machine) :
    (atSwitchTo o n s m).gpr o.old = s := by simp [atSwitchTo]

@[simp] theorem atSwitchTo_new (n s : Word) (m : Machine) :
    (atSwitchTo o n s m).gpr o.new = n := by simp [atSwitchTo, o.ne]

/-- The machine between the pushes and the pops: the registers are saved and the stack is the new
one. -/
def halfway (o : Operands) (n s : Word) (m : Machine) : Machine :=
  ((execAll (savedRegs.map .push) (atSwitchTo o n s m)).store s (m.gpr .esp - 28#32)).setReg .esp n

theorem switchTo_eq (n s : Word) (m : Machine) :
    switchTo o n s m = exec .ret (execAll (savedRegs.reverse.map .pop) (halfway o n s m)) := by
  have hold : (execAll (savedRegs.map .push) (atSwitchTo o n s m)).gpr o.old = s := by
    rw [pushes_gpr _ o.old_ne_esp, atSwitchTo_old]
  have hnew : (execAll (savedRegs.map .push) (atSwitchTo o n s m)).gpr o.new = n := by
    rw [pushes_gpr _ o.new_ne_esp, atSwitchTo_new]
  have hesp : (execAll (savedRegs.map .push) (atSwitchTo o n s m)).gpr .esp
      = m.gpr .esp - 28#32 := by
    rw [pushes_gpr_esp, atSwitchTo_esp]; rfl
  rw [switchTo, switchToAsm_eq, execAll_append, execAll_append, execAll_append]
  simp only [execAll_cons, execAll_nil]
  congr 3
  simp only [halfway, exec, hold, hesp, Machine.store_gpr, hnew]

theorem switchTo_mem (n s : Word) (m : Machine) :
    (switchTo o n s m).mem = Function.update
      (execAll (savedRegs.map .push) (atSwitchTo o n s m)).mem s (m.gpr .esp - 28#32) := by
  rw [switchTo_eq]
  simp only [exec, Machine.setReg, pops_mem, halfway, Machine.store]

/-- The stack pointer has room for a frame: it points to the word `i` of the task's stack, with
seven words below. -/
def Layout.Room (L : Layout τ) (t : τ) (m : Machine) (i : ℕ) : Prop :=
  m.gpr .esp = L.stackWord t i ∧ 7 ≤ i ∧ i < 1024

section Save

variable {t : τ} {m : Machine} {i : ℕ} (n : Word)

/-- `switch_to` writes private cells of the task it leaves, below its stack pointer, and no other
cell. -/
theorem switchTo_frame (hroom : L.Room t m i) {a : Word} (ha : a ≠ L.spCell t)
    (hlow : ∀ j, j < i → a ≠ L.stackWord t j) :
    (switchTo o n (L.spCell t) m).mem a = m.mem a := by
  obtain ⟨hesp, h7, hi⟩ := hroom
  rw [switchTo_mem, Function.update_of_ne ha, pushes_mem_frame, atSwitchTo_mem]
  intro j hj
  have hj7 : j < 7 := hj
  rw [atSwitchTo_esp, hesp, Layout.stackWord_sub (by omega)]
  exact hlow _ (by omega)

theorem switchTo_private (hroom : L.Room t m i) {a : Word} (ha : ¬ L.Private t a) :
    (switchTo o n (L.spCell t) m).mem a = m.mem a := by
  refine switchTo_frame n hroom (fun h ↦ ha (.inr h)) fun j hj h ↦ ha (.inl ⟨j, ?_, h⟩)
  exact hj.trans hroom.2.2

/-- **`switch_to` saves.**  The stack pointer of the task it leaves goes to the task's `sp`, the
registers to a frame there, and the words above stay as they are. -/
theorem switchTo_saves (hroom : L.Room t m i) :
    (switchTo o n (L.spCell t) m).mem (L.spCell t) = L.stackWord t (i - 7) ∧
      Words (switchTo o n (L.spCell t) m).mem (L.stackWord t (i - 7))
        (frameOf (atSwitchTo o n (L.spCell t) m)) ∧
      ∀ j, i ≤ j → j < 1024 →
        (switchTo o n (L.spCell t) m).mem (L.stackWord t j) = m.mem (L.stackWord t j) := by
  have hsub : m.gpr .esp - BitVec.ofNat 32 (4 * savedRegs.length) = L.stackWord t (i - 7) := by
    rw [hroom.1]; exact Layout.stackWord_sub hroom.2.1
  refine ⟨?_, ?_, ?_⟩
  · rw [switchTo_mem, Function.update_self]
    exact hsub
  · have hw := pushes_words (atSwitchTo o n (L.spCell t) m) esp_notMem_savedRegs (by decide)
    rw [atSwitchTo_esp, hsub] at hw
    refine hw.congr ?_
    intro j hj
    have hj7 : j < 7 := hj
    rw [switchTo_mem, Function.update_of_ne]
    rw [Layout.stackWord_add]
    exact (Layout.spCell_ne_stackWord (by have := hroom.2.2; omega)).symm
  · intro j hij hj
    refine switchTo_frame n hroom (Layout.spCell_ne_stackWord hj).symm ?_
    intro k hk h
    have hnat := congrArg BitVec.toNat h
    rw [Layout.stackWord_toNat hj, Layout.stackWord_toNat (by omega)] at hnat
    omega

end Save

/-- **`switch_to` restores.**  When a frame and a return address lie at the new stack pointer —
and `switch_to` itself has not overwritten them — the registers are loaded from the frame, control
goes to the return address, and both are off the stack. -/
theorem switchTo_restores {n s : Word} {m : Machine} {vs : List Word} {ra : Word}
    (hlen : vs.length = 7) (hw : Words (switchTo o n s m).mem n (vs ++ [ra])) :
    frameOf (switchTo o n s m) = vs ∧ (switchTo o n s m).eip = ra ∧
      (switchTo o n s m).gpr .esp = n + 32#32 := by
  have hmem : (switchTo o n s m).mem = (halfway o n s m).mem := by
    rw [switchTo_mem]; rfl
  have hn : (halfway o n s m).gpr .esp = n := by simp [halfway]
  rw [hmem, words_append] at hw
  obtain ⟨hvs, hra, -⟩ := hw
  have hesp_notMem : Reg.esp ∉ savedRegs.reverse := by decide
  have hregs := pops_gpr (halfway o n s m) hesp_notMem (by decide) (by rw [hn]; exact hvs) hlen
  have hesp := pops_gpr_esp (halfway o n s m) hesp_notMem
  rw [hn] at hesp
  rw [switchTo_eq]
  refine ⟨?_, ?_, ?_⟩
  · rw [← hregs, frameOf]
    refine List.map_congr_left ?_
    intro r hr
    have hne : r ≠ .esp := by rintro rfl; exact hesp_notMem hr
    simp [exec, hne]
  · simp only [exec, pops_mem, hesp]
    rw [hlen] at hra
    exact hra
  · simp only [exec, Machine.setReg_gpr, if_true, hesp]
    have hl : savedRegs.reverse.length = 7 := rfl
    rw [hl]
    bv_omega

/-- **`switch_to` goes to the new stack**, whatever lies there: the registers and the instruction
pointer are the eight words it finds at the new stack pointer, and the stack pointer is past
them. -/
theorem switchTo_loads (n s : Word) (m : Machine) :
    (switchTo o n s m).gpr .esp = n + 32#32 ∧ Words (switchTo o n s m).mem n
      (frameOf (switchTo o n s m) ++ [(switchTo o n s m).eip]) := by
  obtain ⟨vs, hlen, hvs⟩ := exists_words (switchTo o n s m).mem n 7
  have hw : Words (switchTo o n s m).mem n
      (vs ++ [(switchTo o n s m).mem (n + BitVec.ofNat 32 (4 * vs.length))]) :=
    words_append.mpr ⟨hvs, rfl, trivial⟩
  obtain ⟨hframe, heip, hesp⟩ := switchTo_restores hlen hw
  refine ⟨hesp, ?_⟩
  rw [hframe, heip]
  exact hw

/-- A frame determines every register but the stack pointer. -/
theorem gpr_of_frameOf_eq {m m' : Machine} (h : frameOf m = frameOf m') {r : Reg}
    (hr : r ≠ .esp) : m.gpr r = m'.gpr r :=
  List.map_inj_left.mp h r (List.mem_reverse.mpr (mem_savedRegs hr))

/-! ## `stack_init` -/

/-- The words `stack_init` pushes, in order. -/
def initialFrame (L : Layout τ) (entry : Word) : List Word :=
  [L.exitPoint, entry, 0, 0, 0, 0, 0, 0, 0]

omit [DecidableEq τ] in
theorem stackInit_cpu (k : Kernel τ) (t : τ) : (stackInit L k t).cpu
    = (initialFrame L (k.entry t)).foldl (fun m v ↦ pushSp L t v m) k.cpu := rfl

section Init

variable {t : τ} {vs : List Word} {m : Machine} {i : ℕ}

omit [DecidableEq τ] in
theorem pushSp_gpr (v : Word) (m : Machine) : (pushSp L t v m).gpr = m.gpr := rfl

/-- One push: from word `i` of the stack to word `i - 1`. -/
theorem pushSp_mem {v : Word} (hsp : m.mem (L.spCell t) = L.stackWord t (i + 1)) (hi : i < 1024) :
    (pushSp L t v m).mem = Function.update
      (Function.update m.mem (L.spCell t) (L.stackWord t i)) (L.stackWord t i) v := by
  have hsub : m.mem (L.spCell t) - 4#32 = L.stackWord t i := by
    rw [hsp]; exact Layout.stackWord_sub (i := i + 1) (j := 1) (by omega)
  simp only [pushSp, hsub, Machine.store]

omit [DecidableEq τ] in
theorem pushSps_gpr : (vs.foldl (fun m v ↦ pushSp L t v m) m).gpr = m.gpr := by
  induction vs generalizing m with
  | nil => rfl
  | cons v vs ih => rw [List.foldl_cons, ih, pushSp_gpr]

/-- **The pushes of `stack_init` lay out a frame**, below the word `sp` pointed to. -/
theorem pushSps_words (hlen : vs.length ≤ i) (hi : i ≤ 1024)
    (hsp : m.mem (L.spCell t) = L.stackWord t i) :
    (vs.foldl (fun m v ↦ pushSp L t v m) m).mem (L.spCell t) = L.stackWord t (i - vs.length) ∧
      Words (vs.foldl (fun m v ↦ pushSp L t v m) m).mem (L.stackWord t (i - vs.length))
        vs.reverse ∧
      ∀ a, a ≠ L.spCell t → (∀ j, j < i → a ≠ L.stackWord t j) →
        (vs.foldl (fun m v ↦ pushSp L t v m) m).mem a = m.mem a := by
  induction vs generalizing m i with
  | nil => exact ⟨hsp, trivial, fun _ _ _ ↦ rfl⟩
  | cons v vs ih =>
    simp only [List.length_cons] at hlen ⊢
    obtain ⟨n, rfl⟩ : ∃ n, i = n + 1 := ⟨i - 1, by omega⟩
    have hmem := pushSp_mem (v := v) hsp (by omega)
    have hne : L.spCell t ≠ L.stackWord t n := Layout.spCell_ne_stackWord (by omega)
    have hsp' : (pushSp L t v m).mem (L.spCell t) = L.stackWord t n := by
      rw [hmem, Function.update_of_ne hne, Function.update_self]
    obtain ⟨h₁, h₂, h₃⟩ := ih (m := pushSp L t v m) (i := n) (by omega) (by omega) hsp'
    have hidx : n + 1 - (vs.length + 1) = n - vs.length := by omega
    rw [hidx, List.foldl_cons]
    refine ⟨h₁, ?_, ?_⟩
    · rw [List.reverse_cons, words_append]
      refine ⟨h₂, ?_, trivial⟩
      have hadd : L.stackWord t (n - vs.length) + BitVec.ofNat 32 (4 * vs.reverse.length)
          = L.stackWord t n := by
        have hsum : n - vs.length + vs.length = n := by omega
        rw [List.length_reverse, Layout.stackWord_add, hsum]
      rw [hadd, h₃ _ hne.symm, hmem, Function.update_self]
      intro j hj h
      have hnat := congrArg BitVec.toNat h
      rw [Layout.stackWord_toNat (by omega), Layout.stackWord_toNat (by omega)] at hnat
      omega
    · intro a ha hlow
      rw [h₃ a ha fun j hj ↦ hlow j (by omega), hmem,
        Function.update_of_ne (hlow n (by omega)), Function.update_of_ne ha]

end Init

/-- The machine a `task_run` leaves to the scheduler. -/
def startCpu (L : Layout τ) (k : Kernel τ) (t : τ) : Machine :=
  (taskInit L k t (k.entry t) (L.stack t) STACK_SIZE).cpu

section Start

variable {k : Kernel τ} {t : τ}

theorem startCpu_eq : startCpu L k t = (initialFrame L (k.entry t)).foldl
    (fun m v ↦ pushSp L t v m) (k.cpu.store (L.spCell t) (L.stack t + 4096#32)) := by
  rw [startCpu, taskInit]
  simp only [Kernel.setState, Kernel.setEntry, stackInit_cpu, Function.update_self]
  rfl

theorem startCpu_gpr : (startCpu L k t).gpr = k.cpu.gpr := by
  rw [startCpu_eq, pushSps_gpr]
  rfl

/-- **`task_init` prepares a frame** at the top of the new task's stack, with zeros for the
registers, the entry point to return to, and `exit_point` above it; it writes nothing but the new
task's stack and `sp`. -/
theorem startCpu_spec (ht : t ≠ L.initTask) :
    (startCpu L k t).mem (L.spCell t) = L.stackWord t 1015 ∧
      Words (startCpu L k t).mem (L.stackWord t 1015)
        (List.replicate 7 0 ++ [k.entry t] ++ [L.exitPoint]) ∧
      ∀ a, ¬ L.Private t a → (startCpu L k t).mem a = k.cpu.mem a := by
  have htop : L.stack t + 4096#32 = L.stackWord t 1024 := by
    rw [Layout.stackWord, Layout.stackBase_of_ne ht]
  have hsp : (k.cpu.store (L.spCell t) (L.stack t + 4096#32)).mem (L.spCell t)
      = L.stackWord t 1024 := by simp [htop]
  have hlen : (initialFrame L (k.entry t)).length = 9 := rfl
  have hrev : (initialFrame L (k.entry t)).reverse
      = List.replicate 7 0 ++ [k.entry t] ++ [L.exitPoint] := rfl
  obtain ⟨h₁, h₂, h₃⟩ := pushSps_words (by rw [hlen]; omega) le_rfl hsp
  rw [hlen] at h₁ h₂
  rw [hrev] at h₂
  rw [startCpu_eq]
  refine ⟨h₁, h₂, ?_⟩
  intro a ha
  rw [h₃ a (fun h ↦ ha (.inr h)) fun j hj h ↦ ha (.inl ⟨j, hj, h⟩)]
  have hne : a ≠ L.spCell t := fun h ↦ ha (.inr h)
  simp [hne]

end Start

end PastaOS
