import PastaOS.Sched.Correct
import PastaOS.Sched.Switch

/-!
# What a task finds when it runs again

The scheduler moves tasks about; here we follow what it does to their registers and stacks, under
the discipline that every task keeps to itself (`Op.Disciplined`): between two calls of the
scheduler it changes its registers and the words of its own stack, and it calls the scheduler with
room for a frame.

`Suspended L p m mem` is the invariant that carries a waiting task `p` through any number of
switches of other tasks: in `mem` lies, at the address in `p->sp`, the frame of the machine `m` that
`p` was switched out with, and above it the live words of its stack.  It only speaks about private
cells of `p`, and no step taken while another task runs writes those (`frame_step`).

`contextSwitch_transparent` is the result: switched to again, the task finds the registers, the
stack pointer, the return address and the live stack it was switched out with, and a task that is
started enters its entry point with cleared registers and `exit_point` to return to.
-/

set_option autoImplicit false

namespace PastaOS

open StackMachine

universe u

variable {τ : Type u} [DecidableEq τ] {L : Layout τ} {o : Operands} {k k' : Kernel τ}
  {a : RoundRobin τ} {op : Op τ}

/-! ## The discipline of tasks -/

/-- A task keeps to its own stack and calls the scheduler with room left there.  The machine at a
call of the scheduler is the one `switch_to` is entered with, so the return address of that call is
the word at the stack pointer. -/
def Op.Disciplined (L : Layout τ) : Op τ → Kernel τ → Prop
  | .compute m, k => ∀ x, ¬ L.OwnWord k.current x → m.mem x = k.cpu.mem x
  | _, k => ∃ i, L.Room k.current k.cpu i

/-- A move of a disciplined task. -/
def TaskStep (L : Layout τ) (o : Operands) (k : Kernel τ) (op : Op τ) (k' : Kernel τ) : Prop :=
  Step L o k op k' ∧ op.Disciplined L k

/-! ## The machine around a switch -/

/-- The machine when an operation has reached `schedule`. -/
def Op.before (L : Layout τ) : Op τ → Kernel τ → Machine
  | .taskRun t, k => startCpu L k t
  | _, k => k.cpu

/-- The machine an operation enters `switch_to` with, when it hands the processor to `next`. -/
def Op.snapshot (L : Layout τ) (o : Operands) (op : Op τ) (k : Kernel τ) (next : τ) : Machine :=
  atSwitchTo o ((op.before L k).mem (L.spCell next)) (L.spCell k.current) (op.before L k)

/-- What an operation does to the processor: a computation, nothing at all, or a switch to
another task. -/
theorem Inv.step_cpu (ha : Inv L k a) (hs : Step L o k op k') :
    (op = .compute k'.cpu ∧ k'.current = k.current) ∨ (op = .schedule ∧ k' = k) ∨
      (k'.current ≠ k.current ∧ (∀ m, op ≠ .compute m) ∧ (∀ t, op = .taskRun t → k'.current = t) ∧
        k'.cpu = switchTo o ((op.before L k).mem (L.spCell k'.current)) (L.spCell k.current)
          (op.before L k)) := by
  obtain ⟨hop, hrun⟩ := hs
  have hnd : a.current ∉ a.queue := (List.nodup_cons.mp a.nodup).1
  cases op with
  | taskRun t =>
    obtain ⟨k₁, k₂, b, hk₂, hab, hb, hin, hsw⟩ :=
      ha.taskRun (o := o) ((ha.not_linked_iff t).mp hop)
    obtain rfl : k₂ = k' := Except.ok.inj (hk₂.symm.trans hrun)
    have hcpu : k₁.cpu = startCpu L k t := hin.cpu.trans (taskInit_spec k t).cpu.symm
    refine .inr (.inr ⟨?_, by simp, ?_, ?_⟩)
    · rw [hsw.current]; exact hop.1
    · intro u hu
      rw [hsw.current]; exact Op.taskRun.inj hu
    · rw [hsw.cpu, hsw.current, Kernel.sp, hcpu, hin.current]; rfl
  | schedule =>
    obtain ⟨k₂, b, hk₂, -, -, hcase⟩ := ha.schedule (o := o)
    obtain rfl : k₂ = k' := Except.ok.inj (hk₂.symm.trans hrun)
    rcases hcase with ⟨-, rfl⟩ | ⟨h, q, hq, -, hsw⟩
    · exact .inr (.inl ⟨rfl, rfl⟩)
    · refine .inr (.inr ⟨?_, by simp, by simp, ?_⟩)
      · rw [hsw.current, ha.current]
        rintro rfl
        exact hnd (hq ▸ List.mem_cons_self)
      · rw [hsw.cpu, hsw.current]; rfl
  | exit =>
    obtain ⟨k₁, k₂, b, hk₂, hab, hb, rfl, hsw, -⟩ := ha.exit (o := o) hop
    obtain rfl : k₂ = k' := Except.ok.inj (hk₂.symm.trans hrun)
    refine .inr (.inr ⟨?_, by simp, by simp, ?_⟩)
    · rw [hsw.current, ha.current]
      exact (hab.mem_exit.mp List.mem_cons_self).2
    · rw [hsw.cpu, hsw.current]; rfl
  | compute m =>
    obtain rfl := Except.ok.inj hrun
    exact .inl ⟨rfl, rfl⟩

omit [DecidableEq τ] in
/-- `init_task` is never started: it runs or waits. -/
theorem Inv.ne_initTask (ha : Inv L k a) {t : τ} (ht : t ≠ k.current ∧ ¬ k.Linked t) :
    t ≠ L.initTask := by
  classical
  rintro rfl
  exact (ha.not_linked_iff _).mp ht ha.init

theorem before_gpr : (op.before L k).gpr = k.cpu.gpr := by
  cases op with
  | taskRun t => exact startCpu_gpr
  | schedule | exit | compute => rfl

/-- On the way to `schedule`, an operation writes nothing but private cells of a task it starts. -/
theorem Inv.before_mem (ha : Inv L k a) (hop : op.Allowed L k) {p : τ} (hp : op ≠ .taskRun p)
    {x : Word} (hx : L.Private p x) : (op.before L k).mem x = k.cpu.mem x := by
  cases op with
  | taskRun t =>
    have htp : p ≠ t := by rintro rfl; exact hp rfl
    exact (startCpu_spec (ha.ne_initTask hop)).2.2 x (hx.disjoint htp)
  | schedule | exit | compute => rfl

theorem Op.Disciplined.room (hd : op.Disciplined L k) (hop : ∀ m, op ≠ .compute m) :
    ∃ i, L.Room k.current (op.before L k) i := by
  have hi : ∃ i, L.Room k.current k.cpu i := by
    cases op with
    | compute m => exact absurd rfl (hop m)
    | taskRun | schedule | exit => exact hd
  simpa only [Layout.Room, before_gpr] using hi

/-- **Others leave a task's memory alone.**  A step that another task takes, and that does not
start `p`, writes no private cell of `p`. -/
theorem frame_step {p : τ} (ha : Inv L k a) (hs : TaskStep L o k op k') (hp : p ≠ k.current)
    (hop : op ≠ .taskRun p) {x : Word} (hx : L.Private p x) : k'.cpu.mem x = k.cpu.mem x := by
  obtain ⟨hs, hd⟩ := hs
  have hx' : ¬ L.Private k.current x := hx.disjoint hp
  rcases ha.step_cpu hs with ⟨rfl, -⟩ | ⟨-, rfl⟩ | ⟨-, hnc, -, hcpu⟩
  · exact hd x fun h ↦ hx' (.inl h)
  · rfl
  · obtain ⟨i, hi⟩ := hd.room hnc
    rw [hcpu, switchTo_private _ hi hx']
    exact ha.before_mem hs.1 hop hx

/-! ## Suspended tasks -/

/-- In `mem`, the task `p` is suspended: it was switched out with the machine `m`. -/
structure Suspended (L : Layout τ) (p : τ) (m : Machine) (mem : Word → Word) (i : ℕ) : Prop where
  /-- The stack pointer pointed to the word `i` of its stack. -/
  room : L.Room p m i
  /-- `p->sp` points to a frame below. -/
  sp : mem (L.spCell p) = L.stackWord p (i - 7)
  /-- The frame holds the registers. -/
  frame : Words mem (L.stackWord p (i - 7)) (frameOf m)
  /-- The live words of the stack. -/
  live : ∀ j, i ≤ j → j < 1024 → mem (L.stackWord p j) = m.mem (L.stackWord p j)

variable {p : τ} {m : Machine} {mem mem' : Word → Word} {i : ℕ}

theorem Suspended.congr (h : Suspended L p m mem i)
    (hmem : ∀ x, L.Private p x → mem' x = mem x) : Suspended L p m mem' i := by
  have hi := h.room.2.2
  refine ⟨h.room, (hmem _ (.inr rfl)).trans h.sp, h.frame.congr ?_, ?_⟩
  · intro j hj
    have hj7 : j < 7 := hj
    rw [Layout.stackWord_add]
    exact hmem _ (.inl ⟨_, by omega, rfl⟩)
  · intro j hij hj
    rw [hmem _ (.inl ⟨j, hj, rfl⟩), h.live j hij hj]

/-- A task that is switched out is suspended. -/
theorem suspended_of_switch (ha : Inv L k a) (hs : TaskStep L o k op k')
    (hne : k'.current ≠ k.current) :
    ∃ i, Suspended L k.current (op.snapshot L o k k'.current) k'.cpu.mem i := by
  obtain ⟨hs, hd⟩ := hs
  rcases ha.step_cpu hs with ⟨-, hc⟩ | ⟨-, rfl⟩ | ⟨-, hnc, -, hcpu⟩
  · exact absurd hc hne
  · exact absurd rfl hne
  · obtain ⟨i, hi⟩ := hd.room hnc
    obtain ⟨hsp, hframe, hlive⟩ :=
      switchTo_saves ((op.before L k).mem (L.spCell k'.current)) (o := o) hi
    rw [← hcpu] at hsp hframe hlive
    refine ⟨i, ⟨?_, hi.2⟩, hsp, hframe, hlive⟩
    rw [Op.snapshot, atSwitchTo_esp]
    exact hi.1

/-- The state of a waiting task, over a step that does not switch to it: it goes on waiting, and it
stays suspended. -/
theorem Suspended.step (h : Suspended L p m k.cpu.mem i) (ha : Inv L k a) (hp : p ∈ a.queue)
    (hs : TaskStep L o k op k') (hne : k'.current ≠ p) :
    ∃ b, Inv L k' b ∧ p ∈ b.queue ∧ Suspended L p m k'.cpu.mem i := by
  have hpc : p ≠ a.current := by
    rintro rfl; exact (List.nodup_cons.mp a.nodup).1 hp
  have hpa : p ∈ a.current :: a.queue := List.mem_cons_of_mem _ hp
  have hop : op ≠ .taskRun p := by
    rintro rfl
    exact (ha.not_linked_iff p).mp hs.1.1 hpa
  have hsus : Suspended L p m k'.cpu.mem i :=
    h.congr fun x hx ↦ frame_step ha hs (ha.current ▸ hpc) hop hx
  rcases ha.step hs.1 with ⟨-, hb⟩ | ⟨c, b, -, hab, hb⟩
  · exact ⟨a, hb, hp, hsus⟩
  · have hpb : p ∈ b.current :: b.queue := by
      cases c with
      | taskRun t => exact hab.mem_taskRun.mpr (.inr hpa)
      | schedule => exact hab.mem_schedule.mpr hpa
      | exit => exact hab.mem_exit.mpr ⟨hpa, hpc⟩
    refine ⟨b, hb, (List.mem_cons.mp hpb).resolve_left ?_, hsus⟩
    rw [← hb.current]
    exact hne.symm

/-! ## Resuming and starting -/

/-- The task `p` goes on as if `switch_to`, entered with the machine `m`, had returned at once. -/
structure Resumes (L : Layout τ) (p : τ) (m m' : Machine) : Prop where
  /-- The registers. -/
  gpr : ∀ r, r ≠ .esp → m'.gpr r = m.gpr r
  /-- The stack pointer, past the return address. -/
  esp : m'.gpr .esp = m.gpr .esp + 4#32
  /-- The return address. -/
  eip : m'.eip = m.mem (m.gpr .esp)
  /-- The live words of the stack. -/
  live : ∀ x, L.OwnWord p x → m.gpr .esp ≤ x → m'.mem x = m.mem x

theorem Suspended.resumes (h : Suspended L p m k.cpu.mem i) (ha : Inv L k a) (hp : p ∈ a.queue)
    (hs : TaskStep L o k op k') (hc : k'.current = p) : Resumes L p m k'.cpu := by
  have hpc : p ≠ k.current := by
    rw [ha.current]; rintro rfl; exact (List.nodup_cons.mp a.nodup).1 hp
  have hop : op ≠ .taskRun p := by
    rintro rfl
    exact (ha.not_linked_iff p).mp hs.1.1 (List.mem_cons_of_mem _ hp)
  obtain ⟨hesp, h7, hi⟩ := h.room
  have h' : Suspended L p m k'.cpu.mem i := h.congr fun x hx ↦ frame_step ha hs hpc hop hx
  rcases ha.step_cpu hs.1 with ⟨-, hcc⟩ | ⟨-, rfl⟩ | ⟨-, hnc, -, hcpu⟩
  · exact absurd (hc.symm.trans hcc) hpc
  · exact absurd hc.symm hpc
  · have hsp : (op.before L k).mem (L.spCell k'.current) = L.stackWord p (i - 7) := by
      rw [hc, ha.before_mem hs.1.1 hop (.inr rfl), h.sp]
    rw [hsp] at hcpu
    -- the frame and the return address above it are still there after the switch
    have hra : L.stackWord p (i - 7) + BitVec.ofNat 32 (4 * (frameOf m).length)
        = L.stackWord p i := by
      have hlen : (frameOf m).length = 7 := rfl
      have hidx : i - 7 + 7 = i := by omega
      rw [hlen, Layout.stackWord_add, hidx]
    have hw : Words k'.cpu.mem (L.stackWord p (i - 7))
        (frameOf m ++ [m.mem (L.stackWord p i)]) := by
      refine words_append.mpr ⟨h'.frame, ?_, trivial⟩
      rw [hra]
      exact h'.live i le_rfl hi
    rw [hcpu] at hw
    obtain ⟨hregs, heip, hsp'⟩ := switchTo_restores rfl hw
    rw [← hcpu] at hregs heip hsp'
    refine ⟨fun r hr ↦ gpr_of_frameOf_eq hregs hr, ?_, by rw [heip, hesp], ?_⟩
    · have hadd : L.stackWord p (i - 7) + 32#32 = L.stackWord p (i - 7 + 8) :=
        Layout.stackWord_add (i - 7) 8
      have hidx : i - 7 + 8 = i + 1 := by omega
      rw [hsp', hadd, hidx, hesp]
      exact (Layout.stackWord_add i 1).symm
    · rintro x ⟨j, hj, rfl⟩ hle
      refine h'.live j ?_ hj
      rw [hesp, BitVec.le_def, Layout.stackWord_toNat hi, Layout.stackWord_toNat hj] at hle
      omega

/-- A new task `t` enters its entry point: cleared registers, and on top of its stack the address
of `exit_point`, where a return from the entry point therefore goes. -/
structure Enters (L : Layout τ) (t : τ) (entry : Word) (m : Machine) : Prop where
  /-- The registers. -/
  gpr : ∀ r, r ≠ .esp → m.gpr r = 0
  /-- The stack pointer points to the last word of the stack. -/
  esp : m.gpr .esp = L.stackWord t 1023
  /-- Control is at the entry point. -/
  eip : m.eip = entry
  /-- The word on top of the stack. -/
  top : m.mem (m.gpr .esp) = L.exitPoint
  /-- Returning from here leads to `exit_point`. -/
  returns : (exec .ret m).eip = L.exitPoint

theorem Inv.enters {t : τ} (ha : Inv L k a) (hs : TaskStep L o k (.taskRun t) k') :
    k'.current = t ∧ Enters L t (k.entry t) k'.cpu := by
  obtain ⟨hs, hd⟩ := hs
  have ht := ha.ne_initTask hs.1
  rcases ha.step_cpu hs with ⟨h, -⟩ | ⟨h, -⟩ | ⟨-, hnc, hcur, hcpu⟩
  · simp at h
  · simp at h
  · obtain ⟨i, hi⟩ := hd.room hnc
    have hc : k'.current = t := hcur t rfl
    refine ⟨hc, ?_⟩
    obtain ⟨hsp, hw, -⟩ := startCpu_spec (k := k) ht
    rw [hc] at hcpu
    have hcpu' : k'.cpu
        = switchTo o (L.stackWord t 1015) (L.spCell k.current) (startCpu L k t) := by
      have hbefore : (Op.taskRun t).before L k = startCpu L k t := rfl
      rw [hcpu, hbefore, hsp]
    -- the frame `stack_init` built is private to `t`, so the switch leaves it alone
    have hw' : Words k'.cpu.mem (L.stackWord t 1015)
        (List.replicate 7 0 ++ [k.entry t] ++ [L.exitPoint]) := by
      refine hw.congr ?_
      intro j hj
      have hj9 : j < 9 := hj
      rw [Layout.stackWord_add, hcpu']
      refine switchTo_private _ hi ?_
      intro hx
      exact Layout.Private.disjoint hs.1.1 (.inl ⟨1015 + j, by omega, rfl⟩) hx
    obtain ⟨hfirst, hlast, -⟩ := words_append.mp hw'
    rw [hcpu'] at hfirst
    obtain ⟨hregs, heip, hesp⟩ := switchTo_restores rfl hfirst
    rw [← hcpu'] at hregs heip hesp
    have hesp' : k'.cpu.gpr .esp = L.stackWord t 1023 := by
      rw [hesp]; exact Layout.stackWord_add 1015 8
    have htop : k'.cpu.mem (L.stackWord t 1023) = L.exitPoint := by
      have hlen : (List.replicate 7 0 ++ [k.entry t]).length = 8 := rfl
      rw [hlen, Layout.stackWord_add] at hlast
      exact hlast
    refine ⟨?_, hesp', heip, by rw [hesp', htop], ?_⟩
    · intro r hr
      have hmem := List.mem_map_of_mem (f := k'.cpu.gpr) (List.mem_reverse.mpr (mem_savedRegs hr))
      rw [← frameOf, hregs] at hmem
      exact List.eq_of_mem_replicate hmem
    · simp only [exec]
      rw [hesp', htop]

/-- **Context switches are transparent.**  In every reachable state:

* if the running task is switched out by a call of `schedule` or `task_run`, then after any run in
  which it is not running, the step that switches to it again gives it back its seven registers, its
  stack pointer, its return address and the live words of its stack as they were when it entered
  `switch_to`;
* a task started by `task_run` runs at once, at its entry point, with the seven registers zero and
  `exit_point` on top of its stack. -/
theorem contextSwitch_transparent (hk : Reachable L o k) :
    (∀ op₁ k₁ ops k₂ op₂ k₃, TaskStep L o k op₁ k₁ → op₁ ≠ .exit → k₁.current ≠ k.current →
      Run (fun s op s' ↦ TaskStep L o s op s' ∧ s'.current ≠ k.current) k₁ ops k₂ →
      TaskStep L o k₂ op₂ k₃ → k₃.current = k.current →
      Resumes L k.current (op₁.snapshot L o k k₁.current) k₃.cpu) ∧
    ∀ t k', TaskStep L o k (.taskRun t) k' → k'.current = t ∧ Enters L t (k.entry t) k'.cpu := by
  obtain ⟨a, ha⟩ := hk.inv
  refine ⟨?_, fun t k' ↦ ha.enters⟩
  intro op₁ k₁ ops k₂ op₂ k₃ h₁ hex hne hr h₃ hc
  obtain ⟨i, hsus⟩ := suspended_of_switch ha h₁ hne
  -- the task waits: it was not dropped by an exit, and it no longer runs
  obtain ⟨b, hb, hpb⟩ : ∃ b, Inv L k₁ b ∧ k.current ∈ b.queue := by
    have hka : k.current ∈ a.current :: a.queue := ha.current ▸ List.mem_cons_self
    rcases ha.step h₁.1 with ⟨-, hb⟩ | ⟨c, b, hop, hab, hb⟩
    · exact absurd (hb.current.trans ha.current.symm) hne
    · suffices hkb : k.current ∈ b.current :: b.queue from
        ⟨b, hb, List.mem_of_ne_of_mem (hb.current ▸ hne.symm) hkb⟩
      cases op₁ <;> simp only [Op.call, Option.some.injEq, reduceCtorEq] at hop <;> subst hop
      · exact hab.mem_taskRun.mpr (.inr hka)
      · exact hab.mem_schedule.mpr hka
      · exact absurd rfl hex
  obtain ⟨b', hb', hpb', hsus'⟩ : ∃ b, Inv L k₂ b ∧ k.current ∈ b.queue ∧
      Suspended L k.current (op₁.snapshot L o k k₁.current) k₂.cpu.mem i := by
    refine Run.invariant (I := fun s : Kernel τ ↦ ∃ b, Inv L s b ∧ k.current ∈ b.queue ∧
      Suspended L k.current (op₁.snapshot L o k k₁.current) s.cpu.mem i) ?_ ⟨b, hb, hpb, hsus⟩ hr
    rintro s op s' ⟨b, hb, hpb, hsus⟩ ⟨hs, hne⟩
    exact hsus.step hb hpb hs hne
  exact hsus'.resumes hb' hpb' h₃ hc

/-- The theorem in the small system: `init_task` starts the second task, which gives the processor
back at once. -/
theorem contextSwitch_transparent_pair : ∃ k₁ k₂,
    TaskStep pairLayout pairOperands pairBoot (.taskRun 1) k₁ ∧ k₁.current = 1 ∧
    k₁.cpu.eip = 0x100800#32 ∧ TaskStep pairLayout pairOperands k₁ .schedule k₂ ∧
    k₂.current = 0 ∧ k₂.cpu.gpr .ecx = 7 ∧ k₂.cpu.gpr .esp = 0x100fa4#32 := by
  have hboot : Reachable pairLayout pairOperands pairBoot := ⟨_, [], pairBoot_boot, .nil _⟩
  obtain ⟨k₁, a, hs, ha, hac, haq⟩ := pair_started
  have h₁ : TaskStep pairLayout pairOperands pairBoot (.taskRun 1) k₁ :=
    ⟨hs, 1000, by decide, by omega, by omega⟩
  obtain ⟨htrans, hstart⟩ := contextSwitch_transparent hboot
  obtain ⟨hc₁, hent⟩ := hstart 1 k₁ h₁
  obtain ⟨k₂, b, hk₂, hab, hb, -⟩ := ha.schedule (o := pairOperands)
  have h₂ : TaskStep pairLayout pairOperands k₁ .schedule k₂ :=
    ⟨⟨trivial, hk₂⟩, 1023, by rw [hc₁]; exact hent.esp, by omega, by omega⟩
  have hc₂ : k₂.current = 0 := by
    rw [hb.current]
    cases hab with
    | schedule hq hc _ => exact hc.trans (List.cons.inj (hq.symm.trans haq)).1
    | alone hq => simp [haq] at hq
  have hres := htrans _ k₁ [] k₁ .schedule k₂ h₁ (by simp) (by rw [hc₁]; decide) (.nil _) h₂ hc₂
  refine ⟨k₁, k₂, h₁, hc₁, hent.eip, h₂, hc₂, (hres.gpr .ecx (by decide)).trans ?_,
    hres.esp.trans ?_⟩
  · rw [Op.snapshot, atSwitchTo]
    simp [Op.before, startCpu_gpr, pairOperands, pairBoot]
  · rw [Op.snapshot, atSwitchTo_esp, before_gpr]
    decide

end PastaOS
