import Mathlib.Data.Set.Insert
import PastaOS.Sched.Invariant
import PastaOS.Sched.Switch

/-!
# The scheduler over whole runs

The invariant `Inv` holds along every run, so the pointer-level scheduler is the abstract
`RoundRobin` machine: `Run.simulation` carries a run of the kernel over to a run of calls, the
computations of the tasks standing for no call at all.

* `runQueue_wellFormed`: in every reachable state the run queue is a well-formed circular list, no
  task is lost or duplicated, and no move runs into `BUG_ON`.
* `schedule_refines`: the refinement, and the two laws of round robin at the level of pointers.
* `exit_final`: `exit_point` never falls through, and a task that has exited stays away.

`StepLive` runs the kernel together with the set of tasks that were started and have not exited.
-/

set_option autoImplicit false

namespace PastaOS

open StackMachine

universe u

variable {τ : Type u} [DecidableEq τ] {L : Layout τ} {o : Operands} {k k' : Kernel τ}
  {a : RoundRobin τ}

/-! ## Runs of the kernel as runs of calls -/

/-- The call an operation is, if it is one. -/
def Op.call : Op τ → Option (Call τ)
  | .taskRun t => some (.taskRun t)
  | .schedule => some .schedule
  | .exit => some .exit
  | .compute _ => none

/-- The calls made during a run. -/
def calls (ops : List (Op τ)) : List (Call τ) := ops.filterMap Op.call

/-- No allowed move fails. -/
theorem Inv.progress (ha : Inv L k a) {op : Op τ} (hop : op.Allowed L k) :
    ∃ k', op.run L o k = .ok k' := by
  cases op with
  | taskRun t =>
    obtain ⟨_, k', _, hk', -⟩ := ha.taskRun (o := o) ((ha.not_linked_iff t).mp hop)
    exact ⟨k', hk'⟩
  | schedule =>
    obtain ⟨k', _, hk', -⟩ := ha.schedule (o := o)
    exact ⟨k', hk'⟩
  | exit =>
    obtain ⟨_, k', _, hk', -⟩ := ha.exit (o := o) hop
    exact ⟨k', hk'⟩
  | compute m => exact ⟨_, rfl⟩

/-- Every move is the corresponding call of the abstract machine. -/
theorem Inv.step {op : Op τ} (ha : Inv L k a) (hs : Step L o k op k') :
    (op.call = none ∧ Inv L k' a) ∨
      ∃ c b, op.call = some c ∧ RoundRobin.Step a c b ∧ Inv L k' b := by
  obtain ⟨hop, hrun⟩ := hs
  cases op with
  | taskRun t =>
    obtain ⟨_, k₂, b, hk₂, hb, hinv, -⟩ := ha.taskRun (o := o) ((ha.not_linked_iff t).mp hop)
    obtain rfl : k₂ = k' := Except.ok.inj (hk₂.symm.trans hrun)
    exact .inr ⟨_, b, rfl, hb, hinv⟩
  | schedule =>
    obtain ⟨k₂, b, hk₂, hb, hinv, -⟩ := ha.schedule (o := o)
    obtain rfl : k₂ = k' := Except.ok.inj (hk₂.symm.trans hrun)
    exact .inr ⟨_, b, rfl, hb, hinv⟩
  | exit =>
    obtain ⟨_, k₂, b, hk₂, hb, hinv, -⟩ := ha.exit (o := o) hop
    obtain rfl : k₂ = k' := Except.ok.inj (hk₂.symm.trans hrun)
    exact .inr ⟨_, b, rfl, hb, hinv⟩
  | compute m =>
    obtain rfl := Except.ok.inj hrun
    exact .inl ⟨rfl, ha.compute m⟩

/-- **A run of the kernel is a run of the abstract machine.** -/
theorem Inv.run {ops : List (Op τ)} (ha : Inv L k a) (hr : Run (Step L o) k ops k') :
    ∃ b, Run RoundRobin.Step a (calls ops) b ∧ Inv L k' b :=
  Run.simulation (fun _ _ _ _ hR hs ↦ hR.step hs) ha hr

theorem Reachable.inv (hk : Reachable L o k) : ∃ a, Inv L k a := by
  obtain ⟨k₀, ops, hb, hr⟩ := hk
  obtain ⟨a, -, ha⟩ := (inv_boot hb).run hr
  exact ⟨a, ha⟩

/-- In the small system, starting the second task makes it run, with `init_task` waiting. -/
theorem pair_started : ∃ k a, Step pairLayout pairOperands pairBoot (.taskRun 1) k ∧
    Inv pairLayout k a ∧ a.current = 1 ∧ a.queue = [0] := by
  have hboot := inv_boot pairBoot_boot
  have ht : (1 : Fin 2) ∉ [pairLayout.initTask] := by decide
  obtain ⟨_, k, a, hk, hab, ha, -⟩ := hboot.taskRun (o := pairOperands) ht
  refine ⟨k, a, ⟨(hboot.not_linked_iff 1).mpr ht, hk⟩, ha, ?_⟩
  cases hab with
  | taskRun _ hc hq => exact ⟨hc, hq⟩

/-! ## The run queue -/

/-- The tasks that were started and have not exited, after an operation. -/
def Op.track (k : Kernel τ) (live : Set τ) : Op τ → Set τ
  | .taskRun t => insert t live
  | .exit => live \ {k.current}
  | .schedule => live
  | .compute _ => live

/-- A move of the kernel, and what it does to the set of live tasks. -/
def StepLive (L : Layout τ) (o : Operands) (s : Kernel τ × Set τ) (op : Op τ)
    (s' : Kernel τ × Set τ) : Prop :=
  Step L o s.1 op s'.1 ∧ s'.2 = op.track s.1 s.2

/-- The live tasks are the running one and the waiting ones. -/
theorem Inv.stepLive {live live' : Set τ} {op : Op τ} (ha : Inv L k a)
    (hl : ∀ t, t ∈ live ↔ t ∈ a.current :: a.queue)
    (hs : StepLive L o (k, live) op (k', live')) :
    ∃ b, Inv L k' b ∧ ∀ t, t ∈ live' ↔ t ∈ b.current :: b.queue := by
  obtain ⟨hs, rfl⟩ := hs
  rcases ha.step hs with ⟨hc, hb⟩ | ⟨c, b, hc, hab, hb⟩
  · refine ⟨a, hb, ?_⟩
    cases op <;> simp [Op.call] at hc
    exact hl
  · refine ⟨b, hb, ?_⟩
    intro u
    cases op <;> simp only [Op.call, Option.some.injEq, reduceCtorEq] at hc <;> subst hc
    · rw [hab.mem_taskRun, ← hl]; rfl
    · rw [hab.mem_schedule, ← hl]; rfl
    · rw [hab.mem_exit, ← hl, ← ha.current]; rfl

/-- **The run queue is well formed in every reachable state.**  Whatever sequence of moves led from
boot to `k`, and whichever tasks are `live`, that is, were started and have not exited: there is a
sequence `q` of tasks such that following `next` from `task_list` visits `q` and comes back,
following `prev` visits `q` in the opposite order and comes back; no task is linked twice and the
running one is not linked; the running task is `TASK_RUNNING` and the linked ones are
`TASK_SLEEPING`; the live tasks are the running one and the linked ones; and no allowed move runs
into `BUG_ON` or an invalid task state. -/
theorem runQueue_wellFormed {k₀ : Kernel τ} {ops : List (Op τ)} {live : Set τ}
    (hb : k₀.Boot L) (hr : Run (StepLive L o) (k₀, {L.initTask}) ops (k, live)) :
    ∃ q : List τ,
      (Node.head :: (q.map Node.task ++ [.head])).IsChain (fun a b ↦ k.links.next a = b) ∧
      (Node.head :: ((q.map Node.task).reverse ++ [.head])).IsChain
        (fun a b ↦ k.links.prev a = b) ∧
      q.Nodup ∧ k.current ∉ q ∧ (∀ t, k.Linked t ↔ t ∈ q) ∧
      k.state k.current = TASK_RUNNING ∧ (∀ t ∈ q, k.state t = TASK_SLEEPING) ∧
      (∀ t, t ∈ live ↔ t = k.current ∨ t ∈ q) ∧
      ∀ op : Op τ, op.Allowed L k → ∃ k', op.run L o k = .ok k' := by
  obtain ⟨a, ha, hl⟩ : ∃ a, Inv L k a ∧ ∀ t, t ∈ live ↔ t ∈ a.current :: a.queue := by
    refine Run.invariant (I := fun s : Kernel τ × Set τ ↦
      ∃ a, Inv L s.1 a ∧ ∀ t, t ∈ s.2 ↔ t ∈ a.current :: a.queue) ?_ ?_ hr
    · rintro ⟨k, l⟩ op ⟨k', l'⟩ ⟨a, ha, hl⟩ hs
      exact ha.stepLive hl hs
    · exact ⟨_, inv_boot hb, by simp⟩
  have hc := ha.current
  refine ⟨a.queue, ha.ring.next_chain, ha.ring.prev_chain, (List.nodup_cons.mp a.nodup).2, ?_,
    linked_iff ha.ring, ?_, ha.sleeping, ?_, fun op hop ↦ ha.progress hop⟩
  · rw [hc]; exact (List.nodup_cons.mp a.nodup).1
  · rw [hc]; exact ha.running
  · intro t; rw [hl, List.mem_cons, hc]

/-- The theorem at a run of the small system that starts its second task. -/
theorem runQueue_wellFormed_pair : ∃ k live,
    Run (StepLive pairLayout pairOperands) (pairBoot, {0}) [.taskRun 1] (k, live) ∧
    ∃ q : List (Fin 2), q.Nodup ∧ k.current ∉ q ∧ ∀ t, t ∈ live ↔ t = k.current ∨ t ∈ q := by
  obtain ⟨k, a, hs, -⟩ := pair_started
  have hr : Run (StepLive pairLayout pairOperands) (pairBoot, {pairLayout.initTask})
      [.taskRun 1] (k, (Op.taskRun 1).track pairBoot {pairLayout.initTask}) :=
    .cons ⟨hs, rfl⟩ (.nil _)
  obtain ⟨q, -, -, hnd, hc, -, -, -, hl, -⟩ := runQueue_wellFormed pairBoot_boot hr
  exact ⟨k, _, hr, q, hnd, hc, hl⟩

/-! ## The refinement -/

/-- The kernel's running task is `c`, and its list carries the tasks `q`. -/
def Refines (k : Kernel τ) (c : τ) (q : List τ) : Prop :=
  k.current = c ∧ k.links.IsRing .head (q.map .task)

omit [DecidableEq τ] in
theorem Inv.refines (ha : Inv L k a) : Refines k a.current a.queue := ⟨ha.current, ha.ring⟩

/-- **The scheduler is round robin.**  In every reachable state the list carries distinct tasks
`q`, and each operation does to the running task `c` and to `q` what the abstract machine does.
Consequently a task at position `p` of `q` still waits after any run with at most `p` ticks, at its
old position less the number of ticks; after any run with exactly `p` ticks, the next tick makes
it the running task; and `q.length + 1` calls of `schedule` restore `c` and `q`. -/
theorem schedule_refines (hk : Reachable L o k) : ∃ q : List τ,
    Refines k k.current q ∧ (k.current :: q).Nodup ∧
    (∀ t, t ≠ k.current → ¬ k.Linked t →
      ∃ k', taskRun L o k t = .ok k' ∧ Refines k' t (q ++ [k.current])) ∧
    (q = [] → schedule L o k = .ok k) ∧
    (∀ h q', q = h :: q' →
      ∃ k', schedule L o k = .ok k' ∧ Refines k' h (q' ++ [k.current])) ∧
    (∀ h q', q = h :: q' → ∃ k', exitPoint L o k = .ok k' ∧ Refines k' h q') ∧
    (∀ p t ops k₁, q[p]? = some t → Run (Step L o) k ops k₁ →
      (ticks (calls ops) ≤ p →
        ∃ q₁, Refines k₁ k₁.current q₁ ∧ (k₁.current :: q₁).Nodup ∧
          q₁[p - ticks (calls ops)]? = some t) ∧
      (ticks (calls ops) = p → ∀ op c k₂, op.call = some c → c.isTick → Step L o k₁ op k₂ →
        k₂.current = t)) ∧
    (∀ ops k₁, Run (Step L o) k ops k₁ →
      calls ops = List.replicate (q.length + 1) .schedule → Refines k₁ k.current q) := by
  obtain ⟨a, ha⟩ := hk.inv
  have hc : a.current = k.current := ha.current.symm
  refine ⟨a.queue, hc ▸ ha.refines, hc ▸ a.nodup, ?_, ?_, ?_, ?_, ?_, ?_⟩
  · intro t ht hl
    obtain ⟨k₁, k', b, hk', -, -, -, hsw⟩ :=
      ha.taskRun (o := o) ((ha.not_linked_iff t).mp ⟨ht, hl⟩)
    exact ⟨k', hk', hsw.current, hc ▸ hsw.ring⟩
  · intro hq
    have hr := ha.ring
    rw [hq] at hr
    exact schedule_empty hr
  · intro h q' hq
    obtain ⟨k', b, hk', -, -, hcase⟩ := ha.schedule (o := o)
    rcases hcase with ⟨hnil, -⟩ | ⟨h₁, q₁, hq₁, -, hsw⟩
    · simp [hnil] at hq
    · obtain ⟨rfl, rfl⟩ := List.cons.inj (hq₁.symm.trans hq)
      exact ⟨k', hk', hsw.current, hc ▸ hsw.ring⟩
  · intro h q' hq
    have hnd := a.nodup
    rw [hq, hc] at hnd
    obtain ⟨k₁, k', hk', -, hsw, -⟩ := exitPoint_of_cons (L := L) (o := o) (hq ▸ ha.ring)
      (List.nodup_cons.mp hnd).1 (fun t ht ↦ ha.sleeping t (hq ▸ ht))
    exact ⟨k', hk', hsw.current, hsw.ring⟩
  · intro p t ops k₁ ht hr
    obtain ⟨b, hab, hb⟩ := ha.run hr
    refine ⟨fun hp ↦
      ⟨b.queue, ⟨rfl, hb.ring⟩, hb.current ▸ b.nodup, RoundRobin.waits hab ht hp⟩, ?_⟩
    intro hp op c k₂ hop htick hs
    rcases hb.step hs with ⟨hnone, -⟩ | ⟨c', d, hc', hbd, hd⟩
    · simp [hop] at hnone
    · obtain rfl := Option.some.inj (hop.symm.trans hc')
      rw [hd.current]
      exact RoundRobin.runs_after hab ht hp hbd htick
  · intro ops k₁ hr hops
    obtain ⟨b, hab, hb⟩ := ha.run hr
    rw [hops] at hab
    rw [RoundRobin.rotation hab] at hb
    exact hc ▸ hb.refines

/-- The theorem in the small system, after its second task was started. -/
theorem schedule_refines_pair : ∃ k, Reachable pairLayout pairOperands k ∧ k.current = 1 ∧
    ∃ q : List (Fin 2), Refines k 1 q ∧
      ∀ h q', q = h :: q' →
        ∃ k', schedule pairLayout pairOperands k = .ok k' ∧ Refines k' h (q' ++ [1]) := by
  obtain ⟨k, a, hs, ha, hc, -⟩ := pair_started
  have hk : Reachable pairLayout pairOperands k := ⟨_, _, pairBoot_boot, .cons hs (.nil _)⟩
  have hcur : k.current = 1 := ha.current.trans hc
  obtain ⟨q, hq, -, -, -, hsched, -⟩ := schedule_refines hk
  rw [hcur] at hq hsched
  exact ⟨k, hk, hcur, q, hq, hsched⟩

/-! ## Exiting -/

/-- A move other than starting `z` does not touch a task `z` that neither runs nor waits. -/
theorem Inv.outsider {op : Op τ} {z : τ} (ha : Inv L k a) (hs : Step L o k op k')
    (hz : z ∉ a.current :: a.queue) (hop : op ≠ .taskRun z) :
    ∃ b, Inv L k' b ∧ z ∉ b.current :: b.queue ∧ k'.state z = k.state z ∧
      k'.ret z = k.ret z := by
  obtain ⟨hallow, hrun⟩ := hs
  have hzc : z ≠ k.current := by rw [ha.current]; rintro rfl; exact hz List.mem_cons_self
  cases op with
  | taskRun t =>
    obtain ⟨k₁, k₂, b, hk₂, hab, hb, hin, hsw⟩ :=
      ha.taskRun (o := o) ((ha.not_linked_iff t).mp hallow)
    obtain rfl : k₂ = k' := Except.ok.inj (hk₂.symm.trans hrun)
    have hzt : z ≠ t := by rintro rfl; exact hop rfl
    refine ⟨b, hb, ?_, ?_, ?_⟩
    · rw [hab.mem_taskRun]; exact not_or.mpr ⟨hzt, hz⟩
    · rw [hsw.others z (hin.current ▸ hzc) hzt, hin.state, Function.update_of_ne hzt]
    · rw [hsw.ret, hin.ret]
  | schedule =>
    obtain ⟨k₂, b, hk₂, hab, hb, hcase⟩ := ha.schedule (o := o)
    obtain rfl : k₂ = k' := Except.ok.inj (hk₂.symm.trans hrun)
    have hzb : z ∉ b.current :: b.queue := by rwa [hab.mem_schedule]
    rcases hcase with ⟨-, rfl⟩ | ⟨h, q, hq, hbh, hsw⟩
    · exact ⟨b, hb, hzb, rfl, rfl⟩
    · have hzh : z ≠ h := by rintro rfl; exact hzb (hbh ▸ List.mem_cons_self)
      exact ⟨b, hb, hzb, hsw.others z hzc hzh, congrFun hsw.ret z⟩
  | exit =>
    obtain ⟨k₁, k₂, b, hk₂, hab, hb, rfl, hsw, -⟩ := ha.exit (o := o) hallow
    obtain rfl : k₂ = k' := Except.ok.inj (hk₂.symm.trans hrun)
    have hzb : z ∉ b.current :: b.queue := by rw [hab.mem_exit]; exact fun h ↦ hz h.1
    have hzn : z ≠ b.current := by rintro rfl; exact hzb List.mem_cons_self
    refine ⟨b, hb, hzb, ?_, ?_⟩
    · rw [hsw.others z hzc hzn]
      simp [Kernel.setState, Kernel.setRet, Function.update_of_ne hzc]
    · rw [hsw.ret]
      simp [Kernel.setState, Kernel.setRet, Function.update_of_ne hzc]
  | compute m =>
    obtain rfl := Except.ok.inj hrun
    exact ⟨a, ha.compute m, hz, rfl, rfl⟩

/-- **Exiting is final.**  When a task other than `init_task` reaches `exit_point` in a reachable
state, `init_task` is linked, so the list is not empty and `schedule` does not return to
`exit_point`: it switches to the first task of the list.  The processor goes on at the stack pointer
that task has saved, and the registers and the instruction pointer are loaded from there.  From then
on, through any run in which the task is not started again, it neither runs nor is linked, it stays
`TASK_ZOMBIE`, and its return code is the value `eax` had on entry to `exit_point`. -/
theorem exit_final (hk : Reachable L o k) (hi : k.current ≠ L.initTask) :
    k.Linked L.initTask ∧
    ∃ k₁, exitPoint L o k = .ok k₁ ∧ k₁.current ≠ k.current ∧
      listFirstOrNull k.links .head = some (.task k₁.current) ∧
      k₁.cpu = switchTo o (k.sp L k₁.current) (L.spCell k.current) k.cpu ∧
      k₁.cpu.gpr .esp = k.sp L k₁.current + 32#32 ∧
      Words k₁.cpu.mem (k.sp L k₁.current) (frameOf k₁.cpu ++ [k₁.cpu.eip]) ∧
      ∀ ops k₂, (∀ op ∈ ops, op ≠ .taskRun k.current) → Run (Step L o) k₁ ops k₂ →
        k₂.current ≠ k.current ∧ ¬ k₂.Linked k.current ∧
        k₂.state k.current = TASK_ZOMBIE ∧ k₂.ret k.current = k.cpu.gpr .eax := by
  obtain ⟨a, ha⟩ := hk.inv
  have hinit : L.initTask ∈ a.queue := by
    rcases List.mem_cons.mp ha.init with h | h
    exacts [absurd (ha.current.trans h.symm) hi, h]
  obtain ⟨k₀, k₁, b, hk₁, hab, hb, rfl, hsw, hst₁⟩ := ha.exit (o := o) hi
  have hz : k.current ∉ b.current :: b.queue := by
    rw [hab.mem_exit]; exact fun h ↦ h.2 ha.current
  have hne : k.current ≠ b.current := fun h ↦ hz (h ▸ List.mem_cons_self)
  have hcpu : k₁.cpu = switchTo o (k.sp L k₁.current) (L.spCell k.current) k.cpu := by
    rw [hsw.cpu, hsw.current]
    rfl
  obtain ⟨hesp, hwords⟩ :=
    switchTo_loads (o := o) (k.sp L k₁.current) (L.spCell k.current) k.cpu
  rw [← hcpu] at hesp hwords
  refine ⟨(linked_iff ha.ring _).mpr hinit, k₁, hk₁, hsw.current ▸ hne.symm, ?_, hcpu, hesp, hwords,
    ?_⟩
  · have hqueue : a.queue = b.current :: b.queue := by
      cases hab with
      | exit hq hc hq' => rw [hq, hc, hq']
    have hr := ha.ring
    rw [hqueue, List.map_cons] at hr
    rw [listFirstOrNull_cons hr, hsw.current]
  · intro ops k₂ hops hr
    obtain ⟨⟨c, hc, hzc⟩, hst, hret⟩ := Run.invariant_of_labels
      (I := fun k' : Kernel τ ↦ (∃ c, Inv L k' c ∧ k.current ∉ c.current :: c.queue) ∧
        k'.state k.current = k₁.state k.current ∧ k'.ret k.current = k₁.ret k.current)
      (P := fun op ↦ op ≠ .taskRun k.current)
      (fun _ _ _ ⟨⟨_, hc, hzc⟩, hst, hret⟩ hop hs ↦ by
        obtain ⟨d, hd, hzd, hst', hret'⟩ := hc.outsider hs hzc hop
        exact ⟨⟨d, hd, hzd⟩, hst'.trans hst, hret'.trans hret⟩)
      ⟨⟨b, hb, hz⟩, rfl, rfl⟩ hops hr
    rw [List.mem_cons, not_or] at hzc
    refine ⟨fun h ↦ hzc.1 (h.symm.trans hc.current), ?_, ?_, ?_⟩
    · rw [linked_iff hc.ring]; exact hzc.2
    · rw [hst, hst₁, Function.update_of_ne hne]
      simp [Kernel.setState]
    · rw [hret, hsw.ret]
      simp [Kernel.setState, Kernel.setRet]

/-- Where `init_task` has been left when the second task runs: a frame below the top of its
stack. -/
theorem pair_sp {k : Kernel (Fin 2)} (hs : Step pairLayout pairOperands pairBoot (.taskRun 1) k) :
    k.sp pairLayout 0 = 0x100f84#32 := by
  obtain ⟨-, hk⟩ := hs
  obtain rfl := Except.ok.inj hk
  decide +kernel

/-- The theorem in the small system: its second task exits, and the processor is back on the stack
of `init_task`, where that task has called `switch_to`. -/
theorem exit_final_pair : ∃ k, Reachable pairLayout pairOperands k ∧ k.current = 1 ∧
    k.Linked 0 ∧ ∃ k₁, exitPoint pairLayout pairOperands k = .ok k₁ ∧ k₁.current = 0 ∧
      k₁.cpu.gpr .esp = 0x100fa4#32 := by
  obtain ⟨k, a, hs, ha, hc, -⟩ := pair_started
  have hk : Reachable pairLayout pairOperands k := ⟨_, _, pairBoot_boot, .cons hs (.nil _)⟩
  have hcur : k.current = 1 := ha.current.trans hc
  obtain ⟨hl, k₁, hk₁, hne, -, -, hesp, -⟩ := exit_final hk (by rw [hcur]; decide)
  have hzero : k₁.current = 0 := by omega
  rw [hzero, pair_sp hs] at hesp
  exact ⟨k, hk, hcur, hl, k₁, hk₁, hzero, hesp⟩

end PastaOS
