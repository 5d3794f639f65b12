import PastaOS.Sched.Defs
import PastaOS.Sched.RoundRobin

/-!
# What one move of the scheduler does

The specification of `schedule`, `exit_point` and `task_run`, one lemma each, and the invariant
they keep.

`Switched` is everything `schedule` does when it hands the processor over, apart from the `state` of
the two tasks concerned, on which the cases differ: `schedule_running` for a running task that goes
to the back of the list, `schedule_zombie` for one that has exited.  `schedule_empty` is the early
return.

`Inv L k a` says that the kernel `k` is in the abstract state `a`: the list is a well-formed ring
that carries exactly the waiting tasks, in order, the running task is `TASK_RUNNING`, the waiting
ones are `TASK_SLEEPING`, and `init_task` is one of them.  `Inv.taskRun`, `Inv.schedule` and
`Inv.exit` say that every move of the kernel is the corresponding move of `RoundRobin`.
-/

set_option autoImplicit false

namespace PastaOS

open StackMachine

universe u

variable {τ : Type u} [DecidableEq τ] {L : Layout τ} {o : Operands} {k k' : Kernel τ}

omit [DecidableEq τ] in
theorem task_mem_iff {t : τ} {q : List τ} :
    Node.task t ∈ Node.head :: q.map Node.task ↔ t ∈ q := by
  simp only [List.mem_cons, List.mem_map, reduceCtorEq, false_or]
  constructor
  · rintro ⟨u, hu, he⟩; cases he; exact hu
  · intro h; exact ⟨t, h, rfl⟩

omit [DecidableEq τ] in
/-- On a well-formed list, being linked means being one of its tasks. -/
theorem linked_iff {q : List τ} (hr : k.links.IsRing .head (q.map .task)) (t : τ) :
    k.Linked t ↔ t ∈ q := by
  rw [Kernel.Linked, ← hr.mem_iff (by simp), ← task_mem_iff]
  simp

/-! ## `schedule` -/

/-- The kernel `k` has handed the processor to `next`, and now the tasks `q` wait; `k'` is the
kernel afterwards. -/
structure Switched (L : Layout τ) (o : Operands) (k k' : Kernel τ) (next : τ) (q : List τ) :
    Prop where
  /-- The list carries `q`. -/
  ring : k'.links.IsRing .head (q.map .task)
  /-- `next` is running. -/
  current : k'.current = next
  /-- No entry point changed. -/
  entry : k'.entry = k.entry
  /-- No return code changed. -/
  ret : k'.ret = k.ret
  /-- Nobody else changed state. -/
  others : ∀ u, u ≠ k.current → u ≠ next → k'.state u = k.state u
  /-- The stacks were switched. -/
  cpu : k'.cpu = switchTo o (k.sp L next) (L.spCell k.current) k.cpu

theorem schedulePrev_running {p : τ} (h : k.state p = TASK_RUNNING) : schedulePrev k p
    = .ok { k with
        state := Function.update k.state k.current TASK_SLEEPING
        links := listAddTail k.links (.task k.current) .head } := by
  rw [schedulePrev, if_pos h]; rfl

theorem schedulePrev_zombie {p : τ} (h : k.state p = TASK_ZOMBIE) :
    schedulePrev k p = .ok k := by
  rw [schedulePrev, if_neg (by rw [h]; decide), if_pos h]

theorem scheduleNext_sleeping {n : τ} (h : k.state n = TASK_SLEEPING) : scheduleNext k n
    = .ok { k with
        state := Function.update k.state n TASK_RUNNING
        links := listDelInit k.links (.task n)
        current := n } := by
  rw [scheduleNext, if_neg (by rw [h]; decide), if_pos h]; rfl

/-- `schedule` with a task at the head of the list, once both `switch` statements have passed. -/
theorem schedule_of_first {h : τ} {k₁ k₂ : Kernel τ}
    (hf : listFirstOrNull k.links .head = some (.task h)) (hne : h ≠ k.current)
    (h₁ : schedulePrev k k.current = .ok k₁) (h₂ : scheduleNext k₁ h = .ok k₂) :
    schedule L o k
      = .ok { k₂ with cpu := switchTo o (k₂.sp L h) (L.spCell k.current) k₂.cpu } := by
  have hb : (listFirstOrNull k.links .head).bind listEntry = some h := by rw [hf]; rfl
  simp only [schedule, hb, if_neg hne, h₁]
  change (scheduleNext k₁ h >>= fun k => _) = _
  rw [h₂]
  rfl

/-- With nobody waiting, `schedule` does nothing. -/
theorem schedule_empty (hr : k.links.IsRing .head []) : schedule L o k = .ok k := by
  simp [schedule, listFirstOrNull_nil hr]

/-- A running task goes to the back of the list and the first waiting one runs. -/
theorem schedule_running {h : τ} {q : List τ} (hr : k.links.IsRing .head ((h :: q).map .task))
    (hc : k.current ∉ h :: q) (hh : k.state h = TASK_SLEEPING)
    (hrun : k.state k.current = TASK_RUNNING) :
    ∃ k', schedule L o k = .ok k' ∧ Switched L o k k' h (q ++ [k.current]) ∧
      k'.state = Function.update (Function.update k.state k.current TASK_SLEEPING) h
        TASK_RUNNING := by
  have hne : h ≠ k.current := by rintro rfl; exact hc List.mem_cons_self
  -- the running task is appended while the next one is still linked, at the head
  have htail : (listAddTail k.links (.task k.current) .head).IsRing .head
      ([] ++ Node.task h :: (q ++ [k.current]).map .task) := by
    simpa using listAddTail_isRing hr (fun hm ↦ hc (task_mem_iff.mp hm))
  have hh' : Function.update k.state k.current TASK_SLEEPING h = TASK_SLEEPING := by
    rw [Function.update_of_ne hne, hh]
  refine ⟨_, schedule_of_first (listFirstOrNull_cons hr) hne (schedulePrev_running hrun)
    (scheduleNext_sleeping hh'), ⟨listDelInit_isRing htail, rfl, rfl, rfl, ?_, rfl⟩, rfl⟩
  intro u huc hun
  simp only [Function.update_of_ne hun, Function.update_of_ne huc]

/-- A task that has exited is not appended. -/
theorem schedule_zombie {h : τ} {q : List τ} (hr : k.links.IsRing .head ((h :: q).map .task))
    (hc : k.current ∉ h :: q) (hh : k.state h = TASK_SLEEPING)
    (hz : k.state k.current = TASK_ZOMBIE) :
    ∃ k', schedule L o k = .ok k' ∧ Switched L o k k' h q ∧
      k'.state = Function.update k.state h TASK_RUNNING := by
  have hne : h ≠ k.current := by rintro rfl; exact hc List.mem_cons_self
  have hr' : k.links.IsRing .head ([] ++ Node.task h :: q.map .task) := hr
  refine ⟨_, schedule_of_first (listFirstOrNull_cons hr) hne (schedulePrev_zombie hz)
    (scheduleNext_sleeping hh), ⟨listDelInit_isRing hr', rfl, rfl, rfl, ?_, rfl⟩, rfl⟩
  intro u _ hun
  simp only [Function.update_of_ne hun]

/-! ## `task_init` -/

/-- What `task_init` has done when it is called the way `task_run` calls it. -/
structure Initialised (L : Layout τ) (k k' : Kernel τ) (t : τ) : Prop where
  /-- The task is linked behind the head. -/
  links : k'.links = listAdd k.links (.task t) .head
  /-- The task is sleeping. -/
  state : k'.state = Function.update k.state t TASK_SLEEPING
  /-- No entry point changed. -/
  entry : k'.entry = k.entry
  /-- No return code changed. -/
  ret : k'.ret = k.ret
  /-- The running task goes on. -/
  current : k'.current = k.current
  /-- The new task's stack holds its first frame. -/
  cpu : k'.cpu = (stackInit L { k with
    cpu := k.cpu.store (L.spCell t) (L.stack t + BitVec.ofNat 32 4096) } t).cpu

theorem taskInit_spec (k : Kernel τ) (t : τ) :
    Initialised L k (taskInit L k t (k.entry t) (L.stack t) STACK_SIZE) t := by
  have hentry : Function.update k.entry t (k.entry t) = k.entry := Function.update_eq_self t k.entry
  refine ⟨rfl, rfl, hentry, rfl, rfl, ?_⟩
  simp [taskInit, Kernel.setEntry, Kernel.setState, STACK_SIZE]

/-! ## The invariant -/

/-- **The kernel `k` is in the abstract state `a`.** -/
structure Inv (L : Layout τ) (k : Kernel τ) (a : RoundRobin τ) : Prop where
  /-- The list is a ring through the waiting tasks. -/
  ring : k.links.IsRing .head (a.queue.map .task)
  /-- The running task. -/
  current : k.current = a.current
  /-- It is `TASK_RUNNING`. -/
  running : k.state a.current = TASK_RUNNING
  /-- The waiting tasks are `TASK_SLEEPING`. -/
  sleeping : ∀ t ∈ a.queue, k.state t = TASK_SLEEPING
  /-- `init_task` runs or waits. -/
  init : L.initTask ∈ a.current :: a.queue

variable {a : RoundRobin τ}

omit [DecidableEq τ] in
/-- The abstract state is determined by the kernel. -/
theorem Inv.unique {b : RoundRobin τ} (ha : Inv L k a) (hb : Inv L k b) : a = b := by
  refine RoundRobin.ext (ha.current.symm.trans hb.current) ?_
  have hinj : Function.Injective (Node.task : τ → Node τ) := fun _ _ h ↦ by cases h; rfl
  exact List.map_injective_iff.mpr hinj (ha.ring.unique hb.ring)

omit [DecidableEq τ] in
/-- In terms of the abstract state, what the caller of `task_run` promises. -/
theorem Inv.not_linked_iff (ha : Inv L k a) (t : τ) :
    t ≠ k.current ∧ ¬ k.Linked t ↔ t ∉ a.current :: a.queue := by
  rw [linked_iff ha.ring, ha.current, List.mem_cons, not_or]

omit [DecidableEq τ] in
/-- At boot nobody waits. -/
theorem inv_boot (hb : k.Boot L) : Inv L k ⟨L.initTask, [], by simp⟩ :=
  ⟨isRing_nil hb.head_next hb.head_prev, hb.current, hb.state, by simp, by simp⟩

omit [DecidableEq τ] in
/-- What the running task does to the machine is no business of the scheduler. -/
theorem Inv.compute (ha : Inv L k a) (m : Machine) : Inv L { k with cpu := m } a :=
  ⟨ha.ring, ha.current, ha.running, ha.sleeping, ha.init⟩

/-- The `schedule` call of a running task, from a state in which the list carries `h :: q`: this is
the step both `schedule` and `task_run` end with. -/
theorem inv_of_schedule_running {h : τ} {q : List τ}
    (hr : k.links.IsRing .head ((h :: q).map .task)) (hc : k.current ∉ h :: q)
    (hq : ∀ t ∈ h :: q, k.state t = TASK_SLEEPING) (hrun : k.state k.current = TASK_RUNNING)
    (hnd : (h :: (q ++ [k.current])).Nodup) (hi : L.initTask ∈ k.current :: h :: q) :
    ∃ k', schedule L o k = .ok k' ∧ Switched L o k k' h (q ++ [k.current]) ∧
      Inv L k' ⟨h, q ++ [k.current], hnd⟩ := by
  obtain ⟨k', hk', hsw, hst⟩ := schedule_running (L := L) (o := o) hr hc
    (hq h List.mem_cons_self) hrun
  refine ⟨k', hk', hsw, hsw.ring, hsw.current, by simp [hst], ?_, ?_⟩
  · intro t ht
    have hth : t ≠ h := by rintro rfl; exact (List.nodup_cons.mp hnd).1 ht
    rw [hst, Function.update_of_ne hth]
    rcases List.mem_append.mp ht with ht | ht
    · have htc : t ≠ k.current := by rintro rfl; exact hc (List.mem_cons_of_mem _ ht)
      rw [Function.update_of_ne htc]
      exact hq t (List.mem_cons_of_mem _ ht)
    · rw [List.mem_singleton.mp ht, Function.update_self]
  · simp only [List.mem_cons, List.mem_append, List.not_mem_nil, or_false] at hi ⊢
    tauto

/-- **`schedule` is the abstract `schedule`.** -/
theorem Inv.schedule (ha : Inv L k a) : ∃ k' b, PastaOS.schedule L o k = .ok k' ∧
    RoundRobin.Step a .schedule b ∧ Inv L k' b ∧
    ((a.queue = [] ∧ k' = k) ∨
      ∃ h q, a.queue = h :: q ∧ b.current = h ∧ Switched L o k k' h (q ++ [a.current])) := by
  obtain ⟨c, q, hnd⟩ := a
  cases q with
  | nil => exact ⟨k, _, schedule_empty ha.ring, .alone rfl, ha, .inl ⟨rfl, rfl⟩⟩
  | cons h q =>
    obtain rfl : k.current = c := ha.current
    have hnd' : (h :: (q ++ [k.current])).Nodup := by
      rw [← List.cons_append]
      exact (List.perm_append_singleton _ _).nodup_iff.mpr hnd
    obtain ⟨k', hk', hsw, hinv⟩ := inv_of_schedule_running (L := L) (o := o) ha.ring
      (List.nodup_cons.mp hnd).1 ha.sleeping ha.running hnd' ha.init
    exact ⟨k', _, hk', .schedule rfl rfl rfl, hinv, .inr ⟨h, q, rfl, rfl, hsw⟩⟩

/-- **`task_run` is the abstract `taskRun`.** -/
theorem Inv.taskRun (ha : Inv L k a) {t : τ} (ht : t ∉ a.current :: a.queue) :
    ∃ k₁ k' b, PastaOS.taskRun L o k t = .ok k' ∧ RoundRobin.Step a (.taskRun t) b ∧
      Inv L k' b ∧ Initialised L k k₁ t ∧ Switched L o k₁ k' t (a.queue ++ [a.current]) := by
  obtain ⟨c, q, hnd⟩ := a
  obtain rfl : k.current = c := ha.current
  have hinit := taskInit_spec (L := L) k t
  set k₁ := taskInit L k t (k.entry t) (L.stack t) STACK_SIZE with hk₁
  simp only [List.mem_cons, not_or] at ht
  have hring : k₁.links.IsRing .head ((t :: q).map .task) := by
    rw [hinit.links]
    exact listAdd_isRing ha.ring fun hm ↦ ht.2 (task_mem_iff.mp hm)
  have hcur : k₁.current = k.current := hinit.current
  have hct : k.current ≠ t := fun h ↦ ht.1 h.symm
  have hrun : k₁.state k₁.current = TASK_RUNNING := by
    rw [hcur, hinit.state, Function.update_of_ne hct]
    exact ha.running
  have hsleep : ∀ u ∈ t :: q, k₁.state u = TASK_SLEEPING := by
    intro u hu
    rw [hinit.state]
    rcases List.mem_cons.mp hu with rfl | huq
    · exact Function.update_self ..
    · have hut : u ≠ t := fun h ↦ ht.2 (h ▸ huq)
      rw [Function.update_of_ne hut]
      exact ha.sleeping u huq
  have hc : k₁.current ∉ t :: q := by
    rw [hcur, List.mem_cons, not_or]
    exact ⟨hct, (List.nodup_cons.mp hnd).1⟩
  have hnd' : (t :: (q ++ [k₁.current])).Nodup := by
    rw [← List.cons_append, (List.perm_append_singleton _ _).nodup_iff, List.nodup_cons]
    exact ⟨hc, List.nodup_cons.mpr ⟨ht.2, (List.nodup_cons.mp hnd).2⟩⟩
  have hi : L.initTask ∈ k₁.current :: t :: q := by
    have := ha.init
    simp only [hcur, List.mem_cons] at this ⊢
    tauto
  obtain ⟨k', hk', hsw, hinv⟩ := inv_of_schedule_running (L := L) (o := o) hring hc hsleep hrun
    hnd' hi
  rw [hcur] at hsw
  refine ⟨k₁, k', _, hk', .taskRun ?_ rfl ?_, hinv, hinit, hsw⟩
  · simpa [List.mem_cons, not_or] using ht
  · simp [hcur]

/-- The exit of the running task, from a state in which the list carries `h :: q`. -/
theorem exitPoint_of_cons {h : τ} {q : List τ} (hr : k.links.IsRing .head ((h :: q).map .task))
    (hc : k.current ∉ h :: q) (hq : ∀ t ∈ h :: q, k.state t = TASK_SLEEPING) :
    ∃ k₁ k', exitPoint L o k = .ok k' ∧
      k₁ = (k.setRet k.current (k.cpu.gpr .eax)).setState k.current TASK_ZOMBIE ∧
      Switched L o k₁ k' h q ∧ k'.state = Function.update k₁.state h TASK_RUNNING := by
  set k₁ := (k.setRet k.current (k.cpu.gpr .eax)).setState k.current TASK_ZOMBIE with hk₁
  have hstate : k₁.state = Function.update k.state k.current TASK_ZOMBIE := rfl
  have hz : k₁.state k₁.current = TASK_ZOMBIE := by rw [hstate]; exact Function.update_self ..
  have hh : k₁.state h = TASK_SLEEPING := by
    have hne : h ≠ k.current := by rintro rfl; exact hc List.mem_cons_self
    rw [hstate, Function.update_of_ne hne]
    exact hq h List.mem_cons_self
  obtain ⟨k', hk', hsw, hst⟩ := schedule_zombie (L := L) (o := o) (k := k₁) hr hc hh hz
  exact ⟨k₁, k', hk', rfl, hsw, hst⟩

/-- **The exit of a task is the abstract `exit`.**  Some task is waiting, since `init_task` is. -/
theorem Inv.exit (ha : Inv L k a) (hi : k.current ≠ L.initTask) :
    ∃ k₁ k' b, exitPoint L o k = .ok k' ∧ RoundRobin.Step a .exit b ∧ Inv L k' b ∧
      k₁ = (k.setRet k.current (k.cpu.gpr .eax)).setState k.current TASK_ZOMBIE ∧
      Switched L o k₁ k' b.current b.queue ∧
      k'.state = Function.update k₁.state b.current TASK_RUNNING := by
  obtain ⟨c, q, hnd⟩ := a
  obtain rfl : k.current = c := ha.current
  have hinit : L.initTask ∈ q := by
    rcases List.mem_cons.mp ha.init with h | h
    exacts [absurd h.symm hi, h]
  obtain ⟨h, q, rfl⟩ := List.exists_cons_of_ne_nil (List.ne_nil_of_mem hinit)
  have hc : k.current ∉ h :: q := (List.nodup_cons.mp hnd).1
  obtain ⟨k₁, k', hk', rfl, hsw, hst⟩ :=
    exitPoint_of_cons (L := L) (o := o) ha.ring hc ha.sleeping
  have hnd' : (h :: q).Nodup := (List.nodup_cons.mp hnd).2
  refine ⟨_, k', ⟨h, q, hnd'⟩, hk', .exit rfl rfl rfl,
    ⟨hsw.ring, hsw.current, by simp [hst], ?_, hinit⟩, rfl, hsw, hst⟩
  intro t ht
  have hth : t ≠ h := by rintro rfl; exact (List.nodup_cons.mp hnd').1 ht
  have htc : t ≠ k.current := by rintro rfl; exact hc (List.mem_cons_of_mem _ ht)
  rw [hst, Function.update_of_ne hth]
  simp only [Kernel.setState, Kernel.setRet, Function.update_of_ne htc]
  exact ha.sleeping t (List.mem_cons_of_mem _ ht)

end PastaOS
