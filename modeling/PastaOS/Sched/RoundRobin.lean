import Mathlib.Data.List.Rotate
import PastaOS.Lib.Run

/-!
# Round robin, in the abstract

What the scheduler is for, said without pointers: a running task and a queue of distinct waiting
tasks.  A *tick* — a call of `schedule`, or the exit of the running task — hands the processor to
the first waiting task; `schedule` sends the running task to the back of the queue, an exit drops
it.  Starting a task makes it run at once and sends the task that started it to the back.

Two laws follow for runs of any length.

* `RoundRobin.waits` and `RoundRobin.runs_after`: a task at position `k` of the queue moves up one
  place with every tick, is not overtaken, and becomes the running task with tick number `k + 1`.
* `RoundRobin.rotation`: with `n` waiting tasks, `n + 1` calls of `schedule` come full circle.
-/

set_option autoImplicit false

namespace PastaOS

universe u

/-- The calls that move tasks about. -/
inductive Call (τ : Type u)
  /-- Start the task `t`. -/
  | taskRun (t : τ)
  /-- Give up the processor. -/
  | schedule
  /-- Finish. -/
  | exit

/-- The calls that take a task off the queue. -/
def Call.isTick {τ : Type u} : Call τ → Bool
  | .taskRun _ => false
  | .schedule => true
  | .exit => true

/-- The number of ticks among the calls. -/
def ticks {τ : Type u} (cs : List (Call τ)) : ℕ := cs.countP Call.isTick

/-- A running task and the tasks waiting for the processor, first come first; all different. -/
@[ext]
structure RoundRobin (τ : Type u) where
  /-- The running task. -/
  current : τ
  /-- The waiting tasks. -/
  queue : List τ
  /-- No task waits twice, and the running task does not wait. -/
  nodup : (current :: queue).Nodup

namespace RoundRobin

variable {τ : Type u} {a b : RoundRobin τ} {cs : List (Call τ)} {c : Call τ}

/-- What a call does. -/
inductive Step : RoundRobin τ → Call τ → RoundRobin τ → Prop
  /-- A task that neither runs nor waits starts running; its creator goes to the back. -/
  | taskRun {a b : RoundRobin τ} {t : τ} (ht : t ∉ a.current :: a.queue) (hc : b.current = t)
      (hq : b.queue = a.queue ++ [a.current]) : Step a (.taskRun t) b
  /-- The first waiting task runs; the running one goes to the back. -/
  | schedule {a b : RoundRobin τ} {h : τ} {q : List τ} (ha : a.queue = h :: q)
      (hc : b.current = h) (hq : b.queue = q ++ [a.current]) : Step a .schedule b
  /-- Nobody waits, so the running task goes on. -/
  | alone {a : RoundRobin τ} (ha : a.queue = []) : Step a .schedule a
  /-- The first waiting task runs; the running one is gone. -/
  | exit {a b : RoundRobin τ} {h : τ} {q : List τ} (ha : a.queue = h :: q)
      (hc : b.current = h) (hq : b.queue = q) : Step a .exit b

/-- A call in which no task starts or exits keeps the set of tasks. -/
theorem Step.mem_schedule {t : τ} (hs : Step a .schedule b) :
    t ∈ b.current :: b.queue ↔ t ∈ a.current :: a.queue := by
  cases hs with
  | schedule ha hc hq =>
    simp only [ha, hc, hq, List.mem_cons, List.mem_append, List.not_mem_nil, or_false]
    tauto
  | alone => rfl

/-- Starting a task adds it. -/
theorem Step.mem_taskRun {t u : τ} (hs : Step a (.taskRun t) b) :
    u ∈ b.current :: b.queue ↔ u = t ∨ u ∈ a.current :: a.queue := by
  cases hs with
  | taskRun _ hc hq =>
    simp only [hc, hq, List.mem_cons, List.mem_append, List.not_mem_nil, or_false]
    tauto

/-- An exit removes the running task, and nobody else. -/
theorem Step.mem_exit {t : τ} (hs : Step a .exit b) :
    t ∈ b.current :: b.queue ↔ t ∈ a.current :: a.queue ∧ t ≠ a.current := by
  have hnd := (List.nodup_cons.mp a.nodup).1
  cases hs with
  | exit ha hc hq =>
    rw [hc, hq, ← ha, List.mem_cons]
    constructor
    · intro ht; exact ⟨.inr ht, by rintro rfl; exact hnd ht⟩
    · rintro ⟨rfl | ht, hne⟩
      exacts [absurd rfl hne, ht]

/-! ## Waiting -/

/-- A call that is no tick leaves every waiting task at its place. -/
theorem Step.getElem?_of_not_tick {k : ℕ} {t : τ} (hs : Step a c b) (hc : c.isTick = false)
    (ht : a.queue[k]? = some t) : b.queue[k]? = some t := by
  cases hs with
  | taskRun _ _ hq =>
    rw [hq, List.getElem?_append_left (List.getElem?_eq_some_iff.mp ht).1]
    exact ht
  | schedule | alone | exit => simp [Call.isTick] at hc

/-- A tick moves every waiting task but the first up one place. -/
theorem Step.getElem?_of_tick {k : ℕ} {t : τ} (hs : Step a c b) (hc : c.isTick = true)
    (ht : a.queue[k + 1]? = some t) : b.queue[k]? = some t := by
  cases hs with
  | taskRun => simp [Call.isTick] at hc
  | schedule ha _ hq =>
    rw [ha, List.getElem?_cons_succ] at ht
    rw [hq, List.getElem?_append_left (List.getElem?_eq_some_iff.mp ht).1]
    exact ht
  | alone ha => simp [ha] at ht
  | exit ha _ hq => rwa [hq, ← List.getElem?_cons_succ, ← ha]

/-- A tick makes the first waiting task run. -/
theorem Step.current_of_tick {t : τ} (hs : Step a c b) (hc : c.isTick = true)
    (ht : a.queue[0]? = some t) : b.current = t := by
  cases hs with
  | taskRun => simp [Call.isTick] at hc
  | schedule ha hb _ | exit ha hb _ => simpa [ha, hb] using ht
  | alone ha => simp [ha] at ht

/-- **No overtaking.**  As long as a waiting task's turn has not come, it waits at its old place
less the number of ticks so far. -/
theorem waits {k : ℕ} {t : τ} (hr : Run Step a cs b) (ht : a.queue[k]? = some t)
    (hk : ticks cs ≤ k) : b.queue[k - ticks cs]? = some t := by
  induction hr generalizing k with
  | nil => simpa [ticks] using ht
  | @cons _ _ _ c cs hs _ ih =>
    cases hc : c.isTick with
    | false =>
      have hcs : ticks (c :: cs) = ticks cs := by simp [ticks, hc]
      rw [hcs] at hk ⊢
      exact ih (hs.getElem?_of_not_tick hc ht) hk
    | true =>
      have hcs : ticks (c :: cs) = ticks cs + 1 := by simp [ticks, hc]
      rw [hcs] at hk ⊢
      obtain ⟨j, rfl⟩ : ∃ j, k = j + 1 := ⟨k - 1, by omega⟩
      have hj := ih (hs.getElem?_of_tick hc ht) (by omega)
      rwa [show j + 1 - (ticks cs + 1) = j - ticks cs by omega]

/-- **The turn comes.**  A task at position `k` runs after tick number `k + 1`. -/
theorem runs_after {k : ℕ} {t : τ} {d : RoundRobin τ} (hr : Run Step a cs b)
    (ht : a.queue[k]? = some t) (hk : ticks cs = k) (hs : Step b c d) (hc : c.isTick = true) :
    d.current = t := by
  have hb := waits hr ht hk.le
  rw [hk, Nat.sub_self] at hb
  exact hs.current_of_tick hc hb

/-! ## Going full circle -/

/-- All tasks in the order of their turns, the running task last. -/
def cycle (a : RoundRobin τ) : List τ := a.queue ++ [a.current]

theorem cycle_injective (h : a.cycle = b.cycle) : a = b := by
  rw [cycle, cycle] at h
  obtain ⟨hq, hc⟩ := List.append_inj' h rfl
  exact RoundRobin.ext (by simpa using hc) hq

/-- `schedule` rotates the cycle. -/
theorem Step.cycle_eq (hs : Step a .schedule b) : b.cycle = a.cycle.rotate 1 := by
  cases hs with
  | schedule ha hc hq => simp [cycle, ha, hc, hq, List.rotate_cons_succ]
  | alone ha => simp [cycle, ha]

theorem cycle_rotate {n : ℕ} (hr : Run Step a (List.replicate n .schedule) b) :
    b.cycle = a.cycle.rotate n := by
  induction n generalizing a with
  | zero => rw [Run.nil_iff.mp hr, List.rotate_zero]
  | succ n ih =>
    rw [List.replicate_succ, Run.cons_iff] at hr
    obtain ⟨m, hs, hr⟩ := hr
    rw [ih hr, hs.cycle_eq, List.rotate_rotate, Nat.add_comm]

/-- **Full circle.**  With `n` tasks waiting, `n + 1` calls of `schedule` restore the running task
and the order of the queue. -/
theorem rotation (hr : Run Step a (List.replicate (a.queue.length + 1) .schedule) b) : b = a := by
  have hlen : a.queue.length + 1 = a.cycle.length := by simp [cycle]
  refine cycle_injective ?_
  rw [cycle_rotate hr, hlen, List.rotate_length]

end RoundRobin

end PastaOS
