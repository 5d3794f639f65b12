import PastaOS.Types
import PastaOS.ListHead
import PastaOS.Lib.Run
import PastaOS.Lib.StackMachine

/-!
# The scheduler (`kernel/sched.c`)

The state of the scheduler and the functions of `sched.c`, statement by statement.

`Kernel` is the state.  The fields of `struct task_struct` that only C code touches are stored
field by field: `links` holds the two pointers of `task_list` and of every task's `next` member,
and `entry`, `state`, `ret` hold the other members.  What the assembly of `switch_to` reads and
writes through raw addresses — the stacks and the `sp` members — lives in the memory of the
machine, at the addresses a `Layout` gives them.

A task is a value of an arbitrary type `τ`; `Node.task t` is the address `&t->next`, and since
`next` is the first member, `list_entry` takes it back to `t`.

`BUG_ON` prints and never returns.  It is modelled by `Except Bug`: an error says which of the
checks of `schedule` failed.

`Op` and `Step` are the moves of the system: `task_run`, `schedule` and a return through
`exit_point`, and between them whatever the running task does to the machine.
-/

set_option autoImplicit false

namespace PastaOS

open StackMachine

universe u

/-! ## Task states -/

/-- `TASK_RUNNING` -/
def TASK_RUNNING : Int := 0

/-- `TASK_SLEEPING` -/
def TASK_SLEEPING : Int := 1

/-- `TASK_ZOMBIE` -/
def TASK_ZOMBIE : Int := 2

/-- `STACK_SIZE`, in bytes. -/
def STACK_SIZE : ℕ := 4096

/-! ## Where things are in memory -/

/-- The address of a `struct list_head`: the global `task_list`, or the `next` member of a task. -/
inductive Node (τ : Type u)
  /-- `&task_list` -/
  | head
  /-- `&t->next` -/
  | task (t : τ)
  deriving DecidableEq

/-- `list_entry(pos, struct task_struct, next)`: the task a list node is the member of. -/
def listEntry {τ : Type u} : Node τ → Option τ
  | .head => none
  | .task t => some t

/-- Where the linker put the tasks and the boot stack.  A `struct task_struct` is 4120 bytes: the
links, the stack at offset 8, `sp` at offset 4104, then `entry`, `state` and `ret`. -/
structure Layout (τ : Type u) where
  /-- `init_task` -/
  initTask : τ
  /-- The address of each task. -/
  addr : τ → Word
  /-- The lowest address of the stack `init_task` runs on, which `boot.S` set up. -/
  bootStack : Word
  /-- The address of `exit_point`. -/
  exitPoint : Word
  /-- Tasks are aligned, as their members require. -/
  aligned : ∀ t, (addr t).toNat % 4 = 0
  /-- Tasks lie within the address space. -/
  inSpace : ∀ t, (addr t).toNat + 4120 ≤ 2 ^ 32
  /-- Different tasks do not overlap. -/
  apart : ∀ t u, t ≠ u →
    (addr t).toNat + 4120 ≤ (addr u).toNat ∨ (addr u).toNat + 4120 ≤ (addr t).toNat
  /-- The boot stack is aligned. -/
  bootAligned : bootStack.toNat % 4 = 0
  /-- The boot stack lies within the address space. -/
  bootInSpace : bootStack.toNat + 4096 ≤ 2 ^ 32
  /-- The boot stack does not overlap any task. -/
  bootApart : ∀ t,
    (addr t).toNat + 4120 ≤ bootStack.toNat ∨ bootStack.toNat + 4096 ≤ (addr t).toNat

namespace Layout

variable {τ : Type u} (L : Layout τ)

/-- `task->stack` -/
def stack (t : τ) : Word := L.addr t + 8#32

/-- `&task->sp` -/
def spCell (t : τ) : Word := L.addr t + 4104#32

end Layout

/-- The registers the compiler put the operands of `switch_to` in. -/
structure Operands where
  /-- The register of `new_stack`, the operand `%0`. -/
  new : Reg
  /-- The register of `old_stack`, the operand `%1`. -/
  old : Reg
  /-- They are different registers. -/
  ne : new ≠ old
  /-- Neither is the stack pointer. -/
  new_ne_esp : new ≠ .esp
  /-- Neither is the stack pointer. -/
  old_ne_esp : old ≠ .esp

/-! ## The state -/

/-- Everything the scheduler reads and writes. -/
structure Kernel (τ : Type u) where
  /-- `task_list` and every task's `next`. -/
  links : Links (Node τ)
  /-- `task->entry` -/
  entry : τ → Word
  /-- `task->state` -/
  state : τ → Int
  /-- `task->ret` -/
  ret : τ → Word
  /-- `current` -/
  current : τ
  /-- The processor, the stacks and every `task->sp`. -/
  cpu : Machine

/-- The ways `schedule` can run into `BUG_ON`. -/
inductive Bug
  /-- `BUG_ON(next == prev)` -/
  | nextIsPrev
  /-- The running task is `TASK_SLEEPING`. -/
  | prevSleeping
  /-- `Invalid task state` of the running task. -/
  | prevInvalid (state : Int)
  /-- The first task of the list is `TASK_RUNNING`. -/
  | nextRunning
  /-- The first task of the list is `TASK_ZOMBIE`. -/
  | nextZombie
  /-- `Invalid task state` of the first task of the list. -/
  | nextInvalid (state : Int)

section

variable {τ : Type u} [DecidableEq τ]

namespace Kernel

/-- `t->state = s` -/
def setState (k : Kernel τ) (t : τ) (s : Int) : Kernel τ :=
  { k with state := Function.update k.state t s }

/-- `t->ret = v` -/
def setRet (k : Kernel τ) (t : τ) (v : Word) : Kernel τ :=
  { k with ret := Function.update k.ret t v }

/-- `t->entry = v` -/
def setEntry (k : Kernel τ) (t : τ) (v : Word) : Kernel τ :=
  { k with entry := Function.update k.entry t v }

/-- `task->sp` -/
def sp (L : Layout τ) (k : Kernel τ) (t : τ) : Word := k.cpu.mem (L.spCell t)

end Kernel

/-! ## The context switch -/

/-- The assembly of `switch_to`. -/
def switchToAsm (o : Operands) : List Instr :=
  [.push .eax, .push .ecx, .push .edx, .push .ebx, .push .ebp, .push .esi, .push .edi,
    .movStore .esp o.old, .mov o.new .esp,
    .pop .edi, .pop .esi, .pop .ebp, .pop .ebx, .pop .edx, .pop .ecx, .pop .eax, .ret]

/-- The machine at the entry of `switch_to`: its operands are in their registers. -/
def atSwitchTo (o : Operands) (newStack oldStack : Word) (m : Machine) : Machine :=
  (m.setReg o.new newStack).setReg o.old oldStack

/-- `switch_to` -/
def switchTo (o : Operands) (newStack oldStack : Word) (m : Machine) : Machine :=
  execAll (switchToAsm o) (atSwitchTo o newStack oldStack m)

/-! ## `schedule` -/

/-- Update current task state: the first `switch` of `schedule`. -/
def schedulePrev (k : Kernel τ) (prev : τ) : Except Bug (Kernel τ) :=
  if k.state prev = TASK_RUNNING then
    let k := k.setState k.current TASK_SLEEPING
    .ok { k with links := listAddTail k.links (.task k.current) .head }
  else if k.state prev = TASK_ZOMBIE then .ok k
  else if k.state prev = TASK_SLEEPING then .error .prevSleeping
  else .error (.prevInvalid (k.state prev))

/-- Update next task state: the second `switch` of `schedule`. -/
def scheduleNext (k : Kernel τ) (next : τ) : Except Bug (Kernel τ) :=
  if k.state next = TASK_RUNNING then .error .nextRunning
  else if k.state next = TASK_SLEEPING then
    let k := k.setState next TASK_RUNNING
    .ok { k with links := listDelInit k.links (.task next), current := next }
  else if k.state next = TASK_ZOMBIE then .error .nextZombie
  else .error (.nextInvalid (k.state next))

/-- `schedule`.  With an empty list it returns to its caller at once. -/
def schedule (L : Layout τ) (o : Operands) (k : Kernel τ) : Except Bug (Kernel τ) :=
  let prev := k.current
  match (listFirstOrNull k.links .head).bind listEntry with
  | none => .ok k
  | some next =>
    if next = prev then .error .nextIsPrev
    else do
      let k ← schedulePrev k prev
      let k ← scheduleNext k next
      return { k with cpu := switchTo o (k.sp L next) (L.spCell prev) k.cpu }

/-- `exit_point`, entered by a `ret` of the running task with its return code in `eax`. -/
def exitPoint (L : Layout τ) (o : Operands) (k : Kernel τ) : Except Bug (Kernel τ) :=
  let k := k.setRet k.current (k.cpu.gpr .eax)
  let k := k.setState k.current TASK_ZOMBIE
  schedule L o k

/-! ## Starting a task -/

/-- `*(--task->sp) = v` -/
def pushSp (L : Layout τ) (task : τ) (v : Word) (m : Machine) : Machine :=
  let sp := m.mem (L.spCell task) - 4#32
  (m.store (L.spCell task) sp).store sp v

/-- `stack_init` -/
def stackInit (L : Layout τ) (k : Kernel τ) (task : τ) : Kernel τ :=
  let m := k.cpu
  let m := pushSp L task L.exitPoint m      -- ret when task is done
  let m := pushSp L task (k.entry task) m   -- eip
  let m := pushSp L task 0 m                -- eax
  let m := pushSp L task 0 m                -- ecx
  let m := pushSp L task 0 m                -- edx
  let m := pushSp L task 0 m                -- ebx
  let m := pushSp L task 0 m                -- ebp
  let m := pushSp L task 0 m                -- esi
  let m := pushSp L task 0 m                -- edi
  { k with cpu := m }

/-- `task_init` -/
def taskInit (L : Layout τ) (k : Kernel τ) (task : τ) (entry stack : Word) (size : ℕ) :
    Kernel τ :=
  let k := k.setEntry task entry
  let k := { k with
    cpu := k.cpu.store (L.spCell task) (stack + BitVec.ofNat 32 (4 * (size / 4))) }
  let k := stackInit L k task
  let k := k.setState task TASK_SLEEPING
  { k with links := listAdd k.links (.task task) .head }

/-- `task_run`, which always returns 0. -/
def taskRun (L : Layout τ) (o : Operands) (k : Kernel τ) (task : τ) : Except Bug (Kernel τ) :=
  let k := taskInit L k task (k.entry task) (L.stack task) STACK_SIZE
  schedule L o k

/-! ## The moves of the system -/

/-- `t` is linked in `task_list`: following `next` from the head comes across it. -/
def Kernel.Linked (k : Kernel τ) (t : τ) : Prop := ∃ n, k.links.next^[n] .head = .task t

/-- The state the kernel boots in: `task_list` is empty and `init_task` is running.  Nothing else
is initialised. -/
structure Kernel.Boot (L : Layout τ) (k : Kernel τ) : Prop where
  /-- `LIST_HEAD(task_list)` -/
  head_next : k.links.next .head = .head
  /-- `LIST_HEAD(task_list)` -/
  head_prev : k.links.prev .head = .head
  /-- `current = &init_task` -/
  current : k.current = L.initTask
  /-- `init_task.state = TASK_RUNNING` -/
  state : k.state L.initTask = TASK_RUNNING

/-- What can happen next. -/
inductive Op (τ : Type u)
  /-- The running task calls `task_run(t)`. -/
  | taskRun (t : τ)
  /-- The running task calls `schedule()`. -/
  | schedule
  /-- The running task returns from its entry point, into `exit_point`. -/
  | exit
  /-- The running task computes, leaving the machine as given. -/
  | compute (m : Machine)

/-- The code an operation runs. -/
def Op.run (L : Layout τ) (o : Operands) : Op τ → Kernel τ → Except Bug (Kernel τ)
  | .taskRun t, k => PastaOS.taskRun L o k t
  | .schedule, k => PastaOS.schedule L o k
  | .exit, k => exitPoint L o k
  | .compute m, k => .ok { k with cpu := m }

/-- What callers promise: `task_run` is given a task that is neither running nor linked, and
`init_task`, whose stack has no exit frame, does not return. -/
def Op.Allowed (L : Layout τ) : Op τ → Kernel τ → Prop
  | .taskRun t, k => t ≠ k.current ∧ ¬ k.Linked t
  | .exit, k => k.current ≠ L.initTask
  | _, _ => True

/-- One move: an allowed operation that does not run into `BUG_ON`. -/
def Step (L : Layout τ) (o : Operands) (k : Kernel τ) (op : Op τ) (k' : Kernel τ) : Prop :=
  op.Allowed L k ∧ op.run L o k = .ok k'

/-- The states some sequence of moves leads to from a boot state. -/
def Reachable (L : Layout τ) (o : Operands) (k : Kernel τ) : Prop :=
  ∃ k₀ ops, k₀.Boot L ∧ Run (Step L o) k₀ ops k

end

/-! ## A small system

Two tasks, `init_task` and one more, with 4 KiB of boot stack: the system the concrete instances
of the theorems below are about.
-/

/-- Task 0 is `init_task`; everything lies above 1 MiB. -/
def pairLayout : Layout (Fin 2) where
  initTask := 0
  addr t := if t = 0 then 0x110000#32 else 0x120000#32
  bootStack := 0x100000#32
  exitPoint := 0x100400#32
  aligned := by decide
  inSpace := by decide
  apart := by decide
  bootAligned := by decide
  bootInSpace := by decide
  bootApart := by decide

/-- `new_stack` in `eax`, `old_stack` in `edx`. -/
def pairOperands : Operands where
  new := .eax
  old := .edx
  ne := by decide
  new_ne_esp := by decide
  old_ne_esp := by decide

/-- Boot: the list is empty, `init_task` runs near the top of its stack, and the second task is to
be entered at `0x100800`. -/
def pairBoot : Kernel (Fin 2) where
  links := ⟨fun _ ↦ .head, fun _ ↦ .head⟩
  entry _ := 0x100800#32
  state _ := TASK_RUNNING
  ret _ := 0
  current := 0
  cpu.gpr
    | .eax => 6
    | .ecx => 7
    | .edx => 8
    | .ebx => 9
    | .ebp => 10
    | .esi => 11
    | .edi => 12
    | .esp => 0x100fa0
  cpu.eip := 0
  cpu.mem _ := 0

theorem pairBoot_boot : pairBoot.Boot pairLayout := ⟨rfl, rfl, rfl, rfl⟩

end PastaOS
