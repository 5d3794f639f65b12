import PastaOS.Sched.Defs
import PastaOS.Console.Printk

/-!
# The demonstration (`init/main.c`)

`main` starts the tasks `task1`, `task2` and so on, one after another, and every task, `main`
included, says hello, halts and yields, forever.  The source has nine of them; here it is any
number `m`.

A task is given by the statement it executes next.  The scheduler decides whose statement that is:
`task_run` and `schedule` return to their caller only when another task yields to it.  Everything
that a task does to the machine between these statements, and everything that interrupts do, is
`MainStep.compute`.
-/

set_option autoImplicit false

namespace PastaOS

variable {m : ℕ}

/-- The statements of `main` and `worker`. -/
inductive Stmt (m : ℕ)
  /-- `task_run(&task1)` and so on, for the task `j + 1` -/
  | start (j : Fin m)
  /-- `printk("hello from pid %d\n", pid)` -/
  | hello
  /-- `cpu_halt()` -/
  | halt
  /-- `schedule()` -/
  | yield

namespace Stmt

/-- The first call of `worker`, or of `task_run`. -/
def startFrom (m j : ℕ) : Stmt m := if h : j < m then .start ⟨j, h⟩ else .hello

/-- The first statement of a task: of `main` for the task 0, of `__task1` and so on for the
others. -/
def first (t : Fin (m + 1)) : Stmt m := if t = 0 then startFrom m 0 else .hello

/-- The statement behind a statement of the program. -/
def next : Stmt m → Stmt m
  | start j => startFrom m (j + 1)
  | hello => .halt
  | halt => .yield
  | yield => .hello

end Stmt

/-- The kernel, the tasks and the console. -/
structure System (m : ℕ) where
  /-- The scheduler and the machine. -/
  kernel : Kernel (Fin (m + 1))
  /-- What the tasks execute next. -/
  stmt : Fin (m + 1) → Stmt m
  /-- The console. -/
  console : Console

namespace System

/-- The running task has reached its next statement. -/
def advance (s : System m) : System m :=
  { s with stmt := Function.update s.stmt s.kernel.current (s.stmt s.kernel.current).next }

/-- What the running task executes next. -/
def here (s : System m) : Stmt m := s.stmt s.kernel.current

/-- `main` is called: nothing has been started, and the screen is clear. -/
structure Boot (L : Layout (Fin (m + 1))) (s : System m) : Prop where
  /-- The scheduler. -/
  kernel : s.kernel.Boot L
  /-- `main` runs as `init_task`. -/
  init : L.initTask = 0
  /-- The tasks are at their beginning. -/
  stmt : s.stmt = Stmt.first
  /-- `console_init()` -/
  console : ∃ c, consoleClear c = some s.console

end System

/-- `"hello from pid %d\n"` -/
def helloFormat : List Byte :=
  chrs ['h', 'e', 'l', 'l', 'o', ' ', 'f', 'r', 'o', 'm', ' ', 'p', 'i', 'd', ' ', '%', 'd', '\n']

/-- A call of `printk` is possible with these: `buf` is an array, and the first argument is this
number. -/
structure Prepared (buf : Word) (args : Args) (pid : ℕ) : Prop where
  /-- It is not at the address 0. -/
  ne : buf ≠ 0
  /-- It ends in front of the end of the address space. -/
  top : buf.toNat + PRINTK_BUFSIZE < 2 ^ 32
  /-- The process number. -/
  pid : args.head = BitVec.ofNat 32 pid

/-- What may happen in a run of `main`. -/
inductive MainEvent
  /-- The task with this number says hello. -/
  | greets (pid : ℕ)
  /-- The running task executes another statement. -/
  | statement
  /-- Anything else. -/
  | other

/-- The number of the task that says hello. -/
def MainEvent.pid? : MainEvent → Option ℕ
  | greets pid => some pid
  | statement | other => none

/-- Does the running task execute a statement? -/
def MainEvent.executes : MainEvent → Bool
  | greets _ | statement => true
  | other => false

/-- One statement of the running task, or something else that happens to the machine. -/
inductive MainStep (L : Layout (Fin (m + 1))) (o : Operands) (s : System m) :
    MainEvent → System m → Prop
  | start {j : Fin m} {k : Kernel (Fin (m + 1))} (hs : s.here = .start j)
      (hk : taskRun L o s.kernel j.succ = .ok k) :
      MainStep L o s .statement { s.advance with kernel := k }
  | hello {mem : Word → Byte} {buf : Word} {args : Args} {r : ℕ} {b : Buffer} {c : Console}
      (hs : s.here = .hello) (hcall : Prepared buf args s.kernel.current)
      (hp : printk mem buf (cstr helloFormat) args s.console = some (r, b, c)) :
      MainStep L o s (.greets s.kernel.current) { s.advance with console := c }
  | halt (hs : s.here = .halt) : MainStep L o s .statement s.advance
  | yield {k : Kernel (Fin (m + 1))} (hs : s.here = .yield) (hk : schedule L o s.kernel = .ok k) :
      MainStep L o s .statement { s.advance with kernel := k }
  | compute (cpu : StackMachine.Machine) :
      MainStep L o s .other { s with kernel := { s.kernel with cpu := cpu } }

/-- The running task gets on: the functions it calls neither run into `BUG_ON` nor leave the screen,
whatever the memory looks like. -/
structure System.GetsOn (L : Layout (Fin (m + 1))) (o : Operands) (s : System m) : Prop where
  /-- `task_run` -/
  start : ∀ j, s.here = .start j → ∃ k, taskRun L o s.kernel j.succ = .ok k
  /-- `printk` -/
  hello : s.here = .hello → ∀ mem buf args, Prepared buf args s.kernel.current →
    ∃ r b c, printk mem buf (cstr helloFormat) args s.console = some (r, b, c)
  /-- `schedule` -/
  yield : s.here = .yield → ∃ k, schedule L o s.kernel = .ok k

/-! ## Who says hello when -/

/-- The greetings of a run. -/
def greeted (es : List MainEvent) : List ℕ := es.filterMap MainEvent.pid?

/-- The number of statements in a run. -/
def statements (es : List MainEvent) : ℕ := es.countP MainEvent.executes

/-- The workers in the order in which they run, the last one that was started first. -/
def countdown : ℕ → List ℕ
  | 0 => []
  | j + 1 => (j + 1) :: countdown j

/-- The greetings while `main` starts workers: each of those that are there before the next one is
started. -/
def startup : ℕ → List ℕ
  | 0 => []
  | j + 1 => startup j ++ countdown (j + 1)

/-- The greetings of `n` rounds of all tasks. -/
def rounds (m : ℕ) : ℕ → List ℕ
  | 0 => []
  | n + 1 => rounds m n ++ 0 :: countdown m

end PastaOS
