import PastaOS.Console.Messages
import PastaOS.Interrupt.Entry
import PastaOS.Sched.Defs

/-!
# When the kernel fails (`kernel/panic.c`, `include/panic.h`)

The kernel fails in three ways: an exception calls `default_exc_handler`, a line without a handler
calls `unhandled_interrupt`, and the scheduler runs into one of its `BUG_ON`s.  Each of them is a
straight piece of code (`Failure.code`): it prints one or two lines, the line of `panic`, disables
interrupts and halts.

The interrupts are enabled until then, unless they were disabled before.  What an interrupt does in
between is nothing to this code: all it finds changed is below its stack pointer.

`failure_report` says what is to be seen of the failure in the end, and that it is the end.
-/

set_option autoImplicit false

namespace PastaOS

/-! ## The messages -/

/-- What `BUG_ON` passes to `__kernel_bug`. -/
structure BugSite where
  /-- `#__cond` -/
  cond : List Byte
  /-- `__FILE__` -/
  file : List Byte
  /-- `__LINE__` -/
  line : ℕ

/-- The calls of `printk`. -/
inductive Report
  /-- `printk("exception: %d\n", c->exc)` -/
  | exception (exc : Word)
  /-- `printk("Invalid task state: %d\n", task->state)` -/
  | invalidState (state : Word)
  /-- `printk("BUG: %s (%s:%d)\n", cond, file, line)` -/
  | bug (site : BugSite)
  /-- `printk(">>> Kernel panic. Have a nice day. <<<\n")` -/
  | panic

/-- `"exception: "` -/
def exceptionText : List Byte := chrs ['e', 'x', 'c', 'e', 'p', 't', 'i', 'o', 'n', ':', ' ']

/-- `"Invalid task state: "` -/
def invalidStateText : List Byte :=
  chrs ['I', 'n', 'v', 'a', 'l', 'i', 'd', ' ', 't', 'a', 's', 'k', ' ', 's', 't', 'a', 't', 'e',
    ':', ' ']

/-- `"BUG: "` -/
def bugText : List Byte := chrs ['B', 'U', 'G', ':', ' ']

/-- `">>> Kernel panic. Have a nice day. <<<"` -/
def panicText : List Byte :=
  chrs ['>', '>', '>', ' ', 'K', 'e', 'r', 'n', 'e', 'l', ' ', 'p', 'a', 'n', 'i', 'c', '.', ' ',
    'H', 'a', 'v', 'e', ' ', 'a', ' ', 'n', 'i', 'c', 'e', ' ', 'd', 'a', 'y',
    '.', ' ', '<', '<', '<']

namespace Report

/-- The format `printk` is called with. -/
def format : Report → List Byte
  | exception _ => exceptionText ++ chrs ['%', 'd', '\n']
  | invalidState _ => invalidStateText ++ chrs ['%', 'd', '\n']
  | bug _ => bugText ++ chrs ['%', 's', ' ', '(', '%', 's', ':', '%', 'd', ')', '\n']
  | panic => panicText ++ chrs ['\n']

/-- The arguments, with strings in memory. -/
def Passes (mem : Word → Byte) (buf : Word) : Report → Args → Prop
  | exception exc, args => args.head = exc
  | invalidState state, args => args.head = state
  | bug site, args => StringAt mem buf args.head site.cond ∧
      StringAt mem buf args.tail.head site.file ∧ args.tail.tail.head = BitVec.ofNat 32 site.line
  | panic, _ => True

/-- The line that is printed, without its newline. -/
def line : Report → List Byte
  | exception exc => exceptionText ++ intText exc.toInt
  | invalidState state => invalidStateText ++ intText state.toInt
  | bug site =>
    bugText ++ (site.cond ++ (chrs [' ', '('] ++ (site.file ++ (chrs [':'] ++
      (decimalText site.line ++ chrs [')'])))))
  | panic => panicText

end Report

/-! ## The code -/

/-- A statement on the way down. -/
inductive PanicStmt
  /-- `printk(...)` -/
  | printk (r : Report)
  /-- `irq_disable()` -/
  | irqDisable
  /-- `for (;;) cpu_halt();` -/
  | haltForever

/-- `panic` -/
def panicCode : List PanicStmt := [.printk .panic, .irqDisable, .haltForever]

/-- `__kernel_bug` -/
def kernelBug (site : BugSite) : List PanicStmt := .printk (.bug site) :: panicCode

/-- `"true"` -/
def trueText : List Byte := chrs ['t', 'r', 'u', 'e']

/-- `"next == prev"` -/
def nextIsPrevText : List Byte :=
  chrs ['n', 'e', 'x', 't', ' ', '=', '=', ' ', 'p', 'r', 'e', 'v']

/-- `"kernel/interrupt.c"` -/
def interruptFile : List Byte :=
  chrs ['k', 'e', 'r', 'n', 'e', 'l', '/', 'i', 'n', 't', 'e', 'r', 'r', 'u', 'p', 't', '.', 'c']

/-- `"kernel/sched.c"` -/
def schedFile : List Byte :=
  chrs ['k', 'e', 'r', 'n', 'e', 'l', '/', 's', 'c', 'h', 'e', 'd', '.', 'c']

/-- The ways in which the kernel fails. -/
inductive Failure
  /-- `default_exc_handler(c)` -/
  | exception (c : ExceptionContext)
  /-- `unhandled_interrupt(c)` -/
  | unhandledInterrupt
  /-- `schedule()` -/
  | schedule (bug : Bug)

namespace Failure

/-- The `BUG_ON` that it comes to. -/
def site : Failure → BugSite
  | exception _ => ⟨trueText, interruptFile, 79⟩
  | unhandledInterrupt => ⟨trueText, interruptFile, 67⟩
  | schedule .nextIsPrev => ⟨nextIsPrevText, schedFile, 55⟩
  | schedule .prevSleeping => ⟨trueText, schedFile, 66⟩
  | schedule (.prevInvalid _) => ⟨trueText, schedFile, 70⟩
  | schedule .nextRunning => ⟨trueText, schedFile, 77⟩
  | schedule .nextZombie => ⟨trueText, schedFile, 85⟩
  | schedule (.nextInvalid _) => ⟨trueText, schedFile, 89⟩

/-- What it executes, from the first message on. -/
def code (f : Failure) : List PanicStmt :=
  match f with
  | exception c => .printk (.exception c.exc) :: kernelBug f.site
  | unhandledInterrupt => kernelBug f.site
  | schedule (.prevInvalid state) =>
    .printk (.invalidState (BitVec.ofInt 32 state)) :: kernelBug f.site
  | schedule (.nextInvalid state) =>
    .printk (.invalidState (BitVec.ofInt 32 state)) :: kernelBug f.site
  | schedule _ => kernelBug f.site

end Failure

/-- A kernel that has failed, with the statements it has still to execute. -/
structure Failing where
  /-- What is left to be done. -/
  code : List PanicStmt
  /-- The interrupt flag. -/
  flag : Bool
  /-- The console. -/
  console : Console

/-- What may happen to it. -/
inductive FailingEvent
  /-- The next statement is executed. -/
  | statement
  /-- An interrupt is accepted, and returns. -/
  | interrupt
  deriving DecidableEq

/-- One step of a failing kernel. -/
inductive FailingStep (s : Failing) : FailingEvent → Failing → Prop
  | printk {r : Report} {rest : List PanicStmt} {mem : Word → Byte} {buf : Word} {args : Args}
      {n : ℕ} {b : Buffer} {c : Console} (hs : s.code = .printk r :: rest)
      (hbuf : IsStackBuffer buf) (hargs : r.Passes mem buf args)
      (hp : printk mem buf (cstr r.format) args s.console = some (n, b, c)) :
      FailingStep s .statement { s with code := rest, console := c }
  | irqDisable {rest : List PanicStmt} (hs : s.code = .irqDisable :: rest) :
      FailingStep s .statement { s with code := rest, flag := false }
  | haltForever {rest : List PanicStmt} (hs : s.code = .haltForever :: rest) :
      FailingStep s .statement s
  | interrupt (hflag : s.flag = true) : FailingStep s .interrupt s

/-! ## What is printed -/

/-- What a site consists of can be printed in one line. -/
structure BugSite.Fits (site : BugSite) : Prop where
  /-- The line is short. -/
  short : site.cond.length + site.file.length ≤ 60
  /-- The condition can be printed. -/
  cond : ∀ c ∈ site.cond, IsText c
  /-- The name of the file can be printed. -/
  file : ∀ c ∈ site.file, IsText c
  /-- The number of the line is an `int`. -/
  line_lt : site.line < 2 ^ 31

/-- Whether a report can be printed. -/
def Report.Fits : Report → Prop
  | .bug site => site.Fits
  | _ => True

theorem Failure.site_fits (f : Failure) : f.site.Fits := by
  have htrue : ∀ c ∈ trueText, IsText c := by decide
  have hprev : ∀ c ∈ nextIsPrevText, IsText c := by decide
  have hirq : ∀ c ∈ interruptFile, IsText c := by decide
  have hsched : ∀ c ∈ schedFile, IsText c := by decide
  have hline {cond file : List Byte} {n : ℕ} (hc : ∀ c ∈ cond, IsText c)
      (hf : ∀ c ∈ file, IsText c) (hlen : cond.length + file.length ≤ 60) (hn : n < 2 ^ 31) :
      BugSite.Fits ⟨cond, file, n⟩ := ⟨hlen, hc, hf, hn⟩
  cases f with
  | exception c => exact hline htrue hirq (by decide) (by decide)
  | unhandledInterrupt => exact hline htrue hirq (by decide) (by decide)
  | schedule b =>
    cases b with
    | nextIsPrev => exact hline hprev hsched (by decide) (by decide)
    | prevSleeping | prevInvalid _ | nextRunning | nextZombie | nextInvalid _ =>
      exact hline htrue hsched (by decide) (by decide)

namespace Report

variable {r : Report} {mem : Word → Byte} {buf : Word} {args : Args}

/-- `"%d\n"`, behind literal characters. -/
theorem untruncated_number {fmt pre : List Byte}
    (hparse : parse (cstr fmt) = pre.map .literal
      ++ [.directive ⟨{}, .absent, none, .none⟩ (chr 'd'), .literal (chr '\n')])
    (acc : Access) (mem : Word → Byte) (args : Args) :
    untruncated acc mem (cstr fmt) args
      = some (args.tail, ⟨mem, pre ++ intText args.head.toInt ++ [10], []⟩) := by
  rw [untruncated_eq, hparse, runItems_append, runItems_literals, Option.bind_some,
    runItems_decimal, paperSink_puts, paperSink_puts]
  rfl

/-- The text of a report is its line and a newline. -/
theorem untruncated_eq (hfits : r.Fits) (hargs : r.Passes mem buf args) :
    ∃ args', untruncated (offBuffer buf PRINTK_BUFSIZE) mem (cstr r.format) args
      = some (args', ⟨mem, r.line ++ [10], []⟩) := by
  cases r with
  | exception exc =>
    obtain rfl : args.head = exc := hargs
    have hparse : parse (cstr (format (.exception args.head))) = exceptionText.map .literal
        ++ [.directive ⟨{}, .absent, none, .none⟩ (chr 'd'), .literal (chr '\n')] := by
      show parse (cstr (exceptionText ++ chrs ['%', 'd', '\n'])) = _
      decide +kernel
    exact ⟨_, untruncated_number hparse _ mem args⟩
  | invalidState state =>
    obtain rfl : args.head = state := hargs
    have hparse : parse (cstr (format (.invalidState args.head))) = invalidStateText.map .literal
        ++ [.directive ⟨{}, .absent, none, .none⟩ (chr 'd'), .literal (chr '\n')] := by
      show parse (cstr (invalidStateText ++ chrs ['%', 'd', '\n'])) = _
      decide +kernel
    exact ⟨_, untruncated_number hparse _ mem args⟩
  | bug site =>
    obtain ⟨hcond, hfile, hline⟩ := hargs
    have hshort := hfits.short
    have hparse : parse (cstr (format (.bug site))) = bugText.map .literal
        ++ (.directive ⟨{}, .absent, none, .none⟩ (chr 's')
          :: ((chrs [' ', '(']).map .literal ++ (.directive ⟨{}, .absent, none, .none⟩ (chr 's')
          :: ((chrs [':']).map .literal ++ (.directive ⟨{}, .absent, none, .none⟩ (chr 'd')
          :: (chrs [')', '\n']).map .literal))))) := by
      show parse (cstr (bugText
        ++ chrs ['%', 's', ' ', '(', '%', 's', ':', '%', 'd', ')', '\n'])) = _
      decide +kernel
    refine ⟨args.tail.tail.tail, ?_⟩
    -- the condition
    rw [PastaOS.untruncated_eq, hparse, runItems_append, runItems_literals, Option.bind_some,
      runItems_string hcond (by rw [paperSink_puts]) (by omega)]
    -- the file
    rw [runItems_append, runItems_literals, Option.bind_some,
      runItems_string hfile (by rw [paperSink_puts, paperSink_puts, paperSink_puts]) (by omega)]
    -- and the line
    rw [runItems_append, runItems_literals, Option.bind_some, runItems_decimal, runItems_literals,
      hline, intText_natural hfits.line_lt]
    simp only [paperSink_puts, line, List.append_assoc, List.nil_append]
    rfl
  | panic =>
    have hparse : parse (cstr (format .panic)) = (panicText ++ [10]).map .literal := by
      decide +kernel
    refine ⟨args, ?_⟩
    rw [PastaOS.untruncated_eq, hparse, runItems_literals, paperSink_puts]
    rfl

/-- The line of a report is a message. -/
theorem isMessage_line (hfits : r.Fits) : IsMessage r.line := by
  have hexc : ∀ c ∈ exceptionText, IsText c := by decide
  have hstate : ∀ c ∈ invalidStateText, IsText c := by decide
  have hbug : ∀ c ∈ bugText ++ (chrs [' ', '('] ++ (chrs [':'] ++ chrs [')'])), IsText c := by
    decide
  have hpanic : ∀ c ∈ panicText, IsText c := by decide
  cases r with
  | exception exc =>
    have hlen := intText_length_le exc
    refine ⟨?_, fun c hc ↦ (List.mem_append.mp hc).elim (hexc c) (isText_intText c)⟩
    rw [line, List.length_append]
    show 11 + _ < 80
    omega
  | invalidState state =>
    have hlen := intText_length_le state
    refine ⟨?_, fun c hc ↦ (List.mem_append.mp hc).elim (hstate c) (isText_intText c)⟩
    rw [line, List.length_append]
    show 20 + _ < 80
    omega
  | bug site =>
    have hshort := hfits.short
    have hlen : (decimalText site.line).length ≤ 10 :=
      decimalText_length_le (hfits.line_lt.trans (by decide))
    refine ⟨?_, fun c hc ↦ ?_⟩
    · simp only [line, List.length_append]
      show 5 + (site.cond.length + (2 + (site.file.length + (1 + (_ + 1))))) < 80
      omega
    · simp only [line, List.mem_append] at hc hbug
      rcases hc with hc | hc | hc | hc | hc | hc | hc
      · exact hbug c (.inl hc)
      · exact hfits.cond c hc
      · exact hbug c (.inr (.inl hc))
      · exact hfits.file c hc
      · exact hbug c (.inr (.inr (.inl hc)))
      · exact isText_decimalText c hc
      · exact hbug c (.inr (.inr (.inr hc)))
  | panic => exact ⟨by decide, hpanic⟩

/-- **A report** is a line more on the console. -/
theorem printk (hfits : r.Fits) (hargs : r.Passes mem buf args) (hbuf : IsStackBuffer buf)
    {c : Console} {ls : List (List Byte)} (h : Printed c ls) :
    ∃ n b c', PastaOS.printk mem buf (cstr r.format) args c = some (n, b, c') ∧
      Printed c' (ls ++ [r.line]) := by
  obtain ⟨args', hu⟩ := untruncated_eq hfits hargs
  exact h.printk hbuf hu rfl (isMessage_line hfits)

end Report

/-! ## The way down -/

/-- The line a statement prints, if it prints one. -/
def PanicStmt.line? : PanicStmt → Option (List Byte)
  | .printk r => some r.line
  | .irqDisable | .haltForever => none

/-- A statement in front of the last one. -/
inductive PanicStmt.Passing : PanicStmt → Prop
  | printk {r : Report} (hr : r.Fits) : Passing (.printk r)
  | irqDisable : Passing .irqDisable

/-- All failures end alike: the code of each ends in `panic`, which halts. -/
theorem Failure.code_eq (f : Failure) : ∃ pre : List PanicStmt,
    f.code = pre ++ [.irqDisable, .haltForever] ∧ ∀ x ∈ pre, x.Passing := by
  have hbug : PanicStmt.Passing (.printk (.bug f.site)) := .printk f.site_fits
  have hpanic : PanicStmt.Passing (.printk .panic) := .printk trivial
  have hshort : ∀ x ∈ [.printk (.bug f.site), .printk .panic], PanicStmt.Passing x := by
    simp [hbug, hpanic]
  have hlong {r : Report} (hr : r.Fits) :
      ∀ x ∈ [.printk r, .printk (.bug f.site), .printk .panic], PanicStmt.Passing x := by
    simp [hbug, hpanic, PanicStmt.Passing.printk hr]
  cases f with
  | exception c => exact ⟨_, rfl, hlong (r := .exception c.exc) trivial⟩
  | unhandledInterrupt => exact ⟨_, rfl, hshort⟩
  | schedule b =>
    cases b with
    | prevInvalid state | nextInvalid state =>
      exact ⟨_, rfl, hlong (r := .invalidState (BitVec.ofInt 32 state)) trivial⟩
    | nextIsPrev | prevSleeping | nextRunning | nextZombie => exact ⟨_, rfl, hshort⟩

/-- The kernel has executed `k` statements of those in front of the last one. -/
structure OnTheWay (pre : List PanicStmt) (ls : List (List Byte)) (k : ℕ) (s : Failing) :
    Prop where
  /-- What is left. -/
  code : s.code = pre.drop k ++ [.haltForever]
  /-- There are so many. -/
  le : k ≤ pre.length
  /-- What has been printed. -/
  printed : Printed s.console (ls ++ (pre.take k).filterMap PanicStmt.line?)
  /-- Whether interrupts have been disabled. -/
  flag : .irqDisable ∈ pre.take k → s.flag = false

variable {pre rest : List PanicStmt} {ls : List (List Byte)} {k : ℕ} {s t : Failing}
  {x : PanicStmt} {e : FailingEvent} {es : List FailingEvent}

/-- The next statement, unless it is the last one. -/
theorem OnTheWay.next (h : OnTheWay pre ls k s) (hs : s.code = x :: rest) (hx : x ≠ .haltForever) :
    k < pre.length ∧ pre.take (k + 1) = pre.take k ++ [x] ∧
      rest = pre.drop (k + 1) ++ [.haltForever] := by
  have hcode := h.code
  rw [hs] at hcode
  rcases Nat.eq_or_lt_of_le h.le with rfl | hlt
  · rw [List.drop_length, List.nil_append] at hcode
    exact absurd (List.cons.inj hcode).1 hx
  · rw [List.drop_eq_getElem_cons hlt, List.cons_append] at hcode
    obtain ⟨rfl, rfl⟩ := List.cons.inj hcode
    exact ⟨hlt, List.take_succ_eq_append_getElem hlt, rfl⟩

/-- When all other statements have been executed, only the last one is left. -/
theorem OnTheWay.last (h : OnTheWay pre ls k s) (hpre : ∀ x ∈ pre, x.Passing)
    (hs : s.code = .haltForever :: rest) : k = pre.length := by
  have hcode := h.code
  rw [hs] at hcode
  refine Nat.le_antisymm h.le (Nat.not_lt.mp fun hlt ↦ ?_)
  rw [List.drop_eq_getElem_cons hlt, List.cons_append] at hcode
  have hpass := hpre _ (List.getElem_mem hlt)
  rw [← (List.cons.inj hcode).1] at hpass
  cases hpass

/-- The next message can be printed. -/
theorem OnTheWay.print (h : OnTheWay pre ls k s) (hpre : ∀ x ∈ pre, x.Passing) {r : Report}
    (hs : s.code = .printk r :: rest) {mem : Word → Byte} {buf : Word} {args : Args}
    (hbuf : IsStackBuffer buf) (hargs : r.Passes mem buf args) :
    ∃ n b c, printk mem buf (cstr r.format) args s.console = some (n, b, c) ∧
      Printed c (ls ++ (pre.take (k + 1)).filterMap PanicStmt.line?) := by
  obtain ⟨-, htake, -⟩ := h.next hs (by simp)
  have hmem : .printk r ∈ pre := by
    refine List.mem_of_mem_take (i := k + 1) ?_
    rw [htake]
    simp
  have hfits : r.Fits := by
    cases hpre _ hmem with
    | printk hr => exact hr
  rw [htake, List.filterMap_append, ← List.append_assoc]
  exact Report.printk hfits hargs hbuf h.printed

/-- **One step of a failing kernel keeps it on the way.** -/
theorem OnTheWay.step (h : OnTheWay pre ls k s) (hpre : ∀ x ∈ pre, x.Passing)
    (hs : FailingStep s e t) :
    OnTheWay pre ls (min (k + [e].count .statement) pre.length) t := by
  have hone : [FailingEvent.statement].count .statement = 1 := by decide
  have hnone : [FailingEvent.interrupt].count .statement = 0 := by decide
  cases hs with
  | @printk r rest mem buf args n b c hcode hbuf hargs hp =>
    obtain ⟨hlt, htake, rfl⟩ := h.next hcode (by simp)
    obtain ⟨n', b', c', hp', hprinted⟩ := h.print hpre hcode hbuf hargs
    obtain ⟨rfl, rfl, rfl⟩ : n' = n ∧ b' = b ∧ c' = c := by
      simpa using hp'.symm.trans hp
    rw [hone, Nat.min_eq_left hlt]
    refine ⟨rfl, hlt, hprinted, fun hmem ↦ h.flag ?_⟩
    simpa [htake] using hmem
  | irqDisable hcode =>
    obtain ⟨hlt, htake, rfl⟩ := h.next hcode (by simp)
    rw [hone, Nat.min_eq_left hlt]
    refine ⟨rfl, hlt, ?_, fun _ ↦ rfl⟩
    rw [htake, List.filterMap_append, ← List.append_assoc]
    exact (List.append_nil _).symm ▸ h.printed
  | haltForever hcode =>
    obtain rfl := h.last hpre hcode
    rw [Nat.min_eq_right (Nat.le_add_right _ _)]
    exact h
  | interrupt hflag =>
    rw [hnone, Nat.add_zero, Nat.min_eq_left h.le]
    exact h

/-- **A run of a failing kernel stays on the way.** -/
theorem onTheWay_run (hcode : s.code = pre ++ [.haltForever]) (hls : Printed s.console ls)
    (hpre : ∀ x ∈ pre, x.Passing) (hr : Run FailingStep s es t) :
    OnTheWay pre ls (min (es.count .statement) pre.length) t := by
  refine Run.invariant_history
    (I := fun es t ↦ OnTheWay pre ls (min (es.count .statement) pre.length) t) ?_ ?_ hr
  · intro es s e t h hs
    have hcount : min (min (es.count .statement) pre.length + [e].count .statement) pre.length
        = min ((es ++ [e]).count .statement) pre.length := by
      rw [List.count_append]
      omega
    exact hcount ▸ h.step hpre hs
  · rw [List.count_nil, Nat.zero_min]
    exact ⟨hcode, Nat.zero_le _, (List.append_nil ls).symm ▸ hls, by simp⟩

/-- **What is seen of a failure.**  A kernel that fails executes its code to the last statement, in
front of which interrupts may come as long as they are enabled.  After `k` statements, the lines of
these are on the screen, below what has been there before, and the next one can be printed.  The
last one is executed for ever: interrupts are disabled, and nothing changes any more. -/
theorem failure_report {f : Failure} (hcode : s.code = f.code) (hls : Printed s.console ls)
    (hr : Run FailingStep s es t) :
    ∃ k, k = min (es.count .statement) (f.code.length - 1) ∧ t.code = f.code.drop k ∧
      ShowsLines t.console (ls ++ (f.code.take k).filterMap PanicStmt.line?) ∧
      (∀ r rest, t.code = .printk r :: rest → ∀ mem buf args, IsStackBuffer buf →
        r.Passes mem buf args → ∃ n b c,
          printk mem buf (cstr r.format) args t.console = some (n, b, c)) ∧
      (k = f.code.length - 1 → t.flag = false ∧ t.code = [.haltForever] ∧
        ∀ e u, FailingStep t e u → u = t) := by
  obtain ⟨pre, hf, hpre⟩ := f.code_eq
  rw [List.append_cons] at hf
  have hpass : ∀ x ∈ pre ++ [.irqDisable], x.Passing := by
    intro x hx
    rcases List.mem_append.mp hx with hx | hx
    · exact hpre x hx
    · rw [List.mem_singleton.mp hx]
      exact .irqDisable
  have hway := onTheWay_run (hcode.trans hf) hls hpass hr
  have hlen : f.code.length - 1 = (pre ++ [PanicStmt.irqDisable]).length := by
    rw [hf, List.length_append, List.length_singleton, Nat.add_sub_cancel]
  refine ⟨_, rfl, ?_, ?_, ?_, fun hend ↦ ?_⟩
  · rw [hlen, hf, List.drop_append_of_le_length (Nat.min_le_right ..)]
    exact hway.code
  · rw [hlen, hf, List.take_append_of_le_length (Nat.min_le_right ..)]
    exact hway.printed.showsLines
  · intro r rest hs mem buf args hbuf hargs
    obtain ⟨n, b, c, hp, -⟩ := hway.print hpass hs hbuf hargs
    exact ⟨n, b, c, hp⟩
  · rw [hlen] at hend
    rw [hend] at hway
    have hflag : t.flag = false := hway.flag (by rw [List.take_length]; simp)
    have hcode : t.code = [.haltForever] := by
      rw [hway.code, List.drop_length, List.nil_append]
    refine ⟨hflag, hcode, fun e u hs ↦ ?_⟩
    cases hs with
    | printk hs | irqDisable hs => simp [hcode] at hs
    | haltForever => rfl
    | interrupt => rfl

/-- The theorem for a page fault, when the first line has been printed. -/
theorem failure_report_pageFault : ∃ s t : Failing, Run FailingStep s [.interrupt, .statement] t ∧
    t.code = kernelBug ⟨trueText, interruptFile, 79⟩ ∧
    ShowsLines t.console [exceptionText ++ intText 0x0e] := by
  obtain ⟨c, hc, -⟩ := consoleClear_screen ⟨fun _ ↦ 0, 7, ⟨0, fun _ ↦ 0⟩⟩
  have hprinted := printed_clear hc
  let f : Failure := .exception (exceptionContextOf 0x0e (some 2) smallCpu)
  have hbuf : IsStackBuffer 0x3000 := ⟨by decide, by decide⟩
  have hargs : (Report.exception 0x0e).Passes hiMem 0x3000 (Stream'.const 0x0e) := rfl
  obtain ⟨n, b, c', hp, -⟩ := Report.printk (r := .exception 0x0e) trivial hargs hbuf hprinted
  have hr : Run FailingStep ⟨f.code, true, c⟩ [.interrupt, .statement]
      ⟨kernelBug f.site, true, c'⟩ :=
    .cons (.interrupt rfl) (.cons (.printk (r := .exception 0x0e) rfl hbuf hargs hp) (.nil _))
  obtain ⟨k, hk, -, hshows, -⟩ := failure_report (f := f) rfl hprinted hr
  have hk' : k = 1 := hk
  rw [hk'] at hshows
  exact ⟨_, _, hr, rfl, hshows⟩

end PastaOS
