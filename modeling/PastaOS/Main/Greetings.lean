import PastaOS.Console.Messages
import PastaOS.Main.Order

/-!
# What is seen of the demonstration

`main_greetings` is the run of the demonstration: the greetings come in their order, the next one is
never far away, and no call that a task makes fails.  `main_screen` is what is to be seen: the last
24 of them.
-/

set_option autoImplicit false

namespace PastaOS

/-! ## A greeting as a line -/

/-- `"hello from pid "` -/
def helloText : List Byte :=
  chrs ['h', 'e', 'l', 'l', 'o', ' ', 'f', 'r', 'o', 'm', ' ', 'p', 'i', 'd', ' ']

/-- What a task says. -/
def helloLine (pid : ℕ) : List Byte := helloText ++ decimalText pid

section Text

variable {pid : ℕ} {args : Args}

theorem parse_hello : parse (cstr helloFormat) = helloText.map .literal
    ++ [.directive ⟨{}, .absent, none, .none⟩ (chr 'd'), .literal (chr '\n')] := by
  decide +kernel

theorem untruncated_hello (hpid : pid < 2 ^ 31) (hargs : args.head = BitVec.ofNat 32 pid)
    (acc : Access) (mem : Word → Byte) : untruncated acc mem (cstr helloFormat) args
      = some (args.tail, ⟨mem, helloLine pid ++ [10], []⟩) := by
  rw [untruncated_eq, parse_hello, runItems_append, runItems_literals, Option.bind_some,
    runItems_decimal, hargs, intText_natural hpid, paperSink_puts, paperSink_puts]
  rfl

theorem isMessage_hello (hpid : pid < 2 ^ 31) : IsMessage (helloLine pid) := by
  have hlen : (decimalText pid).length ≤ 10 := decimalText_length_le (by omega)
  have hhello : ∀ c ∈ helloText, IsText c := by decide
  refine ⟨?_, fun c hc ↦ ?_⟩
  · rw [helloLine, List.length_append]
    show 15 + _ < 80
    omega
  · exact (List.mem_append.mp hc).elim (hhello c) (isText_decimalText c)

/-- A greeting is a line more on the console. -/
theorem Printed.hello {c : Console} {ls : List (List Byte)} {buf : Word} (h : Printed c ls)
    (mem : Word → Byte) (hpid : pid < 2 ^ 31) (hcall : Prepared buf args pid) :
    ∃ r b c', PastaOS.printk mem buf (cstr helloFormat) args c = some (r, b, c') ∧
      Printed c' (ls ++ [helloLine pid]) :=
  h.printk ⟨hcall.ne, hcall.top⟩ (untruncated_hello hpid hcall.pid _ mem) rfl (isMessage_hello hpid)

end Text

/-! ## The console in a run -/

variable {m : ℕ} {L : Layout (Fin (m + 1))} {o : Operands} {s t : System m} {es : List MainEvent}

/-- The greetings are what is on the console. -/
def System.Shows (s : System m) (es : List MainEvent) : Prop :=
  Printed s.console ((greeted es).map helloLine)

/-- The numbers of the tasks can be printed. -/
theorem System.current_lt (hm : m < 2 ^ 31) (s : System m) : (s.kernel.current : ℕ) < 2 ^ 31 := by
  have := s.kernel.current.isLt
  omega

theorem System.Shows.step {e : MainEvent} (hm : m < 2 ^ 31) (h : s.Shows es)
    (hs : MainStep L o s e t) : t.Shows (es ++ [e]) := by
  rw [System.Shows, greeted_concat, List.map_append]
  cases hs with
  | start | halt | yield | compute =>
    rw [MainEvent.pid?, Option.toList_none, List.map_nil, List.append_nil]
    exact h
  | @hello mem buf args r b c hs hcall hp =>
    obtain ⟨r', b', c', hc', hprinted⟩ := Printed.hello h mem (s.current_lt hm) hcall
    obtain ⟨rfl, rfl, rfl⟩ : r' = r ∧ b' = b ∧ c' = c := by
      simpa using hc'.symm.trans hp
    exact hprinted

theorem shows_of_run (hm : m < 2 ^ 31) (hb : s.Boot L) (hr : Run (MainStep L o) s es t) :
    t.Shows es := by
  refine Run.invariant_history (I := fun es t ↦ t.Shows es) ?_ ?_ hr
  · exact fun es s e t h hs ↦ h.step hm hs
  · obtain ⟨c, hc⟩ := hb.console
    exact printed_clear hc

/-- In every state of the run the next call succeeds. -/
theorem Course.getsOn {a : RoundRobin (Fin (m + 1))} {j : ℕ} {out : List ℕ} (hm : m < 2 ^ 31)
    (h : Course L s a j out) (hs : s.Shows es) : s.GetsOn L o where
  start i hi := by
    obtain ⟨-, hij⟩ := h.current_of_start hi
    obtain ⟨_, k, -, hk, -⟩ := h.inv.taskRun (o := o) (h.new hij)
    exact ⟨k, hk⟩
  hello _ mem buf args hcall := by
    obtain ⟨r, b, c, hc, -⟩ := Printed.hello hs mem (s.current_lt hm) hcall
    exact ⟨r, b, c, hc⟩
  yield _ := by
    obtain ⟨k, -, hk, -⟩ := h.inv.schedule (o := o)
    exact ⟨k, hk⟩

/-- `main` with one worker: it starts it, and the worker says hello. -/
theorem pair_hello : ∃ s t : System 1, s.Boot pairLayout ∧
    Run (MainStep pairLayout pairOperands) s [.statement, .greets 1] t := by
  obtain ⟨c, hc, -⟩ := consoleClear_screen ⟨fun _ ↦ 0, 7, ⟨0, fun _ ↦ 0⟩⟩
  have hb : System.Boot pairLayout ⟨pairBoot, Stmt.first, c⟩ :=
    ⟨pairBoot_boot, rfl, rfl, _, hc⟩
  obtain ⟨k, a, ⟨-, hk⟩, ha, hcur, -⟩ := pair_started
  have hcur : k.current = 1 := ha.current.trans hcur
  have hstart : MainStep pairLayout pairOperands ⟨pairBoot, Stmt.first, c⟩ .statement _ :=
    .start (j := 0) rfl hk
  have hcall : Prepared 0x3000 (Stream'.const 1) 1 := ⟨by decide, by decide, by decide⟩
  obtain ⟨r, b, c', hp, -⟩ := (printed_clear hc).hello hiMem (by decide) hcall
  have hhere : System.here { System.advance ⟨pairBoot, Stmt.first, c⟩ with kernel := k }
      = .hello := by
    rw [System.here, hcur]
    rfl
  have hpid : (k.current : ℕ) = 1 := by rw [hcur]; rfl
  have hhello := MainStep.hello (L := pairLayout) (o := pairOperands) hhere (hpid.symm ▸ hcall) hp
  rw [hpid] at hhello
  exact ⟨_, _, hb, .cons hstart (.cons hhello (.nil _))⟩

/-- **The order of the greetings.**  Whatever happens to the machine between the statements of the
tasks, the tasks say hello in this order: while `main` starts workers, each of those there are
before the next one is started, the last one first; and then, forever, `main` and all workers, the
last one first.  The next greeting is at most four statements away, and no call of `task_run`,
`schedule` and `printk` fails. -/
theorem main_greetings (hm : m < 2 ^ 31) (hb : s.Boot L) (hr : Run (MainStep L o) s es t) :
    (∃ n, greeted es <+: startup m ++ rounds m n) ∧
      statements es ≤ 4 * (greeted es).length + 1 ∧ t.GetsOn L o := by
  obtain ⟨⟨a, j, out, h, hout⟩, hle⟩ := course_run hb hr
  refine ⟨hout ▸ h.isPrefix, by omega, h.getsOn hm (shows_of_run hm hb hr)⟩

/-- The theorem for one worker, which says the first greeting. -/
theorem main_greetings_pair : ∃ s t : System 1, s.Boot pairLayout ∧
    Run (MainStep pairLayout pairOperands) s [.statement, .greets 1] t ∧
    (∃ n, [1] <+: startup 1 ++ rounds 1 n) ∧ t.GetsOn pairLayout pairOperands := by
  obtain ⟨s, t, hb, hr⟩ := pair_hello
  obtain ⟨hpre, -, hgets⟩ := main_greetings (by decide) hb hr
  exact ⟨s, t, hb, hr, hpre, hgets⟩

/-- **What is seen.**  The screen shows the last 24 greetings, one below the other, and the cursor
is in the row behind. -/
theorem main_screen (hm : m < 2 ^ 31) (hb : s.Boot L) (hr : Run (MainStep L o) s es t) :
    ShowsLines t.console ((greeted es).map helloLine) :=
  Printed.showsLines (shows_of_run hm hb hr)

/-- The theorem for one worker. -/
theorem main_screen_pair : ∃ s t : System 1, s.Boot pairLayout ∧
    Run (MainStep pairLayout pairOperands) s [.statement, .greets 1] t ∧
    ShowsLines t.console [helloLine 1] := by
  obtain ⟨s, t, hb, hr⟩ := pair_hello
  exact ⟨s, t, hb, hr, main_screen (by decide) hb hr⟩

end PastaOS
