import PastaOS.Sched.Correct
import PastaOS.Main.Defs

/-!
# Who says hello when

`Stage` says who runs and who waits when the running task has just got the processor, and what has
been said by then: either it is the turn of `main`, and the workers wait in their order, or one of
them runs, those in front of it have had their turn, and those behind it will have theirs before
`main`.  `Course` adds what the tasks are doing.

`Course.step` follows one statement, and `course_run` a run: whatever the tasks and the interrupts
do to the machine, what has been said follows from who runs and who waits (`Course.isPrefix`), and
the next greeting is at most four statements away.
-/

set_option autoImplicit false

namespace PastaOS

variable {m j : ℕ} {L : Layout (Fin (m + 1))} {o : Operands} {s t : System m} {out : List ℕ}

/-! ## The order -/

theorem mem_countdown {i : ℕ} : i ∈ countdown j ↔ 1 ≤ i ∧ i ≤ j := by
  induction j with
  | zero => simp only [countdown, List.not_mem_nil, false_iff]; omega
  | succ j ih => simp only [countdown, List.mem_cons, ih]; omega

theorem startup_isPrefix {i : ℕ} (h : i ≤ j) : startup i <+: startup j := by
  induction h with
  | refl => exact List.prefix_rfl
  | step _ ih => exact ih.trans (List.prefix_append ..)

/-- What has been said when it is the turn of `main`, with `j` workers. -/
def AtMain (m j : ℕ) (out : List ℕ) : Prop :=
  j ≤ m ∧ ∃ n, out = startup j ++ rounds m n ∧ (j < m → n = 0)

/-- What has been said when the first of `j` workers gets its turn. -/
inductive AtLap (m : ℕ) : ℕ → List ℕ → Prop
  /-- `main` has just started it. -/
  | start {j : ℕ} (hj : j < m) : AtLap m (j + 1) (startup j)
  /-- `main` has said hello. -/
  | again (n : ℕ) : AtLap m m (startup m ++ rounds m n ++ [0])

theorem AtLap.atMain (h : AtLap m j out) : AtMain m j (out ++ countdown j) := by
  cases h with
  | start hj => exact ⟨hj, 0, (List.append_nil _).symm, fun _ ↦ rfl⟩
  | again n =>
    refine ⟨le_rfl, n + 1, ?_, fun h ↦ absurd h (lt_irrefl m)⟩
    rw [rounds, List.append_assoc, List.append_assoc, List.singleton_append]

/-- What has been said comes first in all that will be said. -/
theorem AtMain.isPrefix (h : AtMain m j out) : ∃ n, out <+: startup m ++ rounds m n := by
  obtain ⟨hj, n, rfl, hn⟩ := h
  rcases Nat.eq_or_lt_of_le hj with rfl | hlt
  · exact ⟨n, List.prefix_rfl⟩
  · rw [hn hlt, rounds, List.append_nil]
    exact ⟨0, (startup_isPrefix hj).trans (List.prefix_append ..)⟩

/-- Who runs and who waits at the beginning of a turn, and what has been said. -/
inductive Stage (m j : ℕ) : List ℕ → List ℕ → Prop
  /-- `main` -/
  | main {out : List ℕ} (h : AtMain m j out) : Stage m j (0 :: countdown j) out
  /-- A worker: those in `xs` have had their turn in this round. -/
  | worker {out xs ys : List ℕ} {y : ℕ} (h : AtLap m j out) (hxs : countdown j = xs ++ y :: ys) :
      Stage m j (y :: (ys ++ 0 :: xs)) (out ++ xs)

variable {ids : List ℕ} {x : ℕ}

theorem Stage.le (h : Stage m j ids out) : j ≤ m := by
  cases h with
  | main h => exact h.1
  | worker h _ => exact h.atMain.1

theorem Stage.mem (h : Stage m j ids out) (hx : x ∈ ids) : x ≤ j := by
  cases h with
  | main h =>
    rcases List.mem_cons.mp hx with rfl | hx
    · exact Nat.zero_le j
    · exact (mem_countdown.mp hx).2
  | @worker _ xs ys y _ hxs =>
    by_cases h0 : x = 0
    · omega
    · refine (mem_countdown.mp (hxs ▸ ?_)).2
      simp only [List.mem_cons, List.mem_append] at hx ⊢
      tauto

/-- What has been said comes first in all that will be said. -/
theorem Stage.isPrefix (h : Stage m j ids out) : ∃ n, out <+: startup m ++ rounds m n := by
  cases h with
  | main h => exact h.isPrefix
  | @worker out xs ys y h hxs =>
    obtain ⟨n, hn⟩ := h.atMain.isPrefix
    refine ⟨n, List.IsPrefix.trans ?_ hn⟩
    rw [hxs, List.prefix_append_right_inj]
    exact List.prefix_append ..

/-- `main` is in its turn, or waits for it. -/
theorem Stage.main_of_zero (h : Stage m j (0 :: ids) out) :
    ids = countdown j ∧ AtMain m j out := by
  cases h with
  | main h => exact ⟨rfl, h⟩
  | worker h hxs =>
    have hmem : 0 ∈ countdown j := by simp [hxs]
    have := (mem_countdown.mp hmem).1
    omega

/-- The first turn of a round. -/
theorem AtLap.stage (h : AtLap m (j + 1) out) :
    Stage m (j + 1) ((j + 1) :: (countdown j ++ [0])) out := by
  have hw := Stage.worker h (show countdown (j + 1) = [] ++ (j + 1) :: countdown j from rfl)
  rwa [List.append_nil] at hw

/-- `main` starts a worker. -/
theorem Stage.start (h : Stage m j (0 :: ids) out) (hj : j < m) :
    Stage m (j + 1) ((j + 1) :: (ids ++ [0])) out := by
  obtain ⟨rfl, -, n, rfl, hn⟩ := h.main_of_zero
  rw [hn hj, rounds, List.append_nil]
  exact (AtLap.start hj).stage

/-- A turn ends with a greeting and a call of `schedule`. -/
theorem Stage.yield (h : Stage m j (x :: ids) out) (hj : x = 0 → j = m) :
    Stage m j (ids ++ [x]) (out ++ [x]) := by
  by_cases hx : x = 0
  · subst hx
    obtain rfl := hj rfl
    obtain ⟨rfl, -, n, rfl, -⟩ := h.main_of_zero
    cases j with
    | zero =>
      exact .main ⟨le_rfl, n + 1, by rw [rounds, countdown, List.append_assoc], by omega⟩
    | succ j => exact (AtLap.again n).stage
  · cases h with
    | main h => exact absurd rfl hx
    | @worker out xs ys _ h hxs =>
      cases ys with
      | nil =>
        have hm := h.atMain
        rw [hxs, ← List.append_assoc] at hm
        have hmain := Stage.main hm
        rwa [hxs] at hmain
      | cons y ys =>
        have hw : Stage m j (y :: (ys ++ 0 :: (xs ++ [x]))) (out ++ (xs ++ [x])) :=
          .worker h (by rw [hxs, List.append_assoc, List.singleton_append])
        simpa using hw

/-! ## The tasks -/

/-- The task has said hello in this turn. -/
def Stmt.said : Stmt m → Bool
  | .halt | .yield => true
  | .start _ | .hello => false

/-- What has been said, when the running task got the processor behind these greetings. -/
def System.spoken (s : System m) (out : List ℕ) : List ℕ :=
  out ++ if s.here.said then [(s.kernel.current : ℕ)] else []

/-- The running task got the processor behind the greetings `out`, and `j` workers have been
started. -/
structure Course (L : Layout (Fin (m + 1))) (s : System m) (a : RoundRobin (Fin (m + 1))) (j : ℕ)
    (out : List ℕ) : Prop where
  /-- The scheduler. -/
  inv : Inv L s.kernel a
  /-- The turn. -/
  stage : Stage m j ((a.current :: a.queue).map Fin.val) out
  /-- Those that wait, or have not been started, have their greeting before them. -/
  others : ∀ t, t ≠ s.kernel.current → (s.stmt t).said = false
  /-- `main` starts one worker after another. -/
  main : ∀ i, s.stmt 0 = .start i ↔ (i : ℕ) = j
  /-- Nobody else starts any. -/
  workers : ∀ t, t ≠ 0 → ∀ i, s.stmt t ≠ .start i

variable {a b : RoundRobin (Fin (m + 1))}

theorem startFrom_eq_start {i : Fin m} : Stmt.startFrom m j = .start i ↔ (i : ℕ) = j := by
  rw [Stmt.startFrom]
  split_ifs with h
  · rw [Stmt.start.injEq, Fin.ext_iff]
    exact eq_comm
  · simp only [false_iff]
    have := i.isLt
    omega

/-- Only `main` reaches a `task_run`, and then it is its turn. -/
theorem Course.current_of_start (h : Course L s a j out) {i : Fin m} (hs : s.here = .start i) :
    s.kernel.current = 0 ∧ (i : ℕ) = j := by
  have hc : s.kernel.current = 0 := by
    by_contra hc
    exact h.workers _ hc i hs
  refine ⟨hc, (h.main i).mp ?_⟩
  rw [← hc]
  exact hs

theorem advance_stmt_of_ne {t : Fin (m + 1)} (ht : t ≠ s.kernel.current) :
    s.advance.stmt t = s.stmt t := Function.update_of_ne ht _ _

theorem advance_stmt_current : s.advance.stmt s.kernel.current = s.here.next :=
  Function.update_self ..

/-- A statement other than `task_run` neither starts a task nor is followed by such a statement. -/
theorem Course.advance (h : Course L s a j out) (hs : ∀ i, s.here ≠ .start i) :
    (∀ i, s.advance.stmt 0 = .start i ↔ (i : ℕ) = j) ∧
      ∀ t, t ≠ 0 → ∀ i, s.advance.stmt t ≠ .start i := by
  have hnext (i : Fin m) : s.here.next ≠ .start i := by
    cases hhere : s.here with
    | start i => exact absurd hhere (hs i)
    | hello | halt | yield => simp [Stmt.next]
  refine ⟨fun i ↦ ?_, fun t ht i ↦ ?_⟩
  · by_cases h0 : s.kernel.current = 0
    · have hnot := hs i
      rw [System.here, h0] at hnot
      rw [← h.main i, ← h0, advance_stmt_current, h0]
      exact iff_of_false (hnext i) hnot
    · rw [advance_stmt_of_ne (Ne.symm h0)]
      exact h.main i
  · by_cases hc : t = s.kernel.current
    · subst hc
      rw [advance_stmt_current]
      exact hnext i
    · rw [advance_stmt_of_ne hc]
      exact h.workers t ht i

/-- When a statement ends a turn, all tasks have their greeting before them. -/
theorem Course.said_advance (h : Course L s a j out) (hs : s.here.next.said = false)
    (u : Fin (m + 1)) : (s.advance.stmt u).said = false := by
  by_cases hu : u = s.kernel.current
  · rw [hu, advance_stmt_current]
    exact hs
  · rw [advance_stmt_of_ne hu]
    exact h.others u hu

theorem said_startFrom : (Stmt.startFrom m j).said = false := by
  rw [Stmt.startFrom]
  split_ifs <;> rfl

/-- A statement behind which the same task runs. -/
theorem Course.stay (h : Course L s a j out) (hs : ∀ i, s.here ≠ .start i)
    (hk : t.kernel = s.kernel) (hstmt : t.stmt = s.advance.stmt) : Course L t a j out := by
  obtain ⟨hmain, hworkers⟩ := h.advance hs
  refine ⟨hk ▸ h.inv, h.stage, fun u hu ↦ ?_, by rwa [hstmt], by rwa [hstmt]⟩
  rw [hk] at hu
  rw [hstmt, advance_stmt_of_ne hu]
  exact h.others u hu

/-- The next worker has not been started. -/
theorem Course.new (h : Course L s a j out) {i : Fin m} (hi : (i : ℕ) = j) :
    i.succ ∉ a.current :: a.queue := by
  intro hmem
  have hle := h.stage.mem (List.mem_map_of_mem (f := Fin.val) hmem)
  simp only [Fin.val_succ] at hle
  omega

/-- Behind its last `task_run`, `main` has started all workers. -/
theorem Course.all_started (h : Course L s a j out) (hc : s.kernel.current = 0)
    (hs : ∀ i, s.here ≠ .start i) : j = m := by
  by_contra hne
  have hlt : j < m := lt_of_le_of_ne h.stage.le hne
  have hstart := (h.main ⟨j, hlt⟩).mpr rfl
  rw [← hc] at hstart
  exact hs _ hstart

/-- `task_run` -/
theorem Course.start (h : Course L s a j out) {i : Fin m} (hs : s.here = .start i)
    {k : Kernel (Fin (m + 1))} (hk : taskRun L o s.kernel i.succ = .ok k) :
    k.current = i.succ ∧ ∃ b, Course L { s.advance with kernel := k } b (j + 1) out := by
  obtain ⟨hc, hi⟩ := h.current_of_start hs
  have hac : a.current = 0 := h.inv.current.symm.trans hc
  obtain ⟨_, k', b, hk', hab, hb, -⟩ := h.inv.taskRun (o := o) (h.new hi)
  obtain rfl : k' = k := Except.ok.inj (hk'.symm.trans hk)
  have hstmt : ∀ u, u ≠ 0 → s.advance.stmt u = s.stmt u := fun u hu ↦
    advance_stmt_of_ne (hc ▸ hu)
  have hmain : s.advance.stmt 0 = Stmt.startFrom m (j + 1) := by
    have hnext : s.here.next = Stmt.startFrom m (j + 1) := by rw [hs, Stmt.next, hi]
    rw [← hnext, ← hc]
    exact advance_stmt_current
  refine ⟨?_, b, hb, ?_, fun u _ ↦ h.said_advance ?_ u, fun i' ↦ ?_, fun u hu i' ↦ ?_⟩
  · cases hab with
    | taskRun _ hbc _ => exact hb.current.trans hbc
  · cases hab with
    | taskRun _ hbc hbq =>
      have hstage := h.stage
      rw [List.map_cons, hac] at hstage
      have hj : j < m := hi ▸ i.isLt
      have hnext := hstage.start hj
      rw [List.map_cons, hbc, hbq, hac, List.map_append, Fin.val_succ, hi]
      exact hnext
  · rw [hs]
    exact said_startFrom
  · show s.advance.stmt 0 = .start i' ↔ _
    rw [hmain]
    exact startFrom_eq_start
  · show s.advance.stmt u ≠ .start i'
    rw [hstmt u hu]
    exact h.workers u hu i'

/-- `schedule` -/
theorem Course.yield (h : Course L s a j out) (hs : s.here = .yield)
    {k : Kernel (Fin (m + 1))} (hk : schedule L o s.kernel = .ok k) :
    ∃ b, Course L { s.advance with kernel := k } b j (out ++ [(s.kernel.current : ℕ)]) := by
  have hnot (i : Fin m) : s.here ≠ .start i := by simp [hs]
  obtain ⟨k', b, hk', hab, hb, -⟩ := h.inv.schedule (o := o)
  obtain rfl : k' = k := Except.ok.inj (hk'.symm.trans hk)
  obtain ⟨hmain, hworkers⟩ := h.advance hnot
  have hcur := h.inv.current
  have hall (h0 : (a.current : ℕ) = 0) : j = m :=
    h.all_started (Fin.ext (by rw [hcur, h0]; rfl)) hnot
  have hstage := h.stage
  rw [List.map_cons] at hstage
  have hnext := hstage.yield hall
  refine ⟨b, hb, ?_, fun u _ ↦ h.said_advance (by rw [hs]; rfl) u, hmain, hworkers⟩
  · rw [hcur]
    cases hab with
    | schedule ha hbc hbq =>
      rw [ha] at hnext
      rw [List.map_cons, hbc, hbq, List.map_append]
      exact hnext
    | alone ha =>
      rw [ha] at hnext ⊢
      exact hnext

theorem spoken_of_said {s : System m} {out : List ℕ} (h : s.here.said = true) :
    s.spoken out = out ++ [(s.kernel.current : ℕ)] := by
  rw [System.spoken, if_pos h]

theorem spoken_of_not_said {s : System m} {out : List ℕ} (h : s.here.said = false) :
    s.spoken out = out := by
  rw [System.spoken, if_neg (by simp [h]), List.append_nil]

/-- **One statement keeps the course**: it adds a greeting or gets closer to the next one. -/
theorem Course.step {e : MainEvent} (h : Course L s a j out) (hs : MainStep L o s e t) :
    ∃ b j' out', Course L t b j' out' ∧ t.spoken out' = s.spoken out ++ e.pid?.toList := by
  cases hs with
  | start hs hk =>
    obtain ⟨-, b, hb⟩ := h.start hs hk
    refine ⟨b, _, out, hb, ?_⟩
    have hbefore : s.here.said = false := by rw [hs]; rfl
    rw [spoken_of_not_said hbefore, MainEvent.pid?, Option.toList_none, List.append_nil]
    exact spoken_of_not_said (h.said_advance (by rw [hs]; exact said_startFrom) _)
  | hello hs _ hp =>
    refine ⟨a, j, out, h.stay (fun i ↦ by rw [hs]; simp) rfl rfl, ?_⟩
    have hbefore : s.here.said = false := by rw [hs]; rfl
    rw [spoken_of_not_said hbefore]
    refine spoken_of_said ?_
    show (s.advance.stmt s.kernel.current).said = true
    rw [advance_stmt_current, hs]
    rfl
  | halt hs =>
    refine ⟨a, j, out, h.stay (fun i ↦ by rw [hs]; simp) rfl rfl, ?_⟩
    have hbefore : s.here.said = true := by rw [hs]; rfl
    rw [spoken_of_said hbefore, MainEvent.pid?, Option.toList_none, List.append_nil]
    refine spoken_of_said ?_
    show (s.advance.stmt s.kernel.current).said = true
    rw [advance_stmt_current, hs]
    rfl
  | yield hs hk =>
    obtain ⟨b, hb⟩ := h.yield hs hk
    refine ⟨b, j, _, hb, ?_⟩
    have hbefore : s.here.said = true := by rw [hs]; rfl
    rw [spoken_of_said hbefore, MainEvent.pid?, Option.toList_none, List.append_nil]
    exact spoken_of_not_said (h.said_advance (by rw [hs]; rfl) _)
  | compute cpu =>
    refine ⟨a, j, out, ⟨h.inv.compute cpu, h.stage, h.others, h.main, h.workers⟩, ?_⟩
    rw [MainEvent.pid?, Option.toList_none, List.append_nil]
    rfl

theorem course_boot (hb : s.Boot L) : ∃ a, Course L s a 0 [] ∧ s.spoken [] = [] := by
  have hinv := inv_boot hb.kernel
  have hc : s.kernel.current = 0 := hb.kernel.current.trans hb.init
  have hsaid (t : Fin (m + 1)) : (s.stmt t).said = false := by
    rw [hb.stmt, Stmt.first]
    split_ifs
    · exact said_startFrom
    · rfl
  refine ⟨_, ⟨hinv, ?_, fun t _ ↦ hsaid t, fun i ↦ ?_, fun t ht i ↦ ?_⟩,
    spoken_of_not_said (hsaid _)⟩
  · rw [hb.init]
    exact .main ⟨Nat.zero_le m, 0, rfl, fun _ ↦ rfl⟩
  · rw [hb.stmt, Stmt.first, if_pos rfl]
    exact startFrom_eq_start
  · rw [hb.stmt, Stmt.first, if_neg ht]
    simp

/-! ## How long it takes -/

/-- The statements in front of the next greeting. -/
def Stmt.toGreeting : Stmt m → ℕ
  | .hello => 0
  | .start _ => 1
  | .yield => 2
  | .halt => 3

theorem toGreeting_le {q : Stmt m} (h : q.said = false) : q.toGreeting ≤ 1 := by
  cases q with
  | start i => exact le_rfl
  | hello => exact Nat.zero_le 1
  | halt | yield => simp [Stmt.said] at h

/-- A statement is a step towards a greeting, or a greeting, which is at most four steps away from
the next one. -/
theorem Course.toGreeting_step {e : MainEvent} (h : Course L s a j out) (hs : MainStep L o s e t) :
    [e].countP MainEvent.executes + t.here.toGreeting
      ≤ s.here.toGreeting + 4 * e.pid?.toList.length := by
  have hstay (hk : t.kernel = s.kernel) (hu : t.stmt = s.advance.stmt) :
      t.here = s.here.next := by
    rw [System.here, hk, hu]
    exact advance_stmt_current
  cases hs with
  | @start i k hs hk =>
    obtain ⟨hk, b, hb⟩ := h.start hs hk
    have hsaid : (s.advance.stmt k.current).said = false :=
      h.said_advance (by rw [hs]; exact said_startFrom) _
    have hworker : ∀ i', s.advance.stmt k.current ≠ .start i' :=
      hb.workers _ (hk ▸ Fin.succ_ne_zero i)
    have hhello : s.advance.stmt k.current = .hello := by
      cases hq : s.advance.stmt k.current with
      | start i' => exact absurd hq (hworker i')
      | hello => rfl
      | halt | yield => simp [hq, Stmt.said] at hsaid
    show 1 + (s.advance.stmt k.current).toGreeting ≤ _
    rw [hhello, hs]
    exact le_rfl
  | hello hs =>
    rw [hstay rfl rfl, hs]
    exact le_rfl
  | halt hs =>
    rw [hstay rfl rfl, hs]
    exact le_rfl
  | @yield k hs hk =>
    have hsaid : (s.advance.stmt k.current).said = false :=
      h.said_advance (by rw [hs]; rfl) _
    have hle := toGreeting_le hsaid
    show 1 + (s.advance.stmt k.current).toGreeting ≤ _
    rw [hs, Stmt.toGreeting]
    omega
  | compute cpu =>
    show 0 + s.here.toGreeting ≤ s.here.toGreeting + 0
    omega

/-! ## Runs -/

theorem greeted_concat {es : List MainEvent} {e : MainEvent} :
    greeted (es ++ [e]) = greeted es ++ e.pid?.toList := by
  rw [greeted, List.filterMap_append]
  cases e <;> rfl

/-- **A run from boot keeps the course.** -/
theorem course_run {es : List MainEvent} (hb : s.Boot L) (hr : Run (MainStep L o) s es t) :
    (∃ a j out, Course L t a j out ∧ t.spoken out = greeted es) ∧
      statements es + t.here.toGreeting ≤ 4 * (greeted es).length + 1 := by
  refine Run.invariant_history (I := fun es t ↦
    (∃ a j out, Course L t a j out ∧ t.spoken out = greeted es) ∧
      statements es + t.here.toGreeting ≤ 4 * (greeted es).length + 1) ?_ ?_ hr
  · rintro es s e t ⟨⟨a, j, out, h, hout⟩, hle⟩ hs
    obtain ⟨b, j', out', h', hout'⟩ := h.step hs
    refine ⟨⟨b, j', out', h', ?_⟩, ?_⟩
    · rw [hout', hout, greeted_concat]
    · have hstep := h.toGreeting_step hs
      rw [statements] at hle
      rw [statements, List.countP_append, greeted_concat, List.length_append]
      omega
  · obtain ⟨a, h, hout⟩ := course_boot hb
    refine ⟨⟨a, 0, [], h, hout⟩, ?_⟩
    show 0 + s.here.toGreeting ≤ 0 + 1
    rw [Nat.zero_add]
    refine toGreeting_le ?_
    rw [System.here, hb.stmt, Stmt.first]
    split_ifs
    · exact said_startFrom
    · rfl

/-- What has been said comes first in all that will be said. -/
theorem Course.isPrefix (h : Course L s a j out) :
    ∃ n, s.spoken out <+: startup m ++ rounds m n := by
  cases hsaid : s.here.said with
  | false =>
    rw [spoken_of_not_said hsaid]
    exact h.stage.isPrefix
  | true =>
    -- it is what has been said at the end of the turn
    have hall (h0 : (a.current : ℕ) = 0) : j = m := by
      refine h.all_started (Fin.ext (by rw [h.inv.current, h0]; rfl)) fun i hi ↦ ?_
      simp [hi, Stmt.said] at hsaid
    have hstage := h.stage
    rw [List.map_cons] at hstage
    rw [spoken_of_said hsaid, h.inv.current]
    exact (hstage.yield hall).isPrefix

end PastaOS
