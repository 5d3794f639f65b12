import PastaOS.Scanf.Compose

/-!
# The pointers of the scanner

`vsscanf` takes its pointers one after another, one for every value it counts and one for every
`%n`, and stores through each of them as it takes it: `ScanItem.run_inStep` is the step,
`runScan_inStep` the run, and `vsscanf_inStep` says it of every scan, whatever its format and its
input look like.
-/

set_option autoImplicit false

namespace PastaOS

variable {buf input : List Byte} {s s' s'' : Scan} {items : List ScanItem} {i : ScanItem}
  {j j' k k' : ℕ}

/-! ## Taking pointers -/

/-- From `s` to `s'`, the scanner has taken the next `k` pointers, and stored through each of them,
in order. -/
structure TakesPointers (k : ℕ) (s s' : Scan) : Prop where
  /-- The pointers that are left. -/
  args : s'.args = s.args.drop k
  /-- The pointers that have been stored through. -/
  writes : s'.writes.map Prod.fst = s.writes.map Prod.fst ++ s.args.take k
  /-- Something has been stored through each of them. -/
  filled : ∀ x ∈ s'.writes, x ∈ s.writes ∨ x.2 ≠ []

/-- Each of them is counted, but for `j` of them. -/
def InStep (j : ℕ) (s s' : Scan) : Prop := ∃ k, TakesPointers k s s' ∧ s'.num + j = s.num + k

theorem take_add {α : Type} (j k : ℕ) (a : Stream' α) :
    a.take (j + k) = a.take j ++ (a.drop j).take k := by
  induction j generalizing a with
  | zero => rw [Nat.zero_add, Stream'.take_zero, List.nil_append, Stream'.drop_zero]
  | succ j ih =>
    rw [Nat.add_right_comm, Stream'.take_succ, Stream'.take_succ, List.cons_append, ih,
      Stream'.drop_succ]

theorem TakesPointers.trans (h : TakesPointers k s s') (h' : TakesPointers k' s' s'') :
    TakesPointers (k + k') s s'' := by
  refine ⟨?_, ?_, ?_⟩
  · rw [h'.args, h.args, Stream'.drop_drop]
  · rw [h'.writes, h.writes, h.args, List.append_assoc, ← take_add]
  · intro x hx
    exact (h'.filled x hx).elim (h.filled x) .inr

theorem InStep.trans (h : InStep j s s') (h' : InStep j' s' s'') : InStep (j + j') s s'' := by
  obtain ⟨k, hk, hnum⟩ := h
  obtain ⟨k', hk', hnum'⟩ := h'
  exact ⟨k + k', hk.trans hk', by omega⟩

/-- A conversion that takes no pointer keeps in step. -/
theorem inStep_same (hargs : s'.args = s.args) (hnum : s'.num = s.num)
    (hwrites : s'.writes = s.writes) : InStep 0 s s' := by
  refine ⟨0, ⟨hargs, ?_, fun x hx ↦ .inl (hwrites ▸ hx)⟩, by rw [hnum]⟩
  rw [hwrites, Stream'.take_zero, List.append_nil]

/-- One store through the next pointer. -/
theorem takesPointers_store {bytes : List Byte} (hbytes : bytes ≠ [])
    (hargs : s'.args = s.args.tail)
    (hwrites : s'.writes = s.writes ++ [(s.args.head, bytes)]) : TakesPointers 1 s s' := by
  refine ⟨hargs, ?_, fun x hx ↦ ?_⟩
  · rw [hwrites, List.map_append]
    rfl
  · rw [hwrites, List.mem_append, List.mem_singleton] at hx
    exact hx.imp id fun heq ↦ by rwa [heq]

/-- A conversion that stores a value and counts it keeps in step. -/
theorem inStep_value {bytes : List Byte} (hbytes : bytes ≠ []) (hargs : s'.args = s.args.tail)
    (hwrites : s'.writes = s.writes ++ [(s.args.head, bytes)]) (hnum : s'.num = s.num + 1) :
    InStep 0 s s' := ⟨1, takesPointers_store hbytes hargs hwrites, hnum⟩

/-! ## What is stored -/

/-- `%c` stores one character at least: its loop tests behind the copying. -/
theorem copyChars_ne_nil {width : Int} {str : List Byte} {x : List Byte × Int × List Byte}
    (h : copyChars width str = some x) : x.1 ≠ [] := by
  match str with
  | [] => contradiction
  | [_] => contradiction
  | c :: d :: str =>
    rw [copyChars] at h
    split_ifs at h
    · obtain ⟨y, -, hy⟩ := Option.bind_eq_some_iff.mp h
      obtain rfl := Option.some.inj hy
      exact List.cons_ne_nil _ _
    · obtain rfl := Option.some.inj h
      exact List.cons_ne_nil _ _

theorem storedBytes_ne_nil {w : ℕ} (hw : 8 ≤ w) (v : BitVec w) : storedBytes v ≠ [] := by
  have hlen : (storedBytes v).length = w / 8 := by
    rw [storedBytes, List.length_map, List.length_range]
  exact List.ne_nil_of_length_pos (by omega)

theorem scanInteger_ne_nil {q : Qualifier} {isSign : Bool} {base : Word} {str : List Byte}
    {x : List Byte × List Byte} (h : scanInteger q isSign base str = some x) : x.1 ≠ [] := by
  cases q <;> simp only [scanInteger] at h <;> try split_ifs at h
  all_goals
    obtain ⟨y, -, rfl⟩ := Option.map_eq_some_iff.mp h
    exact storedBytes_ne_nil (by decide) _

/-! ## An item -/

/-- The number of characters is stored, and not counted; everything else that is stored is. -/
theorem scanConvert_inStep {q : Qualifier} {c : Byte} {b : Bool}
    (h : scanConvert buf q c s = some (b, s')) :
    InStep (if b = true ∧ c = chr 'n' then 1 else 0) s s' := by
  have hvalue (hc : c ≠ chr 'n') (h : InStep 0 s s') :
      InStep (if b = true ∧ c = chr 'n' then 1 else 0) s s' := by
    rwa [if_neg fun h ↦ hc h.2]
  by_cases hc : c = chr 'c'
  · subst hc
    rw [scanConvert_char] at h
    obtain ⟨x, hcopy, hx⟩ := Option.map_eq_some_iff.mp h
    obtain ⟨rfl, rfl⟩ := Prod.mk.inj hx
    exact hvalue (by decide) (inStep_value (copyChars_ne_nil hcopy) rfl rfl rfl)
  by_cases hs : c = chr 's'
  · subst hs
    rw [scanConvert_word] at h
    obtain ⟨str, -, h⟩ := Option.bind_eq_some_iff.mp h
    obtain ⟨x, -, hx⟩ := Option.map_eq_some_iff.mp h
    obtain ⟨rfl, rfl⟩ := Prod.mk.inj hx
    exact hvalue (by decide) (inStep_value (List.concat_ne_nil _ _) rfl rfl rfl)
  by_cases hn : c = chr 'n'
  · subst hn
    rw [scanConvert_count] at h
    obtain ⟨rfl, rfl⟩ := Prod.mk.inj (Option.some.inj h)
    rw [if_pos ⟨rfl, rfl⟩]
    exact ⟨1, takesPointers_store (storedBytes_ne_nil (by decide) _) rfl rfl, rfl⟩
  refine hvalue hn ?_
  by_cases hpc : c = chr '%'
  · subst hpc
    rw [scanConvert_percent] at h
    obtain ⟨d, -, hx⟩ := Option.map_eq_some_iff.mp h
    obtain ⟨-, rfl⟩ := Prod.mk.inj hx
    exact inStep_same rfl rfl rfl
  rw [scanConvert_integer hc hs hn hpc] at h
  cases hbase : scanBase c with
  | none =>
    rw [hbase] at h
    obtain ⟨-, rfl⟩ := Prod.mk.inj (Option.some.inj h)
    exact inStep_same rfl rfl rfl
  | some x =>
    simp only [hbase] at h
    obtain ⟨str, -, h⟩ := Option.bind_eq_some_iff.mp h
    obtain ⟨d, -, h⟩ := Option.bind_eq_some_iff.mp h
    split_ifs at h
    · obtain ⟨-, rfl⟩ := Prod.mk.inj (Option.some.inj h)
      exact inStep_same rfl rfl rfl
    · obtain ⟨y, hread, hy⟩ := Option.map_eq_some_iff.mp h
      obtain ⟨-, rfl⟩ := Prod.mk.inj hy
      exact inStep_value (scanInteger_ne_nil hread) rfl rfl rfl

/-- **An item keeps count and pointers in step.** -/
theorem ScanItem.run_inStep {b : Bool} (h : i.run buf s = some (b, s')) :
    InStep (if b = true ∧ i.isCount = true then 1 else 0) s s' := by
  cases i with
  | directive width q c =>
    obtain ⟨d, -, h⟩ := Option.bind_eq_some_iff.mp h
    split_ifs at h
    · obtain ⟨rfl, rfl⟩ := Prod.mk.inj (Option.some.inj h)
      exact inStep_same rfl rfl rfl
    · have hstep : InStep (if b = true ∧ c = chr 'n' then 1 else 0) s s' := by
        obtain ⟨k, ⟨hargs, hwrites, hfilled⟩, hnum⟩ := scanConvert_inStep h
        exact ⟨k, ⟨hargs, hwrites, hfilled⟩, hnum⟩
      simpa only [ScanItem.isCount, decide_eq_true_eq] using hstep
  | cutoff width =>
    obtain ⟨rfl, rfl⟩ := Prod.mk.inj (Option.some.inj h)
    exact inStep_same rfl rfl rfl
  | _ =>
    obtain ⟨str, -, hx⟩ := Option.map_eq_some_iff.mp h
    obtain ⟨-, rfl⟩ := Prod.mk.inj hx
    rw [if_neg (by simp [ScanItem.isCount])]
    exact inStep_same rfl rfl rfl

/-! ## A scan -/

/-- The items that a scan gets past, in order. -/
def passedItems (buf : List Byte) : List ScanItem → Bool → Scan → List ScanItem
  | [], _, _ => []
  | i :: items, inPass, s =>
    if s.str.head? = some 0 ∧ inPass = false then []
    else
      match i.run buf s with
      | some (true, s') => i :: passedItems buf items (decide (i = .space)) s'
      | _ => []

/-- The number of `%n` conversions that a scan executes. -/
def countsExecuted (buf : List Byte) (items : List ScanItem) (inPass : Bool) (s : Scan) : ℕ :=
  (passedItems buf items inPass s).countP ScanItem.isCount

/-- **A scan keeps them in step**, up to the `%n` conversions. -/
theorem runScan_inStep {inPass b : Bool} (h : runScan buf items inPass s = some (b, s')) :
    InStep (countsExecuted buf items inPass s) s s' := by
  induction items generalizing inPass s with
  | nil =>
    obtain ⟨-, rfl⟩ := Prod.mk.inj (Option.some.inj h)
    exact inStep_same rfl rfl rfl
  | cons i items ih =>
    obtain ⟨d, hd, h⟩ := Option.bind_eq_some_iff.mp h
    rw [countsExecuted, passedItems, hd]
    simp only [Option.some.injEq]
    split_ifs at h ⊢ with hend
    · obtain ⟨-, rfl⟩ := Prod.mk.inj (Option.some.inj h)
      exact inStep_same rfl rfl rfl
    · obtain ⟨⟨b', s₁⟩, hi, h⟩ := Option.bind_eq_some_iff.mp h
      have hstep := ScanItem.run_inStep hi
      rw [hi]
      cases b' with
      | false =>
        obtain ⟨-, rfl⟩ := Prod.mk.inj (Option.some.inj h)
        rwa [if_neg (by simp)] at hstep
      | true =>
        have hrest := hstep.trans (ih h)
        rw [List.countP_cons, Nat.add_comm]
        simpa only [true_and, countsExecuted] using hrest

/-- **Count and pointers stay in step.**  Whatever the format and the input look like, `vsscanf`
comes to an end without reading past one of them, and the pointers it has taken, and stored
something through in order, are as many as the values it has counted and the `%n` conversions it has
executed. -/
theorem vsscanf_inStep (h0 : 0 ∉ input) (fmt : List Byte) (args : Args) :
    ∃ b s, (∀ fuel, (cstr fmt).length ≤ fuel → vsscanfLoop (cstr input) fuel (cstr fmt)
        ⟨cstr input, args, 0, -1, []⟩ = some (b, s)) ∧
      vsscanf (cstr input) (cstr fmt) args = some (s.num, s.writes) ∧
      ∃ j, j = countsExecuted (cstr input) (scanItems (cstr fmt)) false
          ⟨cstr input, args, 0, -1, []⟩ ∧
        s.writes.map Prod.fst = args.take (s.num + j) ∧ s.args = args.drop (s.num + j) ∧
        ∀ x ∈ s.writes, x.2 ≠ [] := by
  have hneg : IsInt (-1) := ⟨by decide, by decide⟩
  have hstart : (⟨cstr input, args, 0, -1, []⟩ : Scan).At input := ⟨rfl, hneg⟩
  obtain ⟨b, s, hrun, -⟩ := runScan_text (cstr input) false hstart h0
    (scanItems_intWidth (cstr fmt))
  obtain ⟨k, hk, hnum⟩ := runScan_inStep hrun
  refine ⟨b, s, ?_, ?_, _, rfl, ?_⟩
  · intro fuel hfuel
    rw [vsscanfLoop_eq (zero_mem_cstr fmt) hfuel, hrun]
  · rw [vsscanf, scan_eq, hrun, Option.map_some]
  · rw [Nat.zero_add] at hnum
    rw [hnum]
    refine ⟨by rw [hk.writes, List.map_nil, List.nil_append], hk.args, fun x hx ↦ ?_⟩
    exact (hk.filled x hx).resolve_left (List.not_mem_nil)

/-- The theorem for `%d%n%s` and the input `7`. -/
theorem vsscanf_inStep_seven : ∃ writes,
    vsscanf (cstr (chrs ['7'])) (cstr (chrs ['%', 'd', '%', 'n', '%', 's'])) (Stream'.const 5)
      = some (1, writes) ∧ writes.map Prod.fst = [5] := by
  have hinput : 0 ∉ chrs ['7'] := by decide
  obtain ⟨b, s, -, hscan, j, hj, hwrites, -⟩ := vsscanf_inStep hinput
    (chrs ['%', 'd', '%', 'n', '%', 's']) (Stream'.const 5)
  have hnum : (vsscanf (cstr (chrs ['7'])) (cstr (chrs ['%', 'd', '%', 'n', '%', 's']))
      (Stream'.const 5)).map Prod.fst = some 1 := by decide +kernel
  have hcount : countsExecuted (cstr (chrs ['7']))
      (scanItems (cstr (chrs ['%', 'd', '%', 'n', '%', 's']))) false
      ⟨cstr (chrs ['7']), Stream'.const 5, 0, -1, []⟩ = 0 := by decide +kernel
  rw [hscan, Option.map_some] at hnum
  obtain hone : s.num = 1 := Option.some.inj hnum
  rw [hj, hcount, hone] at hwrites
  exact ⟨s.writes, by rw [hscan, hone], hwrites⟩

end PastaOS
