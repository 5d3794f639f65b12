import PastaOS.Interrupt.Entry
import PastaOS.Sched.Context

/-!
# Context switches with interrupts

Interrupts come while a task computes, while it calls the scheduler, and in front of every
instruction of `switch_to`, where the stack changes under them.  An interrupt runs on the stack of
the task it has interrupted, below its stack pointer; in `switch_to` that is first the one task and
then the other.

`shaken_switchTo` is what remains of `switch_to` on a machine that is shaken at every instruction:
it loads the frame it finds at the new stack pointer, and its memory is that of an undisturbed
`switch_to`, except below the two stack pointers.  The new one has to point to a stack for that,
which is why all waiting tasks have to be `Suspended`, not only the one that is followed.
-/

set_option autoImplicit false

universe u

namespace PastaOS

open StackMachine

variable {τ : Type u} [DecidableEq τ] {L : Layout τ} {o : Operands} {k k' : Kernel τ}
  {a : RoundRobin τ} {op : Op τ}

/-- Between the stacks of two tasks there is room for more than a pointer. -/
theorem stackBase_apart {t u : τ} (htu : t ≠ u) :
    (L.stackBase t).toNat + 4100 ≤ (L.stackBase u).toNat ∨
      (L.stackBase u).toNat + 4100 ≤ (L.stackBase t).toNat := by
  have hap := L.apart t u htu
  have hbt := L.bootApart t
  have hbu := L.bootApart u
  by_cases ht : t = L.initTask <;> by_cases hu : u = L.initTask
  · exact absurd (ht.trans hu.symm) htu
  · rw [Layout.stackBase_of_ne hu, Layout.stack_toNat, Layout.stackBase, if_pos ht]
    omega
  · rw [Layout.stackBase_of_ne ht, Layout.stack_toNat, Layout.stackBase, if_pos hu]
    omega
  · rw [Layout.stackBase_of_ne ht, Layout.stackBase_of_ne hu, Layout.stack_toNat,
      Layout.stack_toNat]
    omega

/-- A stack inside a task neither begins nor ends with the address space. -/
theorem stackBase_inner {t : τ} (ht : t ≠ L.initTask) :
    0 < (L.stackBase t).toNat ∧ (L.stackBase t).toNat + 4096 < 2 ^ 32 := by
  have := L.inSpace t
  rw [Layout.stackBase_of_ne ht, Layout.stack_toNat]
  omega

/-- A word belongs to one stack only, and so does the address behind a stack. -/
theorem stackWord_apart {t u : τ} {i j : ℕ} (hi : i ≤ 1024) (hj : j ≤ 1024)
    (h : L.stackBase t + BitVec.ofNat 32 (4 * i) = L.stackBase u + BitVec.ofNat 32 (4 * j)) :
    t = u := by
  by_contra htu
  have hap := stackBase_apart (L := L) htu
  have ht := L.stackBase_bound (t := t)
  have hu := L.stackBase_bound (t := u)
  have hinner : (0 < (L.stackBase t).toNat ∧ (L.stackBase t).toNat + 4096 < 2 ^ 32) ∨
      (0 < (L.stackBase u).toNat ∧ (L.stackBase u).toNat + 4096 < 2 ^ 32) := by
    by_cases hinit : t = L.initTask
    · exact .inr (stackBase_inner fun hu ↦ htu (hinit.trans hu.symm))
    · exact .inl (stackBase_inner hinit)
  bv_omega

theorem stackSize_small : 1024 < 2 ^ 30 := by decide

/-- The stacks of the tasks. -/
def Layout.stacks (L : Layout τ) : Stacks τ where
  base := L.stackBase
  size _ := 1024
  small _ := stackSize_small
  apart _ _ _ _ := stackWord_apart

/-- An instruction of `switch_to`, with the address behind it. -/
def onMachine (next : Word) (i : Instr) (c : Cpu) : Cpu :=
  { c with toMachine := StackMachine.exec i { c.toMachine with eip := next } }

/-- The assembly of `switch_to` at given addresses. -/
def switchToCode (o : Operands) (text : ℕ → Word) : Code :=
  (switchToAsm o).zipIdx.map fun p ↦ onMachine (text (p.2 + 1)) p.1

theorem switchToCode_eq (text : ℕ → Word) : switchToCode o text
    = place text 0 ((savedRegs.map Operand.gpr).map .push) ++
      (onMachine (text 8) (.movStore .esp o.old) :: onMachine (text 9) (.mov o.new .esp) ::
        (place text 9 ((savedRegs.reverse.map Operand.gpr).map .pop) ++
          place text 16 [.ret])) := by
  rfl

/-! ## `switch_to` -/

section Switch

variable {t u : τ} {m : Machine} {i j : ℕ} {n ra : Word} {vs : List Word} {c d : Cpu}
  {text : ℕ → Word}

/-- The general registers but the stack pointer. -/
def savedOperands : List Operand := savedRegs.map .gpr

theorem esp_notMem_savedOperands : Operand.gpr .esp ∉ savedOperands := by decide

theorem mem_savedOperands {r : Reg} (hr : r ≠ .esp) : .gpr r ∈ savedOperands :=
  List.mem_map_of_mem (mem_savedRegs hr)

/-- Between the two halves of `switch_to`: the stack pointer is still the old one, but it is in its
place, and the memory is the one `switch_to` leaves, except below it. -/
structure Halfway (L : Layout τ) (o : Operands) (t : τ) (m : Machine) (i : ℕ) (n : Word)
    (c : Cpu) : Prop where
  /-- The stack pointer. -/
  esp : c.gpr .esp = L.stackWord t (i - 7)
  /-- The new one. -/
  new : c.gpr o.new = n
  /-- The memory. -/
  mem : ∀ a, (∀ k < i - 7, a ≠ L.stackWord t k) → c.mem a = (switchTo o n (L.spCell t) m).mem a

theorem Halfway.stable (hi : i ≤ 1024) : Stable L.stacks (Halfway L o t m i n) := by
  intro c d hs h
  refine ⟨hs.gpr ▸ h.esp, hs.gpr ▸ h.new, ?_⟩
  intro a ha
  rw [hs.mem a ?_, h.mem a ha]
  intro hdead
  obtain ⟨j, hj, rfl⟩ := (dead_iff h.esp (show i - 7 ≤ 1024 by omega)).mp hdead
  exact ha j hj rfl

/-- **The first half**, shaken at every instruction. -/
theorem shaken_save {js : Code} (hroom : L.Room t m i)
    (hc : c.toMachine = atSwitchTo o n (L.spCell t) m)
    (hr : Shaken L.stacks (place text 0 (savedOperands.map .push) ++
      (onMachine (text 8) (.movStore .esp o.old) :: js)) c d) :
    ∃ c', Halfway L o t m i n c' ∧ Shaken L.stacks js c' d := by
  obtain ⟨hesp, h7, hi⟩ := hroom
  have hcesp : c.gpr .esp = L.stacks.word t i := by
    rw [hc, atSwitchTo_esp, hesp]
    rfl
  have hfit : ([] : List Word).length + savedOperands.length ≤ i := by
    show 0 + 7 ≤ i
    omega
  obtain ⟨c₁, hc₁, hr₁⟩ := shaken_pushes (S := L.stacks) hi.le
    esp_notMem_savedOperands (fun x (hx : x ∈ savedOperands) ↦ hx) hfit hr ⟨.refl hcesp, rfl⟩
  refine hr₁.step (Pushed.stable_and hi.le) hc₁ ?_
  rintro c₂ ⟨h, -⟩
  have hgpr {r : Reg} (hr : r ≠ .esp) : c₂.gpr r = (atSwitchTo o n (L.spCell t) m).gpr r := by
    rw [← hc]
    exact h.held (.gpr r) (mem_savedOperands hr)
  have hframe : (savedOperands.map c.read).reverse ++ []
      = frameOf (atSwitchTo o n (L.spCell t) m) := by
    rw [List.append_nil, ← List.map_reverse, ← hc]
    rfl
  obtain ⟨hsp, hwords, -⟩ := switchTo_saves (o := o) n ⟨hesp, h7, hi⟩
  have hesp₂ : c₂.gpr .esp = L.stackWord t (i - 7) := h.esp
  have hold : c₂.gpr o.old = L.spCell t := by rw [hgpr o.old_ne_esp, atSwitchTo_old]
  have hmem : (onMachine (text 8) (.movStore .esp o.old) c₂).mem
      = Function.update c₂.mem (c₂.gpr o.old) (c₂.gpr .esp) := rfl
  rw [hold, hesp₂] at hmem
  refine ⟨hesp₂, (hgpr o.new_ne_esp).trans (atSwitchTo_new ..), ?_⟩
  intro a ha
  rw [hmem]
  by_cases hsa : a = L.spCell t
  · rw [hsa, Function.update_self, hsp]
  rw [Function.update_of_ne hsa]
  by_cases hk : ∃ k < i, a = L.stackWord t k
  · -- the cell is in the frame
    obtain ⟨k, hk, rfl⟩ := hk
    have hk7 : i - 7 ≤ k := by
      by_contra hlt
      exact ha k (by omega) rfl
    have hkk : L.stackWord t k = L.stackWord t (i - 7) + BitVec.ofNat 32 (4 * (k - (i - 7))) := by
      rw [Layout.stackWord_add]
      exact congrArg (L.stackWord t) (by omega)
    have hw := h.words
    rw [hframe] at hw
    have hlen : k - (i - 7) < (frameOf (atSwitchTo o n (L.spCell t) m)).length := by
      show k - (i - 7) < 7
      omega
    rw [hkk, hwords.getElem hlen]
    exact hw.getElem hlen
  · have hk' : ∀ k < i, a ≠ L.stackWord t k := fun k hki hak ↦ hk ⟨k, hki, hak⟩
    rw [h.mem a hk', switchTo_frame n ⟨hesp, h7, hi⟩ hsa hk', hc, atSwitchTo_mem]

/-- `switch_to`, shaken at every instruction, has loaded a frame `vs` and a return address from the
word `j` of the stack of `u`. -/
structure Loaded (L : Layout τ) (o : Operands) (t u : τ) (m : Machine) (i j : ℕ) (vs : List Word)
    (ra : Word) (d : Cpu) : Prop where
  /-- The registers. -/
  frame : frameOf d.toMachine = vs
  /-- The return address. -/
  eip : d.eip = ra
  /-- The stack pointer, past both. -/
  esp : d.gpr .esp = L.stackWord u (j + 8)
  /-- Above the two stack pointers, the memory is what `switch_to` makes of it. -/
  mem : ∀ a, (∀ k < i - 7, a ≠ L.stackWord t k) → (∀ k < j + 8, a ≠ L.stackWord u k) →
    d.mem a = (switchTo o (L.stackWord u j) (L.spCell t) m).mem a

/-- **The second half**, shaken at every instruction. -/
theorem shaken_load (hi : i ≤ 1024) (hj : j + 8 ≤ 1024) (htu : t ≠ u)
    (hc : Halfway L o t m i (L.stackWord u j) c) (hlen : vs.length = 7)
    (hw : Words (switchTo o (L.stackWord u j) (L.spCell t) m).mem (L.stackWord u j) (vs ++ [ra]))
    (hr : Shaken L.stacks (onMachine (text 9) (.mov o.new .esp) ::
      (place text 9 ((savedRegs.reverse.map Operand.gpr).map .pop) ++ place text 16 [.ret])) c d) :
    Loaded L o t u m i j vs ra d := by
  set p := switchTo o (L.stackWord u j) (L.spCell t) m with hp
  obtain ⟨c₂, ⟨hesp₂, hmem₂⟩, hr₂⟩ := hr.step (Halfway.stable hi) hc (Q := fun c ↦
    c.gpr .esp = L.stackWord u j ∧ ∀ a, (∀ k < i - 7, a ≠ L.stackWord t k) → c.mem a = p.mem a)
    fun c h ↦ ⟨(Function.update_self Reg.esp _ c.gpr).trans h.new, h.mem⟩
  -- the machine the pops lead to
  set c₀ : Cpu := { c₂ with gpr := p.gpr }
  set ops := savedRegs.reverse.map Operand.gpr with hops
  have hregs : ops.map c₀.read = vs := by
    rw [← (switchTo_restores hlen hw).1, hops, List.map_map]
    rfl
  have hpushed : Pushed L.stacks u (j + 8) c₀ [] (ops.map c₀.read ++ [ra]) c₂ := by
    rw [hregs]
    have hlen' : (vs ++ [ra]).length = 8 := by simp [hlen]
    refine ⟨by omega, by rw [hlen', Nat.add_sub_cancel]; exact hesp₂, ?_, fun _ _ ↦ rfl, by simp⟩
    rw [hlen', Nat.add_sub_cancel]
    refine hw.congr fun k hk ↦ hmem₂ _ fun k' hk' he ↦ htu ?_
    rw [Layout.stackWord_add] at he
    exact (Stacks.word_inj (S := L.stacks) (show k' ≤ 1024 by omega) (show j + k ≤ 1024 by omega)
      he.symm).1
  obtain ⟨c₃, hc₃, hr₃⟩ := shaken_pops hj (by simp) (by decide) hr₂ hpushed
  rw [List.append_nil] at hc₃
  obtain ⟨c₄, hc₄, hr₄⟩ := hr₃.step (Pushed.stable hj) hc₃
    (Q := fun c ↦ Pushed L.stacks u (j + 8) c₀ ops.reverse [] c ∧ c.eip = ra) fun c h ↦
      ⟨((h.next _).drop (by decide)).of_eq rfl rfl rfl, h.top⟩
  have hstable : Stable L.stacks fun c ↦
      Pushed L.stacks u (j + 8) c₀ ops.reverse [] c ∧ c.eip = ra := by
    intro c d hs h
    exact ⟨Pushed.stable hj c d hs h.1, by rw [hs.regs]; exact h.2⟩
  obtain ⟨hend, heip⟩ := hr₄.finish hstable hc₄
  refine ⟨?_, heip, hend.esp, fun a ht hu ↦ (hend.mem a hu).trans (hmem₂ a ht)⟩
  rw [← hregs, hops, List.map_map, frameOf]
  refine List.map_congr_left fun r hr ↦ ?_
  exact hend.held (.gpr r) (List.mem_reverse.mpr (List.mem_map_of_mem hr))

/-- **`switch_to` on a shaken machine.** -/
theorem shaken_switchTo (hroom : L.Room t m i) (hj : j + 8 ≤ 1024) (htu : t ≠ u)
    (hc : c.toMachine = atSwitchTo o (L.stackWord u j) (L.spCell t) m) (hlen : vs.length = 7)
    (hw : Words (switchTo o (L.stackWord u j) (L.spCell t) m).mem (L.stackWord u j) (vs ++ [ra]))
    (hr : Shaken L.stacks (switchToCode o text) c d) : Loaded L o t u m i j vs ra d := by
  rw [switchToCode_eq] at hr
  obtain ⟨c', hhalf, hr'⟩ := shaken_save hroom hc hr
  exact shaken_load hroom.2.2.le hj htu hhalf hlen hw hr'

end Switch

/-! ## Frames that wait to be loaded -/

/-- `u->sp` points to a frame `vs` and a return address, at the word `j` of its stack. -/
structure Resumable (L : Layout τ) (u : τ) (mem : Word → Word) (j : ℕ) (vs : List Word)
    (ra : Word) : Prop where
  /-- `u->sp` -/
  sp : mem (L.spCell u) = L.stackWord u j
  /-- They are on the stack. -/
  fits : j + 8 ≤ 1024
  /-- The frame has seven words. -/
  length : vs.length = 7
  /-- The words. -/
  words : Words mem (L.stackWord u j) (vs ++ [ra])

section Resumable

variable {p t u : τ} {m : Machine} {mem mem' : Word → Word} {i j : ℕ} {vs : List Word} {ra : Word}

theorem Resumable.congr (h : Resumable L u mem j vs ra)
    (hmem : ∀ x, L.Private u x → mem' x = mem x) : Resumable L u mem' j vs ra := by
  refine ⟨(hmem _ (.inr rfl)).trans h.sp, h.fits, h.length, h.words.congr ?_⟩
  intro k hk
  have hlen := h.length
  have hfits := h.fits
  rw [List.length_append, List.length_singleton] at hk
  rw [Layout.stackWord_add]
  exact hmem _ (.inl ⟨j + k, by omega, rfl⟩)

theorem Suspended.resumable (h : Suspended L p m mem i) :
    Resumable L p mem (i - 7) (frameOf m) (m.mem (L.stackWord p i)) := by
  obtain ⟨-, h7, hi⟩ := h.room
  refine ⟨h.sp, by omega, rfl, words_append.mpr ⟨h.frame, ?_, trivial⟩⟩
  have hra : L.stackWord p (i - 7) + BitVec.ofNat 32 (4 * (frameOf m).length)
      = L.stackWord p i := by
    rw [Layout.stackWord_add]
    exact congrArg (L.stackWord p) (Nat.sub_add_cancel h7)
  rw [hra]
  exact h.live i le_rfl hi

/-- What a task needs to stay suspended: its `sp` and the words above it. -/
theorem Suspended.congr_above (h : Suspended L p m mem i)
    (hsp : mem' (L.spCell p) = mem (L.spCell p))
    (hmem : ∀ j, i - 7 ≤ j → j < 1024 → mem' (L.stackWord p j) = mem (L.stackWord p j)) :
    Suspended L p m mem' i := by
  obtain ⟨-, h7, hi⟩ := h.room
  refine ⟨h.room, hsp.trans h.sp, h.frame.congr ?_, ?_⟩
  · intro k hk
    have hk7 : k < 7 := hk
    rw [Layout.stackWord_add]
    exact hmem _ (by omega) (by omega)
  · intro j hij hj
    rw [hmem j (by omega) hj, h.live j hij hj]

/-- A task that is started can be resumed. -/
theorem resumable_startCpu (ht : t ≠ L.initTask) :
    Resumable L t (startCpu L k t).mem 1015 (List.replicate 7 0) (k.entry t) := by
  obtain ⟨hsp, hw, -⟩ := startCpu_spec (k := k) ht
  exact ⟨hsp, by decide, rfl, (words_append.mp hw).1⟩

end Resumable

/-! ## Moves with interrupts -/

section Moves

variable {T : TextSection} {body : Cpu → Code → Prop} {text : ℕ → Word} {k₁ k₂ : Kernel τ}

/-- Interrupts come while the running task has its stack pointer on its stack. -/
def Paused (L : Layout τ) (T : TextSection) (body : Cpu → Code → Prop) (k k₁ : Kernel τ) : Prop :=
  ∃ c c₁ : Cpu, c.toMachine = k.cpu ∧ Interrupted T L.stacks body [] c c₁ ∧
    (c₁ = c ∨ ∃ i ≤ 1024, c.gpr .esp = L.stackWord k.current i) ∧
    k₁ = { k with cpu := c₁.toMachine }

/-- A move of a disciplined task.  Interrupts come in front of it, and if it is a switch to another
task, they come in front of every instruction of `switch_to` and behind it. -/
inductive InterruptedMove (L : Layout τ) (o : Operands) (T : TextSection)
    (body : Cpu → Code → Prop) (text : ℕ → Word) (k : Kernel τ) (op : Op τ) : Kernel τ → Prop
  /-- The task goes on. -/
  | stay {k₁ k₂ : Kernel τ} (hpause : Paused L T body k k₁) (hs : TaskStep L o k₁ op k₂)
      (hc : k₂.current = k₁.current) : InterruptedMove L o T body text k op k₂
  /-- Another task is switched to. -/
  | switch {k₁ k₂ : Kernel τ} {c d : Cpu} (hpause : Paused L T body k k₁)
      (hs : TaskStep L o k₁ op k₂) (hc : k₂.current ≠ k₁.current)
      (hcpu : c.toMachine = op.snapshot L o k₁ k₂.current)
      (hr : Interrupted T L.stacks body (switchToCode o text) c d) :
      InterruptedMove L o T body text k op { k₂ with cpu := d.toMachine }

/-- A word of the running task's stack, below its stack pointer. -/
def BelowStack (L : Layout τ) (k : Kernel τ) (x : Word) : Prop :=
  ∃ i j, k.cpu.gpr .esp = L.stackWord k.current i ∧ i ≤ 1024 ∧ j < i ∧ x = L.stackWord k.current j

/-- The kernel is the same but for what a pause may change. -/
structure SameTask (L : Layout τ) (k k₁ : Kernel τ) : Prop where
  /-- Only the processor is concerned. -/
  eq : k₁ = { k with cpu := k₁.cpu }
  /-- The registers. -/
  gpr : k₁.cpu.gpr = k.cpu.gpr
  /-- The instruction pointer. -/
  eip : k₁.cpu.eip = k.cpu.eip
  /-- The memory, but for the words of the running task's stack below its stack pointer. -/
  mem : ∀ x, ¬ BelowStack L k x → k₁.cpu.mem x = k.cpu.mem x

theorem Paused.same (hb : Honours L.stacks body) (h : Paused L T body k k₁) : SameTask L k k₁ := by
  obtain ⟨c, c₁, hc, hr, hstack, rfl⟩ := h
  have hshake : Shake L.stacks c c₁ := by
    cases hr.shaken hb with
    | nil hs => exact hs
  refine ⟨rfl, ?_, ?_, ?_⟩
  · rw [← hc]
    exact hshake.gpr
  · rw [← hc, hshake.regs]
  · intro x hx
    rw [BelowStack, ← hc] at hx
    rw [← hc]
    rcases hstack with rfl | ⟨i, hi, hesp⟩
    · rfl
    · refine hshake.mem x fun hdead ↦ ?_
      obtain ⟨j, hj, rfl⟩ := (dead_iff (S := L.stacks) hesp hi).mp hdead
      exact hx ⟨i, j, hesp, hi, hj, rfl⟩

theorem not_belowStack_of_private {p : τ} {x : Word} (hp : p ≠ k.current) (hx : L.Private p x) :
    ¬ BelowStack L k x := by
  rintro ⟨i, j, -, hi, hj, rfl⟩
  exact hx.disjoint hp (.inl ⟨j, by omega, rfl⟩)

theorem not_belowStack_spCell (p : τ) : ¬ BelowStack L k (L.spCell p) := by
  rintro ⟨i, j, -, hi, hj, h⟩
  by_cases hp : p = k.current
  · subst hp
    exact Layout.spCell_ne_stackWord (by omega) h
  · exact Layout.Private.disjoint hp (.inr rfl) (.inl ⟨j, by omega, h⟩)

theorem not_belowStack_of_room {i j : ℕ} (hroom : L.Room k.current k.cpu i) (hij : i ≤ j)
    (hj : j < 1024) : ¬ BelowStack L k (L.stackWord k.current j) := by
  rintro ⟨i', j', hesp, hi', hj', h⟩
  obtain ⟨-, rfl⟩ := Stacks.word_inj (S := L.stacks) (show i ≤ 1024 from hroom.2.2.le) hi'
    (hroom.1.symm.trans hesp)
  obtain ⟨-, rfl⟩ := Stacks.word_inj (S := L.stacks) (show j ≤ 1024 from hj.le)
    (show j' ≤ 1024 by omega) h
  omega

omit [DecidableEq τ] in
/-- The pushes of `stack_init` preserve that two machines differ in a part of memory only. -/
theorem pushSps_congr {t : τ} {D : Word → Prop} (hsp : ¬ D (L.spCell t)) {vs : List Word}
    {m m' : Machine} (hm : ∀ x, ¬ D x → m'.mem x = m.mem x) {x : Word} (hx : ¬ D x) :
    (vs.foldl (fun m v ↦ pushSp L t v m) m').mem x
      = (vs.foldl (fun m v ↦ pushSp L t v m) m).mem x := by
  induction vs generalizing m m' with
  | nil => exact hm x hx
  | cons v vs ih =>
    refine ih fun y hy ↦ ?_
    simp only [pushSp, Machine.store, Function.update_apply, hm _ hsp, hm y hy]

/-- A pause is not noticed on the way to `schedule`. -/
theorem SameTask.before_mem (h : SameTask L k k₁) {x : Word} (hx : ¬ BelowStack L k x) :
    (op.before L k₁).mem x = (op.before L k).mem x := by
  cases op with
  | taskRun t =>
    show (startCpu L k₁ t).mem x = (startCpu L k t).mem x
    have hentry : k₁.entry = k.entry := by rw [h.eq]
    rw [startCpu_eq, startCpu_eq, hentry]
    refine pushSps_congr (not_belowStack_spCell t) (fun y hy ↦ ?_) hx
    simp only [Machine.store, Function.update_apply, h.mem y hy]
  | schedule | exit | compute => exact h.mem x hx

theorem SameTask.snapshot_gpr (h : SameTask L k k₁) (u : τ) :
    (op.snapshot L o k₁ u).gpr = (op.snapshot L o k u).gpr := by
  have hcur : k₁.current = k.current := by rw [h.eq]
  have hbefore : (op.before L k₁).gpr = (op.before L k).gpr := by
    rw [before_gpr, before_gpr, h.gpr]
  have hsp : (op.before L k₁).mem (L.spCell u) = (op.before L k).mem (L.spCell u) :=
    h.before_mem (not_belowStack_spCell u)
  rw [Op.snapshot, Op.snapshot, hcur, hsp]
  show Function.update (Function.update _ _ _) _ _ = Function.update (Function.update _ _ _) _ _
  rw [hbefore]

/-- A task that was paused on its way into `switch_to` is suspended as if it had not been. -/
theorem SameTask.suspended {u : τ} {mem : Word → Word} {i : ℕ} (h : SameTask L k k₁)
    (hsus : Suspended L k.current (op.snapshot L o k₁ u) mem i) :
    Suspended L k.current (op.snapshot L o k u) mem i := by
  have hgpr : (op.snapshot L o k₁ u).gpr = (op.snapshot L o k u).gpr := h.snapshot_gpr u
  have hroom : L.Room k.current (op.snapshot L o k u) i := ⟨hgpr ▸ hsus.room.1, hsus.room.2⟩
  have hroom' : L.Room k.current k.cpu i := by
    refine ⟨?_, hroom.2⟩
    rw [← hroom.1, Op.snapshot, atSwitchTo_esp, before_gpr]
  refine ⟨hroom, hsus.sp, ?_, ?_⟩
  · have hframe : frameOf (op.snapshot L o k u) = frameOf (op.snapshot L o k₁ u) := by
      rw [frameOf, frameOf, hgpr]
    rw [hframe]
    exact hsus.frame
  · intro j hij hj
    rw [hsus.live j hij hj]
    exact h.before_mem (not_belowStack_of_room hroom' hij hj)

end Moves

/-! ## Handing the processor over -/

section Hand

variable {T : TextSection} {body : Cpu → Code → Prop} {text : ℕ → Word} {k₁ k₂ : Kernel τ}
  {c d : Cpu} {j : ℕ} {vs : List Word} {ra : Word}

/-- The operation `op` has handed the processor over, from `k` to `k'`: but for the processor, which
is `d`, that of a machine shaken on the way. -/
structure Handed (L : Layout τ) (o : Operands) (k : Kernel τ) (op : Op τ) (k' : Kernel τ) (j : ℕ)
    (vs : List Word) (ra : Word) (d : Cpu) : Prop where
  /-- The task that ran is suspended. -/
  left : ∃ i, Suspended L k.current (op.snapshot L o k k'.current) d.mem i
  /-- The frame is loaded. -/
  frame : frameOf d.toMachine = vs
  /-- The return address. -/
  eip : d.eip = ra
  /-- The stack pointer. -/
  esp : d.gpr .esp = L.stackWord k'.current (j + 8)
  /-- What is private to the other tasks, except below the stack pointer. -/
  mem : ∀ p x, p ≠ k.current → L.Private p x →
    (p = k'.current → ∀ n < j + 8, x ≠ L.stackWord p n) → d.mem x = k'.cpu.mem x

theorem handed (ha : Inv L k a) (hs : TaskStep L o k op k') (hc : k'.current ≠ k.current)
    (hres : Resumable L k'.current (op.before L k).mem j vs ra)
    (hcpu : c.toMachine = op.snapshot L o k k'.current)
    (hr : Shaken L.stacks (switchToCode o text) c d) : Handed L o k op k' j vs ra d := by
  obtain ⟨i, hsus⟩ := suspended_of_switch ha hs hc
  obtain ⟨-, h7, hi⟩ := hsus.room
  have hroom : L.Room k.current (op.before L k) i := by
    refine ⟨?_, h7, hi⟩
    rw [← hsus.room.1, Op.snapshot, atSwitchTo_esp]
  have hkcpu : k'.cpu
      = switchTo o (L.stackWord k'.current j) (L.spCell k.current) (op.before L k) := by
    rcases ha.step_cpu hs.1 with ⟨-, h⟩ | ⟨-, rfl⟩ | ⟨-, -, -, h⟩
    · exact absurd h hc
    · exact absurd rfl hc
    · rw [h, hres.sp]
  rw [Op.snapshot, hres.sp] at hcpu
  have hfits := hres.fits
  -- the frame is private to the next task, so `switch_to` has not written it
  have hw : Words (switchTo o (L.stackWord k'.current j) (L.spCell k.current) (op.before L k)).mem
      (L.stackWord k'.current j) (vs ++ [ra]) := by
    refine (hres.congr fun x hx ↦ ?_).words
    exact switchTo_private _ hroom (hx.disjoint hc)
  have hload := shaken_switchTo hroom hfits hc.symm hcpu hres.length hw hr
  have hmem := hload.mem
  rw [← hkcpu] at hmem
  refine ⟨⟨i, hsus.congr_above ?_ ?_⟩, hload.frame, hload.eip, hload.esp, ?_⟩
  · refine hmem _ (fun n hn ↦ ?_) fun n hn h ↦ ?_
    · exact Layout.spCell_ne_stackWord (by omega)
    · exact Layout.Private.disjoint hc.symm (.inr rfl) (.inl ⟨n, by omega, h⟩)
  · intro n hin hn
    refine hmem _ (fun n' hn' h ↦ ?_) fun n' hn' h ↦ ?_
    · have := (Stacks.word_inj (S := L.stacks) (show n ≤ 1024 by omega)
        (show n' ≤ 1024 by omega) h).2
      omega
    · exact Layout.Private.disjoint hc.symm (.inl ⟨n, hn, rfl⟩) (.inl ⟨n', by omega, h⟩)
  · intro p x hp hx hxu
    refine hmem x (fun n hn h ↦ ?_) fun n hn h ↦ ?_
    · exact hx.disjoint hp (.inl ⟨n, by omega, h⟩)
    · by_cases hpu : p = k'.current
      · exact hxu hpu n hn (hpu ▸ h)
      · exact hx.disjoint hpu (.inl ⟨n, by omega, h⟩)

/-- A waiting task that is suspended can be resumed when an operation reaches `schedule`. -/
theorem Suspended.resumable_before {p : τ} {m : Machine} {i : ℕ} (h : Suspended L p m k.cpu.mem i)
    (ha : Inv L k a) (hp : p ∈ a.queue) (hs : TaskStep L o k op k') :
    Resumable L p (op.before L k).mem (i - 7) (frameOf m) (m.mem (L.stackWord p i)) := by
  have hop : op ≠ .taskRun p := by
    rintro rfl
    exact (ha.not_linked_iff p).mp hs.1.1 (List.mem_cons_of_mem _ hp)
  exact h.resumable.congr fun x hx ↦ ha.before_mem hs.1.1 hop hx

/-- The state of a kernel whose moves are interrupted: all waiting tasks are suspended. -/
structure Sound (L : Layout τ) (k : Kernel τ) (a : RoundRobin τ) : Prop where
  /-- The kernel is in an abstract state. -/
  inv : Inv L k a
  /-- The waiting tasks. -/
  parked : ∀ p ∈ a.queue, ∃ m i, Suspended L p m k.cpu.mem i

theorem Sound.ne_current {p : τ} (h : Sound L k a) (hp : p ∈ a.queue) : p ≠ k.current := by
  rw [h.inv.current]
  rintro rfl
  exact (List.nodup_cons.mp a.nodup).1 hp

/-- Nothing that is private to a waiting task changes in a pause. -/
theorem Sound.paused (h : Sound L k a) (hsame : SameTask L k k₁) : Sound L k₁ a := by
  refine ⟨?_, fun p hp ↦ ?_⟩
  · rw [hsame.eq]
    exact h.inv.compute _
  · obtain ⟨m, i, hsus⟩ := h.parked p hp
    exact ⟨m, i, hsus.congr fun x hx ↦
      hsame.mem x (not_belowStack_of_private (h.ne_current hp) hx)⟩

/-- Who runs or waits after an operation: no one has been added but a task that was started, and no
one has gone but a task that exits. -/
theorem Inv.members (ha : Inv L k a) (hs : Step L o k op k') : ∃ b, Inv L k' b ∧
    (∀ p ∈ b.current :: b.queue, op = .taskRun p ∨ p ∈ a.current :: a.queue) ∧
    ∀ p ∈ a.current :: a.queue, (op = .exit → p ≠ k.current) → p ∈ b.current :: b.queue := by
  rcases ha.step hs with ⟨-, hb⟩ | ⟨e, b, hop, hab, hb⟩
  · exact ⟨a, hb, fun p hp ↦ .inr hp, fun p hp _ ↦ hp⟩
  refine ⟨b, hb, fun p hp ↦ ?_, fun p hp hex ↦ ?_⟩ <;> cases op <;>
    simp only [Op.call, Option.some.injEq, reduceCtorEq] at hop <;> subst hop
  · exact (hab.mem_taskRun.mp hp).imp (congrArg Op.taskRun ·.symm) id
  · exact .inr (hab.mem_schedule.mp hp)
  · exact .inr (hab.mem_exit.mp hp).1
  · exact hab.mem_taskRun.mpr (.inr hp)
  · exact hab.mem_schedule.mpr hp
  · exact hab.mem_exit.mpr ⟨hp, ha.current ▸ hex rfl⟩

/-- **Whatever a switch leads to can be resumed**: a task that waits, or one that is started. -/
theorem Sound.resumable (h : Sound L k a) (hs : TaskStep L o k op k')
    (hc : k'.current ≠ k.current) :
    ∃ j vs ra, Resumable L k'.current (op.before L k).mem j vs ra := by
  obtain ⟨b, hb, hadded, -⟩ := h.inv.members hs.1
  rcases hadded k'.current (hb.current ▸ List.mem_cons_self) with hop | hmem
  · have hall : (Op.taskRun k'.current).Allowed L k := hop ▸ hs.1.1
    rw [hop]
    exact ⟨_, _, _, resumable_startCpu (h.inv.ne_initTask hall)⟩
  · have hq : k'.current ∈ a.queue := List.mem_of_ne_of_mem (h.inv.current ▸ hc) hmem
    obtain ⟨m, i, hsus⟩ := h.parked _ hq
    exact ⟨_, _, _, hsus.resumable_before h.inv hq hs⟩

/-- Behind a move with interrupts is one without, after a pause; they differ in the processor. -/
theorem InterruptedMove.plain (hm : InterruptedMove L o T body text k op k') : ∃ k₁ k₂,
    Paused L T body k k₁ ∧ TaskStep L o k₁ op k₂ ∧ k' = { k₂ with cpu := k'.cpu } := by
  cases hm with
  | stay hpause hs hc => exact ⟨_, _, hpause, hs, rfl⟩
  | switch hpause hs hc hcpu hr => exact ⟨_, _, hpause, hs, rfl⟩

/-- A task that waits and is not switched to goes on waiting, and stays suspended. -/
theorem Sound.waits {p : τ} {m : Machine} {i : ℕ} (hb : Honours L.stacks body) (h : Sound L k a)
    (hm : InterruptedMove L o T body text k op k') (hp : p ∈ a.queue) (hne : k'.current ≠ p)
    (hsus : Suspended L p m k.cpu.mem i) : Suspended L p m k'.cpu.mem i := by
  have hop {k₁ k₂ : Kernel τ} (h : Sound L k₁ a) (hs : TaskStep L o k₁ op k₂) :
      op ≠ .taskRun p := by
    rintro rfl
    exact (h.inv.not_linked_iff p).mp hs.1.1 (List.mem_cons_of_mem _ hp)
  cases hm with
  | stay hpause hs hc =>
    have h₁ := h.paused (hpause.same hb)
    refine hsus.congr fun x hx ↦ ?_
    rw [frame_step h₁.inv hs (h₁.ne_current hp) (hop h₁ hs) hx]
    exact (hpause.same hb).mem x (not_belowStack_of_private (h.ne_current hp) hx)
  | switch hpause hs hc hcpu hr =>
    have h₁ := h.paused (hpause.same hb)
    obtain ⟨j, vs, ra, hres⟩ := h₁.resumable hs hc
    have hhand := handed h₁.inv hs hc hres hcpu (hr.shaken hb)
    refine hsus.congr fun x hx ↦ ?_
    show _ = _
    rw [hhand.mem p x (h₁.ne_current hp) hx fun hpk ↦ absurd hpk.symm hne,
      frame_step h₁.inv hs (h₁.ne_current hp) (hop h₁ hs) hx]
    exact (hpause.same hb).mem x (not_belowStack_of_private (h.ne_current hp) hx)

/-- A task that is switched out is suspended, with the registers and the stack it had before any
interrupt. -/
theorem Sound.left (hb : Honours L.stacks body) (h : Sound L k a)
    (hm : InterruptedMove L o T body text k op k') (hne : k'.current ≠ k.current) :
    ∃ i, Suspended L k.current (op.snapshot L o k k'.current) k'.cpu.mem i := by
  cases hm with
  | stay hpause hs hc =>
    rw [(hpause.same hb).eq] at hc
    exact absurd hc hne
  | @switch k₁ k₂ c d hpause hs hc hcpu hr =>
    have hsame := hpause.same hb
    have h₁ := h.paused hsame
    have hcur : k₁.current = k.current := by rw [hsame.eq]
    obtain ⟨j, vs, ra, hres⟩ := h₁.resumable hs hc
    obtain ⟨i, hsus⟩ := (handed h₁.inv hs hc hres hcpu (hr.shaken hb)).left
    rw [hcur] at hsus
    exact ⟨i, hsame.suspended hsus⟩

/-- **A move with interrupts keeps the kernel sound.** -/
theorem Sound.step (hb : Honours L.stacks body) (h : Sound L k a)
    (hm : InterruptedMove L o T body text k op k') : ∃ b, Sound L k' b ∧
    ∀ p ∈ a.current :: a.queue, (op = .exit → p ≠ k.current) → p ∈ b.current :: b.queue := by
  obtain ⟨k₁, k₂, hpause, hs, hk'⟩ := hm.plain
  have hsame := hpause.same hb
  have h₁ := h.paused hsame
  have hcur : k₁.current = k.current := by rw [hsame.eq]
  obtain ⟨b, hb₂, hadded, hkept⟩ := h₁.inv.members hs.1
  have hinv : Inv L k' b := hk' ▸ hb₂.compute k'.cpu
  refine ⟨b, ⟨hinv, fun p hp ↦ ?_⟩, hcur ▸ hkept⟩
  have hne : k'.current ≠ p := by
    rw [hinv.current]
    rintro rfl
    exact (List.nodup_cons.mp b.nodup).1 hp
  rcases hadded p (List.mem_cons_of_mem _ hp) with rfl | hmem
  · -- a task that is started runs
    have hc₂ := (h₁.inv.enters hs).1
    rw [hk'] at hne
    exact absurd hc₂ hne
  rcases List.mem_cons.mp hmem with rfl | hq
  · rw [← h.inv.current] at hne ⊢
    obtain ⟨i, hsus⟩ := h.left hb hm hne
    exact ⟨_, i, hsus⟩
  · obtain ⟨m, i, hsus⟩ := h.parked p hq
    exact ⟨m, i, h.waits hb hm hq hne hsus⟩

/-- The task `p` goes on as if `switch_to`, entered with the machine `m`, had returned at once; an
interrupt may have used the stack from the return address downwards. -/
structure GoesOn (L : Layout τ) (p : τ) (m m' : Machine) : Prop where
  /-- The registers. -/
  gpr : ∀ r, r ≠ .esp → m'.gpr r = m.gpr r
  /-- The stack pointer, past the return address. -/
  esp : m'.gpr .esp = m.gpr .esp + 4#32
  /-- The return address. -/
  eip : m'.eip = m.mem (m.gpr .esp)
  /-- The live words of the stack. -/
  live : ∀ x, L.OwnWord p x → m.gpr .esp < x → m'.mem x = m.mem x

theorem Sound.goesOn {p : τ} {m : Machine} {i : ℕ} (hb : Honours L.stacks body) (h : Sound L k a)
    (hm : InterruptedMove L o T body text k op k') (hp : p ∈ a.queue) (hc : k'.current = p)
    (hsus : Suspended L p m k.cpu.mem i) : GoesOn L p m k'.cpu := by
  have hpc := h.ne_current hp
  cases hm with
  | stay hpause hs hc' =>
    rw [(hpause.same hb).eq] at hc'
    exact absurd (hc.symm.trans hc') hpc
  | @switch k₁ k₂ c d hpause hs hc' hcpu hr =>
    have hsame := hpause.same hb
    have h₁ := h.paused hsame
    have hsus₁ : Suspended L p m k₁.cpu.mem i :=
      hsus.congr fun x hx ↦ hsame.mem x (not_belowStack_of_private hpc hx)
    obtain rfl : k₂.current = p := hc
    have hpc₁ := h₁.ne_current hp
    have hhand := handed h₁.inv hs hc' (hsus₁.resumable_before h₁.inv hp hs) hcpu (hr.shaken hb)
    obtain ⟨hesp, h7, hi⟩ := hsus.room
    have hidx : i - 7 + 8 = i + 1 := by omega
    refine ⟨fun r hr ↦ gpr_of_frameOf_eq hhand.frame hr, ?_, ?_, ?_⟩
    · show d.gpr .esp = _
      rw [hhand.esp, hidx, hesp]
      exact (Layout.stackWord_add i 1).symm
    · show d.eip = _
      rw [hhand.eip, hesp]
    · rintro x ⟨n, hn, rfl⟩ hlt
      rw [hesp, BitVec.lt_def, Layout.stackWord_toNat hi, Layout.stackWord_toNat hn] at hlt
      show d.mem _ = _
      rw [hhand.mem _ _ hpc₁ (.inl ⟨n, hn, rfl⟩) fun _ n' hn' he ↦ ?_]
      · have hres := hsus₁.resumes h₁.inv hp hs rfl
        refine hres.live _ ⟨n, hn, rfl⟩ ?_
        rw [hesp, BitVec.le_def, Layout.stackWord_toNat hi, Layout.stackWord_toNat hn]
        omega
      · have := (Stacks.word_inj (S := L.stacks) (show n ≤ 1024 by omega)
          (show n' ≤ 1024 by omega) he).2
        omega

theorem Sound.enters {t : τ} (hb : Honours L.stacks body) (h : Sound L k a)
    (hm : InterruptedMove L o T body text k (.taskRun t) k') :
    k'.current = t ∧ Enters L t (k.entry t) k'.cpu := by
  cases hm with
  | stay hpause hs hc' =>
    have h₁ := h.paused (hpause.same hb)
    have hc := (h₁.inv.enters hs).1
    exact absurd (hc.symm.trans hc') hs.1.1.1
  | @switch k₁ k₂ c d hpause hs hc' hcpu hr =>
    have hsame := hpause.same hb
    have h₁ := h.paused hsame
    have hentry : k₁.entry = k.entry := by rw [hsame.eq]
    obtain ⟨rfl, hent⟩ := h₁.inv.enters hs
    have hres : Resumable L k₂.current ((Op.taskRun k₂.current).before L k₁).mem 1015
        (List.replicate 7 0) (k₁.entry k₂.current) :=
      resumable_startCpu (h₁.inv.ne_initTask hs.1.1)
    have hhand := handed h₁.inv hs hc' hres hcpu (hr.shaken hb)
    have hesp : d.gpr .esp = L.stackWord k₂.current 1023 := hhand.esp
    have htop : d.mem (L.stackWord k₂.current 1023) = L.exitPoint := by
      have hmem : d.mem (L.stackWord k₂.current 1023)
          = k₂.cpu.mem (L.stackWord k₂.current 1023) := by
        refine hhand.mem _ _ hc' (.inl ⟨1023, by decide, rfl⟩) fun _ n hn he ↦ ?_
        have := (Stacks.word_inj (S := L.stacks) (show 1023 ≤ 1024 by decide)
          (show n ≤ 1024 by omega) he).2
        omega
      rw [hmem, ← hent.esp, hent.top]
    refine ⟨rfl, ⟨fun r hr ↦ ?_, hesp, hhand.eip.trans (congrFun hentry _), ?_, ?_⟩⟩
    · have hmem := List.mem_map_of_mem (f := d.gpr) (List.mem_reverse.mpr (mem_savedRegs hr))
      have hframe := hhand.frame
      rw [frameOf] at hframe
      rw [hframe] at hmem
      exact List.eq_of_mem_replicate hmem
    · show d.mem (d.gpr .esp) = _
      rw [hesp, htop]
    · show d.mem (d.gpr .esp) = _
      rw [hesp, htop]

end Hand

/-- **Context switches are transparent to interrupts**.  When handlers do not write above the stack
pointer they are called with, the two conclusions of `contextSwitch_transparent` hold of runs in
which interrupts come between all moves and in front of every instruction of `switch_to`. -/
theorem contextSwitch_interrupted {T : TextSection} {body : Cpu → Code → Prop} {text : ℕ → Word}
    (hb : Honours L.stacks body) {k₀ k : Kernel τ} {ops : List (Op τ)} (hboot : k₀.Boot L)
    (hr : Run (InterruptedMove L o T body text) k₀ ops k) :
    (∀ op₁ k₁ ops k₂ op₂ k₃, InterruptedMove L o T body text k op₁ k₁ → op₁ ≠ .exit →
      k₁.current ≠ k.current →
      Run (fun s op s' ↦ InterruptedMove L o T body text s op s' ∧ s'.current ≠ k.current)
        k₁ ops k₂ →
      InterruptedMove L o T body text k₂ op₂ k₃ → k₃.current = k.current →
      GoesOn L k.current (op₁.snapshot L o k k₁.current) k₃.cpu) ∧
    ∀ t k', InterruptedMove L o T body text k (.taskRun t) k' →
      k'.current = t ∧ Enters L t (k.entry t) k'.cpu := by
  obtain ⟨a, ha⟩ : ∃ a, Sound L k a := by
    refine Run.invariant (I := fun s ↦ ∃ a, Sound L s a) ?_ ⟨_, inv_boot hboot, by simp⟩ hr
    rintro s op s' ⟨a, ha⟩ hm
    obtain ⟨b, hb', -⟩ := ha.step hb hm
    exact ⟨b, hb'⟩
  refine ⟨?_, fun t k' ↦ ha.enters hb⟩
  intro op₁ k₁ ops k₂ op₂ k₃ h₁ hex hne hr h₃ hc
  -- the task is switched out
  obtain ⟨i, hsus⟩ := ha.left hb h₁ hne
  obtain ⟨b, hb₁, hkept⟩ := ha.step hb h₁
  have hkb : k.current ∈ b.current :: b.queue :=
    hkept _ (ha.inv.current ▸ List.mem_cons_self) fun h ↦ absurd h hex
  have hpb : k.current ∈ b.queue := List.mem_of_ne_of_mem (hb₁.inv.current ▸ hne.symm) hkb
  -- it waits
  obtain ⟨b', hb₂, hpb', hsus'⟩ : ∃ b, Sound L k₂ b ∧ k.current ∈ b.queue ∧
      Suspended L k.current (op₁.snapshot L o k k₁.current) k₂.cpu.mem i := by
    refine Run.invariant (I := fun s : Kernel τ ↦ ∃ b, Sound L s b ∧ k.current ∈ b.queue ∧
      Suspended L k.current (op₁.snapshot L o k k₁.current) s.cpu.mem i) ?_
      ⟨b, hb₁, hpb, hsus⟩ hr
    rintro s op s' ⟨b, hs, hpb, hsus⟩ ⟨hm, hne⟩
    obtain ⟨b', hs', hkept⟩ := hs.step hb hm
    have hkb : k.current ∈ b'.current :: b'.queue :=
      hkept _ (List.mem_cons_of_mem _ hpb) fun _ ↦ hs.ne_current hpb
    exact ⟨b', hs', List.mem_of_ne_of_mem (hs'.inv.current ▸ hne.symm) hkb,
      hs.waits hb hm hpb hne hsus⟩
  exact hb₂.goesOn hb h₃ hpb' hc hsus'

/-! ## The small system -/

/-- The addresses of `switch_to` in the small system. -/
def pairText (n : ℕ) : Word := 0x100c00#32 + BitVec.ofNat 32 n

/-- The keyboard interrupts `switch_to` right behind the instruction that changes the stack. -/
theorem switchTo_interrupts {t u : τ} {m : Machine} {i j : ℕ} {c : Cpu} (hroom : L.Room t m i)
    (hflag : c.eflags.getLsbD IF = true) (hfit : 17 ≤ j) (hj : j ≤ 1024)
    (hc : c.toMachine = atSwitchTo o (L.stackWord u j) (L.spCell t) m) : ∃ n n₁ n₂ n₃,
      Interrupted smallText L.stacks (runsSmallHandler L.stacks)
        ((switchToCode o pairText).take 9) c n ∧
      n.gpr .esp = L.stackWord u j ∧ LineInterrupt L.stacks 1 n n₁ n₂ n₃ ∧
      Interrupted smallText L.stacks (runsSmallHandler L.stacks) (switchToCode o pairText) c
        (((switchToCode o pairText).drop 9).foldl (fun c f ↦ f c) n₃) := by
  have hbegin : Interrupted smallText L.stacks (runsSmallHandler L.stacks)
      ((switchToCode o pairText).take 9) c _ := .plain _ c
  have hnflag : (((switchToCode o pairText).take 9).foldl (fun c f ↦ f c) c).eflags = c.eflags :=
    rfl
  set n : Cpu := ((switchToCode o pairText).take 9).foldl (fun c f ↦ f c) c
  have hn : n.gpr .esp = L.stackWord u j := by
    have hsplit : (switchToCode o pairText).take 9
        = place pairText 0 (savedOperands.map .push) ++
          (onMachine (pairText 8) (.movStore .esp o.old) ::
            [onMachine (pairText 9) (.mov o.new .esp)]) := rfl
    have hr := hbegin.shaken honours_runsSmallHandler
    rw [hsplit] at hr
    obtain ⟨c', hhalf, hr'⟩ := shaken_save hroom hc hr
    have hstable : Stable L.stacks fun c ↦ c.gpr .esp = L.stackWord u j := by
      intro c d hs h
      rw [hs.gpr]
      exact h
    obtain ⟨c'', hc'', hr''⟩ := hr'.step (Halfway.stable hroom.2.2.le) hhalf
      (Q := fun c ↦ c.gpr .esp = L.stackWord u j)
      fun c h ↦ (Function.update_self Reg.esp _ c.gpr).trans h.new
    exact hr''.finish hstable hc''
  obtain ⟨n₁, n₂, n₃, hline⟩ := lineInterrupt_plain (S := L.stacks) 1 hn hfit hj
  refine ⟨n, n₁, n₂, n₃, hbegin, hn, hline, ?_⟩
  have hend := hline.interrupted (hnflag ▸ hflag) hn hfit hj
    (.plain ((switchToCode o pairText).drop 9) n₃)
  rw [← List.take_append_drop 9 (switchToCode o pairText)]
  exact hbegin.append hend

/-- `init_task` when it calls the scheduler: interrupts are enabled. -/
def pairCpu : Cpu where
  toMachine := pairBoot.cpu
  seg _ := 0x08
  cs := 0x10
  eflags := 0x200

/-- The keyboard interrupts `init_task`, and the clock the handler of the keyboard. -/
theorem pairBoot_paused : ∃ m, Paused pairLayout smallText (runsSmallHandler pairLayout.stacks)
    pairBoot { pairBoot with cpu := m } := by
  have hesp : pairCpu.gpr .esp = pairLayout.stacks.word 0 1000 := by decide
  have hflag : pairCpu.eflags.getLsbD IF = true := by decide
  obtain ⟨_, _, _, _, _, c, hkey, -⟩ := keyboard_interrupts hflag hesp (by decide) (by decide)
  have hr := hkey.interrupted hflag hesp (by decide) (by decide) (.nil c)
  exact ⟨_, pairCpu, c, rfl, hr, .inr ⟨1000, by decide, by decide⟩, rfl⟩

/-- After that, `init_task` starts the second task, and the keyboard interrupts `switch_to` when the
stack has changed. -/
theorem pair_starts : ∃ k₁ a n n₁ n₂ n₃,
    InterruptedMove pairLayout pairOperands smallText (runsSmallHandler pairLayout.stacks) pairText
      pairBoot (.taskRun 1) k₁ ∧ Inv pairLayout k₁ a ∧ a.queue = [0] ∧
    n.gpr .esp = pairLayout.stackWord 1 1015 ∧ LineInterrupt pairLayout.stacks 1 n n₁ n₂ n₃ ∧
    k₁.cpu
      = (((switchToCode pairOperands pairText).drop 9).foldl (fun c f ↦ f c) n₃).toMachine := by
  obtain ⟨m, hpause⟩ := pairBoot_paused
  set k₀ : Kernel (Fin 2) := { pairBoot with cpu := m }
  have hsame := hpause.same honours_runsSmallHandler
  have hboot : Sound pairLayout pairBoot _ := ⟨inv_boot pairBoot_boot, by simp⟩
  have hinv := (hboot.paused hsame).inv
  have ht : (1 : Fin 2) ∉ [pairLayout.initTask] := by decide
  obtain ⟨_, k, a, hk, hab, ha, -⟩ := hinv.taskRun (o := pairOperands) ht
  have hesp : k₀.cpu.gpr .esp = pairLayout.stackWord 0 1000 :=
    (congrFun hsame.gpr _).trans (by decide)
  have hroom : pairLayout.Room 0 k₀.cpu 1000 := ⟨hesp, by omega, by omega⟩
  have hs : TaskStep pairLayout pairOperands k₀ (.taskRun 1) k :=
    ⟨⟨(hinv.not_linked_iff 1).mpr ht, hk⟩, 1000, hroom⟩
  have hc : k.current = 1 := (hinv.enters hs).1
  -- the machine `switch_to` is entered with
  have hne : (1 : Fin 2) ≠ pairLayout.initTask := by decide
  have hroom' : pairLayout.Room 0 (startCpu pairLayout k₀ 1) 1000 :=
    ⟨(congrFun startCpu_gpr _).trans hroom.1, hroom.2⟩
  set e : Cpu :=
    { pairCpu with
      toMachine := atSwitchTo pairOperands (pairLayout.stackWord 1 1015) (pairLayout.spCell 0)
        (startCpu pairLayout k₀ 1) }
  have hsnap : e.toMachine = (Op.taskRun 1).snapshot pairLayout pairOperands k₀ k.current := by
    rw [hc, Op.snapshot, Op.before, (startCpu_spec hne).1]
    rfl
  have hflag : pairCpu.eflags.getLsbD IF = true := by decide
  obtain ⟨n, n₁, n₂, n₃, -, hn, hline, hswitch⟩ :=
    switchTo_interrupts (c := e) hroom' hflag (by decide) (by decide) rfl
  have hcur : k.current ≠ k₀.current := by
    rw [hc]
    exact (show (1 : Fin 2) ≠ 0 by decide)
  have hm : InterruptedMove pairLayout pairOperands smallText (runsSmallHandler pairLayout.stacks)
      pairText pairBoot (.taskRun 1) _ := .switch hpause hs hcur hsnap hswitch
  have hq : a.queue = [0] := by
    cases hab with
    | taskRun _ _ hq => exact hq
  exact ⟨_, a, n, n₁, n₂, n₃, hm, ha.compute _, hq, hn, hline, rfl⟩

/-- The theorem in the small system: the keyboard interrupts `init_task` (and the clock the handler
of the keyboard), which then starts the second task; the keyboard interrupts again in `switch_to`,
when the stack has changed.  The second task gives the processor back at once. -/
theorem contextSwitch_interrupted_pair : ∃ k₁ k₂ n n₁ n₂ n₃,
    InterruptedMove pairLayout pairOperands smallText (runsSmallHandler pairLayout.stacks) pairText
      pairBoot (.taskRun 1) k₁ ∧ k₁.current = 1 ∧ k₁.cpu.eip = 0x100800#32 ∧
    n.gpr .esp = pairLayout.stackWord 1 1015 ∧ LineInterrupt pairLayout.stacks 1 n n₁ n₂ n₃ ∧
    k₁.cpu = (((switchToCode pairOperands pairText).drop 9).foldl (fun c f ↦ f c) n₃).toMachine ∧
    InterruptedMove pairLayout pairOperands smallText (runsSmallHandler pairLayout.stacks) pairText
      k₁ .schedule k₂ ∧ k₂.current = 0 ∧ k₂.cpu.gpr .ecx = 7 ∧ k₂.cpu.gpr .edi = 12 := by
  obtain ⟨k₁, a, n, n₁, n₂, n₃, hm, ha, hq, hn, hline, hcpu⟩ := pair_starts
  obtain ⟨htrans, hstart⟩ :=
    contextSwitch_interrupted honours_runsSmallHandler pairBoot_boot (.nil _)
  obtain ⟨hc₁, hent⟩ := hstart 1 _ hm
  -- the second task yields
  obtain ⟨k, b, hk, hab, hb, -⟩ := ha.schedule (o := pairOperands)
  have hs : TaskStep pairLayout pairOperands k₁ .schedule k :=
    ⟨⟨trivial, hk⟩, 1023, by rw [hc₁]; exact hent.esp, by omega, by omega⟩
  have hc : k.current = 0 := by
    rw [hb.current]
    cases hab with
    | schedule hq' hc' _ => exact hc'.trans (List.cons.inj (hq'.symm.trans hq)).1
    | alone hq' => simp [hq] at hq'
  have hcur : k.current ≠ k₁.current := by
    rw [hc₁, hc]
    decide
  have hpause : Paused pairLayout smallText (runsSmallHandler pairLayout.stacks) k₁ k₁ :=
    ⟨{ pairCpu with toMachine := k₁.cpu }, _, rfl, .nil _, .inl rfl, rfl⟩
  have hm' : InterruptedMove pairLayout pairOperands smallText (runsSmallHandler pairLayout.stacks)
      pairText k₁ .schedule _ :=
    .switch (c := { pairCpu with toMachine := _ }) hpause hs hcur rfl (.plain _ _)
  have hne : k₁.current ≠ pairBoot.current := by
    rw [hc₁]
    decide
  have hres := htrans _ k₁ [] k₁ .schedule _ hm (by simp) hne (.nil _) hm' hc
  have hgpr {r : Reg} (hnew : r ≠ .eax) (hold : r ≠ .edx) :
      ((Op.taskRun 1).snapshot pairLayout pairOperands pairBoot k₁.current).gpr r
        = pairBoot.cpu.gpr r := by
    rw [Op.snapshot, atSwitchTo]
    simp [Op.before, startCpu_gpr, pairOperands, hnew, hold]
  exact ⟨k₁, _, n, n₁, n₂, n₃, hm, hc₁, hent.eip, hn, hline, hcpu, hm', hc,
    (hres.gpr .ecx (by decide)).trans (hgpr (by decide) (by decide)),
    (hres.gpr .edi (by decide)).trans (hgpr (by decide) (by decide))⟩

end PastaOS
