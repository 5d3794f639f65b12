import Mathlib.Data.Nat.Notation
import PastaOS.Lib.StackMachine

/-!
# A processor that can be interrupted

The stack machine with two segment registers, the code segment and the flags: what an interrupt
finds, saves and gives back.

An interrupt may come in front of any instruction, and what code it runs is not known here.  All
that the interrupted code can rely on is that everything is as before but the cells below its stack
pointer, the `Dead` ones; the interrupt has *shaken* the machine (`Shake`).  `Shaken` runs a piece
of code on a machine that is shaken in front of every instruction, and `Shaken.step` is the rule to
reason about it: an assertion that dead cells do not matter to (`Stable`) survives.

`Pushed` is such an assertion: certain words have been pushed, nothing above has been written, and
certain registers still are what they were.  `shaken_pushes` and `shaken_pops` build a frame up
and take it down again.
-/

set_option autoImplicit false

universe u

namespace StackMachine

/-- The segment registers for data. -/
inductive Seg
  | ds | es
  deriving DecidableEq

/-- The state of the processor and its memory. -/
structure Cpu extends Machine where
  /-- The segment registers for data. -/
  seg : Seg → BitVec 16
  /-- The code segment. -/
  cs : BitVec 16
  /-- The flags. -/
  eflags : BitVec 32

/-- A register that can be pushed and popped. -/
inductive Operand
  /-- A general register. -/
  | gpr (r : Reg)
  /-- A segment register. -/
  | seg (s : Seg)
  deriving DecidableEq

/-! ## Flags -/

/-- The direction flag. -/
def DF : ℕ := 10

/-- The interrupt flag. -/
def IF : ℕ := 9

/-- A flag is set or cleared. -/
def putFlag (k : ℕ) (v : Bool) (f : BitVec 32) : BitVec 32 :=
  if v then f ||| BitVec.twoPow 32 k else f &&& ~~~BitVec.twoPow 32 k

theorem putFlag_getLsbD {j k : ℕ} (hj : j < 32) (v : Bool) (f : BitVec 32) :
    (putFlag k v f).getLsbD j = if j = k then v else f.getLsbD j := by
  have hbit : (BitVec.twoPow 32 k).getLsbD j = decide (j = k) := by
    rw [BitVec.getLsbD_twoPow]
    by_cases hjk : j = k
    · simp [← hjk, hj]
    · simp [hjk, Ne.symm hjk]
  cases v with
  | false =>
    rw [putFlag, if_neg Bool.false_ne_true, BitVec.getLsbD_and, BitVec.getLsbD_not, hbit]
    by_cases hjk : j = k <;> simp [hjk, hj]
  | true =>
    rw [putFlag, if_pos rfl, BitVec.getLsbD_or, hbit]
    by_cases hjk : j = k <;> simp [hjk]

/-- The flags after an addition: carry, parity, half carry, zero, sign and overflow. -/
def addFlags (a b f : BitVec 32) : BitVec 32 :=
  let r := a + b
  let f := putFlag 0 (BitVec.carry 32 a b false) f
  let f := putFlag 2 (((List.range 8).countP fun i ↦ r.getLsbD i) % 2 = 0) f
  let f := putFlag 4 (BitVec.carry 4 a b false) f
  let f := putFlag 6 (r = 0) f
  let f := putFlag 7 r.msb f
  putFlag 11 (a.msb = b.msb ∧ r.msb ≠ a.msb) f

/-! ## Instructions -/

namespace Cpu

/-- The value of a register.  A selector is extended by zeros here; a processor that pushes one
may also leave the upper half of the word as it was.  Taking a selector off the stack again only
looks at the lower half (`write`). -/
def read (c : Cpu) : Operand → BitVec 32
  | .gpr r => c.gpr r
  | .seg s => (c.seg s).setWidth 32

/-- Write a register.  Of a word that is written to a segment register the lower half counts. -/
def write (c : Cpu) : Operand → BitVec 32 → Cpu
  | .gpr r, v => { c with gpr := Function.update c.gpr r v }
  | .seg s, v => { c with seg := Function.update c.seg s (v.setWidth 16) }

/-- Push a word. -/
def push (v : BitVec 32) (c : Cpu) : Cpu :=
  { c with
    gpr := Function.update c.gpr .esp (c.gpr .esp - 4#32)
    mem := Function.update c.mem (c.gpr .esp - 4#32) v }

/-- Move the stack pointer. -/
def setEsp (v : BitVec 32) (c : Cpu) : Cpu := { c with gpr := Function.update c.gpr .esp v }

end Cpu

/-- The instructions, in the operand order of the source's assembler: source first. -/
inductive Insn
  /-- `push %r` -/
  | push (x : Operand)
  /-- `pushl $v` -/
  | pushImm (v : BitVec 32)
  /-- `pop %r` -/
  | pop (x : Operand)
  /-- `add $v, %esp` -/
  | addEsp (v : BitVec 32)
  /-- `cld` -/
  | cld
  /-- `jmp a` -/
  | jmp (a : BitVec 32)
  /-- `call a` -/
  | call (a : BitVec 32)
  /-- `ret` -/
  | ret
  /-- `iretl` -/
  | iret

/-- What an instruction does, when the instruction pointer is behind it already. -/
def Insn.exec : Insn → Cpu → Cpu
  | .push x, c => c.push (c.read x)
  | .pushImm v, c => c.push v
  | .pop x, c => (c.setEsp (c.gpr .esp + 4#32)).write x (c.mem (c.gpr .esp))
  | .addEsp v, c => { c.setEsp (c.gpr .esp + v) with eflags := addFlags (c.gpr .esp) v c.eflags }
  | .cld, c => { c with eflags := putFlag DF false c.eflags }
  | .jmp a, c => { c with eip := a }
  | .call a, c => { c.push c.eip with eip := a }
  | .ret, c => { c.setEsp (c.gpr .esp + 4#32) with eip := c.mem (c.gpr .esp) }
  | .iret, c => { c.setEsp (c.gpr .esp + 12#32) with
      eip := c.mem (c.gpr .esp)
      cs := (c.mem (c.gpr .esp + 4#32)).setWidth 16
      eflags := c.mem (c.gpr .esp + 8#32) }

/-- An instruction is what it does to the processor. -/
abbrev Code := List (Cpu → Cpu)

/-- An instruction, with the address behind it. -/
def placed (next : BitVec 32) (i : Insn) (c : Cpu) : Cpu := i.exec { c with eip := next }

/-- Instructions in a row; `text k` is the address of the `k`-th one, counted from `n`. -/
def place (text : ℕ → BitVec 32) : ℕ → List Insn → Code
  | _, [] => []
  | n, i :: is => placed (text (n + 1)) i :: place text (n + 1) is

theorem place_append {text : ℕ → BitVec 32} {n : ℕ} {is js : List Insn} :
    place text n (is ++ js) = place text n is ++ place text (n + is.length) js := by
  induction is generalizing n with
  | nil => rfl
  | cons i is ih =>
    have hn : n + 1 + is.length = n + (i :: is).length := by rw [List.length_cons]; omega
    rw [List.cons_append, place, ih, hn]
    rfl

/-! ## Stacks -/

/-- Areas of memory that are stacks.  An empty stack has its pointer behind its last word. -/
structure Stacks (ι : Type u) where
  /-- The lowest address. -/
  base : ι → BitVec 32
  /-- The number of words. -/
  size : ι → ℕ
  /-- A stack is not all of the memory. -/
  small : ∀ t, size t < 2 ^ 30
  /-- A stack pointer belongs to one stack only. -/
  apart : ∀ t u i j, i ≤ size t → j ≤ size u →
    base t + BitVec.ofNat 32 (4 * i) = base u + BitVec.ofNat 32 (4 * j) → t = u

variable {ι : Type u} {S : Stacks ι} {t u : ι} {i j k : ℕ}

namespace Stacks

/-- The `i`-th word of a stack. -/
def word (S : Stacks ι) (t : ι) (i : ℕ) : BitVec 32 := S.base t + BitVec.ofNat 32 (4 * i)

theorem word_inj (hi : i ≤ S.size t) (hj : j ≤ S.size u) (h : S.word t i = S.word u j) :
    t = u ∧ i = j := by
  obtain rfl := S.apart t u i j hi hj h
  have hsmall := S.small t
  have hoff := congrArg BitVec.toNat ((BitVec.add_right_inj _).mp h)
  rw [BitVec.toNat_ofNat, BitVec.toNat_ofNat, Nat.mod_eq_of_lt (by omega),
    Nat.mod_eq_of_lt (by omega)] at hoff
  exact ⟨rfl, by omega⟩

theorem word_add : S.word t i + BitVec.ofNat 32 (4 * j) = S.word t (i + j) := by
  simp only [word]
  bv_omega

theorem word_succ : S.word t i + 4#32 = S.word t (i + 1) := word_add (j := 1)

theorem word_pred (hi : 0 < i) : S.word t i - 4#32 = S.word t (i - 1) := by
  obtain ⟨n, rfl⟩ : ∃ n, i = n + 1 := ⟨i - 1, by omega⟩
  rw [← word_succ, BitVec.add_sub_cancel, Nat.add_sub_cancel]

end Stacks

/-! ## Shaking -/

/-- The cells of a stack below the stack pointer. -/
def Dead (S : Stacks ι) (c : Cpu) (a : BitVec 32) : Prop :=
  ∃ t i j, c.gpr .esp = S.word t i ∧ i ≤ S.size t ∧ j < i ∧ a = S.word t j

/-- The machine is the same but for dead cells. -/
structure Shake (S : Stacks ι) (c d : Cpu) : Prop where
  /-- The registers. -/
  regs : d = { c with mem := d.mem }
  /-- The memory. -/
  mem : ∀ a, ¬ Dead S c a → d.mem a = c.mem a

variable {c d e : Cpu}

theorem dead_iff (hesp : c.gpr .esp = S.word t i) (hi : i ≤ S.size t) {a : BitVec 32} :
    Dead S c a ↔ ∃ j < i, a = S.word t j := by
  constructor
  · rintro ⟨u, k, j, hu, hk, hj, rfl⟩
    obtain ⟨rfl, rfl⟩ := Stacks.word_inj hi hk (hesp.symm.trans hu)
    exact ⟨j, hj, rfl⟩
  · rintro ⟨j, hj, rfl⟩
    exact ⟨t, i, j, hesp, hi, hj, rfl⟩

namespace Shake

theorem gpr (h : Shake S c d) : d.gpr = c.gpr := by rw [h.regs]

theorem read (h : Shake S c d) (x : Operand) : d.read x = c.read x := by
  rw [h.regs]; cases x <;> rfl

theorem dead_iff (h : Shake S c d) {a : BitVec 32} : Dead S d a ↔ Dead S c a := by
  rw [Dead, Dead, h.gpr]

theorem refl (c : Cpu) : Shake S c c := ⟨rfl, fun _ _ ↦ rfl⟩

theorem symm (h : Shake S c d) : Shake S d c := by
  refine ⟨?_, fun a ha ↦ (h.mem a fun hd ↦ ha (h.dead_iff.mpr hd)).symm⟩
  rw [h.regs]

theorem trans (h : Shake S c d) (h' : Shake S d e) : Shake S c e := by
  refine ⟨?_, ?_⟩
  · rw [h'.regs, h.regs]
  · intro a ha
    rw [h'.mem a fun hd ↦ ha (h.dead_iff.mp hd), h.mem a ha]

end Shake

/-- Running code on a machine that is shaken in front of every instruction, and at the end. -/
inductive Shaken (S : Stacks ι) : Code → Cpu → Cpu → Prop
  | nil {c d : Cpu} (h : Shake S c d) : Shaken S [] c d
  | cons {f : Cpu → Cpu} {is : Code} {c c' d : Cpu} (h : Shake S c c') (hr : Shaken S is (f c') d) :
      Shaken S (f :: is) c d

/-- Dead cells do not matter to an assertion. -/
def Stable (S : Stacks ι) (P : Cpu → Prop) : Prop := ∀ c d, Shake S c d → P c → P d

namespace Shaken

variable {is js : Code} {f : Cpu → Cpu} {P Q : Cpu → Prop}

theorem shake_left (h : Shake S c d) (hr : Shaken S is d e) : Shaken S is c e := by
  cases hr with
  | nil hs => exact .nil (h.trans hs)
  | cons hs hr => exact .cons (h.trans hs) hr

theorem append (h : Shaken S is c d) (h' : Shaken S js d e) : Shaken S (is ++ js) c e := by
  induction h with
  | nil hs => exact shake_left hs h'
  | cons hs _ ih => exact .cons hs (ih h')

theorem append_iff : Shaken S (is ++ js) c e ↔ ∃ d, Shaken S is c d ∧ Shaken S js d e := by
  refine ⟨?_, fun ⟨_, h, h'⟩ ↦ h.append h'⟩
  intro h
  induction is generalizing c with
  | nil => exact ⟨c, .nil (.refl c), h⟩
  | cons f is ih =>
    cases h with
    | cons hs hr =>
      obtain ⟨d, h₁, h₂⟩ := ih hr
      exact ⟨d, .cons hs h₁, h₂⟩

/-- **The rule of a step**: a stable assertion in front of an instruction may be used when it is
executed. -/
theorem step (h : Shaken S (f :: is) c d) (hstable : Stable S P) (hc : P c)
    (hf : ∀ c, P c → Q (f c)) : ∃ c', Q c' ∧ Shaken S is c' d := by
  cases h with
  | cons hs hr => exact ⟨_, hf _ (hstable _ _ hs hc), hr⟩

/-- The rule of the end: a stable assertion still holds behind the last instruction. -/
theorem finish (h : Shaken S [] c d) (hstable : Stable S P) (hc : P c) : P d := by
  cases h with
  | nil hs => exact hstable _ _ hs hc

end Shaken

/-! ## Frames -/

theorem setWidth_inj {v w : BitVec 16} (h : v.setWidth 32 = w.setWidth 32) : v = w := by
  have hcut (u : BitVec 16) : (u.setWidth 32).setWidth 16 = u :=
    BitVec.setWidth_setWidth_of_le u (by decide)
  rw [← hcut v, h, hcut]

namespace Cpu

theorem read_write_self {x : Operand} {v : BitVec 32} (h : c.read x = v) :
    (d.write x v).read x = v := by
  subst h
  cases x with
  | gpr r => exact Function.update_self ..
  | seg s =>
    have hcut : ((c.seg s).setWidth 32).setWidth 16 = c.seg s :=
      BitVec.setWidth_setWidth_of_le _ (by decide)
    show (Function.update d.seg s (((c.seg s).setWidth 32).setWidth 16) s).setWidth 32 = _
    rw [Function.update_self, hcut]
    rfl

theorem read_write_of_ne {x y : Operand} {v : BitVec 32} (h : y ≠ x) :
    (c.write x v).read y = c.read y := by
  cases x with
  | gpr r =>
    cases y with
    | gpr q => exact Function.update_of_ne (fun hq ↦ h (congrArg Operand.gpr hq)) ..
    | seg s => rfl
  | seg s =>
    cases y with
    | gpr r => rfl
    | seg q =>
      have hq : q ≠ s := fun hq ↦ h (congrArg Operand.seg hq)
      exact congrArg (BitVec.setWidth 32) (Function.update_of_ne hq ..)

theorem read_setEsp {x : Operand} {v : BitVec 32} (h : x ≠ .gpr .esp) :
    (c.setEsp v).read x = c.read x := read_write_of_ne h

theorem push_esp (c : Cpu) (v : BitVec 32) : (c.push v).gpr .esp = c.gpr .esp - 4#32 :=
  Function.update_self Reg.esp _ c.gpr

theorem setEsp_esp (c : Cpu) (v : BitVec 32) : (c.setEsp v).gpr .esp = v :=
  Function.update_self Reg.esp _ c.gpr

theorem write_mem (c : Cpu) (x : Operand) (v : BitVec 32) : (c.write x v).mem = c.mem := by
  cases x <;> rfl

theorem write_esp (c : Cpu) {x : Operand} (v : BitVec 32) (h : x ≠ .gpr .esp) :
    (c.write x v).gpr .esp = c.gpr .esp := read_write_of_ne (y := .gpr .esp) h.symm

end Cpu

/-- Since the stack pointer pointed to the word `i`, the words `vs` have been pushed (and not popped
again); the registers `xs` are what they were. -/
structure Pushed (S : Stacks ι) (t : ι) (i : ℕ) (c₀ : Cpu) (xs : List Operand)
    (vs : List (BitVec 32)) (c : Cpu) : Prop where
  /-- There is room. -/
  fits : vs.length ≤ i
  /-- The stack pointer. -/
  esp : c.gpr .esp = S.word t (i - vs.length)
  /-- The words. -/
  words : Words c.mem (S.word t (i - vs.length)) vs
  /-- Everything else. -/
  mem : ∀ a, (∀ j < i, a ≠ S.word t j) → c.mem a = c₀.mem a
  /-- The registers. -/
  held : ∀ x ∈ xs, c.read x = c₀.read x

namespace Pushed

variable {c₀ : Cpu} {x : Operand} {xs ops : List Operand} {v w : BitVec 32} {vs : List (BitVec 32)}

/-- Only the registers, without the instruction pointer, and the memory matter. -/
theorem of_eq (h : Pushed S t i c₀ xs vs c) (hg : d.gpr = c.gpr) (hs : d.seg = c.seg)
    (hm : d.mem = c.mem) : Pushed S t i c₀ xs vs d := by
  refine ⟨h.fits, hg ▸ h.esp, hm ▸ h.words, hm ▸ h.mem, ?_⟩
  intro x hx
  rw [← h.held x hx]
  cases x with
  | gpr r => exact congrFun hg r
  | seg s => exact congrArg (BitVec.setWidth 32) (congrFun hs s)

/-- A frame may be looked at with fewer registers in mind. -/
theorem of_held {ys : List Operand} (h : Pushed S t i c₀ xs vs c) (hys : ∀ x ∈ ys, x ∈ xs) :
    Pushed S t i c₀ ys vs c :=
  ⟨h.fits, h.esp, h.words, h.mem, fun x hx ↦ h.held x (hys x hx)⟩

theorem stable (hi : i ≤ S.size t) : Stable S (Pushed S t i c₀ xs vs) := by
  intro c d hs h
  have hdead {a : BitVec 32} : Dead S c a ↔ ∃ j < i - vs.length, a = S.word t j :=
    StackMachine.dead_iff h.esp (by omega)
  refine ⟨h.fits, hs.gpr ▸ h.esp, h.words.congr ?_, ?_, fun x hx ↦ (hs.read x).trans (h.held x hx)⟩
  · intro k hk
    refine hs.mem _ fun hd ↦ ?_
    obtain ⟨j, hj, he⟩ := hdead.mp hd
    have hlen := h.fits
    rw [Stacks.word_add] at he
    have hkj := (Stacks.word_inj (by omega) (by omega) he).2
    omega
  · intro a ha
    rw [hs.mem a ?_, h.mem a ha]
    intro hd
    obtain ⟨j, hj, rfl⟩ := hdead.mp hd
    exact ha j (by omega) rfl

theorem stable_and {f : BitVec 32} (hi : i ≤ S.size t) :
    Stable S fun c ↦ Pushed S t i c₀ xs vs c ∧ c.eflags = f := by
  intro c d hs h
  exact ⟨stable hi c d hs h.1, by rw [hs.regs]; exact h.2⟩

theorem refl (hesp : c₀.gpr .esp = S.word t i) : Pushed S t i c₀ xs [] c₀ :=
  ⟨Nat.zero_le i, hesp, trivial, fun _ _ ↦ rfl, fun _ _ ↦ rfl⟩

theorem push (h : Pushed S t i c₀ xs vs c) (hi : i ≤ S.size t) (hfit : vs.length < i)
    (hxs : .gpr .esp ∉ xs) (v : BitVec 32) : Pushed S t i c₀ xs (v :: vs) (c.push v) := by
  have hesp : c.gpr .esp - 4#32 = S.word t (i - (v :: vs).length) := by
    rw [h.esp, Stacks.word_pred (by omega), Nat.sub_sub]
    rfl
  have hup : S.word t (i - (v :: vs).length) + 4#32 = S.word t (i - vs.length) := by
    rw [Stacks.word_succ, List.length_cons]
    congr 1
    omega
  have hmem : (c.push v).mem = Function.update c.mem (S.word t (i - (v :: vs).length)) v := by
    rw [← hesp]; rfl
  refine ⟨hfit, ?_, ⟨?_, ?_⟩, ?_, ?_⟩
  · rw [← hesp, Cpu.push_esp]
  · rw [hmem, Function.update_self]
  · rw [hup]
    refine h.words.congr fun k hk ↦ ?_
    rw [hmem, Function.update_of_ne]
    rw [Stacks.word_add]
    intro he
    have hkj := (Stacks.word_inj (by omega) (by omega) he).2
    rw [List.length_cons] at hkj
    omega
  · intro a ha
    rw [hmem, Function.update_of_ne (ha _ _), h.mem a ha]
    rw [List.length_cons]
    omega
  · intro x hx
    have hne : x ≠ .gpr .esp := by rintro rfl; exact hxs hx
    rw [← h.held x hx]
    exact Cpu.read_write_of_ne hne

/-- Where the next instruction is does not matter. -/
theorem next (h : Pushed S t i c₀ xs vs c) (a : BitVec 32) :
    Pushed S t i c₀ xs vs { c with eip := a } := h.of_eq rfl rfl rfl

theorem placed_push {next : BitVec 32} (h : Pushed S t i c₀ xs vs c) (hi : i ≤ S.size t)
    (hfit : vs.length < i) (hxs : .gpr .esp ∉ xs) (hv : c.read x = v) :
    Pushed S t i c₀ xs (v :: vs) (placed next (.push x) c) := by
  have hread : ({ c with eip := next } : Cpu).read x = v := by
    rw [← hv]
    cases x <;> rfl
  rw [placed, Insn.exec, hread]
  exact (h.next next).push hi hfit hxs v

theorem placed_pushImm {next : BitVec 32} (h : Pushed S t i c₀ xs vs c) (hi : i ≤ S.size t)
    (hfit : vs.length < i) (hxs : .gpr .esp ∉ xs) :
    Pushed S t i c₀ xs (v :: vs) (placed next (.pushImm v) c) :=
  (h.next next).push hi hfit hxs v

theorem placed_call {next a : BitVec 32} (h : Pushed S t i c₀ xs vs c) (hi : i ≤ S.size t)
    (hfit : vs.length < i) (hxs : .gpr .esp ∉ xs) :
    Pushed S t i c₀ xs (next :: vs) (placed next (.call a) c) :=
  ((h.next next).push hi hfit hxs next).next a

/-- Words can be taken off the frame by moving the stack pointer. -/
theorem skip {ws : List (BitVec 32)} (h : Pushed S t i c₀ xs (ws ++ vs) c)
    (hxs : .gpr .esp ∉ xs) :
    Pushed S t i c₀ xs vs (c.setEsp (c.gpr .esp + BitVec.ofNat 32 (4 * ws.length))) := by
  have hlen := h.fits
  have hup : S.word t (i - (ws ++ vs).length) + BitVec.ofNat 32 (4 * ws.length)
      = S.word t (i - vs.length) := by
    rw [Stacks.word_add]
    rw [List.length_append] at hlen ⊢
    congr 1
    omega
  refine ⟨by rw [List.length_append] at hlen; omega, ?_, ?_, h.mem, ?_⟩
  · rw [← hup, ← h.esp, Cpu.setEsp_esp]
  · rw [← hup]
    exact (words_append.mp h.words).2
  · intro x hx
    have hne : x ≠ .gpr .esp := by rintro rfl; exact hxs hx
    rw [← h.held x hx]
    exact Cpu.read_setEsp hne

theorem drop (h : Pushed S t i c₀ xs (v :: vs) c) (hxs : .gpr .esp ∉ xs) :
    Pushed S t i c₀ xs vs (c.setEsp (c.gpr .esp + 4#32)) :=
  skip (c := c) (show Pushed S t i c₀ xs ([v] ++ vs) c from h) hxs

theorem top (h : Pushed S t i c₀ xs (v :: vs) c) : c.mem (c.gpr .esp) = v := by
  rw [h.esp]
  exact h.words.1

theorem pop (h : Pushed S t i c₀ xs (c₀.read x :: vs) c) (hxs : .gpr .esp ∉ xs)
    (hx : x ≠ .gpr .esp) : Pushed S t i c₀ (x :: xs) vs ((Insn.pop x).exec c) := by
  have hd := h.drop hxs
  have hexec : (Insn.pop x).exec c = (c.setEsp (c.gpr .esp + 4#32)).write x (c₀.read x) := by
    rw [Insn.exec, h.top]
  rw [hexec]
  refine ⟨hd.fits, (Cpu.write_esp _ _ hx).trans hd.esp, ?_, ?_, ?_⟩
  · rw [Cpu.write_mem]
    exact hd.words
  · rw [Cpu.write_mem]
    exact hd.mem
  · intro y hy
    by_cases hyx : y = x
    · subst hyx
      exact Cpu.read_write_self rfl
    · rw [Cpu.read_write_of_ne hyx]
      exact hd.held y ((List.mem_cons.mp hy).resolve_left hyx)

/-- A stack pointer that was pushed into the frame is loaded again. -/
theorem popEsp (h : Pushed S t i c₀ xs (S.word t (i - vs.length) :: vs) c)
    (hxs : .gpr .esp ∉ xs) : Pushed S t i c₀ xs vs ((Insn.pop (.gpr .esp)).exec c) := by
  have hd := h.drop hxs
  have hexec : (Insn.pop (.gpr .esp)).exec c
      = (c.setEsp (c.gpr .esp + 4#32)).setEsp (S.word t (i - vs.length)) := by
    rw [Insn.exec, h.top]
    rfl
  refine hexec ▸ ⟨hd.fits, Cpu.setEsp_esp _ _, hd.words, hd.mem, ?_⟩
  intro x hx
  have hne : x ≠ .gpr .esp := by rintro rfl; exact hxs hx
  rw [Cpu.read_setEsp hne]
  exact hd.held x hx

end Pushed

/-! ## Calls -/

/-- A function, entered with its return address on top of the stack, has returned: the return
address is off the stack, and all cells but those below the stack pointer are what they were. -/
structure Returns (S : Stacks ι) (c d : Cpu) : Prop where
  /-- The stack pointer. -/
  esp : d.gpr .esp = c.gpr .esp + 4#32
  /-- The memory. -/
  mem : ∀ a, ¬ Dead S d a → d.mem a = c.mem a

theorem Pushed.returns {c₀ : Cpu} {xs : List Operand} {v : BitVec 32} {vs : List (BitVec 32)}
    (h : Pushed S t i c₀ xs (v :: vs) c) (hi : i ≤ S.size t) (hd : Returns S c d) :
    Pushed S t i c₀ [] vs d := by
  have hc : Pushed S t i c₀ [] (v :: vs) c := h.of_held (by simp)
  have hdrop := hc.drop (by simp)
  have hesp : d.gpr .esp = S.word t (i - vs.length) := by
    rw [hd.esp, ← hdrop.esp, Cpu.setEsp_esp]
  have hdead {a : BitVec 32} : Dead S d a ↔ ∃ j < i - vs.length, a = S.word t j :=
    dead_iff hesp (by omega)
  refine ⟨hdrop.fits, hesp, hdrop.words.congr ?_, ?_, by simp⟩
  · intro k hk
    refine hd.mem _ fun hk' ↦ ?_
    obtain ⟨j, hj, he⟩ := hdead.mp hk'
    have hlen := hdrop.fits
    rw [Stacks.word_add] at he
    have hkj := (Stacks.word_inj (by omega) (by omega) he).2
    omega
  · intro a ha
    rw [hd.mem a ?_, h.mem a ha]
    intro hk
    obtain ⟨j, hj, rfl⟩ := hdead.mp hk
    exact ha j (by omega) rfl

/-- A function that has nothing left on its stack returns. -/
theorem Pushed.placed_ret {c₀ : Cpu} {xs : List Operand} {next : BitVec 32}
    (h : Pushed S t i c₀ xs [] c) (hesp : c₀.gpr .esp = S.word t i) (hi : i + 1 ≤ S.size t) :
    Returns S c₀ (placed next .ret c) := by
  have hsp : c.gpr .esp = S.word t i := h.esp
  have hup : (placed next .ret c).gpr .esp = c.gpr .esp + 4#32 :=
    Function.update_self Reg.esp _ c.gpr
  refine ⟨by rw [hup, hsp, hesp], fun a ha ↦ h.mem a fun j hj he ↦ ha ?_⟩
  rw [hsp, Stacks.word_succ] at hup
  exact (dead_iff hup hi).mpr ⟨j, by omega, he⟩

theorem Returns.stable {c₀ : Cpu} : Stable S (Returns S c₀) := by
  intro c d hs h
  refine ⟨by rw [hs.gpr]; exact h.esp, fun a ha ↦ ?_⟩
  have ha' : ¬ Dead S c a := fun hc ↦ ha (hs.dead_iff.mpr hc)
  rw [hs.mem a ha', h.mem a ha']

section Rules

variable {text : ℕ → BitVec 32} {n : ℕ} {js : Code} {c₀ : Cpu} {f : BitVec 32}
  {xs ops : List Operand} {vs : List (BitVec 32)}

/-- **Pushing registers** adds their values to the frame. -/
theorem shaken_pushes (hi : i ≤ S.size t) (hxs : .gpr .esp ∉ xs) (hops : ∀ x ∈ ops, x ∈ xs)
    (hfit : vs.length + ops.length ≤ i)
    (hr : Shaken S (place text n (ops.map .push) ++ js) c d)
    (hc : Pushed S t i c₀ xs vs c ∧ c.eflags = f) :
    ∃ c', (Pushed S t i c₀ xs ((ops.map c₀.read).reverse ++ vs) c' ∧ c'.eflags = f) ∧
      Shaken S js c' d := by
  induction ops generalizing n c vs with
  | nil => exact ⟨c, hc, hr⟩
  | cons x ops ih =>
    rw [List.length_cons] at hfit
    obtain ⟨c₁, hc₁, hr₁⟩ := hr.step (Pushed.stable_and hi) hc
      (Q := fun c ↦ Pushed S t i c₀ xs (c₀.read x :: vs) c ∧ c.eflags = f) (by
        rintro c ⟨h, hf⟩
        exact ⟨h.placed_push hi (by omega) hxs (h.held x (hops x List.mem_cons_self)), hf⟩)
    obtain ⟨c', hc', hr'⟩ := ih (fun y hy ↦ hops y (List.mem_cons_of_mem _ hy))
      (by rw [List.length_cons]; omega) hr₁ hc₁
    refine ⟨c', ?_, hr'⟩
    rwa [List.map_cons, List.reverse_cons, List.append_assoc]

/-- Pushing constants adds them to the frame. -/
theorem shaken_pushImms {ws : List (BitVec 32)} (hi : i ≤ S.size t) (hxs : .gpr .esp ∉ xs)
    (hfit : vs.length + ws.length ≤ i)
    (hr : Shaken S (place text n (ws.map .pushImm) ++ js) c d)
    (hc : Pushed S t i c₀ xs vs c ∧ c.eflags = f) :
    ∃ c', (Pushed S t i c₀ xs (ws.reverse ++ vs) c' ∧ c'.eflags = f) ∧ Shaken S js c' d := by
  induction ws generalizing n c vs with
  | nil => exact ⟨c, hc, hr⟩
  | cons w ws ih =>
    rw [List.length_cons] at hfit
    obtain ⟨c₁, hc₁, hr₁⟩ := hr.step (Pushed.stable_and hi) hc
      (Q := fun c ↦ Pushed S t i c₀ xs (w :: vs) c ∧ c.eflags = f) fun c h ↦
        ⟨h.1.placed_pushImm hi (by omega) hxs, h.2⟩
    obtain ⟨c', hc', hr'⟩ := ih (by rw [List.length_cons]; omega) hr₁ hc₁
    refine ⟨c', ?_, hr'⟩
    rwa [List.reverse_cons, List.append_assoc]

/-- **Popping registers** that stand in the frame. -/
theorem shaken_pops (hi : i ≤ S.size t) (hxs : .gpr .esp ∉ xs) (hops : .gpr .esp ∉ ops)
    (hr : Shaken S (place text n (ops.map .pop) ++ js) c d)
    (hc : Pushed S t i c₀ xs (ops.map c₀.read ++ vs) c) :
    ∃ c', Pushed S t i c₀ (ops.reverse ++ xs) vs c' ∧ Shaken S js c' d := by
  induction ops generalizing n c xs with
  | nil => exact ⟨c, hc, hr⟩
  | cons x ops ih =>
    rw [List.mem_cons, not_or] at hops
    obtain ⟨c₁, hc₁, hr₁⟩ := hr.step (Q := Pushed S t i c₀ (x :: xs) (ops.map c₀.read ++ vs))
      (Pushed.stable hi) hc (fun c h ↦ (h.next _).pop hxs (Ne.symm hops.1))
    have hx : .gpr .esp ∉ x :: xs := by
      rw [List.mem_cons, not_or]
      exact ⟨hops.1, hxs⟩
    obtain ⟨c', hc', hr'⟩ := ih hx hops.2 hr₁ hc₁
    refine ⟨c', ?_, hr'⟩
    rwa [List.reverse_cons, List.append_assoc]

end Rules

/-! ## Interrupts -/

/-- What the processor has pushed when it is interrupted, from the top of the stack upwards.  The
code segment is extended by zeros, like the other selectors. -/
def Cpu.trapWords (c : Cpu) : List (BitVec 32) := [c.eip, c.cs.setWidth 32, c.eflags]

/-- An interrupt makes the processor push the flags, the code segment and the instruction pointer,
in this order. -/
def Cpu.trap (c : Cpu) : Cpu := ((c.push c.eflags).push (c.cs.setWidth 32)).push c.eip

theorem pushed_trap {c₀ : Cpu} {xs : List Operand} (hesp : c₀.gpr .esp = S.word t i)
    (hi : i ≤ S.size t) (hfit : 3 ≤ i) (hxs : .gpr .esp ∉ xs) :
    Pushed S t i c₀ xs c₀.trapWords c₀.trap :=
  (((Pushed.refl hesp).push hi (by simp only [List.length_nil]; omega) hxs _).push hi
    (by simp only [List.length_cons, List.length_nil]; omega) hxs _).push hi
    (by simp only [List.length_cons, List.length_nil]; omega) hxs _

/-- **Returning from an interrupt** when the registers are what they were: the machine has been
shaken. -/
theorem Pushed.iret {c₀ : Cpu} {xs : List Operand} {next : BitVec 32}
    (h : Pushed S t i c₀ xs c₀.trapWords c) (hesp : c₀.gpr .esp = S.word t i) (hi : i ≤ S.size t)
    (hxs : ∀ x, x ≠ .gpr .esp → x ∈ xs) : Shake S c₀ (placed next .iret c) := by
  have hfit : 3 ≤ i := h.fits
  have hwords : Words c.mem (c.gpr .esp) c₀.trapWords := h.esp ▸ h.words
  obtain ⟨heip, hcs, hflags, -⟩ := hwords
  have hup : c.gpr .esp + 12#32 = S.word t i := by
    have hadd : S.word t (i - 3) + 12#32 = S.word t (i - 3 + 3) := Stacks.word_add (j := 3)
    rw [h.esp]
    exact hadd.trans (congrArg (S.word t) (by omega))
  have hgpr : (placed next .iret c).gpr = c₀.gpr := by
    funext r
    show Function.update c.gpr .esp (c.gpr .esp + 12#32) r = c₀.gpr r
    by_cases hr : r = .esp
    · rw [hr, Function.update_self, hup, hesp]
    · rw [Function.update_of_ne hr]
      exact h.held (.gpr r) (hxs _ fun he ↦ hr (Operand.gpr.inj he))
  have hseg : c.seg = c₀.seg := by
    funext s
    have hread : (c.seg s).setWidth 32 = (c₀.seg s).setWidth 32 :=
      h.held (.seg s) (hxs _ (by simp))
    exact setWidth_inj hread
  refine ⟨?_, fun a ha ↦ h.mem a fun j hj he ↦ ha ((dead_iff hesp hi).mpr ⟨j, hj, he⟩)⟩
  have hcs' : (c.mem (c.gpr .esp + 4#32)).setWidth 16 = c₀.cs := by
    rw [hcs]
    exact BitVec.setWidth_setWidth_of_le _ (by decide)
  have hflags' : c.mem (c.gpr .esp + 8#32) = c₀.eflags := by
    rw [← hflags, BitVec.add_assoc]
    rfl
  show Cpu.mk ⟨(placed next .iret c).gpr, c.mem (c.gpr .esp), c.mem⟩ c.seg
    ((c.mem (c.gpr .esp + 4#32)).setWidth 16) (c.mem (c.gpr .esp + 8#32)) = _
  rw [hgpr, heip, hseg, hcs', hflags']
  rfl

end StackMachine
