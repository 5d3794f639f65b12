import Mathlib.Algebra.Group.Nat.Defs
import Mathlib.Logic.Function.Basic
import Mathlib.Data.List.Nodup

/-!
# A 32-bit stack machine

Just enough of a processor to run a context switch: eight general registers, an instruction
pointer, a memory of 32-bit cells, and the five instructions such a routine is written with.  A
cell is named by the address of its first byte; code that keeps its stack pointers aligned never
sees two cells overlap.

The two facts the code of a context switch rests on are about *lists* of pushes and pops:

* `pushes_gpr_esp`, `pushes_mem_frame` and `pushes_words`: pushing registers moves the stack
  pointer down, leaves every cell outside the frame alone, and lays the registers out in the frame
  with the last one pushed at the bottom (`Words`);
* `pops_gpr`: popping into registers reads such a frame back, whoever laid it out.

`Words mem a vs` says that the cells from `a` upwards hold the values `vs`.
-/

set_option autoImplicit false

namespace StackMachine

/-- The general registers. -/
inductive Reg
  | eax | ecx | edx | ebx | ebp | esi | edi | esp
  deriving DecidableEq

/-- The state of the processor and its memory. -/
structure Machine where
  /-- The general registers. -/
  gpr : Reg → BitVec 32
  /-- The instruction pointer. -/
  eip : BitVec 32
  /-- The memory cells. -/
  mem : BitVec 32 → BitVec 32

namespace Machine

/-- Write a register. -/
def setReg (m : Machine) (r : Reg) (v : BitVec 32) : Machine :=
  { m with gpr := Function.update m.gpr r v }

/-- Write a memory cell. -/
def store (m : Machine) (a v : BitVec 32) : Machine := { m with mem := Function.update m.mem a v }

@[simp] theorem setReg_gpr (m : Machine) (r x : Reg) (v : BitVec 32) :
    (m.setReg r v).gpr x = if x = r then v else m.gpr x := by
  simp [setReg, Function.update_apply]

@[simp] theorem setReg_mem (m : Machine) (r : Reg) (v : BitVec 32) : (m.setReg r v).mem = m.mem :=
  rfl

@[simp] theorem setReg_eip (m : Machine) (r : Reg) (v : BitVec 32) : (m.setReg r v).eip = m.eip :=
  rfl

@[simp] theorem store_mem (m : Machine) (a v x : BitVec 32) :
    (m.store a v).mem x = if x = a then v else m.mem x := by
  simp [store, Function.update_apply]

@[simp] theorem store_gpr (m : Machine) (a v : BitVec 32) : (m.store a v).gpr = m.gpr := rfl

@[simp] theorem store_eip (m : Machine) (a v : BitVec 32) : (m.store a v).eip = m.eip := rfl

end Machine

/-- The instructions, in the operand order of the source's assembler: source first. -/
inductive Instr
  /-- `pushl %r` -/
  | push (r : Reg)
  /-- `popl %r` -/
  | pop (r : Reg)
  /-- `mov %src, (%base)` -/
  | movStore (src base : Reg)
  /-- `mov %src, %dst` -/
  | mov (src dst : Reg)
  /-- `ret` -/
  | ret

/-- One instruction.  In straight-line code the instruction pointer only matters once a `ret`
loads it. -/
def exec : Instr → Machine → Machine
  | .push r, m => (m.setReg .esp (m.gpr .esp - 4#32)).store (m.gpr .esp - 4#32) (m.gpr r)
  | .pop r, m => (m.setReg .esp (m.gpr .esp + 4#32)).setReg r (m.mem (m.gpr .esp))
  | .movStore src base, m => m.store (m.gpr base) (m.gpr src)
  | .mov src dst, m => m.setReg dst (m.gpr src)
  | .ret, m => { m.setReg .esp (m.gpr .esp + 4#32) with eip := m.mem (m.gpr .esp) }

/-- A sequence of instructions. -/
def execAll (is : List Instr) (m : Machine) : Machine := is.foldl (fun m i ↦ exec i m) m

@[simp] theorem execAll_nil (m : Machine) : execAll [] m = m := rfl

@[simp] theorem execAll_cons (i : Instr) (is : List Instr) (m : Machine) :
    execAll (i :: is) m = execAll is (exec i m) := rfl

theorem execAll_append (is js : List Instr) (m : Machine) :
    execAll (is ++ js) m = execAll js (execAll is m) := by
  simp [execAll]

/-! ## Frames -/

/-- The cells from `a` upwards hold `vs`. -/
def Words (mem : BitVec 32 → BitVec 32) : BitVec 32 → List (BitVec 32) → Prop
  | _, [] => True
  | a, v :: vs => mem a = v ∧ Words mem (a + 4#32) vs

theorem words_append {mem : BitVec 32 → BitVec 32} {vs ws : List (BitVec 32)} {a : BitVec 32} :
    Words mem a (vs ++ ws) ↔ Words mem a vs ∧
      Words mem (a + BitVec.ofNat 32 (4 * vs.length)) ws := by
  induction vs generalizing a with
  | nil => simp [Words]
  | cons v vs ih =>
    have ha : a + 4#32 + BitVec.ofNat 32 (4 * vs.length)
        = a + BitVec.ofNat 32 (4 * (v :: vs).length) := by
      rw [List.length_cons]; bv_omega
    simp only [List.cons_append, Words, ih, ha, and_assoc]

/-- The words of a frame, by their index. -/
theorem Words.getElem {mem : BitVec 32 → BitVec 32} {vs : List (BitVec 32)} {a : BitVec 32}
    (h : Words mem a vs) {i : ℕ} (hi : i < vs.length) :
    mem (a + BitVec.ofNat 32 (4 * i)) = vs[i] := by
  induction vs generalizing a i with
  | nil => simp at hi
  | cons v vs ih =>
    cases i with
    | zero => simpa using h.1
    | succ i =>
      have ha : a + BitVec.ofNat 32 (4 * (i + 1)) = a + 4#32 + BitVec.ofNat 32 (4 * i) := by
        bv_omega
      rw [ha, List.getElem_cons_succ]
      exact ih h.2 (by simpa using hi)

/-- A frame survives a change of memory that leaves its cells alone. -/
theorem Words.congr {mem mem' : BitVec 32 → BitVec 32} {vs : List (BitVec 32)} {a : BitVec 32}
    (h : Words mem a vs)
    (hc : ∀ i, i < vs.length → mem' (a + BitVec.ofNat 32 (4 * i))
      = mem (a + BitVec.ofNat 32 (4 * i))) : Words mem' a vs := by
  induction vs generalizing a with
  | nil => trivial
  | cons v vs ih =>
    refine ⟨by have := hc 0 (by simp); simpa using this.trans (by simpa using h.1), ?_⟩
    refine ih h.2 ?_
    intro i hi
    have ha : a + 4#32 + BitVec.ofNat 32 (4 * i) = a + BitVec.ofNat 32 (4 * (i + 1)) := by
      bv_omega
    rw [ha]
    exact hc (i + 1) (by simpa using hi)

/-- Whatever the memory, some words stand there. -/
theorem exists_words (mem : BitVec 32 → BitVec 32) (a : BitVec 32) (n : ℕ) :
    ∃ vs : List (BitVec 32), vs.length = n ∧ Words mem a vs := by
  induction n generalizing a with
  | zero => exact ⟨[], rfl, trivial⟩
  | succ n ih =>
    obtain ⟨vs, hlen, hw⟩ := ih (a + 4#32)
    exact ⟨mem a :: vs, congrArg Nat.succ hlen, rfl, hw⟩

/-! ## Pushing -/

section Push

variable {rs : List Reg}

/-- Pushing registers other than the stack pointer changes no register but the stack pointer. -/
theorem pushes_gpr (m : Machine) {r : Reg} (hr : r ≠ .esp) :
    (execAll (rs.map .push) m).gpr r = m.gpr r := by
  induction rs generalizing m with
  | nil => rfl
  | cons x rs ih => rw [List.map_cons, execAll_cons, ih]; simp [exec, hr]

theorem pushes_gpr_esp (m : Machine) : (execAll (rs.map .push) m).gpr .esp
    = m.gpr .esp - BitVec.ofNat 32 (4 * rs.length) := by
  induction rs generalizing m with
  | nil => simp
  | cons x rs ih =>
    rw [List.map_cons, execAll_cons, ih, List.length_cons]
    simp only [exec, Machine.store_gpr, Machine.setReg_gpr, if_true]
    bv_omega

theorem pushes_mem_frame (m : Machine) {a : BitVec 32}
    (ha : ∀ i, i < rs.length → a ≠ m.gpr .esp - BitVec.ofNat 32 (4 * (i + 1))) :
    (execAll (rs.map .push) m).mem a = m.mem a := by
  induction rs generalizing m with
  | nil => rfl
  | cons x rs ih =>
    have h0 : a ≠ m.gpr .esp - 4#32 := by simpa using ha 0 (by simp)
    rw [List.map_cons, execAll_cons, ih]
    · simp [exec, h0]
    · intro i hi
      have hne := ha (i + 1) (by simpa using hi)
      have he : m.gpr .esp - 4#32 - BitVec.ofNat 32 (4 * (i + 1))
          = m.gpr .esp - BitVec.ofNat 32 (4 * (i + 1 + 1)) := by bv_omega
      simp only [exec, Machine.store_gpr, Machine.setReg_gpr, if_true, he]
      exact hne

/-- **Pushing lays out a frame.**  From the new stack pointer upwards stand the registers, the
last one pushed first. -/
theorem pushes_words (m : Machine) (hrs : Reg.esp ∉ rs) (hlen : 4 * rs.length < 2 ^ 32) :
    Words (execAll (rs.map .push) m).mem (m.gpr .esp - BitVec.ofNat 32 (4 * rs.length))
      (rs.reverse.map m.gpr) := by
  induction rs generalizing m with
  | nil => trivial
  | cons x rs ih =>
    simp only [List.mem_cons, not_or] at hrs
    rw [List.length_cons] at hlen
    rw [List.map_cons, execAll_cons, List.reverse_cons, List.map_append, words_append]
    set m₁ := exec (.push x) m with hm₁
    have hesp : m₁.gpr .esp = m.gpr .esp - 4#32 := by simp [hm₁, exec]
    have hgpr : rs.reverse.map m₁.gpr = rs.reverse.map m.gpr := by
      refine List.map_congr_left ?_
      intro r hr
      have hne : r ≠ .esp := by rintro rfl; exact hrs.2 (List.mem_reverse.mp hr)
      simp [hm₁, exec, hne]
    have hbase : m.gpr .esp - BitVec.ofNat 32 (4 * (x :: rs).length)
        = m₁.gpr .esp - BitVec.ofNat 32 (4 * rs.length) := by
      rw [hesp, List.length_cons]; bv_omega
    refine ⟨?_, ?_⟩
    · rw [hbase, ← hgpr]
      exact ih m₁ hrs.2 (by omega)
    · have htop : m.gpr .esp - BitVec.ofNat 32 (4 * (x :: rs).length)
          + BitVec.ofNat 32 (4 * (rs.reverse.map m.gpr).length) = m.gpr .esp - 4#32 := by
        simp only [List.length_cons, List.length_map, List.length_reverse]; bv_omega
      refine ⟨?_, trivial⟩
      rw [htop, pushes_mem_frame]
      · simp [hm₁, exec]
      · intro i hi
        rw [hesp]
        bv_omega

end Push

/-! ## Popping -/

section Pop

variable {rs : List Reg}

theorem pops_mem (m : Machine) : (execAll (rs.map .pop) m).mem = m.mem := by
  induction rs generalizing m with
  | nil => rfl
  | cons x rs ih => rw [List.map_cons, execAll_cons, ih]; rfl

theorem pops_gpr_esp (m : Machine) (hrs : Reg.esp ∉ rs) : (execAll (rs.map .pop) m).gpr .esp
    = m.gpr .esp + BitVec.ofNat 32 (4 * rs.length) := by
  induction rs generalizing m with
  | nil => simp
  | cons x rs ih =>
    simp only [List.mem_cons, not_or] at hrs
    rw [List.map_cons, execAll_cons, ih _ hrs.2, List.length_cons]
    simp only [exec, Machine.setReg_gpr, if_neg hrs.1, if_true]
    bv_omega

/-- A register that is not popped keeps its value. -/
theorem pops_gpr_of_notMem (m : Machine) {r : Reg} (hr : r ∉ rs) (he : r ≠ .esp) :
    (execAll (rs.map .pop) m).gpr r = m.gpr r := by
  induction rs generalizing m with
  | nil => rfl
  | cons x rs ih =>
    simp only [List.mem_cons, not_or] at hr
    rw [List.map_cons, execAll_cons, ih _ hr.2]
    simp [exec, hr.1, he]

/-- **Popping reads a frame**: the registers get its words. -/
theorem pops_gpr (m : Machine) (hrs : Reg.esp ∉ rs) (hnd : rs.Nodup) {vs : List (BitVec 32)}
    (hw : Words m.mem (m.gpr .esp) vs) (hlen : vs.length = rs.length) :
    rs.map (execAll (rs.map .pop) m).gpr = vs := by
  induction rs generalizing m vs with
  | nil => exact (List.length_eq_zero_iff.mp hlen).symm
  | cons x rs ih =>
    cases vs with
    | nil => simp at hlen
    | cons v vs =>
      simp only [List.mem_cons, not_or] at hrs
      rw [List.nodup_cons] at hnd
      rw [List.map_cons, List.map_cons, execAll_cons]
      have hx : (execAll (rs.map .pop) (exec (.pop x) m)).gpr x = v := by
        rw [pops_gpr_of_notMem _ hnd.1 (Ne.symm hrs.1)]
        simpa [exec] using hw.1
      rw [hx, ih _ hrs.2 hnd.2 ?_ (by simpa using hlen)]
      have hesp : (exec (.pop x) m).gpr .esp = m.gpr .esp + 4#32 := by simp [exec, hrs.1]
      rw [hesp]
      exact hw.2

end Pop

end StackMachine
