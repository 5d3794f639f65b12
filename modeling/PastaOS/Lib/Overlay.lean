import Mathlib.Data.BitVec
import Mathlib.Logic.Function.Basic

/-!
# Lists in memory

`overlay mem base xs` is the memory `mem` with the elements of `xs` in the cells from `base` on, the
address arithmetic being that of the machine: modulo `2 ^ w`.  `cells mem base n` reads `n` cells
back.
-/

set_option autoImplicit false

namespace PastaOS

variable {w : ℕ} {α : Type*} {mem mem' : BitVec w → α} {base a : BitVec w} {xs : List α}

/-- The memory `mem` with `xs` from `base` on. -/
def overlay (mem : BitVec w → α) (base : BitVec w) (xs : List α) (a : BitVec w) : α :=
  xs[(a - base).toNat]?.getD (mem a)

@[simp] theorem overlay_nil (mem : BitVec w → α) (base : BitVec w) : overlay mem base [] = mem :=
  rfl

/-- A cell that is covered holds its letter. -/
theorem overlay_getElem (h : xs.length ≤ 2 ^ w) {i : ℕ} (hi : i < xs.length) :
    overlay mem base xs (base + BitVec.ofNat w i) = xs[i] := by
  have hsub : (base + BitVec.ofNat w i - base).toNat = i := by
    rw [BitVec.add_comm, BitVec.add_sub_cancel, BitVec.toNat_ofNat,
      Nat.mod_eq_of_lt (hi.trans_le h)]
  rw [overlay, hsub, List.getElem?_eq_getElem hi, Option.getD_some]

/-- A cell that is not covered holds what it has held. -/
theorem overlay_off (ha : xs.length ≤ (a - base).toNat) : overlay mem base xs a = mem a := by
  rw [overlay, List.getElem?_eq_none ha, Option.getD_none]

/-- The cells that are not do not depend on memory. -/
theorem overlay_on (ha : (a - base).toNat < xs.length) :
    overlay mem base xs a = overlay mem' base xs a := by
  rw [overlay, overlay, List.getElem?_eq_getElem ha, Option.getD_some, Option.getD_some]

/-- One more element is one more store. -/
theorem overlay_concat (h : xs.length < 2 ^ w) (c : α) : overlay mem base (xs ++ [c])
    = Function.update (overlay mem base xs) (base + BitVec.ofNat w xs.length) c := by
  funext a
  have hiff : a = base + BitVec.ofNat w xs.length ↔ (a - base).toNat = xs.length := by
    constructor
    · rintro rfl
      rw [BitVec.add_comm, BitVec.add_sub_cancel, BitVec.toNat_ofNat, Nat.mod_eq_of_lt h]
    · intro ha
      rw [← ha, BitVec.ofNat_toNat, BitVec.setWidth_eq, BitVec.add_comm, BitVec.sub_add_cancel]
  by_cases ha : a = base + BitVec.ofNat w xs.length
  · rw [overlay, hiff.mp ha, ha, Function.update_self, List.getElem?_concat_length,
      Option.getD_some]
  · rw [Function.update_of_ne ha, overlay, overlay]
    have hne : (a - base).toNat ≠ xs.length := fun he ↦ ha (hiff.mpr he)
    rcases lt_or_ge (a - base).toNat xs.length with hlt | hge
    · rw [List.getElem?_append_left hlt]
    · rw [List.getElem?_eq_none hge, List.getElem?_eq_none]
      rw [List.length_append, List.length_singleton]
      omega

/-- The `n` cells from `base` on. -/
def cells (mem : BitVec w → α) (base : BitVec w) (n : ℕ) : List α :=
  (List.range n).map fun i ↦ mem (base + BitVec.ofNat w i)

/-- What has been written can be read back. -/
theorem cells_overlay (h : xs.length ≤ 2 ^ w) :
    cells (overlay mem base xs) base xs.length = xs := by
  refine List.ext_getElem (by simp [cells]) ?_
  intro i hi hi'
  simp only [cells, List.getElem_map, List.getElem_range]
  exact overlay_getElem h hi'

end PastaOS
