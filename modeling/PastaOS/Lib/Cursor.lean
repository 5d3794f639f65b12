import Mathlib.Data.List.Basic

/-!
# Pointers into an array

A cursor is an array and a position in it: what a pointer is in C.  `load` and `store` fail outside
of the array, `next`, `prev` and `add` move the position.

`p.PointsTo w` says that the cells from the position of `p` on begin with the word `w`.  The array
may end behind `w`: what a function does on every cursor that points to `w`, it does without reading
anything behind `w`.
-/

set_option autoImplicit false

universe u

/-- A pointer into an array. -/
structure Cursor (α : Type u) where
  /-- The array. -/
  cells : List α
  /-- The index of the cell that is pointed to. -/
  pos : ℕ
  deriving DecidableEq

namespace Cursor

variable {α : Type u} {p : Cursor α} {c d : α} {u v w : List α}

/-- `*p` -/
def load (p : Cursor α) : Option α := p.cells[p.pos]?

/-- `*p = c` -/
def store (p : Cursor α) (c : α) : Option (Cursor α) :=
  if p.pos < p.cells.length then some { p with cells := p.cells.set p.pos c } else none

/-- `p + n` -/
def add (p : Cursor α) (n : ℕ) : Cursor α := { p with pos := p.pos + n }

/-- `p + 1` -/
def next (p : Cursor α) : Cursor α := { p with pos := p.pos + 1 }

/-- `p - 1` -/
def prev (p : Cursor α) : Cursor α := { p with pos := p.pos - 1 }

/-- The cells from the position on. -/
def rest (p : Cursor α) : List α := p.cells.drop p.pos

/-- The number of these cells. -/
def room (p : Cursor α) : ℕ := p.cells.length - p.pos

/-- The cells from the position on begin with `w`. -/
def PointsTo (p : Cursor α) (w : List α) : Prop := w <+: p.rest

@[simp] theorem add_zero (p : Cursor α) : p.add 0 = p := rfl

@[simp] theorem next_prev (p : Cursor α) : p.next.prev = p := rfl

@[simp] theorem next_add (p : Cursor α) (n : ℕ) : p.next.add n = p.add (n + 1) := by
  rw [next, add, add, Nat.add_assoc, Nat.add_comm 1 n]

theorem load_eq_head? (p : Cursor α) : p.load = p.rest.head? := List.head?_drop.symm

theorem rest_add (p : Cursor α) (n : ℕ) : (p.add n).rest = p.rest.drop n := by
  rw [rest, rest, add, List.drop_drop]

/-- A loop that goes on only behind a cell it has read comes to an end. -/
theorem room_next (h : p.load = some c) : p.next.room < p.room := by
  obtain ⟨hlt, -⟩ := List.getElem?_eq_some_iff.mp h
  simp only [room, next]
  omega

/-! ## Pointing to a word -/

namespace PointsTo

theorem mono (h : p.PointsTo w) (hv : v <+: w) : p.PointsTo v := hv.trans h

theorem load (h : p.PointsTo (c :: w)) : p.load = some c := by
  obtain ⟨v, hv⟩ := h
  rw [load_eq_head?, ← hv]
  rfl

theorem add (h : p.PointsTo (u ++ w)) : (p.add u.length).PointsTo w := by
  obtain ⟨v, hv⟩ := h
  refine ⟨v, ?_⟩
  rw [rest_add, ← hv, List.append_assoc, List.drop_left]

theorem next (h : p.PointsTo (c :: w)) : p.next.PointsTo w := add (u := [c]) h

end PointsTo

/-- The pointer to the word between `u` and `v`. -/
theorem pointsTo_mk (u w v : List α) : PointsTo ⟨u ++ (w ++ v), u.length⟩ w := by
  rw [PointsTo, rest, List.drop_left]
  exact List.prefix_append w v

/-- A cell is written. -/
theorem store_mk (u v : List α) (c d : α) :
    store ⟨u ++ c :: v, u.length⟩ d = some ⟨u ++ d :: v, u.length⟩ := by
  have hlt : u.length < (u ++ c :: v).length := by
    rw [List.length_append, List.length_cons]
    omega
  rw [store, if_pos hlt]
  simp

end Cursor
