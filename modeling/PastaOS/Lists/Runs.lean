import PastaOS.Lib.Run
import PastaOS.Lists.Rules

/-!
# Runs of list calls

`ListRule` says what each function of `list.h` does to the rings it is about: what it takes, and
what it makes of it, in terms of the sequences of nodes alone.  `ListStep` lets it act on a
collection of rings, in which every other ring stays as it is.

The left side of a rule is what the comments of the source demand of the caller.  A *fresh* node,
one that is to be added or to be the head of a new list, must not be on any ring; a node that is a
ring of its own, as `list_del_init` leaves it, is forgotten before it is added again.

`lists_refine` is the result: over any run the fields of the nodes are those of the rings.
-/

set_option autoImplicit false

universe u

namespace PastaOS

open Links

variable {α : Type u}

/-- What a call takes and makes.  The second argument is the fresh node, if there is one. -/
inductive ListRule : ListOp α → Option α → List (List α) → List (List α) → Prop
  | init {n : α} : ListRule (.init n) (some n) [] [[n]]
  | add {n p : α} {ys : List α} : ListRule (.add n p) (some n) [p :: ys] [p :: n :: ys]
  | addTail {n p : α} {ys : List α} : ListRule (.addTail n p) (some n) [p :: ys] [n :: p :: ys]
  | delEntry {n : α} {ys : List α} : ListRule (.delEntry n) none [n :: ys] [ys]
  | delClearprev {n : α} {ys : List α} : ListRule (.delClearprev n) none [n :: ys] [ys]
  | del {n : α} {ys : List α} : ListRule (.del n) none [n :: ys] [ys]
  | delInit {n : α} {ys : List α} : ListRule (.delInit n) none [n :: ys] [[n], ys]
  | delInitCareful {n : α} {ys : List α} : ListRule (.delInitCareful n) none [n :: ys] [[n], ys]
  | replace {a n : α} {ys : List α} : ListRule (.replace a n) (some n) [a :: ys] [n :: ys]
  | replaceInit {a n : α} {ys : List α} :
      ListRule (.replaceInit a n) (some n) [a :: ys] [[a], n :: ys]
  /-- Two nodes of one ring. -/
  | swap {a b : α} {xs ys : List α} :
      ListRule (.swap a b) none [a :: (xs ++ b :: ys)] [b :: (xs ++ a :: ys)]
  /-- Two nodes of two rings, the second one of which is not alone. -/
  | swapApart {a b : α} {xs ys : List α} (hys : ys ≠ []) :
      ListRule (.swap a b) none [a :: xs, b :: ys] [b :: xs, a :: ys]
  /-- Within a ring. -/
  | move {n p : α} {xs ys : List α} :
      ListRule (.move n p) none [n :: (xs ++ p :: ys)] [xs ++ p :: n :: ys]
  /-- To another ring. -/
  | moveApart {n p : α} {xs ys : List α} :
      ListRule (.move n p) none [n :: xs, p :: ys] [xs, p :: n :: ys]
  /-- Within a ring. -/
  | moveTail {n p : α} {xs ys : List α} :
      ListRule (.moveTail n p) none [n :: (xs ++ p :: ys)] [xs ++ n :: p :: ys]
  /-- To another ring. -/
  | moveTailApart {n p : α} {xs ys : List α} :
      ListRule (.moveTail n p) none [n :: xs, p :: ys] [xs, n :: p :: ys]
  | bulkMoveTail {p f z : α} {xs seg ys : List α} (hf : seg.head? = some f)
      (hz : seg.getLast? = some z) :
      ListRule (.bulkMoveTail p f z) none [p :: (xs ++ (seg ++ ys))] [p :: (xs ++ ys ++ seg)]
  | rotateLeft {p : α} {xs : List α} :
      ListRule (.rotateLeft p) none [p :: xs] [p :: xs.rotate 1]
  | rotateToFront {n p : α} {xs ys : List α} :
      ListRule (.rotateToFront n p) none [p :: (xs ++ n :: ys)] [p :: n :: (ys ++ xs)]
  | cutPosition {n p e : α} {xs ys : List α} :
      ListRule (.cutPosition n p e) (some n) [p :: (xs ++ e :: ys)] [n :: (xs ++ [e]), p :: ys]
  /-- The entry is the head. -/
  | cutPositionHead {n p : α} {xs : List α} (hxs : xs ≠ []) :
      ListRule (.cutPosition n p p) (some n) [p :: xs] [[n], p :: xs]
  /-- The list is empty: the new head is not even initialized. -/
  | cutPositionEmpty {n p : α} : ListRule (.cutPosition n p p) none [[p]] [[p]]
  | cutBefore {n p e : α} {xs ys : List α} :
      ListRule (.cutBefore n p e) (some n) [p :: (xs ++ e :: ys)] [n :: xs, p :: e :: ys]
  /-- The entry is the head. -/
  | cutBeforeHead {n p : α} {xs : List α} :
      ListRule (.cutBefore n p p) (some n) [p :: xs] [n :: xs, [p]]
  /-- The head `n` of the spliced list is on no ring any more. -/
  | splice {n p : α} {xs ys : List α} (hxs : xs ≠ []) :
      ListRule (.splice n p) none [n :: xs, p :: ys] [p :: (xs ++ ys)]
  | spliceEmpty {n p : α} : ListRule (.splice n p) none [[n]] [[n]]
  | spliceTail {n p : α} {xs ys : List α} (hxs : xs ≠ []) :
      ListRule (.spliceTail n p) none [n :: xs, p :: ys] [p :: (ys ++ xs)]
  | spliceTailEmpty {n p : α} : ListRule (.spliceTail n p) none [[n]] [[n]]
  | spliceInit {n p : α} {xs ys : List α} :
      ListRule (.spliceInit n p) none [n :: xs, p :: ys] [[n], p :: (xs ++ ys)]
  | spliceTailInit {n p : α} {xs ys : List α} :
      ListRule (.spliceTailInit n p) none [n :: xs, p :: ys] [[n], p :: (ys ++ xs)]
  | forget {xs : List α} : ListRule .forget none [xs] []

/-- The rings through these nodes. -/
def ringsOf (C : List (List α)) : Multiset (Cycle α) := ↑(C.map fun xs ↦ (xs : Cycle α))

/-- A call, in the midst of other rings. -/
def ListStep (C : Multiset (Cycle α)) (op : ListOp α) (D : Multiset (Cycle α)) : Prop :=
  ∃ fresh old new rest, ListRule op fresh old new ∧ C = ringsOf old + rest ∧
    D = ringsOf new + rest ∧
    ∀ n ∈ fresh, n ∉ nodes C

variable [DecidableEq α] {l : Links α} {C D : Multiset (Cycle α)}

/-- A call leaves the fields of the nodes as the rings have them that its rule makes. -/
theorem ListStep.sound {op : ListOp α} (P : Poison α) (h : l.Rings C) (hs : ListStep C op D) :
    (op.run P l).Rings D := by
  obtain ⟨fresh, old, new, rest, hrule, rfl, rfl, hout⟩ := hs
  have hnil (s : Multiset (Cycle α)) : ringsOf ([] : List (List α)) + s = s := zero_add s
  cases hrule with
  | init =>
    rw [hnil] at h hout
    exact initListHead_rings h (hout _ rfl)
  | add => exact listAdd_rings h (hout _ rfl)
  | addTail => exact listAddTail_rings h (hout _ rfl)
  | delEntry => exact listDelEntry_rings h
  | delClearprev => exact listDelClearprev_rings P h
  | del => exact listDel_rings P h
  | delInit => exact listDelInit_rings h
  | delInitCareful =>
    rw [ListOp.run, listDelInitCareful_eq]
    exact listDelInit_rings h
  | replace => exact listReplace_rings h (hout _ rfl)
  | replaceInit => exact listReplaceInit_rings h (hout _ rfl)
  | swap => exact listSwap_rings P h
  | swapApart hys => exact listSwap_rings_apart P hys h
  | move => exact listMove_rings h
  | moveApart => exact listMove_rings_apart h
  | moveTail => exact listMoveTail_rings h
  | moveTailApart => exact listMoveTail_rings_apart h
  | bulkMoveTail hf hz => exact listBulkMoveTail_rings hf hz h
  | rotateLeft => exact listRotateLeft_rings h
  | rotateToFront => exact listRotateToFront_rings h
  | cutPosition => exact listCutPosition_rings h (hout _ rfl)
  | cutPositionHead hxs => exact listCutPosition_rings_head hxs h (hout _ rfl)
  | cutPositionEmpty => rwa [ListOp.run, listCutPosition_empty h]
  | cutBefore => exact listCutBefore_rings h (hout _ rfl)
  | cutBeforeHead => exact listCutBefore_rings_head h (hout _ rfl)
  | splice hxs => exact listSplice_rings hxs h
  | spliceEmpty => rwa [ListOp.run, listSplice_empty h]
  | spliceTail hxs => exact listSpliceTail_rings hxs h
  | spliceTailEmpty => rwa [ListOp.run, listSpliceTail_empty h]
  | spliceInit => exact listSpliceInit_rings h
  | spliceTailInit => exact listSpliceTailInit_rings h
  | forget => exact (hnil rest).symm ▸ h.of_add

/-- What the source reads off a list with the head `h` and the nodes `xs`. -/
structure ListReads (l : Links α) (h : α) (xs : List α) : Prop where
  /-- `list_for_each` visits the nodes in order. -/
  next : (h :: (xs ++ [h])).IsChain fun a b ↦ l.next a = b
  /-- `list_for_each_prev` visits them in the opposite order. -/
  prev : (h :: (xs.reverse ++ [h])).IsChain fun a b ↦ l.prev a = b
  /-- `list_empty` -/
  empty : listEmpty l h = xs.isEmpty
  /-- `list_empty_careful` -/
  emptyCareful : listEmptyCareful l h = xs.isEmpty
  /-- `list_is_singular` -/
  singular : listIsSingular l h = decide (xs.length = 1)
  /-- `list_first_entry_or_null` -/
  first : listFirstOrNull l h = xs.head?
  /-- `list_is_first` -/
  isFirst : ∀ n ∈ xs, listIsFirst l n h = decide (xs.head? = some n)
  /-- `list_is_last` -/
  isLast : ∀ n ∈ xs, listIsLast l n h = decide (xs.getLast? = some n)

theorem listReads_of_isRing {h : α} {xs : List α} (hr : l.IsRing h xs) : ListReads l h xs := by
  obtain ⟨hnd, hc⟩ := isRing_iff.mp hr
  have hempty := listEmpty_eq hc hnd
  refine ⟨hr.next_chain, hr.prev_chain, hempty, ?_, listIsSingular_eq hc hnd, ?_, ?_, ?_⟩
  · have hcareful : listEmptyCareful l h = (listEmpty l h && decide (l.next h = l.prev h)) := rfl
    rw [hcareful, hempty, hr.next_head, hr.prev_head]
    cases xs with
    | nil => simp
    | cons x xs => rfl
  · cases xs with
    | nil => exact listFirstOrNull_nil hr
    | cons x xs => exact listFirstOrNull_cons hr
  · intro n hn
    obtain ⟨as, bs, rfl⟩ := List.append_of_mem hn
    rw [listIsFirst, hr.neighbours.1]
    cases as with
    | nil => simp
    | cons a as =>
      have hlast : (a :: as).getLastD h ≠ h := by
        rw [List.getLastD_cons]
        intro he
        have hm := List.getLastD_mem_cons (l := as) (a := a)
        rw [he] at hm
        exact hr.head_notMem (List.mem_append_left _ hm)
      have han : a ≠ n := by rintro rfl; simp at hnd
      simp only [hlast, List.cons_append, List.head?_cons, Option.some.injEq, han]
  · intro n hn
    obtain ⟨as, bs, rfl⟩ := List.append_of_mem hn
    rw [listIsLast, hr.neighbours.2]
    cases bs with
    | nil => simp
    | cons b bs =>
      have hb : b ≠ h := by rintro rfl; simp at hnd
      have hlast : (as ++ n :: b :: bs).getLast? ≠ some n := by
        rw [List.append_cons, List.getLast?_append_cons]
        intro he
        have hm := List.mem_of_getLast? he
        rw [List.nodup_cons, List.nodup_append'] at hnd
        exact (List.nodup_cons.mp hnd.2.2.1).1 hm
      simp only [List.headD_cons, hb, hlast]

/-- **Runs of list calls refine runs on sequences.**  If the fields of the nodes are those of a
collection of rings, then after any run of calls they are those of the rings the rules lead to; and
every ring of these, seen from any of its nodes, reads as it should. -/
theorem lists_refine {ops : List (ListOp α)} (P : Poison α) (h : l.Rings C)
    (hr : Run ListStep C ops D) : (runOps P l ops).Rings D ∧
      ∀ head xs, ((head :: xs : List α) : Cycle α) ∈ D → ListReads (runOps P l ops) head xs := by
  have hD : (runOps P l ops).Rings D := by
    induction hr generalizing l with
    | nil => exact h
    | cons hs _ ih => exact ih (hs.sound P h)
  exact ⟨hD, fun head xs hm ↦ listReads_of_isRing (hD.isRing hm)⟩

/-- The theorem for a list of two nodes that is built, turned by one, and emptied into another. -/
theorem lists_refine_four :
    let P : Poison (Fin 4) := ⟨0, 0, 0⟩
    let l : Links (Fin 4) := ⟨fun _ ↦ 0, fun _ ↦ 0⟩
    ListReads (runOps P l
      [.init 0, .addTail 1 0, .addTail 2 0, .rotateLeft 0, .init 3, .spliceInit 0 3]) 3 [2, 1] := by
  intro P l
  have hl : l.Rings 0 := ⟨Multiset.nodup_zero, fun c hc ↦ absurd hc (Multiset.notMem_zero c)⟩
  have hr : Run ListStep (0 : Multiset (Cycle (Fin 4)))
      [.init 0, .addTail 1 0, .addTail 2 0, .rotateLeft 0, .init 3, .spliceInit 0 3]
      (ringsOf [[0], [3, 2, 1]]) :=
    .cons (t := ringsOf [[0]]) ⟨_, _, _, 0, .init, by decide, by decide, by decide⟩ <|
    .cons (t := ringsOf [[1, 0]])
      ⟨_, _, _, 0, @ListRule.addTail _ 1 0 [], by decide, by decide, by decide⟩ <|
    .cons (t := ringsOf [[2, 0, 1]])
      ⟨_, _, _, 0, @ListRule.addTail _ 2 0 [1], by decide, by decide, by decide⟩ <|
    .cons (t := ringsOf [[0, 2, 1]])
      ⟨_, _, _, 0, @ListRule.rotateLeft _ 0 [1, 2], by decide, by decide, by decide⟩ <|
    .cons (t := ringsOf [[3], [0, 2, 1]])
      ⟨_, _, _, ringsOf [[0, 2, 1]], .init, by decide, by decide, by decide⟩ <|
    .cons ⟨_, _, _, 0, @ListRule.spliceInit _ 0 3 [2, 1] [], by decide, by decide, by decide⟩ <|
    .nil _
  exact (lists_refine P hl hr).2 3 [2, 1] (by decide)

end PastaOS
