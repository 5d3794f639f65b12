import PastaOS.Lib.Ring

/-!
# The kernel's circular lists (`include/list.h`)

The inline functions of `list.h` that the kernel uses, as the sequences of field writes the source
makes, and what each of them does to a ring.  The type `α` of nodes stands for the addresses of
`struct list_head` objects; the store of their two fields is a `Links α`.

The specification lemmas (`listAdd_isRing`, `listAddTail_isRing`, `listDelInit_isRing`) are the
library's `IsRing.splice` and `IsRing.unlink` at the neighbours the source reads off the head.
-/

set_option autoImplicit false

namespace PastaOS

universe u

variable {α : Type u} [DecidableEq α]

/-! ## The functions -/

/-- `INIT_LIST_HEAD` -/
def initListHead (l : Links α) (list : α) : Links α :=
  let l := l.setNext list list
  l.setPrev list list

/-- `__list_add` -/
def listAddAux (l : Links α) (new prev next : α) : Links α :=
  let l := l.setPrev next new
  let l := l.setNext new next
  let l := l.setPrev new prev
  l.setNext prev new

/-- `list_add` -/
def listAdd (l : Links α) (new head : α) : Links α := listAddAux l new head (l.next head)

/-- `list_add_tail` -/
def listAddTail (l : Links α) (new head : α) : Links α := listAddAux l new (l.prev head) head

/-- `__list_del` -/
def listDelAux (l : Links α) (prev next : α) : Links α :=
  let l := l.setPrev next prev
  l.setNext prev next

/-- `__list_del_entry` -/
def listDelEntry (l : Links α) (entry : α) : Links α :=
  listDelAux l (l.prev entry) (l.next entry)

/-- `list_del_init` -/
def listDelInit (l : Links α) (entry : α) : Links α :=
  initListHead (listDelEntry l entry) entry

/-- `list_first_entry_or_null`, before `list_entry` turns the node into its container. -/
def listFirstOrNull (l : Links α) (head : α) : Option α :=
  let pos := l.next head
  if pos ≠ head then some pos else none

/-! ## What they do to a ring -/

variable {l : Links α} {h n : α} {xs ys : List α}

omit [DecidableEq α] in
/-- A statically initialised head (`LIST_HEAD`) is an empty ring. -/
theorem isRing_nil (hnext : l.next h = h) (hprev : l.prev h = h) : l.IsRing h [] :=
  ⟨by simp, by simpa [Links.Adjacent] using ⟨hnext, hprev⟩⟩

/-- `list_add` puts the new node first. -/
theorem listAdd_isRing (hr : l.IsRing h xs) (hn : n ∉ h :: xs) :
    (listAdd l n h).IsRing h (n :: xs) := by
  have hs := @Links.IsRing.splice _ _ _ _ n [] xs hr hn
  rw [List.getLastD_nil, ← hr.next_head] at hs
  exact hs

/-- `list_add_tail` puts the new node last. -/
theorem listAddTail_isRing (hr : l.IsRing h xs) (hn : n ∉ h :: xs) :
    (listAddTail l n h).IsRing h (xs ++ [n]) := by
  have hs := @Links.IsRing.splice _ _ _ _ n xs [] (by simpa using hr) (by simpa using hn)
  rw [List.headD_nil, ← hr.prev_head] at hs
  exact hs

/-- `list_del_init` takes the node out, and the writes to its own fields come too late to matter. -/
theorem listDelInit_isRing (hr : l.IsRing h (xs ++ n :: ys)) :
    (listDelInit l n).IsRing h (xs ++ ys) := by
  have hn : n ∉ h :: (xs ++ ys) := by
    have hnd := hr.nodup
    rw [← List.cons_append, List.perm_middle.nodup_iff] at hnd
    exact (List.nodup_cons.mp hnd).1
  have hne : ∀ a ∈ h :: (xs ++ ys), a ≠ n := by rintro a ha rfl; exact hn ha
  refine hr.unlink.congr ?_ ?_
  · intro a ha
    simp [listDelInit, initListHead, listDelEntry, listDelAux, Links.unlink, hne a ha]
  · intro a ha
    simp [listDelInit, initListHead, listDelEntry, listDelAux, Links.unlink, hne a ha]

theorem listFirstOrNull_nil (hr : l.IsRing h []) : listFirstOrNull l h = none := by
  simp [listFirstOrNull, hr.next_nil]

theorem listFirstOrNull_cons {x : α} (hr : l.IsRing h (x :: xs)) :
    listFirstOrNull l h = some x := by
  have hx : x ≠ h := by
    rintro rfl; exact hr.head_notMem List.mem_cons_self
  simp [listFirstOrNull, hr.next_cons, hx]

end PastaOS
