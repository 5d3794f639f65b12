import PastaOS.ListHead

/-!
# The rest of `include/list.h`

The functions on circular lists that the scheduler does not use, as the sequences of field writes
the source makes.  A field is read when the source reads it: several of the functions read fields
they have just written.

`ListOp` names the calls, so that runs of them can be spoken about.  The functions that only look
at a list (`listEmpty` and its like) are not among them.
-/

set_option autoImplicit false

namespace PastaOS

universe u

variable {α : Type u} [DecidableEq α]

/-- The addresses that are written to a field although there is no node at them. -/
structure Poison (α : Type u) where
  /-- `LIST_POISON1` -/
  poison1 : α
  /-- `LIST_POISON2` -/
  poison2 : α
  /-- `NULL` -/
  null : α

/-! ## Deleting -/

/-- `__list_del_clearprev` -/
def listDelClearprev (P : Poison α) (l : Links α) (entry : α) : Links α :=
  let l := listDelEntry l entry
  l.setPrev entry P.null

/-- `list_del` -/
def listDel (P : Poison α) (l : Links α) (entry : α) : Links α :=
  let l := listDelEntry l entry
  let l := l.setNext entry P.poison1
  l.setPrev entry P.poison2

/-- `list_del_init_careful` -/
def listDelInitCareful (l : Links α) (entry : α) : Links α :=
  let l := listDelEntry l entry
  let l := l.setPrev entry entry
  l.setNext entry entry

/-! ## Replacing -/

/-- `list_replace` -/
def listReplace (l : Links α) (old new : α) : Links α :=
  let l := l.setNext new (l.next old)
  let l := l.setPrev (l.next new) new
  let l := l.setPrev new (l.prev old)
  l.setNext (l.prev new) new

/-- `list_replace_init` -/
def listReplaceInit (l : Links α) (old new : α) : Links α :=
  initListHead (listReplace l old new) old

/-- `list_swap` -/
def listSwap (P : Poison α) (l : Links α) (entry1 entry2 : α) : Links α :=
  let pos := l.prev entry2
  let l := listDel P l entry2
  let l := listReplace l entry1 entry2
  let pos := if pos = entry1 then entry2 else pos
  listAdd l entry1 pos

/-! ## Moving -/

/-- `list_move` -/
def listMove (l : Links α) (list head : α) : Links α := listAdd (listDelEntry l list) list head

/-- `list_move_tail` -/
def listMoveTail (l : Links α) (list head : α) : Links α :=
  listAddTail (listDelEntry l list) list head

/-- `list_bulk_move_tail` -/
def listBulkMoveTail (l : Links α) (head first last : α) : Links α :=
  let l := l.setNext (l.prev first) (l.next last)
  let l := l.setPrev (l.next last) (l.prev first)
  let l := l.setNext (l.prev head) first
  let l := l.setPrev first (l.prev head)
  let l := l.setNext last head
  l.setPrev head last

/-! ## Looking -/

/-- `list_is_first` -/
def listIsFirst (l : Links α) (list head : α) : Bool := l.prev list = head

/-- `list_is_last` -/
def listIsLast (l : Links α) (list head : α) : Bool := l.next list = head

/-- `list_empty` -/
def listEmpty (l : Links α) (head : α) : Bool := l.next head = head

/-- `list_empty_careful` -/
def listEmptyCareful (l : Links α) (head : α) : Bool :=
  let next := l.next head
  next = head && next = l.prev head

/-- `list_is_singular` -/
def listIsSingular (l : Links α) (head : α) : Bool :=
  !listEmpty l head && l.next head = l.prev head

/-! ## Rotating -/

/-- `list_rotate_left` -/
def listRotateLeft (l : Links α) (head : α) : Links α :=
  if !listEmpty l head then
    let first := l.next head
    listMoveTail l first head
  else l

/-- `list_rotate_to_front` -/
def listRotateToFront (l : Links α) (list head : α) : Links α := listMoveTail l head list

/-! ## Cutting -/

/-- `__list_cut_position` -/
def listCutPositionAux (l : Links α) (list head entry : α) : Links α :=
  let newFirst := l.next entry
  let l := l.setNext list (l.next head)
  let l := l.setPrev (l.next list) list
  let l := l.setPrev list entry
  let l := l.setNext entry list
  let l := l.setNext head newFirst
  l.setPrev newFirst head

/-- `list_cut_position` -/
def listCutPosition (l : Links α) (list head entry : α) : Links α :=
  if listEmpty l head then l
  else if listIsSingular l head ∧ l.next head ≠ entry ∧ head ≠ entry then l
  else if entry = head then initListHead l list
  else listCutPositionAux l list head entry

/-- `list_cut_before` -/
def listCutBefore (l : Links α) (list head entry : α) : Links α :=
  if l.next head = entry then initListHead l list
  else
    let l := l.setNext list (l.next head)
    let l := l.setPrev (l.next list) list
    let l := l.setPrev list (l.prev entry)
    let l := l.setNext (l.prev list) list
    let l := l.setNext head entry
    l.setPrev entry head

/-! ## Splicing -/

/-- `__list_splice` -/
def listSpliceAux (l : Links α) (list prev next : α) : Links α :=
  let first := l.next list
  let last := l.prev list
  let l := l.setPrev first prev
  let l := l.setNext prev first
  let l := l.setNext last next
  l.setPrev next last

/-- `list_splice` -/
def listSplice (l : Links α) (list head : α) : Links α :=
  if !listEmpty l list then listSpliceAux l list head (l.next head) else l

/-- `list_splice_tail` -/
def listSpliceTail (l : Links α) (list head : α) : Links α :=
  if !listEmpty l list then listSpliceAux l list (l.prev head) head else l

/-- `list_splice_init` -/
def listSpliceInit (l : Links α) (list head : α) : Links α :=
  if !listEmpty l list then
    let l := listSpliceAux l list head (l.next head)
    initListHead l list
  else l

/-- `list_splice_tail_init` -/
def listSpliceTailInit (l : Links α) (list head : α) : Links α :=
  if !listEmpty l list then
    let l := listSpliceAux l list (l.prev head) head
    initListHead l list
  else l

/-! ## The calls -/

/-- A call of a function of `list.h`. -/
inductive ListOp (α : Type u)
  /-- `INIT_LIST_HEAD` -/
  | init (list : α)
  /-- `list_add` -/
  | add (new head : α)
  /-- `list_add_tail` -/
  | addTail (new head : α)
  /-- `__list_del_entry` -/
  | delEntry (entry : α)
  /-- `__list_del_clearprev` -/
  | delClearprev (entry : α)
  /-- `list_del` -/
  | del (entry : α)
  /-- `list_del_init` -/
  | delInit (entry : α)
  /-- `list_del_init_careful` -/
  | delInitCareful (entry : α)
  /-- `list_replace` -/
  | replace (old new : α)
  /-- `list_replace_init` -/
  | replaceInit (old new : α)
  /-- `list_swap` -/
  | swap (entry1 entry2 : α)
  /-- `list_move` -/
  | move (list head : α)
  /-- `list_move_tail` -/
  | moveTail (list head : α)
  /-- `list_bulk_move_tail` -/
  | bulkMoveTail (head first last : α)
  /-- `list_rotate_left` -/
  | rotateLeft (head : α)
  /-- `list_rotate_to_front` -/
  | rotateToFront (list head : α)
  /-- `list_cut_position` -/
  | cutPosition (list head entry : α)
  /-- `list_cut_before` -/
  | cutBefore (list head entry : α)
  /-- `list_splice` -/
  | splice (list head : α)
  /-- `list_splice_tail` -/
  | spliceTail (list head : α)
  /-- `list_splice_init` -/
  | spliceInit (list head : α)
  /-- `list_splice_tail_init` -/
  | spliceTailInit (list head : α)
  /-- No call: a list that its owner will not use any more is forgotten. -/
  | forget

/-- The code a call runs. -/
def ListOp.run (P : Poison α) (l : Links α) : ListOp α → Links α
  | .init list => initListHead l list
  | .add new head => listAdd l new head
  | .addTail new head => listAddTail l new head
  | .delEntry entry => listDelEntry l entry
  | .delClearprev entry => listDelClearprev P l entry
  | .del entry => listDel P l entry
  | .delInit entry => listDelInit l entry
  | .delInitCareful entry => listDelInitCareful l entry
  | .replace old new => listReplace l old new
  | .replaceInit old new => listReplaceInit l old new
  | .swap entry1 entry2 => listSwap P l entry1 entry2
  | .move list head => listMove l list head
  | .moveTail list head => listMoveTail l list head
  | .bulkMoveTail head first last => listBulkMoveTail l head first last
  | .rotateLeft head => listRotateLeft l head
  | .rotateToFront list head => listRotateToFront l list head
  | .cutPosition list head entry => listCutPosition l list head entry
  | .cutBefore list head entry => listCutBefore l list head entry
  | .splice list head => listSplice l list head
  | .spliceTail list head => listSpliceTail l list head
  | .spliceInit list head => listSpliceInit l list head
  | .spliceTailInit list head => listSpliceTailInit l list head
  | .forget => l

/-- The code a sequence of calls runs. -/
def runOps (P : Poison α) (l : Links α) (ops : List (ListOp α)) : Links α :=
  ops.foldl (fun l op ↦ op.run P l) l

end PastaOS
