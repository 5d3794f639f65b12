import PastaOS.Lists.Rules

/-!
# Iterating over a list that changes

`list_for_each_safe` and `list_for_each_prev_safe` remember the node behind the visited one before
they run the statement, so that the statement may take the visited node off the list.  The statement
is an arbitrary function of a state `σ` of its own and the store of the links.

What it must keep is that the list ends with the nodes that are still to come (`EndsWith`, and
`BeginsWith` for the other direction).  The visited node may be deleted, or moved to the front of
the list or to another list (`endsWith_del`, `endsWith_moveFront`, `listForEachSafe_partition`); the
nodes that have been visited before, and every other list, are the statement's own business.  Then
the loop visits the nodes the list had in the beginning, in order, and stops.

It must not put the visited node behind those that are still to come, where the loop would come to
it again.  A statement that moves every visited node to the end of the list keeps the loop going for
ever, if there are two nodes or more: `listForEachSafe_endless`.
-/

set_option autoImplicit false

universe u v

namespace PastaOS

open Links

variable {α : Type u} [DecidableEq α] {σ : Type v}

/-- `for (; pos != (head); pos = n, n = pos->dir)`, where `dir` is `next` or `prev`.  The loop has
run out of fuel when there is no result. -/
def forEachSafeLoop (dir : Links α → α → α) (head : α) (body : α → σ × Links α → σ × Links α) :
    ℕ → α → α → σ × Links α → Option (σ × Links α)
  | 0, _, _, _ => none
  | fuel + 1, pos, n, s =>
    if pos = head then some s
    else
      let s := body pos s
      forEachSafeLoop dir head body fuel n (dir s.2 n) s

/-- The loop with its initialization, for either direction. -/
def forEachSafe (dir : Links α → α → α) (head : α) (body : α → σ × Links α → σ × Links α)
    (fuel : ℕ) (s : σ × Links α) : Option (σ × Links α) :=
  let pos := dir s.2 head
  let n := dir s.2 pos
  forEachSafeLoop dir head body fuel pos n s

/-- `list_for_each_safe` -/
def listForEachSafe (head : α) (body : α → σ × Links α → σ × Links α) (fuel : ℕ)
    (s : σ × Links α) : Option (σ × Links α) :=
  forEachSafe Links.next head body fuel s

/-- `list_for_each_prev_safe` -/
def listForEachPrevSafe (head : α) (body : α → σ × Links α → σ × Links α) (fuel : ℕ)
    (s : σ × Links α) : Option (σ × Links α) :=
  forEachSafe Links.prev head body fuel s

/-! ## The loop -/

variable {dir : Links α → α → α} {head : α} {body : α → σ × Links α → σ × Links α}
  {s : σ × Links α} {l : Links α} {x : α} {xs ys zs : List α} {C : Multiset (Cycle α)}

omit [DecidableEq α] in
/-- From `x` on, following `dir` leads through `zs` to the head. -/
structure Todo (dir : Links α → α → α) (l : Links α) (head : α) (zs : List α) : Prop where
  /-- The fields. -/
  chain : (zs ++ [head]).IsChain fun a b ↦ dir l a = b
  /-- It is not there before. -/
  head : head ∉ zs

/-- If the statement keeps an invariant of what is still to come, the loop visits it. -/
theorem forEachSafeLoop_eq {I : List α → σ × Links α → Prop}
    (htodo : ∀ zs s, I zs s → Todo dir s.2 head zs)
    (hbody : ∀ x zs s, I (x :: zs) s → I zs (body x s)) (h : I zs s) :
    forEachSafeLoop dir head body (zs.length + 1) (zs.headD head) (dir s.2 (zs.headD head)) s
        = some (zs.foldl (fun s x ↦ body x s) s) ∧
      I [] (zs.foldl (fun s x ↦ body x s) s) := by
  induction zs generalizing s with
  | nil =>
    rw [List.length_nil, forEachSafeLoop]
    exact ⟨if_pos rfl, h⟩
  | cons x zs ih =>
    obtain ⟨hc, hmem⟩ := htodo _ s h
    have hx : x ≠ head := by rintro rfl; exact hmem List.mem_cons_self
    have hnext : dir s.2 x = zs.headD head := by
      cases zs with
      | nil => exact (List.isChain_cons_cons.mp hc).1
      | cons z zs => exact (List.isChain_cons_cons.mp hc).1
    rw [List.length_cons, forEachSafeLoop, List.headD_cons, if_neg hx, hnext]
    exact ih (hbody x zs s h)

/-! ## Along `next` -/

omit [DecidableEq α]

/-- The list ends with the nodes `zs`. -/
def EndsWith (l : Links α) (head : α) (zs : List α) : Prop :=
  ∃ ys C, l.Rings ({((head :: (ys ++ zs) : List α) : Cycle α)} + C)

theorem EndsWith.todo (h : EndsWith l head zs) : Todo Links.next l head zs := by
  obtain ⟨ys, C, h⟩ := h
  have hr : l.IsRing head (ys ++ zs) := h.isRing (by simp)
  have hc := hr.next_chain
  rw [List.append_assoc, ← List.cons_append] at hc
  exact ⟨(List.isChain_append.mp hc).2.1, fun hm ↦ hr.head_notMem (List.mem_append_right ys hm)⟩

/-- The list begins with the nodes `zs`. -/
def BeginsWith (l : Links α) (head : α) (zs : List α) : Prop :=
  ∃ ys C, l.Rings ({((head :: (zs ++ ys) : List α) : Cycle α)} + C)

theorem BeginsWith.todo (h : BeginsWith l head zs.reverse) : Todo Links.prev l head zs := by
  obtain ⟨ys, C, h⟩ := h
  have hr : l.IsRing head (zs.reverse ++ ys) := h.isRing (by simp)
  have hc := hr.prev_chain
  rw [List.reverse_append, List.reverse_reverse, List.append_assoc, ← List.cons_append] at hc
  refine ⟨(List.isChain_append.mp hc).2.1, fun hm ↦ hr.head_notMem ?_⟩
  exact List.mem_append_left ys (List.mem_reverse.mpr hm)

/-- The ring of a list, seen from the visited node. -/
theorem coe_visited (head x : α) (ys zs : List α) : ((head :: (ys ++ x :: zs) : List α) : Cycle α)
    = ((x :: (zs ++ head :: ys) : List α) : Cycle α) := coe_append_cons (head :: ys) zs x

/-- The ring of a list, seen from the nodes that are still to come. -/
theorem coe_left (head : α) (ys zs : List α) : ((head :: (ys ++ zs) : List α) : Cycle α)
    = ((zs ++ head :: ys : List α) : Cycle α) := coe_append_comm (head :: ys) zs

variable [DecidableEq α]

/-- **`list_for_each_safe` visits the nodes the list has in the beginning**, in order, and stops, if
the statement keeps an invariant `I` by which the list ends with the nodes that are still to
come. -/
theorem listForEachSafe_visits {I : List α → σ × Links α → Prop}
    (hI : ∀ zs s, I zs s → EndsWith s.2 head zs) (hbody : ∀ x zs s, I (x :: zs) s → I zs (body x s))
    (h : s.2.Rings ({((head :: xs : List α) : Cycle α)} + C)) (hs : I xs s) :
    listForEachSafe head body (xs.length + 1) s = some (xs.foldl (fun s x ↦ body x s) s) ∧
      I [] (xs.foldl (fun s x ↦ body x s) s) := by
  have hr : s.2.IsRing head xs := h.isRing (by simp)
  rw [listForEachSafe, forEachSafe, hr.next_head]
  exact forEachSafeLoop_eq (fun zs s h ↦ (hI zs s h).todo) hbody hs

/-- `list_for_each_prev_safe` visits them in the opposite order, if the list begins with those that
are still to come. -/
theorem listForEachPrevSafe_visits {I : List α → σ × Links α → Prop}
    (hI : ∀ zs s, I zs s → BeginsWith s.2 head zs)
    (hbody : ∀ x zs s, I (zs ++ [x]) s → I zs (body x s))
    (h : s.2.Rings ({((head :: xs : List α) : Cycle α)} + C)) (hs : I xs s) :
    listForEachPrevSafe head body (xs.length + 1) s
        = some (xs.foldr (fun x s ↦ body x s) s) ∧ I [] (xs.foldr (fun x s ↦ body x s) s) := by
  have hr : s.2.IsRing head xs := h.isRing (by simp)
  have hlast : xs.getLastD head = xs.reverse.headD head := by
    rcases List.eq_nil_or_concat xs with rfl | ⟨ys, y, rfl⟩
    · rfl
    · simp
  rw [listForEachPrevSafe, forEachSafe, hr.prev_head, hlast, ← List.length_reverse,
    ← List.foldl_reverse]
  refine forEachSafeLoop_eq (I := fun zs s ↦ I zs.reverse s)
    (fun zs s h ↦ (hI _ _ h).todo) ?_ (by rwa [List.reverse_reverse])
  intro x zs s hs
  rw [List.reverse_cons] at hs
  exact hbody x _ s hs

/-! ## Statements that take the visited node away -/

/-- `list_del` -/
theorem endsWith_del (P : Poison α) (h : EndsWith l head (x :: zs)) :
    EndsWith (listDel P l x) head zs := by
  obtain ⟨ys, C, h⟩ := h
  rw [coe_visited] at h
  refine ⟨ys, C, ?_⟩
  rw [coe_left]
  exact listDel_rings P h

/-- `list_move`, to the front of the list. -/
theorem endsWith_moveFront (h : EndsWith l head (x :: zs)) :
    EndsWith (listMove l x head) head zs := by
  obtain ⟨ys, C, h⟩ := h
  rw [coe_visited] at h
  refine ⟨x :: ys, C, ?_⟩
  rw [coe_left]
  exact listMove_rings h

/-- **Partition.**  A statement that moves the visited node to the end of another list, the one with
the head `p`, if the node satisfies `c`, splits the list: both parts keep their order. -/
theorem listForEachSafe_partition {p : α} {ws : List α} (c : α → Bool) (t : σ)
    (h : l.Rings ({((head :: xs : List α) : Cycle α), ((p :: ws : List α) : Cycle α)} + C)) :
    ∃ l', listForEachSafe head (fun x s ↦ (s.1, if c x then listMoveTail s.2 x p else s.2))
        (xs.length + 1) (t, l) = some (t, l') ∧
      l'.Rings ({((head :: xs.filter (!c ·) : List α) : Cycle α),
        ((p :: (ws ++ xs.filter c) : List α) : Cycle α)} + C) := by
  let I (zs : List α) (s : σ × Links α) : Prop := s.1 = t ∧ ∃ ys, xs = ys ++ zs ∧
    s.2.Rings ({((head :: (ys.filter (!c ·) ++ zs) : List α) : Cycle α),
      ((p :: (ws ++ ys.filter c) : List α) : Cycle α)} + C)
  have hI (zs : List α) (s : σ × Links α) (hs : I zs s) : EndsWith s.2 head zs := by
    obtain ⟨-, ys, -, hrings⟩ := hs
    rw [← singleton_add_singleton_add] at hrings
    exact ⟨_, _, hrings⟩
  have hbody (x : α) (zs : List α) (s : σ × Links α) (hs : I (x :: zs) s) :
      I zs (s.1, if c x then listMoveTail s.2 x p else s.2) := by
    obtain ⟨ht, ys, hxs, hrings⟩ := hs
    refine ⟨ht, ys ++ [x], by rw [hxs, List.append_cons], ?_⟩
    rw [List.filter_append, List.filter_append]
    by_cases hc : c x = true
    · have hout : [x].filter (!c ·) = [] := by simp [hc]
      have hin : [x].filter c = [x] := by simp [hc]
      have hend : ((p :: (ws ++ (ys.filter c ++ [x])) : List α) : Cycle α)
          = ((x :: p :: (ws ++ ys.filter c) : List α) : Cycle α) := by
        rw [← List.append_assoc]
        exact coe_append_comm (p :: (ws ++ ys.filter c)) [x]
      rw [coe_visited] at hrings
      rw [if_pos hc, hout, hin, List.append_nil, coe_left, hend]
      exact listMoveTail_rings_apart hrings
    · have hout : [x].filter (!c ·) = [x] := by simp [hc]
      have hin : [x].filter c = [] := by simp [hc]
      rw [if_neg hc, hout, hin, List.append_nil, ← List.append_cons]
      exact hrings
  have hstart : I xs (t, l) := ⟨rfl, [], rfl, by simpa using h⟩
  have h' := h
  rw [← singleton_add_singleton_add] at h'
  obtain ⟨hloop, ht, ys, hxs, hrings⟩ := listForEachSafe_visits hI hbody h' hstart
  obtain rfl : xs = ys := by rw [hxs, List.append_nil]
  rw [List.append_nil] at hrings
  refine ⟨_, hloop.trans (congrArg some (Prod.ext ht rfl)), hrings⟩

/-! ## A statement that does not -/

/-- **A node that is moved to the end of the list comes again**: with two nodes or more, the loop
runs out of any fuel. -/
theorem listForEachSafe_endless (t : σ) (h : l.Rings ({((head :: xs : List α) : Cycle α)} + C))
    (hxs : 2 ≤ xs.length) (fuel : ℕ) :
    listForEachSafe head (fun x s ↦ (s.1, listMoveTail s.2 x head)) fuel (t, l) = none := by
  obtain ⟨x, y, zs, rfl⟩ : ∃ x y zs, xs = x :: y :: zs := by
    match xs, hxs with
    | x :: y :: zs, _ => exact ⟨x, y, zs, rfl⟩
  have hr : l.IsRing head ([] ++ x :: y :: zs) := h.isRing (by simp)
  have hy : l.next x = y := hr.neighbours.2
  have hx : l.next head = x := hr.next_head
  rw [listForEachSafe, forEachSafe]
  simp only [hx, hy]
  clear hx hy hr hxs
  -- the loop goes on with the first two nodes of a list that has been turned by one
  induction fuel generalizing l x y zs with
  | zero => rfl
  | succ fuel ih =>
    have hr : l.IsRing head (x :: y :: zs) := h.isRing (by simp)
    have hxh : x ≠ head := by
      rintro rfl
      exact hr.head_notMem List.mem_cons_self
    have hturned : (listMoveTail l x head).Rings
        ({((head :: y :: (zs ++ [x]) : List α) : Cycle α)} + C) := by
      have hring : ((head :: x :: y :: zs : List α) : Cycle α)
          = ((x :: (y :: zs ++ head :: []) : List α) : Cycle α) := coe_visited head x [] (y :: zs)
      have hring' : ((head :: y :: (zs ++ [x]) : List α) : Cycle α)
          = ((y :: zs ++ x :: head :: [] : List α) : Cycle α) := by
        rw [Cycle.coe_cons_eq_coe_append]
        simp
      rw [hring] at h
      rw [hring']
      exact listMoveTail_rings h
    obtain ⟨z, zs', hz⟩ := List.exists_cons_of_ne_nil (List.concat_ne_nil x zs)
    rw [hz] at hturned
    have hr' : (listMoveTail l x head).IsRing head ([] ++ y :: z :: zs') := hturned.isRing (by simp)
    have hnext : (listMoveTail l x head).next y = z := hr'.neighbours.2
    rw [forEachSafeLoop, if_neg hxh]
    simp only [hnext]
    exact ih y z zs' hturned

/-- The theorem for a statement that notes the visited node down and deletes it. -/
theorem listForEachSafe_visits_three :
    let l : Links (Fin 3) := ⟨fun x ↦ x + 1, fun x ↦ x - 1⟩
    let body (x : Fin 3) (s : List (Fin 3) × Links (Fin 3)) := (s.1 ++ [x], listDel ⟨0, 0, 0⟩ s.2 x)
    (listForEachSafe 0 body 3 ([], l)).map Prod.fst = some [1, 2] := by
  intro l body
  have hrings : l.Rings ({(([0, 1, 2] : List (Fin 3)) : Cycle (Fin 3))} + 0) := by
    refine ⟨by decide, ?_⟩
    intro c hc
    rw [add_zero, Multiset.mem_singleton] at hc
    rw [hc, Cycle.chain_coe_cons]
    exact .cons_cons ⟨rfl, rfl⟩ (.cons_cons ⟨rfl, rfl⟩ (.cons_cons ⟨rfl, rfl⟩ (.singleton 0)))
  have hbody (x : Fin 3) (zs : List (Fin 3)) (s : List (Fin 3) × Links (Fin 3))
      (h : EndsWith s.2 0 (x :: zs)) : EndsWith (body x s).2 0 zs := endsWith_del _ h
  have hstart : EndsWith (([] : List (Fin 3)), l).2 0 [1, 2] := ⟨[], _, hrings⟩
  have hvisits := listForEachSafe_visits (I := fun zs s ↦ EndsWith s.2 0 zs) (fun _ _ h ↦ h) hbody
    hrings hstart
  exact congrArg (Option.map Prod.fst) hvisits.1

end PastaOS
