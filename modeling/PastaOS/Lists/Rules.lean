import PastaOS.Lib.Rings
import PastaOS.Lists.Defs

/-!
# What the list functions do to the rings

One theorem for each function of `list.h` that writes: which rings it takes apart and which it
makes of them, whatever other rings there are.  `listDelEntry_rings`, `listAdd_rings`,
`listReplace_rings`, `join_rings` and `cut_rings` are the surgery; the functions that call others
are put together from these.
-/

set_option autoImplicit false

universe u

namespace PastaOS

open Links

variable {α : Type u} {l : Links α} {rest : Multiset (Cycle α)} {a b n p : α} {xs ys : List α}

theorem coe_append_comm (xs ys : List α) :
    ((xs ++ ys : List α) : Cycle α) = ((ys ++ xs : List α) : Cycle α) :=
  Quotient.sound List.isRotated_append

theorem coe_append_cons (xs ys : List α) (a : α) :
    ((xs ++ a :: ys : List α) : Cycle α) = ((a :: (ys ++ xs) : List α) : Cycle α) :=
  coe_append_comm xs (a :: ys)

theorem ring_of_rings (h : l.Rings ({(xs : Cycle α)} + rest)) :
    xs.Nodup ∧ (xs : Cycle α).Chain l.Adjacent := by
  have hnd := h.nodup
  rw [nodes_add, nodes_coe] at hnd
  exact ⟨Multiset.coe_nodup.mp (Multiset.nodup_add.mp hnd).1, h.chain _ (by simp)⟩

theorem rings_of_rings (h : l.Rings ({(xs : Cycle α), (ys : Cycle α)} + rest)) :
    (xs ++ ys).Nodup ∧ (xs : Cycle α).Chain l.Adjacent ∧ (ys : Cycle α).Chain l.Adjacent := by
  have hnd := h.nodup
  rw [nodes_add, nodes_pair, nodes_coe, nodes_coe, Multiset.coe_add] at hnd
  exact ⟨Multiset.coe_nodup.mp (Multiset.nodup_add.mp hnd).1, h.chain _ (by simp),
    h.chain _ (by simp)⟩

variable [DecidableEq α]

/-! ## Initializing -/

theorem initListHead_adjacent (l : Links α) (n : α) : (initListHead l n).Adjacent n n :=
  adjacent_link l n n

theorem local_initListHead {S : Multiset α} (hn : n ∈ S) : Local S l (initListHead l n) :=
  local_link (a := n) (b := n) hn hn

/-- `INIT_LIST_HEAD` makes a ring of a node. -/
theorem initListHead_rings (h : l.Rings rest) (hn : n ∉ nodes rest) :
    (initListHead l n).Rings ({(([n] : List α) : Cycle α)} + rest) := by
  have h₀ : l.Rings (0 + rest) := by rwa [zero_add]
  refine Rings.replace {n} h₀ (Multiset.nodup_singleton n) ?_ ?_ ?_
    (local_initListHead (by simp))
  · simpa using hn
  · rw [nodes_coe]
    exact Multiset.le_add_right _ _
  · intro c hc
    rw [Multiset.mem_singleton.mp hc]
    exact chain_single.mpr (initListHead_adjacent l n)

/-! ## Adding -/

/-- `list_add` puts a node behind another one. -/
theorem listAdd_rings (h : l.Rings ({((p :: ys : List α) : Cycle α)} + rest))
    (hn : n ∉ nodes ({((p :: ys : List α) : Cycle α)} + rest)) :
    (listAdd l n p).Rings ({((p :: n :: ys : List α) : Cycle α)} + rest) := by
  obtain ⟨hnd, hc⟩ := ring_of_rings h
  have hn' : n ∉ p :: ys := by
    intro hm
    rw [nodes_add, nodes_coe] at hn
    exact hn (Multiset.mem_add.mpr (.inl hm))
  have hp := path_next hc
  set s := l.next p with hs
  have hnd' : (ys ++ [p]).Nodup := (List.perm_append_singleton p ys).nodup_iff.mpr hnd
  have hout : n ∉ ys ++ [p] := by simpa [or_comm] using hn'
  have hnp : n ≠ p := by rintro rfl; exact hn' List.mem_cons_self
  have hsn : s ≠ n := by rintro rfl; exact hout hp.first_mem
  have heq : listAdd l n p = (l.link n s).link p n := rfl
  have hpath : ((l.link n s).link p n).Path s (ys ++ [p]) p :=
    (hp.link hnd' (fun hm ↦ absurd hm hout) fun _ ↦ rfl).link hnd' (fun _ ↦ rfl)
      fun hm ↦ absurd hm hout
  rw [heq]
  refine Rings.replace {n} h (Multiset.nodup_singleton n) (by simpa using hn) ?_ ?_ ?_
  · rw [nodes_coe, nodes_coe]
    exact (Multiset.coe_eq_coe.mpr (List.Perm.swap n p ys)).le
  · intro c hc
    rw [Multiset.mem_singleton.mp hc, Cycle.coe_cons_eq_coe_append]
    exact ((Path.single _ n).append hpath ((adjacent_link l n s).link hnp hsn)).cycle
      (adjacent_link _ p n)
  · rw [nodes_coe]
    have hs : s ∈ p :: ys := by simpa [or_comm] using hp.first_mem
    have hs' : s ∈ {n} + (↑(p :: ys) : Multiset α) := Multiset.mem_add.mpr (.inr hs)
    exact (local_link (by simp) hs').trans (local_link (by simp) (by simp))

/-- `list_add_tail` puts a node in front of another one. -/
theorem listAddTail_rings (h : l.Rings ({((p :: ys : List α) : Cycle α)} + rest))
    (hn : n ∉ nodes ({((p :: ys : List α) : Cycle α)} + rest)) :
    (listAddTail l n p).Rings ({((n :: p :: ys : List α) : Cycle α)} + rest) := by
  obtain ⟨hnd, hc⟩ := ring_of_rings h
  -- the node `z` in front of `p` is the one `list_add` would be given
  obtain ⟨zs, hzs⟩ := List.getLast?_eq_some_iff.mp (path_prev hc).last
  set z := l.prev p with hz
  have hring : ((p :: ys : List α) : Cycle α) = ((z :: zs : List α) : Cycle α) := by
    rw [hzs, Cycle.coe_cons_eq_coe_append]
  have hring' : ((n :: p :: ys : List α) : Cycle α) = ((z :: n :: zs : List α) : Cycle α) := by
    rw [hzs, ← List.cons_append, ← Cycle.coe_cons_eq_coe_append]
  have heq : listAddTail l n p = listAdd l n z := by
    rw [listAddTail, listAdd, hz, next_prev hc]
  rw [hring] at h hn
  rw [hring', heq]
  exact listAdd_rings h hn

/-! ## Deleting -/

/-- `__list_del_entry` takes a node out of its ring, and writes only the neighbours. -/
theorem listDelEntry_rings (h : l.Rings ({((n :: ys : List α) : Cycle α)} + rest)) :
    (listDelEntry l n).Rings ({(ys : Cycle α)} + rest) := by
  obtain ⟨hnd, hc⟩ := ring_of_rings h
  have heq : listDelEntry l n = l.link (l.prev n) (l.next n) := rfl
  rw [heq]
  refine Rings.replace 0 h Multiset.nodup_zero (by simp) ?_ ?_ ?_
  · rw [nodes_coe, nodes_coe, zero_add]
    exact Multiset.coe_le.mpr (List.sublist_cons_self n ys).subperm
  · intro c hcm
    rw [Multiset.mem_singleton.mp hcm]
    by_cases hys : ys = []
    · rw [hys]
      exact Cycle.Chain.nil _
    · obtain ⟨hp, -, -⟩ := exists_path_cons hc hys
      exact (hp.link (List.nodup_cons.mp hnd).2 (fun _ ↦ rfl) fun _ ↦ rfl).cycle
        (adjacent_link l _ _)
  · rw [nodes_coe, zero_add]
    by_cases hys : ys = []
    · subst hys
      obtain ⟨hnext, hprev⟩ := chain_single.mp hc
      rw [hnext, hprev]
      exact local_link (by simp) (by simp)
    · obtain ⟨hp, -, -⟩ := exists_path_cons hc hys
      exact local_link (List.mem_cons_of_mem n hp.last_mem) (List.mem_cons_of_mem n hp.first_mem)

omit [DecidableEq α] in
/-- Who writes only the fields of a node on no ring changes no ring. -/
theorem rings_of_local {l' : Links α} (h : l.Rings rest) (hn : n ∉ nodes rest)
    (hl : Local {n} l l') : l'.Rings rest :=
  ⟨h.nodup, fun c hc ↦ chain_congr (h.chain c hc) hl fun a ha han ↦ by
    rw [Multiset.mem_singleton.mp han] at ha
    exact hn (mem_nodes.mpr ⟨c, hc, ha⟩)⟩

omit [DecidableEq α] in
/-- A node that has been taken out is on no ring any more. -/
theorem notMem_of_rings (h : l.Rings ({((n :: ys : List α) : Cycle α)} + rest)) :
    n ∉ nodes ({(ys : Cycle α)} + rest) := by
  have hnd := h.nodup
  rw [nodes_add, nodes_coe, ← Multiset.cons_coe, Multiset.cons_add, Multiset.nodup_cons] at hnd
  rw [nodes_add, nodes_coe]
  exact hnd.1

/-- `list_del` takes a node out and poisons its fields. -/
theorem listDel_rings (P : Poison α) (h : l.Rings ({((n :: ys : List α) : Cycle α)} + rest)) :
    (listDel P l n).Rings ({(ys : Cycle α)} + rest) :=
  rings_of_local (listDelEntry_rings h) (notMem_of_rings h)
    ((local_setNext (Multiset.mem_singleton_self n)).trans
      (local_setPrev (Multiset.mem_singleton_self n)))

/-- `__list_del_clearprev` takes a node out and clears its `prev`. -/
theorem listDelClearprev_rings (P : Poison α)
    (h : l.Rings ({((n :: ys : List α) : Cycle α)} + rest)) :
    (listDelClearprev P l n).Rings ({(ys : Cycle α)} + rest) :=
  rings_of_local (listDelEntry_rings h) (notMem_of_rings h)
    (local_setPrev (Multiset.mem_singleton_self n))

theorem singleton_add_singleton_add {β : Type u} (a b : β) (s : Multiset β) :
    {a} + ({b} + s) = {a, b} + s := (add_assoc _ _ _).symm

/-- `list_del_init` takes a node out and makes it a ring of its own. -/
theorem listDelInit_rings (h : l.Rings ({((n :: ys : List α) : Cycle α)} + rest)) :
    (listDelInit l n).Rings ({(([n] : List α) : Cycle α), (ys : Cycle α)} + rest) := by
  rw [← singleton_add_singleton_add]
  exact initListHead_rings (listDelEntry_rings h) (notMem_of_rings h)

/-- `list_del_init_careful` does the same writes in another order. -/
theorem listDelInitCareful_eq (l : Links α) (n : α) : listDelInitCareful l n = listDelInit l n :=
  rfl

/-! ## Replacing -/

/-- The writes of `list_replace`, when the old node is not alone. -/
theorem listReplace_eq (hne : a ≠ l.next a) :
    listReplace l a n = (l.link n (l.next a)).link (l.prev a) n := by
  simp only [listReplace, setNext_next, setNext_prev, setPrev_prev, if_true, if_neg hne]
  rfl

/-- `list_replace` puts a node in the place of another one. -/
theorem listReplace_rings (h : l.Rings ({((a :: ys : List α) : Cycle α)} + rest))
    (hn : n ∉ nodes ({((a :: ys : List α) : Cycle α)} + rest)) :
    (listReplace l a n).Rings ({((n :: ys : List α) : Cycle α)} + rest) := by
  obtain ⟨hnd, hc⟩ := ring_of_rings h
  have hout : n ∉ a :: ys := by
    intro hm
    rw [nodes_add, nodes_coe] at hn
    exact hn (Multiset.mem_add.mpr (.inl hm))
  have hna : a ≠ n := by rintro rfl; exact hout List.mem_cons_self
  have hny : n ∉ ys := fun hm ↦ hout (List.mem_cons_of_mem a hm)
  by_cases hys : ys = []
  · subst hys
    obtain ⟨hnext, hprev⟩ := chain_single.mp hc
    have heq : listReplace l a n = ((l.setNext n a).setPrev a n).link n n := by
      simp [listReplace, hnext, link]
    rw [heq]
    refine Rings.replace {n} h (Multiset.nodup_singleton n) (by simpa using hn) ?_ ?_ ?_
    · rw [nodes_coe]
      exact Multiset.le_add_right _ _
    · intro c hcm
      rw [Multiset.mem_singleton.mp hcm]
      exact chain_single.mpr (adjacent_link _ n n)
    · exact ((local_setNext (by simp)).trans (local_setPrev (by simp [nodes_coe]))).trans
        (local_link (by simp) (by simp))
  · obtain ⟨hp, hf, hz⟩ := exists_path_cons hc hys
    set f := l.next a
    set z := l.prev a
    have hnd' := (List.nodup_cons.mp hnd).2
    have hfa : a ≠ f := by
      intro he
      exact (List.nodup_cons.mp hnd).1 (he ▸ hp.first_mem)
    have hfn : f ≠ n := by rintro he; exact hny (he ▸ hp.first_mem)
    have hzn : z ≠ n := by rintro he; exact hny (he ▸ hp.last_mem)
    have hpath : ((l.link n f).link z n).Path f ys z :=
      (hp.link hnd' (fun hm ↦ absurd hm hny) fun _ ↦ rfl).link hnd' (fun _ ↦ rfl)
        fun hm ↦ absurd hm hny
    rw [listReplace_eq hfa]
    refine Rings.replace {n} h (Multiset.nodup_singleton n) (by simpa using hn) ?_ ?_ ?_
    · rw [nodes_coe, nodes_coe]
      exact (Multiset.coe_le.mpr ((List.sublist_cons_self a ys).cons_cons n).subperm)
    · intro c hcm
      rw [Multiset.mem_singleton.mp hcm]
      exact ((Path.single _ n).append hpath ((adjacent_link l n f).link hzn.symm hfn)).cycle
        (adjacent_link _ z n)
    · rw [nodes_coe]
      have hmem {x : α} (hx : x ∈ ys) : x ∈ {n} + (↑(a :: ys) : Multiset α) :=
        Multiset.mem_add.mpr (.inr (List.mem_cons_of_mem a hx))
      exact (local_link (by simp) (hmem hp.first_mem)).trans
        (local_link (hmem hp.last_mem) (by simp))

omit [DecidableEq α] in
/-- What is on no ring is not on a ring that loses a node for a new one. -/
theorem notMem_of_replaced (h : l.Rings ({((a :: ys : List α) : Cycle α)} + rest))
    (hn : n ∉ nodes ({((a :: ys : List α) : Cycle α)} + rest)) :
    a ∉ nodes ({((n :: ys : List α) : Cycle α)} + rest) := by
  have ha := notMem_of_rings h
  rw [nodes_add, nodes_coe] at ha hn ⊢
  rw [← Multiset.cons_coe, Multiset.cons_add, Multiset.mem_cons, not_or]
  refine ⟨?_, ha⟩
  rintro rfl
  exact hn (Multiset.mem_add.mpr (.inl (Multiset.mem_coe.mpr List.mem_cons_self)))

/-- `list_replace_init` also makes the old node a ring of its own. -/
theorem listReplaceInit_rings (h : l.Rings ({((a :: ys : List α) : Cycle α)} + rest))
    (hn : n ∉ nodes ({((a :: ys : List α) : Cycle α)} + rest)) :
    (listReplaceInit l a n).Rings
      ({(([a] : List α) : Cycle α), ((n :: ys : List α) : Cycle α)} + rest) := by
  rw [← singleton_add_singleton_add]
  exact initListHead_rings (listReplace_rings h hn) (notMem_of_replaced h hn)

/-! ## Moving -/

/-- `list_move`, within a ring. -/
theorem listMove_rings (h : l.Rings ({((n :: (xs ++ p :: ys) : List α) : Cycle α)} + rest)) :
    (listMove l n p).Rings ({((xs ++ p :: n :: ys : List α) : Cycle α)} + rest) := by
  have hdel := listDelEntry_rings h
  have hout := notMem_of_rings h
  rw [coe_append_cons] at hdel hout ⊢
  exact listAdd_rings hdel hout

/-- `list_move`, to another ring. -/
theorem listMove_rings_apart
    (h : l.Rings ({((n :: xs : List α) : Cycle α), ((p :: ys : List α) : Cycle α)} + rest)) :
    (listMove l n p).Rings ({(xs : Cycle α), ((p :: n :: ys : List α) : Cycle α)} + rest) := by
  rw [← singleton_add_singleton_add] at h ⊢
  have hdel := listDelEntry_rings h
  have hout := notMem_of_rings h
  rw [add_left_comm] at hdel hout ⊢
  exact listAdd_rings hdel hout

/-- `list_move_tail`, within a ring. -/
theorem listMoveTail_rings (h : l.Rings ({((n :: (xs ++ p :: ys) : List α) : Cycle α)} + rest)) :
    (listMoveTail l n p).Rings ({((xs ++ n :: p :: ys : List α) : Cycle α)} + rest) := by
  have hdel := listDelEntry_rings h
  have hout := notMem_of_rings h
  rw [coe_append_cons] at hdel hout ⊢
  exact listAddTail_rings hdel hout

/-- `list_move_tail`, to another ring. -/
theorem listMoveTail_rings_apart
    (h : l.Rings ({((n :: xs : List α) : Cycle α), ((p :: ys : List α) : Cycle α)} + rest)) :
    (listMoveTail l n p).Rings ({(xs : Cycle α), ((n :: p :: ys : List α) : Cycle α)} + rest) := by
  rw [← singleton_add_singleton_add] at h ⊢
  have hdel := listDelEntry_rings h
  have hout := notMem_of_rings h
  rw [add_left_comm] at hdel hout ⊢
  exact listAddTail_rings hdel hout

/-- `list_rotate_left` moves the first node behind the last one. -/
theorem listRotateLeft_rings (h : l.Rings ({((p :: xs : List α) : Cycle α)} + rest)) :
    (listRotateLeft l p).Rings ({((p :: xs.rotate 1 : List α) : Cycle α)} + rest) := by
  obtain ⟨hnd, hc⟩ := ring_of_rings h
  have hr := isRing_iff.mpr ⟨hnd, hc⟩
  cases xs with
  | nil =>
    have hempty : listEmpty l p = true := decide_eq_true hr.next_nil
    simpa [listRotateLeft, hempty] using h
  | cons x xs =>
    have hx : x ≠ p := by
      rintro rfl
      exact hr.head_notMem List.mem_cons_self
    have heq : listRotateLeft l p = listMoveTail l x p := by
      simp [listRotateLeft, listEmpty, hr.next_cons, hx]
    have hring : ((p :: x :: xs : List α) : Cycle α) = ((x :: (xs ++ [p]) : List α) : Cycle α) :=
      Cycle.coe_cons_eq_coe_append (x :: xs) p
    have hring' :
        ((p :: (xs ++ [x]) : List α) : Cycle α) = ((xs ++ x :: [p] : List α) : Cycle α) := by
      rw [Cycle.coe_cons_eq_coe_append, List.append_assoc, List.singleton_append]
    rw [List.rotate_cons_succ, List.rotate_zero, hring', heq]
    rw [hring] at h
    exact listMoveTail_rings h

/-- `list_rotate_to_front` moves the head in front of a node. -/
theorem listRotateToFront_rings
    (h : l.Rings ({((p :: (xs ++ n :: ys) : List α) : Cycle α)} + rest)) :
    (listRotateToFront l n p).Rings
      ({((p :: n :: (ys ++ xs) : List α) : Cycle α)} + rest) := by
  have hring :
      ((p :: n :: (ys ++ xs) : List α) : Cycle α) = ((xs ++ p :: n :: ys : List α) : Cycle α) :=
    (coe_append_cons xs (n :: ys) p).symm
  rw [hring]
  exact listMoveTail_rings h

/-! ## Swapping -/

/-- `list_swap`, within a ring. -/
theorem listSwap_rings (P : Poison α)
    (h : l.Rings ({((a :: (xs ++ b :: ys) : List α) : Cycle α)} + rest)) :
    (listSwap P l a b).Rings ({((b :: (xs ++ a :: ys) : List α) : Cycle α)} + rest) := by
  have hring : ((a :: (xs ++ b :: ys) : List α) : Cycle α)
      = ((b :: (ys ++ a :: xs) : List α) : Cycle α) := coe_append_cons (a :: xs) ys b
  obtain ⟨hnd, hc⟩ := ring_of_rings h
  have hpos := (exists_path_cons (hring ▸ hc) (by simp)).1.last
  rw [hring] at h
  have hdel := listDel_rings P h
  have hout := notMem_of_rings h
  rw [coe_append_cons] at hdel hout
  have hrep := listReplace_rings hdel hout
  have hout' := notMem_of_replaced hdel hout
  rw [listSwap]
  rcases List.eq_nil_or_concat xs with rfl | ⟨zs, z, rfl⟩
  · -- the nodes follow one another
    have hpos' : l.prev b = a := by simpa using hpos.symm
    simp only [hpos', if_true]
    exact listAdd_rings hrep hout'
  · -- the first one goes behind the node `z` that was in front of the second one
    have hlist : ys ++ a :: zs.concat z = (ys ++ a :: zs) ++ [z] := by simp
    have hpos' : l.prev b = z := by
      rw [hlist, List.getLast?_concat] at hpos
      exact (Option.some.inj hpos).symm
    have hza : z ≠ a := by
      rintro rfl
      simp at hnd
    have hbefore : ((b :: (zs.concat z ++ ys) : List α) : Cycle α)
        = ((z :: (ys ++ b :: zs) : List α) : Cycle α) := by
      rw [List.concat_append]
      exact coe_append_cons (b :: zs) ys z
    have hafter : ((b :: (zs.concat z ++ a :: ys) : List α) : Cycle α)
        = ((z :: a :: (ys ++ b :: zs) : List α) : Cycle α) := by
      rw [List.concat_append]
      exact coe_append_cons (b :: zs) (a :: ys) z
    simp only [hpos', if_neg hza]
    rw [hbefore] at hrep hout'
    rw [hafter]
    exact listAdd_rings hrep hout'

/-- `list_swap`, between two rings. -/
theorem listSwap_rings_apart (P : Poison α) (hys : ys ≠ [])
    (h : l.Rings ({((a :: xs : List α) : Cycle α), ((b :: ys : List α) : Cycle α)} + rest)) :
    (listSwap P l a b).Rings
      ({((b :: xs : List α) : Cycle α), ((a :: ys : List α) : Cycle α)} + rest) := by
  obtain ⟨hnd, -, hc⟩ := rings_of_rings h
  have hpos := (exists_path_cons hc hys).1.last
  rw [← singleton_add_singleton_add, add_left_comm] at h
  have hdel := listDel_rings P h
  have hout := notMem_of_rings h
  rw [add_left_comm] at hdel hout
  have hrep := listReplace_rings hdel hout
  have hout' := notMem_of_replaced hdel hout
  obtain ⟨zs, hzs⟩ := List.getLast?_eq_some_iff.mp hpos
  have hza : l.prev b ≠ a := by
    intro he
    rw [hzs, he] at hnd
    simp at hnd
  have hbefore : (ys : Cycle α) = ((l.prev b :: zs : List α) : Cycle α) := by
    conv_lhs => rw [hzs, ← Cycle.coe_cons_eq_coe_append]
  have hafter : ((a :: ys : List α) : Cycle α) = ((l.prev b :: a :: zs : List α) : Cycle α) := by
    conv_lhs => rw [hzs, ← List.cons_append, ← Cycle.coe_cons_eq_coe_append]
  rw [← singleton_add_singleton_add, hafter, listSwap]
  simp only [if_neg hza]
  rw [add_left_comm, hbefore] at hrep hout'
  rw [add_left_comm]
  exact listAdd_rings hrep hout'

/-! ## Splicing -/

/-- Two paths, joined at both ends. -/
theorem chain_join {f z s : α} (hnd : (xs ++ ys).Nodup) (hp : l.Path f xs z)
    (hq : l.Path s ys p) :
    ((xs ++ ys : List α) : Cycle α).Chain ((l.link p f).link z s).Adjacent := by
  obtain ⟨hx, hy, hdisj⟩ := List.nodup_append'.mp hnd
  have hp' : ((l.link p f).link z s).Path f xs z :=
    (hp.link hx (fun hm ↦ (hdisj hm hq.last_mem).elim) fun _ ↦ rfl).link hx (fun _ ↦ rfl)
      fun hm ↦ (hdisj hm hq.first_mem).elim
  have hq' : ((l.link p f).link z s).Path s ys p :=
    (hq.link hy (fun _ ↦ rfl) fun hm ↦ (hdisj hp.first_mem hm).elim).link hy
      (fun hm ↦ (hdisj hp.last_mem hm).elim) fun _ ↦ rfl
  have hpz : p ≠ z := by rintro rfl; exact hdisj hp.last_mem hq.last_mem
  have hfs : f ≠ s := by rintro rfl; exact hdisj hp.first_mem hq.first_mem
  exact (hp'.append hq' (adjacent_link _ z s)).cycle ((adjacent_link l p f).link hpz hfs)

/-- The writes of `__list_splice`. -/
theorem listSpliceAux_eq (l : Links α) (n p s : α) :
    listSpliceAux l n p s = (l.link p (l.next n)).link (l.prev n) s := rfl

/-- `__list_splice` puts the nodes behind `list` between two neighbours. -/
theorem listSpliceAux_rings {s : α} (hxs : xs ≠ [])
    (h : l.Rings ({((n :: xs : List α) : Cycle α), (ys : Cycle α)} + rest)) (hq : l.Path s ys p) :
    (listSpliceAux l n p s).Rings ({((xs ++ ys : List α) : Cycle α)} + rest) := by
  obtain ⟨hnd, hc, -⟩ := rings_of_rings h
  obtain ⟨hp, -, -⟩ := exists_path_cons hc hxs
  rw [listSpliceAux_eq]
  refine Rings.replace 0 h Multiset.nodup_zero (by simp) ?_ ?_ ?_
  · rw [nodes_coe, nodes_pair, nodes_coe, nodes_coe, zero_add, Multiset.coe_add]
    exact Multiset.coe_le.mpr (List.sublist_cons_self n _).subperm
  · intro c hcm
    rw [Multiset.mem_singleton.mp hcm]
    exact chain_join (List.nodup_cons.mp hnd).2 hp hq
  · rw [nodes_pair, nodes_coe, nodes_coe, zero_add, Multiset.coe_add]
    have hmem {x : α} (hx : x ∈ xs ++ ys) : x ∈ (↑(n :: xs ++ ys) : Multiset α) :=
      List.mem_cons_of_mem n hx
    exact (local_link (hmem (List.mem_append_right xs hq.last_mem))
      (hmem (List.mem_append_left ys hp.first_mem))).trans
      (local_link (hmem (List.mem_append_left ys hp.last_mem))
        (hmem (List.mem_append_right xs hq.first_mem)))

omit [DecidableEq α] in
/-- The ring of the head, cut open behind it. -/
theorem listSplice_ring (xs ys : List α) (p : α) :
    ((p :: (xs ++ ys) : List α) : Cycle α) = ((xs ++ (ys ++ [p]) : List α) : Cycle α) := by
  rw [Cycle.coe_cons_eq_coe_append, List.append_assoc]

theorem listEmpty_eq (h : ((n :: xs : List α) : Cycle α).Chain l.Adjacent) (hnd : (n :: xs).Nodup) :
    listEmpty l n = xs.isEmpty := by
  have hr := isRing_iff.mpr ⟨hnd, h⟩
  cases xs with
  | nil => exact decide_eq_true hr.next_nil
  | cons x xs =>
    refine decide_eq_false ?_
    rw [hr.next_cons]
    rintro rfl
    exact hr.head_notMem List.mem_cons_self

/-- `list_splice` -/
theorem listSplice_rings (hxs : xs ≠ [])
    (h : l.Rings ({((n :: xs : List α) : Cycle α), ((p :: ys : List α) : Cycle α)} + rest)) :
    (listSplice l n p).Rings ({((p :: (xs ++ ys) : List α) : Cycle α)} + rest) := by
  obtain ⟨hnd, hn, hp⟩ := rings_of_rings h
  have hempty := listEmpty_eq hn (List.nodup_append.mp hnd).1
  rw [List.isEmpty_eq_false_iff.mpr hxs] at hempty
  rw [listSplice, hempty, listSplice_ring]
  rw [Cycle.coe_cons_eq_coe_append ys p] at h
  exact listSpliceAux_rings hxs h (path_next hp)

/-- `list_splice_tail` -/
theorem listSpliceTail_rings (hxs : xs ≠ [])
    (h : l.Rings ({((n :: xs : List α) : Cycle α), ((p :: ys : List α) : Cycle α)} + rest)) :
    (listSpliceTail l n p).Rings ({((p :: (ys ++ xs) : List α) : Cycle α)} + rest) := by
  obtain ⟨hnd, hn, hp⟩ := rings_of_rings h
  have hempty := listEmpty_eq hn (List.nodup_append.mp hnd).1
  rw [List.isEmpty_eq_false_iff.mpr hxs] at hempty
  rw [listSpliceTail, hempty, ← coe_append_cons]
  exact listSpliceAux_rings hxs h (path_prev hp)

/-- An empty list is not spliced. -/
theorem listSplice_empty (h : l.Rings ({(([n] : List α) : Cycle α)} + rest)) :
    listSplice l n p = l := by
  obtain ⟨hnd, hc⟩ := ring_of_rings h
  have hempty : listEmpty l n = true := listEmpty_eq hc hnd
  simp [listSplice, hempty]

theorem listSpliceTail_empty (h : l.Rings ({(([n] : List α) : Cycle α)} + rest)) :
    listSpliceTail l n p = l := by
  obtain ⟨hnd, hc⟩ := ring_of_rings h
  have hempty : listEmpty l n = true := listEmpty_eq hc hnd
  simp [listSpliceTail, hempty]

omit [DecidableEq α] in
/-- A spliced list's old head is on no ring. -/
theorem notMem_of_spliced {c : Cycle α} (hperm : c.toMultiset = (↑(xs ++ p :: ys) : Multiset α))
    (h : l.Rings ({((n :: xs : List α) : Cycle α), ((p :: ys : List α) : Cycle α)} + rest)) :
    n ∉ nodes ({c} + rest) := by
  have hnd := h.nodup
  rw [nodes_add, nodes_pair, nodes_coe, nodes_coe, ← Multiset.cons_coe, Multiset.cons_add,
    Multiset.cons_add, Multiset.nodup_cons, Multiset.coe_add, ← hperm] at hnd
  rw [nodes_add, nodes, Multiset.singleton_bind]
  exact hnd.1

/-- `list_splice_init` -/
theorem listSpliceInit_rings
    (h : l.Rings ({((n :: xs : List α) : Cycle α), ((p :: ys : List α) : Cycle α)} + rest)) :
    (listSpliceInit l n p).Rings
      ({(([n] : List α) : Cycle α), ((p :: (xs ++ ys) : List α) : Cycle α)} + rest) := by
  obtain ⟨hnd, hn, hp⟩ := rings_of_rings h
  have hempty := listEmpty_eq hn (List.nodup_append.mp hnd).1
  by_cases hxs : xs = []
  · subst hxs
    simpa [listSpliceInit, hempty] using h
  · rw [List.isEmpty_eq_false_iff.mpr hxs] at hempty
    have heq : listSpliceInit l n p = initListHead (listSplice l n p) n := by
      simp [listSpliceInit, listSplice, hempty]
    rw [heq, ← singleton_add_singleton_add]
    refine initListHead_rings (listSplice_rings hxs h) (notMem_of_spliced ?_ h)
    rw [Cycle.coe_toMultiset]
    exact Multiset.coe_eq_coe.mpr List.perm_middle.symm

/-- `list_splice_tail_init` -/
theorem listSpliceTailInit_rings
    (h : l.Rings ({((n :: xs : List α) : Cycle α), ((p :: ys : List α) : Cycle α)} + rest)) :
    (listSpliceTailInit l n p).Rings
      ({(([n] : List α) : Cycle α), ((p :: (ys ++ xs) : List α) : Cycle α)} + rest) := by
  obtain ⟨hnd, hn, hp⟩ := rings_of_rings h
  have hempty := listEmpty_eq hn (List.nodup_append.mp hnd).1
  by_cases hxs : xs = []
  · subst hxs
    simpa [listSpliceTailInit, hempty] using h
  · rw [List.isEmpty_eq_false_iff.mpr hxs] at hempty
    have heq : listSpliceTailInit l n p = initListHead (listSpliceTail l n p) n := by
      simp [listSpliceTailInit, listSpliceTail, hempty]
    rw [heq, ← singleton_add_singleton_add]
    refine initListHead_rings (listSpliceTail_rings hxs h) (notMem_of_spliced ?_ h)
    have hperm : ((p :: ys) ++ xs).Perm (xs ++ p :: ys) := List.perm_append_comm
    rw [Cycle.coe_toMultiset]
    exact Multiset.coe_eq_coe.mpr hperm

/-- The writes of `list_bulk_move_tail`. -/
theorem listBulkMoveTail_eq {f z : α} (hz : z ≠ l.prev f) : listBulkMoveTail l p f z
    = ((l.link (l.prev f) (l.next z)).link ((l.link (l.prev f) (l.next z)).prev p) f).link z p := by
  simp only [listBulkMoveTail, setNext_next, setNext_prev, if_neg hz]
  rfl

/-- `list_bulk_move_tail` moves a stretch of a ring in front of the head. -/
theorem listBulkMoveTail_rings {f z : α} {seg : List α} (hf : seg.head? = some f)
    (hz : seg.getLast? = some z)
    (h : l.Rings ({((p :: (xs ++ (seg ++ ys)) : List α) : Cycle α)} + rest)) :
    (listBulkMoveTail l p f z).Rings ({((p :: (xs ++ ys ++ seg) : List α) : Cycle α)} + rest) := by
  have hring : ((p :: (xs ++ (seg ++ ys)) : List α) : Cycle α)
      = ((seg ++ (ys ++ p :: xs) : List α) : Cycle α) := by
    rw [← List.cons_append, coe_append_comm, List.append_assoc]
  obtain ⟨hnd, hc⟩ := ring_of_rings (hring ▸ h)
  have hseg : seg ≠ [] := by rintro rfl; simp at hf
  obtain ⟨f', z', g, w, hp, hq, hzg, hwf⟩ := exists_paths hc hseg (by simp)
  obtain rfl : f = f' := Option.some.inj (hf.symm.trans hp.first)
  obtain rfl : z = z' := Option.some.inj (hz.symm.trans hp.last)
  obtain ⟨hx, hy, hdisj⟩ := List.nodup_append'.mp hnd
  have hzw : z ≠ w := by rintro rfl; exact hdisj hp.last_mem hq.last_mem
  -- without the stretch, the rest is a ring again
  have hp₁ : (l.link w g).Path f seg z :=
    hp.link hx (fun hm ↦ (hdisj hm hq.last_mem).elim) fun hm ↦ (hdisj hm hq.first_mem).elim
  have hc₁ : ((p :: (xs ++ ys) : List α) : Cycle α).Chain (l.link w g).Adjacent := by
    rw [← coe_append_cons]
    exact (hq.link hy (fun _ ↦ rfl) fun _ ↦ rfl).cycle (adjacent_link l w g)
  have hq₁ := path_prev hc₁
  have hturn : (ys ++ p :: xs).Perm (p :: xs ++ ys) := List.perm_append_comm
  have hperm : (seg ++ (ys ++ p :: xs)).Perm (seg ++ p :: (xs ++ ys)) := hturn.append_left seg
  rw [listBulkMoveTail_eq (hwf.2.symm ▸ hzw), hwf.2, hzg.1]
  refine Rings.replace 0 h Multiset.nodup_zero (by simp) ?_ ?_ ?_
  · rw [hring, nodes_coe, nodes_coe, zero_add]
    have hback : (p :: (xs ++ ys) ++ seg).Perm (seg ++ p :: (xs ++ ys)) := List.perm_append_comm
    exact (Multiset.coe_eq_coe.mpr (hback.trans hperm.symm)).le
  · intro c hcm
    rw [Multiset.mem_singleton.mp hcm, ← List.cons_append, coe_append_comm]
    exact chain_join (hperm.nodup_iff.mp hnd) hp₁ hq₁
  · rw [hring, nodes_coe, zero_add]
    have hprev : (l.link w g).prev p ∈ ys ++ p :: xs := by
      have hm := hq₁.last_mem
      rw [← List.cons_append] at hm
      exact List.perm_append_comm.mem_iff.mp hm
    have hrest {x : α} (hm : x ∈ ys ++ p :: xs) :
        x ∈ (↑(seg ++ (ys ++ p :: xs)) : Multiset α) := List.mem_append_right seg hm
    have hmoved {x : α} (hm : x ∈ seg) : x ∈ (↑(seg ++ (ys ++ p :: xs)) : Multiset α) :=
      List.mem_append_left _ hm
    exact ((local_link (hrest hq.last_mem) (hrest hq.first_mem)).trans
      (local_link (hrest hprev) (hmoved hp.first_mem))).trans
      (local_link (hmoved hp.last_mem) (hrest (by simp)))

/-! ## Cutting -/

/-- Two paths, one of which is closed by a new node and the other one by itself. -/
theorem chain_cut {f z s : α} (hnd : (n :: (xs ++ ys)).Nodup) (hp : l.Path f xs z)
    (hq : l.Path s ys p) :
    ((n :: xs : List α) : Cycle α).Chain (((l.link n f).link z n).link p s).Adjacent ∧
      (ys : Cycle α).Chain (((l.link n f).link z n).link p s).Adjacent := by
  rw [List.nodup_cons, List.nodup_append', List.mem_append, not_or] at hnd
  obtain ⟨⟨hnx, hny⟩, hx, hy, hdisj⟩ := hnd
  have hnf : f ≠ n := by rintro rfl; exact hnx hp.first_mem
  have hnz : n ≠ z := by rintro rfl; exact hnx hp.last_mem
  have hnp : n ≠ p := by rintro rfl; exact hny hq.last_mem
  have hns : n ≠ s := by rintro rfl; exact hny hq.first_mem
  have hfs : f ≠ s := by rintro rfl; exact hdisj hp.first_mem hq.first_mem
  have hzp : z ≠ p := by rintro rfl; exact hdisj hp.last_mem hq.last_mem
  have hp' : (((l.link n f).link z n).link p s).Path f xs z :=
    ((hp.link hx (fun hm ↦ (hnx hm).elim) fun _ ↦ rfl).link hx (fun _ ↦ rfl)
      fun hm ↦ (hnx hm).elim).link hx (fun hm ↦ (hdisj hm hq.last_mem).elim)
      fun hm ↦ (hdisj hm hq.first_mem).elim
  have hq' : (((l.link n f).link z n).link p s).Path s ys p :=
    ((hq.link hy (fun hm ↦ (hny hm).elim) fun hm ↦ (hdisj hp.first_mem hm).elim).link hy
      (fun hm ↦ (hdisj hp.last_mem hm).elim) fun hm ↦ (hny hm).elim).link hy (fun _ ↦ rfl)
      fun _ ↦ rfl
  refine ⟨((Path.single _ n).append hp' ?_).cycle ?_, hq'.cycle (adjacent_link _ p s)⟩
  · exact ((adjacent_link l n f).link hnz hnf).link hnp hfs
  · exact (adjacent_link _ z n).link hzp hns

/-- A ring, cut in two; the new head `n` gets the first part. -/
theorem cut_rings {f z s : α} (h : l.Rings ({((xs ++ ys : List α) : Cycle α)} + rest))
    (hn : n ∉ nodes ({((xs ++ ys : List α) : Cycle α)} + rest)) (hp : l.Path f xs z)
    (hq : l.Path s ys p) : (((l.link n f).link z n).link p s).Rings
      ({((n :: xs : List α) : Cycle α), (ys : Cycle α)} + rest) := by
  obtain ⟨hnd, -⟩ := ring_of_rings h
  have hout : n ∉ xs ++ ys := by
    intro hm
    rw [nodes_add, nodes_coe] at hn
    exact hn (Multiset.mem_add.mpr (.inl hm))
  obtain ⟨hcx, hcy⟩ := chain_cut (List.nodup_cons.mpr ⟨hout, hnd⟩) hp hq
  refine Rings.replace {n} h (Multiset.nodup_singleton n) (by simpa using hn) ?_ ?_ ?_
  · rw [nodes_pair, nodes_coe, nodes_coe, nodes_coe, Multiset.coe_add]
    exact le_rfl
  · intro c hcm
    rw [Multiset.insert_eq_cons, Multiset.mem_cons, Multiset.mem_singleton] at hcm
    rcases hcm with rfl | rfl
    exacts [hcx, hcy]
  · rw [nodes_coe]
    have hmem {x : α} (hm : x ∈ xs ++ ys) : x ∈ {n} + (↑(xs ++ ys) : Multiset α) :=
      Multiset.mem_add.mpr (.inr hm)
    have hnew : n ∈ {n} + (↑(xs ++ ys) : Multiset α) := by simp
    exact ((local_link hnew (hmem (List.mem_append_left _ hp.first_mem))).trans
      (local_link (hmem (List.mem_append_left _ hp.last_mem)) hnew)).trans
      (local_link (hmem (List.mem_append_right _ hq.last_mem))
        (hmem (List.mem_append_right _ hq.first_mem)))

/-- A list with one node: both fields of the head point to it. -/
theorem listIsSingular_eq (h : ((p :: xs : List α) : Cycle α).Chain l.Adjacent)
    (hnd : (p :: xs).Nodup) : listIsSingular l p = decide (xs.length = 1) := by
  have hr := isRing_iff.mpr ⟨hnd, h⟩
  rw [listIsSingular, listEmpty_eq h hnd, hr.next_head, hr.prev_head]
  cases xs with
  | nil => rfl
  | cons x xs =>
    rcases List.eq_nil_or_concat xs with rfl | ⟨zs, z, rfl⟩
    · simp
    · have hxz : x ≠ z := by
        rintro rfl
        simp at hnd
      have hlast : (x :: zs.concat z).getLastD p = z := by
        rw [List.concat_eq_append, ← List.cons_append, List.getLastD_concat]
      rw [hlast]
      simp [hxz]

/-- The writes of `__list_cut_position`. -/
theorem listCutPositionAux_eq (l : Links α) (n p e : α) : listCutPositionAux l n p e
    = ((l.link n (l.next p)).link e n).link p (l.next e) := by
  simp only [listCutPositionAux, setNext_next, if_true]
  rfl

/-- `list_cut_position` moves the nodes up to and including an entry to a new list. -/
theorem listCutPosition_rings {e : α}
    (h : l.Rings ({((p :: (xs ++ e :: ys) : List α) : Cycle α)} + rest))
    (hn : n ∉ nodes ({((p :: (xs ++ e :: ys) : List α) : Cycle α)} + rest)) :
    (listCutPosition l n p e).Rings
      ({((n :: (xs ++ [e]) : List α) : Cycle α), ((p :: ys : List α) : Cycle α)} + rest) := by
  obtain ⟨hnd, hc⟩ := ring_of_rings h
  have hempty : listEmpty l p = false := by rw [listEmpty_eq hc hnd]; simp
  have hep : e ≠ p := by rintro rfl; simp at hnd
  have hguard : ¬ (listIsSingular l p ∧ l.next p ≠ e ∧ p ≠ e) := by
    rintro ⟨hs, hne, -⟩
    rw [listIsSingular_eq hc hnd, decide_eq_true_eq, List.length_append, List.length_cons] at hs
    obtain rfl : xs = [] := List.length_eq_zero_iff.mp (by omega)
    exact hne (isRing_iff.mpr ⟨hnd, hc⟩).next_cons
  have hring : ((p :: (xs ++ e :: ys) : List α) : Cycle α)
      = (((xs ++ [e]) ++ (ys ++ [p]) : List α) : Cycle α) := by
    rw [Cycle.coe_cons_eq_coe_append]
    simp
  rw [hring] at h hn hc
  obtain ⟨f, z, s, w, hp, hq, hz, hw⟩ := exists_paths hc (by simp) (by simp)
  obtain rfl : e = z := by simpa using hp.last
  obtain rfl : p = w := by simpa using hq.last
  rw [listCutPosition, hempty, if_neg (by simp), if_neg hguard, if_neg hep, listCutPositionAux_eq,
    hw.1, hz.1, Cycle.coe_cons_eq_coe_append ys p]
  exact cut_rings h hn hp hq

/-- With the head for the entry, `list_cut_position` cuts nothing off a list that is not empty. -/
theorem listCutPosition_rings_head (hxs : xs ≠ [])
    (h : l.Rings ({((p :: xs : List α) : Cycle α)} + rest))
    (hn : n ∉ nodes ({((p :: xs : List α) : Cycle α)} + rest)) :
    (listCutPosition l n p p).Rings
      ({(([n] : List α) : Cycle α), ((p :: xs : List α) : Cycle α)} + rest) := by
  obtain ⟨hnd, hc⟩ := ring_of_rings h
  have hempty : listEmpty l p = false := by rw [listEmpty_eq hc hnd]; simp [hxs]
  have heq : listCutPosition l n p p = initListHead l n := by simp [listCutPosition, hempty]
  rw [heq, ← singleton_add_singleton_add]
  exact initListHead_rings h hn

/-- An empty list is left alone by `list_cut_position`, and so is the new head. -/
theorem listCutPosition_empty {e : α} (h : l.Rings ({(([p] : List α) : Cycle α)} + rest)) :
    listCutPosition l n p e = l := by
  obtain ⟨hnd, hc⟩ := ring_of_rings h
  have hempty : listEmpty l p = true := listEmpty_eq hc hnd
  simp [listCutPosition, hempty]

/-- The writes of `list_cut_before`, when there is something to cut off. -/
theorem listCutBefore_eq {e : α} (hne : l.next p ≠ e) : listCutBefore l n p e
    = ((l.link n (l.next p)).link (l.prev e) n).link p e := by
  simp only [listCutBefore, if_neg hne, setNext_next, setNext_prev, setPrev_prev, if_true,
    if_neg hne.symm]
  rfl

/-- `list_cut_before` moves the nodes in front of an entry to a new list. -/
theorem listCutBefore_rings_of {e : α} (he : ys.head? = some e) (hp : ys.getLast? = some p)
    (h : l.Rings ({((xs ++ ys : List α) : Cycle α)} + rest))
    (hn : n ∉ nodes ({((xs ++ ys : List α) : Cycle α)} + rest)) :
    (listCutBefore l n p e).Rings ({((n :: xs : List α) : Cycle α), (ys : Cycle α)} + rest) := by
  obtain ⟨hnd, hc⟩ := ring_of_rings h
  have hys : ys ≠ [] := by rintro rfl; simp at he
  by_cases hxs : xs = []
  · subst hxs
    obtain ⟨f, z, hpath, hz⟩ := exists_path hc hys
    obtain rfl : e = f := Option.some.inj (he.symm.trans hpath.first)
    obtain rfl : p = z := Option.some.inj (hp.symm.trans hpath.last)
    rw [listCutBefore, if_pos hz.1, ← singleton_add_singleton_add]
    exact initListHead_rings h hn
  · obtain ⟨f, z, s, w, hpx, hpy, hz, hw⟩ := exists_paths hc hxs hys
    obtain rfl : e = s := Option.some.inj (he.symm.trans hpy.first)
    obtain rfl : p = w := Option.some.inj (hp.symm.trans hpy.last)
    have hne : l.next p ≠ e := by
      rw [hw.1]
      rintro rfl
      exact (List.nodup_append'.mp hnd).2.2 hpx.first_mem hpy.first_mem
    rw [listCutBefore_eq hne, hw.1, hz.2]
    exact cut_rings h hn hpx hpy

theorem listCutBefore_rings {e : α}
    (h : l.Rings ({((p :: (xs ++ e :: ys) : List α) : Cycle α)} + rest))
    (hn : n ∉ nodes ({((p :: (xs ++ e :: ys) : List α) : Cycle α)} + rest)) :
    (listCutBefore l n p e).Rings
      ({((n :: xs : List α) : Cycle α), ((p :: e :: ys : List α) : Cycle α)} + rest) := by
  have hring : ((p :: (xs ++ e :: ys) : List α) : Cycle α)
      = ((xs ++ (e :: ys ++ [p]) : List α) : Cycle α) := by
    rw [Cycle.coe_cons_eq_coe_append, List.append_assoc]
  rw [hring] at h hn
  rw [Cycle.coe_cons_eq_coe_append (e :: ys) p]
  exact listCutBefore_rings_of rfl List.getLast?_concat h hn

/-- With the head for the entry, `list_cut_before` moves all the nodes. -/
theorem listCutBefore_rings_head (h : l.Rings ({((p :: xs : List α) : Cycle α)} + rest))
    (hn : n ∉ nodes ({((p :: xs : List α) : Cycle α)} + rest)) :
    (listCutBefore l n p p).Rings
      ({((n :: xs : List α) : Cycle α), (([p] : List α) : Cycle α)} + rest) := by
  rw [Cycle.coe_cons_eq_coe_append] at h hn
  exact listCutBefore_rings_of rfl rfl h hn

end PastaOS
