import Mathlib.Data.List.Chain
import Mathlib.Data.List.Nodup
import Mathlib.Logic.Function.Basic

/-!
# Circular doubly linked lists

A circular doubly linked list is a store of two pointer fields, `next` and `prev`, together with a
head node from which both fields lead around a ring and back.  The nodes are points of an arbitrary
type with decidable equality; nothing here knows what is allocated where.

`Links.IsRing l h xs` says that the ring with head `h` carries exactly the nodes `xs`, in that
order when read along `next`.  It is one statement about *neighbouring* nodes — each points at the
other — and the two traversals are read off it: `IsRing.next_chain` and `IsRing.prev_chain`.

The two pieces of pointer surgery are `Links.splice`, which puts a node between two neighbours, and
`Links.unlink`, which makes the neighbours of a node point at each other.  Each is four or two
field writes, and `IsRing.splice` and `IsRing.unlink` say what they do to the sequence of nodes.
`Links.Frame` is what the proofs need of a sequence of writes: that it leaves alone the fields the
chain actually uses.
-/

set_option autoImplicit false

universe u

/-- The two link fields of every node: `next n` is the node `n->next` points to. -/
structure Links (α : Type u) where
  /-- The `next` field of each node. -/
  next : α → α
  /-- The `prev` field of each node. -/
  prev : α → α

namespace Links

variable {α : Type u} [DecidableEq α]

/-! ## Field writes -/

/-- Write `b` to `a->next`. -/
def setNext (l : Links α) (a b : α) : Links α := { l with next := Function.update l.next a b }

/-- Write `b` to `a->prev`. -/
def setPrev (l : Links α) (a b : α) : Links α := { l with prev := Function.update l.prev a b }

@[simp] theorem setNext_next (l : Links α) (a b x : α) :
    (l.setNext a b).next x = if x = a then b else l.next x := by
  simp [setNext, Function.update_apply]

@[simp] theorem setNext_prev (l : Links α) (a b : α) : (l.setNext a b).prev = l.prev := rfl

@[simp] theorem setPrev_prev (l : Links α) (a b x : α) :
    (l.setPrev a b).prev x = if x = a then b else l.prev x := by
  simp [setPrev, Function.update_apply]

@[simp] theorem setPrev_next (l : Links α) (a b : α) : (l.setPrev a b).next = l.next := rfl

/-! ## Rings -/

omit [DecidableEq α] in
/-- `a` and `b` are neighbours: each points at the other. -/
def Adjacent (l : Links α) (a b : α) : Prop := l.next a = b ∧ l.prev b = a

/-- **The ring with head `h` carries the nodes `xs`.**  From `h` through `xs` and back to `h`, any
two consecutive nodes are neighbours, and no node occurs twice. -/
structure IsRing (l : Links α) (h : α) (xs : List α) : Prop where
  /-- No node occurs twice, and the head is not a member. -/
  nodup : (h :: xs).Nodup
  /-- Consecutive nodes point at each other. -/
  chain : (h :: (xs ++ [h])).IsChain l.Adjacent

section Traversal

omit [DecidableEq α]

variable {l : Links α} {h : α} {xs : List α}

/-- Following `next` from the head visits `xs` in order and comes back to the head. -/
theorem IsRing.next_chain (hr : l.IsRing h xs) :
    (h :: (xs ++ [h])).IsChain fun a b ↦ l.next a = b :=
  hr.chain.imp fun _ _ hab ↦ hab.1

/-- Following `prev` from the head visits `xs` in the opposite order and comes back. -/
theorem IsRing.prev_chain (hr : l.IsRing h xs) :
    (h :: (xs.reverse ++ [h])).IsChain fun a b ↦ l.prev a = b := by
  have hrev : (h :: (xs.reverse ++ [h])) = (h :: (xs ++ [h])).reverse := by simp
  rw [hrev, List.isChain_reverse]
  exact hr.chain.imp fun _ _ hab ↦ hab.2

theorem IsRing.head_notMem (hr : l.IsRing h xs) : h ∉ xs :=
  (List.nodup_cons.mp hr.nodup).1

theorem IsRing.next_nil (hr : l.IsRing h []) : l.next h = h := by
  have hc := hr.chain
  simp only [List.nil_append, List.isChain_cons_cons] at hc
  exact hc.1.1

theorem IsRing.next_cons {x : α} (hr : l.IsRing h (x :: xs)) : l.next h = x := by
  have hc := hr.chain
  simp only [List.cons_append, List.isChain_cons_cons] at hc
  exact hc.1.1

/-- The first node, read off the head's `next` field. -/
theorem IsRing.next_head (hr : l.IsRing h xs) : l.next h = xs.headD h := by
  cases xs with
  | nil => exact hr.next_nil
  | cons x xs => exact hr.next_cons

/-- The last node, read off the head's `prev` field. -/
theorem IsRing.prev_head (hr : l.IsRing h xs) : l.prev h = xs.getLastD h := by
  have hc := hr.prev_chain
  rcases List.eq_nil_or_concat xs with rfl | ⟨ys, y, rfl⟩
  · simpa using hc
  · simp only [List.concat_eq_append, List.reverse_append, List.reverse_singleton,
      List.cons_append, List.isChain_cons_cons] at hc
    simpa using hc.1

/-- A chain of pointers is determined by where it starts, as long as it stops at its first return
to `h`. -/
theorem next_chain_unique {f : α → α} {a : α} {ys : List α} (hx : h ∉ xs) (hy : h ∉ ys)
    (cx : (a :: (xs ++ [h])).IsChain fun a b ↦ f a = b)
    (cy : (a :: (ys ++ [h])).IsChain fun a b ↦ f a = b) : xs = ys := by
  induction xs generalizing a ys with
  | nil =>
    cases ys with
    | nil => rfl
    | cons y ys =>
      simp only [List.nil_append, List.cons_append, List.isChain_cons_cons] at cx cy
      exact absurd (cx.1.symm.trans cy.1) fun he ↦ hy (he ▸ List.mem_cons_self)
  | cons x xs ih =>
    cases ys with
    | nil =>
      simp only [List.nil_append, List.cons_append, List.isChain_cons_cons] at cx cy
      exact absurd (cy.1.symm.trans cx.1) fun he ↦ hx (he ▸ List.mem_cons_self)
    | cons y ys =>
      simp only [List.cons_append, List.isChain_cons_cons] at cx cy
      obtain rfl : x = y := cx.1.symm.trans cy.1
      rw [ih (fun hm ↦ hx (List.mem_cons_of_mem _ hm)) (fun hm ↦ hy (List.mem_cons_of_mem _ hm))
        cx.2 cy.2]

/-- **The links determine the nodes.** -/
theorem IsRing.unique {ys : List α} (hx : l.IsRing h xs) (hy : l.IsRing h ys) : xs = ys :=
  next_chain_unique hx.head_notMem hy.head_notMem hx.next_chain hy.next_chain

/-- Walking `next` from `a` along a chain reaches every node of it. -/
theorem exists_iterate_of_mem_chain {f : α → α} {a x : α}
    (hc : (a :: xs).IsChain fun a b ↦ f a = b) (hx : x ∈ xs) : ∃ n, f^[n + 1] a = x := by
  induction xs generalizing a with
  | nil => simp at hx
  | cons y ys ih =>
    simp only [List.isChain_cons_cons] at hc
    rcases List.mem_cons.mp hx with rfl | hx
    · exact ⟨0, hc.1⟩
    · obtain ⟨n, hn⟩ := ih hc.2 hx
      exact ⟨n + 1, by rw [Function.iterate_succ_apply, hc.1, hn]⟩

/-- Nothing outside the ring is ever reached by walking `next` from one of its nodes. -/
theorem IsRing.iterate_mem (hr : l.IsRing h xs) (n : ℕ) : l.next^[n] h ∈ h :: xs := by
  have hstep : ∀ a ∈ h :: xs, l.next a ∈ h :: xs := by
    intro a ha
    obtain ⟨pre, post, hsplit⟩ := List.append_of_mem ha
    have hlist : h :: (xs ++ [h]) = pre ++ a :: (post ++ [h]) := by
      rw [← List.cons_append, hsplit, List.append_assoc, List.cons_append]
    have hc := hr.next_chain
    rw [hlist] at hc
    have hmem : ∀ b ∈ post, b ∈ h :: xs := fun b hb ↦ by rw [hsplit]; simp [hb]
    cases post with
    | nil =>
      have hn : l.next a = h := by
        simpa using (List.isChain_append_cons_cons.mp hc).2.1
      exact hn ▸ List.mem_cons_self
    | cons b post =>
      have hn : l.next a = b := (List.isChain_append_cons_cons.mp hc).2.1
      exact hn ▸ hmem b List.mem_cons_self
  induction n with
  | zero => exact List.mem_cons_self
  | succ n ih => rw [Function.iterate_succ_apply']; exact hstep _ ih

/-- The nodes other than the head that walking `next` from the head reaches are the members. -/
theorem IsRing.mem_iff (hr : l.IsRing h xs) {x : α} (hx : x ≠ h) :
    x ∈ xs ↔ ∃ n, l.next^[n] h = x := by
  constructor
  · intro hm
    obtain ⟨n, hn⟩ := exists_iterate_of_mem_chain hr.next_chain (List.mem_append_left [h] hm)
    exact ⟨n + 1, hn⟩
  · rintro ⟨n, rfl⟩
    exact (List.mem_cons.mp (hr.iterate_mem n)).resolve_left hx

end Traversal

/-! ## Pointer surgery -/

/-- `l'` agrees with `l` on the fields a chain through `xs` uses: `next` on all but the last node
and `prev` on all but the first. -/
structure Frame (l l' : Links α) (xs : List α) : Prop where
  /-- `next` is unchanged except perhaps at the last node. -/
  next : ∀ a ∈ xs.dropLast, l'.next a = l.next a
  /-- `prev` is unchanged except perhaps at the first node. -/
  prev : ∀ a ∈ xs.tail, l'.prev a = l.prev a

omit [DecidableEq α] in
theorem Frame.isChain {l l' : Links α} {xs : List α} (hf : Frame l l' xs)
    (hc : xs.IsChain l.Adjacent) : xs.IsChain l'.Adjacent := by
  induction xs with
  | nil => exact List.isChain_nil
  | cons a xs ih =>
    cases xs with
    | nil => exact List.isChain_singleton a
    | cons b xs =>
      rw [List.isChain_cons_cons] at hc ⊢
      have hnext : l'.next a = l.next a := hf.next a (by simp)
      have hprev : l'.prev b = l.prev b := hf.prev b (by simp)
      refine ⟨⟨hnext.trans hc.1.1, hprev.trans hc.1.2⟩, ih ⟨?_, ?_⟩ hc.2⟩
      · intro x hx; exact hf.next x (by simp [hx])
      · intro x hx; exact hf.prev x (List.mem_of_mem_tail hx)

/-- Put the node `n` between `p` and `s`. -/
def splice (l : Links α) (n p s : α) : Links α :=
  (((l.setPrev s n).setNext n s).setPrev n p).setNext p n

/-- Make the neighbours `p` and `s` of a node point at each other. -/
def unlink (l : Links α) (p s : α) : Links α := (l.setPrev s p).setNext p s

section Surgery

variable {l : Links α} {h n : α} {xs ys : List α}

theorem splice_next (p s x : α) : (l.splice n p s).next x
    = if x = p then n else if x = n then s else l.next x := by
  simp [splice]

theorem splice_prev (p s x : α) : (l.splice n p s).prev x
    = if x = n then p else if x = s then n else l.prev x := by
  simp [splice]

theorem unlink_next (p s x : α) : (l.unlink p s).next x = if x = p then s else l.next x := by
  simp [unlink]

theorem unlink_prev (p s x : α) : (l.unlink p s).prev x = if x = s then p else l.prev x := by
  simp [unlink]

omit [DecidableEq α] in
/-- The ring `xs ++ ys` around `h`, cut open between `xs` and `ys`: the nodes up to the cut end in
`p`, those after it start with `s`. -/
structure Gap (h : α) (xs ys pre : List α) (p s : α) (post : List α) : Prop where
  /-- The nodes before the cut. -/
  left : h :: xs = pre ++ [p]
  /-- The nodes after the cut, the head included. -/
  right : ys ++ [h] = s :: post
  /-- `p` is the last member before the cut, or the head. -/
  last : xs.getLastD h = p
  /-- `s` is the first member after the cut, or the head. -/
  first : ys.headD h = s
  /-- No node is on both sides, but for the head. -/
  apart : ∀ a ∈ xs, a ∉ s :: post
  /-- Nor does a member after the cut occur before it. -/
  apart' : ∀ a ∈ ys, a ∉ pre ++ [p]
  nodup_left : (pre ++ [p]).Nodup
  nodup_right : (s :: post).Nodup

omit [DecidableEq α] in
theorem exists_gap (hnd : (h :: (xs ++ ys)).Nodup) : ∃ pre p s post, Gap h xs ys pre p s post := by
  have hleft := (List.dropLast_append_getLast (List.cons_ne_nil h xs)).symm
  obtain ⟨s, post, hright⟩ := List.exists_cons_of_ne_nil (show ys ++ [h] ≠ [] by simp)
  rw [List.nodup_cons, List.nodup_append', List.mem_append, not_or] at hnd
  obtain ⟨⟨hhx, hhy⟩, hx, hy, hdisj⟩ := hnd
  refine ⟨_, _, s, post, hleft, hright, ?_, ?_, ?_, ?_, ?_, ?_⟩
  · rw [List.getLast_eq_getLastD]
  · cases ys with
    | nil => simpa using congrArg (·.headD h) hright
    | cons y ys => simpa using congrArg (·.headD h) hright
  · intro a ha hs
    rw [← hright, List.mem_append, List.mem_singleton] at hs
    rcases hs with hs | rfl
    exacts [hdisj ha hs, hhx ha]
  · intro a ha hp
    rw [← hleft, List.mem_cons] at hp
    rcases hp with rfl | hp
    exacts [hhy ha, hdisj hp ha]
  · rw [← hleft]; exact List.nodup_cons.mpr ⟨hhx, hx⟩
  · rw [← hright, List.nodup_append']; exact ⟨hy, by simp, by simpa using hhy⟩

section Gap

omit [DecidableEq α]

variable {pre post : List α} {p s : α}

theorem Gap.ring_eq (g : Gap h xs ys pre p s post) :
    h :: (xs ++ ys ++ [h]) = pre ++ p :: s :: post := by
  rw [List.append_assoc, g.right, ← List.cons_append, g.left, List.append_assoc]; rfl

/-- A node put in the cut goes between `p` and `s`. -/
theorem Gap.insert_eq (g : Gap h xs ys pre p s post) (n : α) :
    h :: (xs ++ n :: ys ++ [h]) = pre ++ p :: n :: s :: post := by
  rw [List.append_assoc, List.cons_append, g.right, ← List.cons_append, g.left,
    List.append_assoc]
  rfl

theorem Gap.ne_last (g : Gap h xs ys pre p s post) {a : α} (ha : a ∈ pre) : a ≠ p := by
  rintro rfl
  exact (List.nodup_append'.mp g.nodup_left).2.2 ha (List.mem_singleton_self a)

theorem Gap.ne_first (g : Gap h xs ys pre p s post) {a : α} (ha : a ∈ post) : a ≠ s := by
  rintro rfl
  exact (List.nodup_cons.mp g.nodup_right).1 ha

/-- A change of `p->next`, of `s->prev` and of nodes off the ring leaves both sides of the cut
as they were. -/
theorem Gap.frame (g : Gap h xs ys pre p s post) (l l' : Links α)
    (hnext : ∀ a ∈ h :: (xs ++ ys), a ≠ p → l'.next a = l.next a)
    (hprev : ∀ a ∈ h :: (xs ++ ys), a ≠ s → l'.prev a = l.prev a) :
    Frame l l' (pre ++ [p]) ∧ Frame l l' (s :: post) := by
  refine ⟨⟨?_, ?_⟩, ⟨?_, ?_⟩⟩
  · intro a ha
    rw [List.dropLast_concat] at ha
    have hm : a ∈ h :: xs := g.left ▸ List.mem_append_left _ ha
    exact hnext a (List.mem_append_left ys hm) (g.ne_last ha)
  · intro a ha
    rw [← g.left, List.tail_cons] at ha
    refine hprev a (List.mem_cons_of_mem h (List.mem_append_left _ ha)) ?_
    rintro rfl
    exact g.apart a ha List.mem_cons_self
  · intro a ha
    rw [← g.right, List.dropLast_concat] at ha
    refine hnext a (List.mem_cons_of_mem h (List.mem_append_right _ ha)) ?_
    rintro rfl
    exact g.apart' a ha (by simp)
  · intro a ha
    have hm : a ∈ ys ++ [h] := g.right ▸ List.mem_cons_of_mem s ha
    have hm' : a ∈ h :: (xs ++ ys) := by
      simp only [List.mem_append, List.mem_cons, List.not_mem_nil, or_false] at hm ⊢
      tauto
    exact hprev a hm' (g.ne_first ha)

end Gap

/-- **Splicing inserts.**  Putting a fresh node between the last of `xs` (or the head) and the
first of `ys` (or the head) inserts it there. -/
theorem IsRing.splice (hr : l.IsRing h (xs ++ ys)) (hn : n ∉ h :: (xs ++ ys)) :
    (l.splice n (xs.getLastD h) (ys.headD h)).IsRing h (xs ++ n :: ys) := by
  obtain ⟨pre, p, s, post, g⟩ := exists_gap hr.nodup
  rw [g.last, g.first]
  obtain ⟨hleft, -, hright⟩ := List.isChain_append_cons_cons.mp (g.ring_eq ▸ hr.chain)
  have hne : ∀ a ∈ h :: (xs ++ ys), a ≠ n := by rintro a ha rfl; exact hn ha
  have hp : n ≠ p := (hne p (List.mem_append_left ys (g.left ▸ by simp : p ∈ h :: xs))).symm
  have hs : s ≠ n := by
    have hm : s ∈ ys ++ [h] := g.right ▸ List.mem_cons_self
    refine hne s ?_
    simp only [List.mem_append, List.mem_cons, List.not_mem_nil, or_false] at hm ⊢
    tauto
  obtain ⟨hfl, hfr⟩ := g.frame l (l.splice n p s)
    (fun a ha hap ↦ by rw [splice_next, if_neg hap, if_neg (hne a ha)])
    (fun a ha has ↦ by rw [splice_prev, if_neg (hne a ha), if_neg has])
  refine ⟨?_, ?_⟩
  · rw [← List.cons_append, List.perm_middle.nodup_iff]
    exact List.nodup_cons.mpr ⟨hn, hr.nodup⟩
  · rw [g.insert_eq, List.isChain_append_cons_cons, List.isChain_cons_cons]
    exact ⟨hfl.isChain hleft, ⟨by simp [splice_next], by simp [splice_prev]⟩,
      ⟨by simp [splice_next, hp], by simp [splice_prev, hs]⟩, hfr.isChain hright⟩

omit [DecidableEq α] in
/-- What a member's own fields hold: the nodes before and after it. -/
theorem IsRing.neighbours (hr : l.IsRing h (xs ++ n :: ys)) :
    l.prev n = xs.getLastD h ∧ l.next n = ys.headD h := by
  have hnd : (h :: (xs ++ ys)).Nodup := by
    have := hr.nodup
    rw [← List.cons_append, List.perm_middle.nodup_iff] at this
    exact (List.nodup_cons.mp this).2
  obtain ⟨pre, p, s, post, g⟩ := exists_gap hnd
  rw [g.last, g.first]
  have hc := g.insert_eq n ▸ hr.chain
  rw [List.isChain_append_cons_cons, List.isChain_cons_cons] at hc
  exact ⟨hc.2.1.2, hc.2.2.1.1⟩

/-- **Unlinking removes.**  Making the two neighbours of a member point at each other takes it out
of the ring; its own fields are left as they were. -/
theorem IsRing.unlink (hr : l.IsRing h (xs ++ n :: ys)) :
    (l.unlink (l.prev n) (l.next n)).IsRing h (xs ++ ys) := by
  have hnd : (h :: (xs ++ ys)).Nodup := by
    have := hr.nodup
    rw [← List.cons_append, List.perm_middle.nodup_iff] at this
    exact (List.nodup_cons.mp this).2
  obtain ⟨pre, p, s, post, g⟩ := exists_gap hnd
  obtain ⟨hp, hs⟩ := hr.neighbours
  rw [hp, hs, g.last, g.first]
  have hc := g.insert_eq n ▸ hr.chain
  rw [List.isChain_append_cons_cons, List.isChain_cons_cons] at hc
  obtain ⟨hleft, -, -, hright⟩ := hc
  obtain ⟨hfl, hfr⟩ := g.frame l (l.unlink p s)
    (fun a _ hap ↦ by rw [unlink_next, if_neg hap])
    (fun a _ has ↦ by rw [unlink_prev, if_neg has])
  refine ⟨hnd, ?_⟩
  rw [g.ring_eq, List.isChain_append_cons_cons]
  exact ⟨hfl.isChain hleft, ⟨by simp [unlink_next], by simp [unlink_prev]⟩, hfr.isChain hright⟩

omit [DecidableEq α] in
/-- Writing the fields of a node that is not on the ring does not disturb it. -/
theorem IsRing.congr {l' : Links α} (hr : l.IsRing h xs)
    (hnext : ∀ a ∈ h :: xs, l'.next a = l.next a)
    (hprev : ∀ a ∈ h :: xs, l'.prev a = l.prev a) : l'.IsRing h xs := by
  refine ⟨hr.nodup, Frame.isChain ⟨?_, ?_⟩ hr.chain⟩
  · intro a ha
    rw [← List.cons_append, List.dropLast_concat] at ha
    exact hnext a ha
  · intro a ha
    have hm : a ∈ h :: xs := by
      simp only [List.tail_cons, List.mem_append, List.mem_cons, List.not_mem_nil,
        or_false] at ha ⊢
      tauto
    exact hprev a hm

end Surgery

end Links
