import Mathlib.Data.List.Cycle
import PastaOS.Lib.Ring

/-!
# Many rings in one store

`Links.IsRing` is about one ring, seen from its head.  Here a store carries a collection of rings,
and none of them has a head: a ring is a `Cycle` of nodes, any two consecutive ones of which are
`Adjacent`.  The members of the collection have no node in common.

Surgery on rings cuts them into *paths* and joins the paths again.  `Links.link l a b` makes `a` and
`b` neighbours, which is all the joining there is; a path survives it unless it is cut
(`Path.link`).

* `Path.cycle` and `exists_path` turn a ring into a path from any of its nodes, and back;
* `Rings.replace` is the frame rule: who changes some of the rings, and touches no node of the
  others, changes only these.
-/

set_option autoImplicit false

universe u

namespace Links

variable {α : Type u} {l l' : Links α} {a b f g w z : α} {xs ys : List α}

/-! ## Paths -/

/-- The nodes `xs` follow one another, from the first one, `f`, to the last one, `z`. -/
structure Path (l : Links α) (f : α) (xs : List α) (z : α) : Prop where
  /-- Consecutive nodes point at each other. -/
  chain : xs.IsChain l.Adjacent
  /-- The first node. -/
  first : xs.head? = some f
  /-- The last node. -/
  last : xs.getLast? = some z

theorem Path.single (l : Links α) (a : α) : l.Path a [a] a :=
  ⟨List.isChain_singleton a, rfl, rfl⟩

theorem Path.first_mem (h : l.Path f xs z) : f ∈ xs := List.mem_of_head? h.first

theorem Path.last_mem (h : l.Path f xs z) : z ∈ xs := List.mem_of_getLast? h.last

/-- Two paths with neighbouring ends are one. -/
theorem Path.append (h : l.Path f xs z) (h' : l.Path g ys w) (hz : l.Adjacent z g) :
    l.Path f (xs ++ ys) w := by
  refine ⟨List.isChain_append.mpr ⟨h.chain, h'.chain, ?_⟩, ?_, ?_⟩
  · intro x hx y hy
    rw [h.last, Option.mem_some_iff] at hx
    rw [h'.first, Option.mem_some_iff] at hy
    exact hx ▸ hy ▸ hz
  · rw [List.head?_append, h.first, Option.some_or]
  · rw [List.getLast?_append, h'.last, Option.some_or]

/-- A path whose ends are neighbours is a ring. -/
theorem Path.cycle (h : l.Path f xs z) (hz : l.Adjacent z f) :
    (xs : Cycle α).Chain l.Adjacent := by
  cases xs with
  | nil => exact Cycle.Chain.nil _
  | cons x xs =>
    obtain rfl : x = f := Option.some.inj h.first
    rw [Cycle.chain_coe_cons, ← List.cons_append]
    exact (h.append (Path.single l x) hz).chain

/-- A ring is a path whose ends are neighbours. -/
theorem exists_path (h : (xs : Cycle α).Chain l.Adjacent) (hxs : xs ≠ []) :
    ∃ f z, l.Path f xs z ∧ l.Adjacent z f := by
  cases xs with
  | nil => exact absurd rfl hxs
  | cons x xs =>
    rw [Cycle.chain_coe_cons, ← List.cons_append, List.isChain_append] at h
    obtain ⟨hchain, -, hjoin⟩ := h
    have hlast := List.getLast?_eq_some_getLast (List.cons_ne_nil x xs)
    exact ⟨x, _, ⟨hchain, rfl, hlast⟩, hjoin _ hlast x rfl⟩

/-- Both parts of a ring are paths, and the last node of each is linked to the first of the
other. -/
theorem exists_paths (h : ((xs ++ ys : List α) : Cycle α).Chain l.Adjacent) (hxs : xs ≠ [])
    (hys : ys ≠ []) : ∃ f z g w, l.Path f xs z ∧ l.Path g ys w ∧ l.Adjacent z g ∧
      l.Adjacent w f := by
  obtain ⟨f, w, hp, hw⟩ := exists_path h (by simp [hxs])
  obtain ⟨hx, hy, hjoin⟩ := List.isChain_append.mp hp.chain
  have hlast := List.getLast?_eq_some_getLast hxs
  have hfirst := List.head?_eq_some_head hys
  refine ⟨f, _, _, w, ⟨hx, ?_, hlast⟩, ⟨hy, hfirst, ?_⟩, hjoin _ hlast _ hfirst, hw⟩
  · have := hp.first
    rwa [List.head?_append, List.head?_eq_some_head hxs, Option.some_or,
      ← List.head?_eq_some_head hxs] at this
  · have := hp.last
    rwa [List.getLast?_append, List.getLast?_eq_some_getLast hys, Option.some_or,
      ← List.getLast?_eq_some_getLast hys] at this

/-- A ring, cut open behind one of its nodes. -/
theorem path_next (h : ((a :: ys : List α) : Cycle α).Chain l.Adjacent) :
    l.Path (l.next a) (ys ++ [a]) a := by
  rw [Cycle.coe_cons_eq_coe_append] at h
  obtain ⟨f, z, hp, hz⟩ := exists_path h (by simp)
  obtain rfl : a = z := by simpa using hp.last
  exact hz.1 ▸ hp

/-- A ring, cut open in front of one of its nodes. -/
theorem path_prev (h : ((a :: ys : List α) : Cycle α).Chain l.Adjacent) :
    l.Path a (a :: ys) (l.prev a) := by
  obtain ⟨f, z, hp, hz⟩ := exists_path h (by simp)
  obtain rfl : a = f := by simpa using hp.first
  exact hz.2 ▸ hp

theorem next_prev (h : ((a :: ys : List α) : Cycle α).Chain l.Adjacent) :
    l.next (l.prev a) = a := by
  obtain ⟨f, z, hp, hz⟩ := exists_path h (by simp)
  obtain rfl : a = f := by simpa using hp.first
  rw [hz.2, hz.1]

/-- The neighbours of the node a ring is cut open at. -/
theorem exists_path_cons (h : ((a :: ys : List α) : Cycle α).Chain l.Adjacent) (hys : ys ≠ []) :
    l.Path (l.next a) ys (l.prev a) ∧ l.Adjacent a (l.next a) ∧ l.Adjacent (l.prev a) a := by
  have h' : (([a] ++ ys : List α) : Cycle α).Chain l.Adjacent := h
  obtain ⟨f, z, g, w, hp, hq, hz, hw⟩ := exists_paths h' (by simp) hys
  obtain rfl : a = f := Option.some.inj hp.first
  obtain rfl : a = z := Option.some.inj hp.last
  obtain rfl : l.next a = g := hz.1
  obtain rfl : l.prev a = w := hw.2
  exact ⟨hq, hz, hw⟩

/-- A ring of one node is a node that is its own neighbour. -/
theorem chain_single : (([a] : List α) : Cycle α).Chain l.Adjacent ↔ l.Adjacent a a :=
  Cycle.chain_singleton _ _

/-- The ring with the head `h` and the nodes `xs`, seen from its head. -/
theorem isRing_iff {h : α} :
    l.IsRing h xs ↔ (h :: xs).Nodup ∧ ((h :: xs : List α) : Cycle α).Chain l.Adjacent := by
  rw [Cycle.chain_coe_cons]
  exact ⟨fun hr ↦ ⟨hr.nodup, hr.chain⟩, fun ⟨hnd, hc⟩ ↦ ⟨hnd, hc⟩⟩

/-! ## Writes -/

/-- The nodes outside of `S` have not been written. -/
def Local (S : Multiset α) (l l' : Links α) : Prop :=
  ∀ x ∉ S, l'.next x = l.next x ∧ l'.prev x = l.prev x

theorem Local.refl (S : Multiset α) (l : Links α) : Local S l l := fun _ _ ↦ ⟨rfl, rfl⟩

theorem Local.trans {S : Multiset α} {l'' : Links α} (h : Local S l l') (h' : Local S l' l'') :
    Local S l l'' :=
  fun x hx ↦ ⟨(h' x hx).1.trans (h x hx).1, (h' x hx).2.trans (h x hx).2⟩

theorem Local.mono {S T : Multiset α} (h : Local S l l') (hST : S ⊆ T) : Local T l l' :=
  fun x hx ↦ h x fun hxS ↦ hx (hST hxS)

theorem Adjacent.congr {S : Multiset α} (h : l.Adjacent a b) (hl : Local S l l') (ha : a ∉ S)
    (hb : b ∉ S) : l'.Adjacent a b :=
  ⟨(hl a ha).1.trans h.1, (hl b hb).2.trans h.2⟩

theorem Path.congr {S : Multiset α} (h : l.Path f xs z) (hl : Local S l l')
    (hxs : ∀ a ∈ xs, a ∉ S) :
    l'.Path f xs z := by
  refine ⟨h.chain.imp_of_mem_imp ?_, h.first, h.last⟩
  intro a b ha hb hab
  exact hab.congr hl (hxs a ha) (hxs b hb)

theorem chain_congr {S : Multiset α} {c : Cycle α} (h : c.Chain l.Adjacent) (hl : Local S l l')
    (hc : ∀ a ∈ c, a ∉ S) : c.Chain l'.Adjacent := by
  induction c using Cycle.induction_on with
  | nil => exact Cycle.Chain.nil _
  | cons a xs =>
    obtain ⟨f, z, hp, hz⟩ := exists_path h (List.cons_ne_nil a xs)
    have hmem : ∀ x ∈ a :: xs, x ∉ S := fun x hx ↦ hc x (Cycle.mem_coe_iff.mpr hx)
    exact (hp.congr hl hmem).cycle (hz.congr hl (hmem _ hp.last_mem) (hmem _ hp.first_mem))

variable [DecidableEq α]

/-- Make `a` and `b` neighbours. -/
def link (l : Links α) (a b : α) : Links α := (l.setPrev b a).setNext a b

theorem link_next (x : α) : (l.link a b).next x = if x = a then b else l.next x := by
  simp [link]

theorem link_prev (x : α) : (l.link a b).prev x = if x = b then a else l.prev x := by
  simp [link]

theorem adjacent_link (l : Links α) (a b : α) : (l.link a b).Adjacent a b :=
  ⟨by rw [link_next, if_pos rfl], by rw [link_prev, if_pos rfl]⟩

/-- Linking `a` and `b` leaves other neighbours together. -/
theorem Adjacent.link {x y : α} (h : l.Adjacent x y) (hx : x ≠ a) (hy : y ≠ b) :
    (l.link a b).Adjacent x y :=
  ⟨by rw [link_next, if_neg hx, h.1], by rw [link_prev, if_neg hy, h.2]⟩

/-- **A path survives** unless it is cut: `a` may only be its last node, `b` only its first. -/
theorem Path.link (h : l.Path f xs z) (hnd : xs.Nodup) (ha : a ∈ xs → a = z)
    (hb : b ∈ xs → b = f) : (l.link a b).Path f xs z := by
  have hfirst := h.first
  have hlast := h.last
  refine ⟨Frame.isChain ⟨?_, ?_⟩ h.chain, hfirst, hlast⟩
  · intro x hx
    rw [link_next, if_neg]
    rintro rfl
    obtain ⟨init, rfl⟩ := List.getLast?_eq_some_iff.mp hlast
    rw [List.dropLast_concat] at hx
    obtain rfl := ha (List.mem_append_left _ hx)
    exact (List.nodup_append'.mp hnd).2.2 hx (List.mem_singleton_self x)
  · intro x hx
    rw [link_prev, if_neg]
    rintro rfl
    obtain ⟨rest, rfl⟩ := List.head?_eq_some_iff.mp hfirst
    rw [List.tail_cons] at hx
    obtain rfl := hb (List.mem_cons_of_mem _ hx)
    exact (List.nodup_cons.mp hnd).1 hx

theorem local_link {S : Multiset α} (ha : a ∈ S) (hb : b ∈ S) : Local S l (l.link a b) := by
  intro x hx
  rw [link_next, link_prev, if_neg (by rintro rfl; exact hx ha),
    if_neg (by rintro rfl; exact hx hb)]
  exact ⟨rfl, rfl⟩

theorem local_setNext {S : Multiset α} (ha : a ∈ S) : Local S l (l.setNext a b) := by
  intro x hx
  rw [setNext_next, if_neg (by rintro rfl; exact hx ha)]
  exact ⟨rfl, rfl⟩

theorem local_setPrev {S : Multiset α} (ha : a ∈ S) : Local S l (l.setPrev a b) := by
  intro x hx
  rw [setPrev_prev, if_neg (by rintro rfl; exact hx ha)]
  exact ⟨rfl, rfl⟩

/-! ## Collections -/

section Collections

omit [DecidableEq α]

variable {C D : Multiset (Cycle α)} {c : Cycle α}

/-- All the nodes of a collection of rings. -/
def nodes (C : Multiset (Cycle α)) : Multiset α := C.bind Cycle.toMultiset

theorem nodes_add : nodes (C + D) = nodes C + nodes D := Multiset.add_bind ..

theorem nodes_coe (xs : List α) : nodes {(xs : Cycle α)} = xs := by
  rw [nodes, Multiset.singleton_bind, Cycle.coe_toMultiset]

theorem nodes_pair (c d : Cycle α) : nodes {c, d} = nodes {c} + nodes {d} := by
  rw [← nodes_add]
  rfl

theorem mem_nodes : a ∈ nodes C ↔ ∃ c ∈ C, a ∈ c := by
  rw [nodes, Multiset.mem_bind]
  refine exists_congr fun c ↦ and_congr_right fun _ ↦ ?_
  induction c using Cycle.induction_on with
  | nil => simp
  | cons x xs => simp

/-- **The store carries the rings.** -/
structure Rings (l : Links α) (C : Multiset (Cycle α)) : Prop where
  /-- No node occurs twice. -/
  nodup : (nodes C).Nodup
  /-- Consecutive nodes point at each other. -/
  chain : ∀ c ∈ C, c.Chain l.Adjacent

/-- **The frame rule.**  Some of the rings, and nodes on no ring at all, are made into other rings;
the remaining rings stay as they are. -/
theorem Rings.replace {old new rest : Multiset (Cycle α)} (fresh : Multiset α)
    (h : l.Rings (old + rest)) (hfresh : fresh.Nodup) (hout : ∀ a ∈ fresh, a ∉ nodes (old + rest))
    (hnodes : nodes new ≤ fresh + nodes old) (hnew : ∀ c ∈ new, c.Chain l'.Adjacent)
    (hl : Local (fresh + nodes old) l l') : l'.Rings (new + rest) := by
  have hnd : (fresh + nodes (old + rest)).Nodup :=
    Multiset.nodup_add.mpr ⟨hfresh, h.nodup, Multiset.disjoint_left.mpr fun {a} ↦ hout a⟩
  rw [nodes_add, ← add_assoc] at hnd
  refine ⟨?_, ?_⟩
  · rw [nodes_add]
    exact Multiset.nodup_of_le (Multiset.add_le_add_right hnodes) hnd
  · intro c hc
    rcases Multiset.mem_add.mp hc with hc | hc
    · exact hnew c hc
    · refine chain_congr (h.chain c (Multiset.mem_add.mpr (.inr hc))) hl ?_
      intro a ha hmem
      exact Multiset.disjoint_left.mp (Multiset.nodup_add.mp hnd).2.2 hmem
        (mem_nodes.mpr ⟨c, hc, ha⟩)

/-- A collection may lose a ring. -/
theorem Rings.of_add (h : l.Rings (C + D)) : l.Rings D := by
  have hnd := h.nodup
  rw [nodes_add] at hnd
  exact ⟨(Multiset.nodup_add.mp hnd).2.1, fun c hc ↦ h.chain c (Multiset.mem_add.mpr (.inr hc))⟩

/-- One of the rings, seen from one of its nodes. -/
theorem Rings.isRing {h : α} (hr : l.Rings C) (hc : ((h :: xs : List α) : Cycle α) ∈ C) :
    l.IsRing h xs := by
  refine isRing_iff.mpr ⟨?_, hr.chain _ hc⟩
  obtain ⟨D, rfl⟩ := Multiset.exists_cons_of_mem hc
  have hnd := hr.nodup
  rw [← Multiset.singleton_add, nodes_add, nodes_coe] at hnd
  exact Multiset.coe_nodup.mp (Multiset.nodup_add.mp hnd).1

end Collections

end Links
