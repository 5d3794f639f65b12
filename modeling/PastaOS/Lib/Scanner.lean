import Mathlib.Data.List.Basic

/-!
# Scanners

A scanner reads a value off the front of a word and returns what is left, or fails.  The scanners of
interest look at the word one letter at a time and stop at the first letter they cannot use, at the
latest at a letter `z` that ends every word.  `Stops z f` says so:

* what `f` reads does not depend on what follows the letter it stops at;
* on a word that contains `z` it succeeds, and it does not go past the first `z`.

`StopsAt.stop` and `StopsAt.step` establish this letter by letter, `Stops.map` and `Stops.bind` for
scanners made from others.

`items` reads one value after another up to the `z`.  When the values read off a word say by
themselves where they end (`Reads`), they stay what they are when another word follows:
`items_append`.
-/

set_option autoImplicit false

universe u v w

/-- A scanner for values in `β` over the alphabet `α`. -/
abbrev Scanner (α : Type u) (β : Type v) := List α → Option (β × List α)

namespace Scanner

variable {α : Type u} {β : Type v} {γ : Type w}

/-- A scanner that reads nothing and has a value. -/
protected def pure (b : β) : Scanner α β := fun w ↦ some (b, w)

/-- Run a scanner, then another one that may depend on what the first one read. -/
protected def bind (f : Scanner α β) (g : β → Scanner α γ) : Scanner α γ :=
  fun w ↦ (f w).bind fun x ↦ g x.1 x.2

/-- On the word `w`, the scanner stops in time and does not look ahead. -/
structure StopsAt (z : α) (f : Scanner α β) (w : List α) : Prop where
  /-- What follows the letter the scanner stops at does not matter. -/
  blind : ∀ b c post, f w = some (b, c :: post) →
    ∃ pre, w = pre ++ c :: post ∧ ∀ post', f (pre ++ c :: post') = some (b, c :: post')
  /-- The scanner succeeds in front of a `z`, and leaves it unread. -/
  finds : z ∈ w → ∃ b r, f w = some (b, r) ∧ z ∈ r

/-- The scanner stops in time and does not look ahead. -/
def Stops (z : α) (f : Scanner α β) : Prop := ∀ w, StopsAt z f w

section Rules

variable {f f' : Scanner α β} {g : β → Scanner α γ} {z d : α} {b : β} {s : List α}

theorem StopsAt.nil (h : f [] = none) : StopsAt z f [] :=
  ⟨by simp [h], by simp⟩

/-- A letter the scanner stops at. -/
theorem StopsAt.stop (h : ∀ s, f (d :: s) = some (b, d :: s)) : StopsAt z f (d :: s) := by
  refine ⟨?_, fun hz ↦ ⟨b, d :: s, h s, hz⟩⟩
  intro b' c post hf
  rw [h] at hf
  simp only [Option.some.injEq, Prod.mk.injEq, List.cons.injEq] at hf
  obtain ⟨rfl, rfl, rfl⟩ := hf
  exact ⟨[], rfl, h⟩

/-- A scanner that has read a letter stops where the scanner for the rest does. -/
theorem StopsAt.step (h : ∀ s, f (d :: s) = f' s) (hd : d ≠ z) (hf' : StopsAt z f' s) :
    StopsAt z f (d :: s) := by
  refine ⟨?_, ?_⟩
  · intro b' c post hf
    rw [h] at hf
    obtain ⟨pre, rfl, hpre⟩ := hf'.blind b' c post hf
    exact ⟨d :: pre, rfl, fun post' ↦ by rw [List.cons_append, h, hpre]⟩
  · intro hz
    rw [h]
    exact hf'.finds (List.mem_of_ne_of_mem hd.symm hz)

theorem Stops.pure (b : β) : Stops z (Scanner.pure b : Scanner α β) := by
  rintro (_ | ⟨d, s⟩)
  · exact ⟨by simp [Scanner.pure], by simp⟩
  · exact .stop fun s ↦ rfl

/-- **Scanners that stop at the end can be run one after another.** -/
theorem Stops.bind (hf : Stops z f) (hg : ∀ b, Stops z (g b)) : Stops z (f.bind g) := by
  refine fun w ↦ ⟨fun b' c post h ↦ ?_, fun hz ↦ ?_⟩
  · obtain ⟨⟨b, r⟩, hfw, hgr⟩ := Option.bind_eq_some_iff.mp h
    obtain ⟨pre₂, rfl, hpost₂⟩ := (hg b r).blind b' c post hgr
    -- the letter the first scanner stopped at does not depend on what follows `c`
    obtain ⟨d, hd⟩ : ∃ d, ∀ post', ∃ post₁, pre₂ ++ c :: post' = d :: post₁ := by
      cases pre₂ with
      | nil => exact ⟨c, fun post' ↦ ⟨post', rfl⟩⟩
      | cons d pre₂ => exact ⟨d, fun post' ↦ ⟨pre₂ ++ c :: post', rfl⟩⟩
    obtain ⟨post₁, hpost₁⟩ := hd post
    rw [hpost₁] at hfw
    obtain ⟨pre₁, rfl, hpre₁⟩ := (hf w).blind b d post₁ hfw
    refine ⟨pre₁ ++ pre₂, by rw [List.append_assoc, hpost₁], ?_⟩
    intro post'
    obtain ⟨post₁', hpost₁'⟩ := hd post'
    rw [Scanner.bind, List.append_assoc, hpost₁', hpre₁, Option.bind_some, ← hpost₁']
    exact hpost₂ post'
  · obtain ⟨b, r, hfw, hr⟩ := (hf w).finds hz
    obtain ⟨b', r', hgr, hr'⟩ := (hg b r).finds hr
    exact ⟨b', r', by rw [Scanner.bind, hfw, Option.bind_some, hgr], hr'⟩

/-- Changing the value that was read does not change where a scanner stops. -/
theorem StopsAt.map {w : List α} (hf : StopsAt z f w) (p : β → γ) :
    StopsAt z (fun w ↦ (f w).map fun x ↦ (p x.1, x.2)) w := by
  refine ⟨?_, ?_⟩
  · intro b' c post h
    obtain ⟨⟨b, r⟩, hfw, hbr⟩ := Option.map_eq_some_iff.mp h
    simp only [Prod.mk.injEq] at hbr
    obtain ⟨rfl, rfl⟩ := hbr
    obtain ⟨pre, rfl, hpre⟩ := hf.blind b c post hfw
    exact ⟨pre, rfl, fun post' ↦ by simp only [hpre, Option.map_some]⟩
  · intro hz
    obtain ⟨b, r, hfw, hr⟩ := hf.finds hz
    exact ⟨p b, r, by simp only [hfw, Option.map_some], hr⟩

/-- In front of a `z` at the end of the word, the scanner leaves an end of the word and the `z`. -/
theorem Stops.leaves (hf : Stops z f) (w : List α) :
    ∃ b r, f (w ++ [z]) = some (b, r ++ [z]) ∧ r <:+ w := by
  obtain ⟨b, r, hfw, hz⟩ := (hf (w ++ [z])).finds (List.mem_append_right w List.mem_cons_self)
  obtain ⟨c, post, rfl⟩ := List.exists_cons_of_ne_nil (List.ne_nil_of_mem hz)
  obtain ⟨pre, hpre, -⟩ := (hf (w ++ [z])).blind b c post hfw
  rcases List.eq_nil_or_concat (c :: post) with hnil | ⟨r, d, hr⟩
  · exact absurd hnil (List.cons_ne_nil c post)
  · rw [hr, List.concat_eq_append, ← List.append_assoc] at hpre
    obtain ⟨hw, hd⟩ := List.append_inj' hpre rfl
    obtain rfl := List.singleton_inj.mp hd
    exact ⟨b, r, by rw [hfw, hr, List.concat_eq_append], pre, hw.symm⟩

/-- What is left of a word is no longer than the word. -/
theorem Stops.length_le (hf : Stops z f) {w : List α} {c : α} {post : List α}
    (h : f w = some (b, c :: post)) : (c :: post).length ≤ w.length := by
  obtain ⟨pre, rfl, -⟩ := (hf w).blind b c post h
  simp

end Rules

section Items

variable [DecidableEq α]

/-- The values read one after another up to a `z`, for at most `fuel` of them. -/
def itemsLoop (z : α) (f : Scanner α β) : ℕ → List α → Option (List β)
  | 0, _ => none
  | _ + 1, [] => none
  | fuel + 1, c :: w =>
    if c = z then some []
    else (f (c :: w)).bind fun x ↦ (itemsLoop z f fuel x.2).map (x.1 :: ·)

/-- The values read one after another up to a `z`. -/
def items (z : α) (f : Scanner α β) (w : List α) : List β := (itemsLoop z f w.length w).getD []

/-- The scanner reads something off every word up to the `z`. -/
def Advances (z : α) (f : Scanner α β) : Prop :=
  ∀ c w, c ≠ z → z ∈ w → ∃ b r, f (c :: w) = some (b, r) ∧ z ∈ r ∧ r.length ≤ w.length

/-- The scanner reads the value `b` off the word `pre`, whatever follows. -/
def Reads (f : Scanner α β) (b : β) (pre : List α) : Prop :=
  ∀ post, f (pre ++ post) = some (b, post)

variable {f : Scanner α β} {z c : α} {w w' r : List α} {b : β} {fuel : ℕ}

/-- A `z` is found in time. -/
theorem itemsLoop_isSome (hf : Advances z f) (hz : z ∈ w) (hfuel : w.length ≤ fuel) :
    ∃ bs, itemsLoop z f fuel w = some bs := by
  induction fuel generalizing w with
  | zero => simp [List.length_eq_zero_iff.mp (Nat.le_zero.mp hfuel)] at hz
  | succ fuel ih =>
    obtain _ | ⟨c, w⟩ := w
    · simp at hz
    · rw [itemsLoop]
      by_cases hc : c = z
      · exact ⟨[], if_pos hc⟩
      · obtain ⟨b, r, hb, hr, hlen⟩ := hf c w hc (List.mem_of_ne_of_mem (Ne.symm hc) hz)
        rw [List.length_cons] at hfuel
        obtain ⟨bs, hbs⟩ := ih hr (by omega)
        exact ⟨b :: bs, by rw [if_neg hc, hb, Option.bind_some, hbs, Option.map_some]⟩

/-- With more fuel the loop reads the same values. -/
theorem itemsLoop_mono {fuel' : ℕ} (hle : fuel ≤ fuel') {bs : List β}
    (h : itemsLoop z f fuel w = some bs) : itemsLoop z f fuel' w = some bs := by
  induction fuel generalizing w bs fuel' with
  | zero => simp [itemsLoop] at h
  | succ fuel ih =>
    obtain ⟨fuel', rfl⟩ : ∃ n, fuel' = n + 1 := ⟨fuel' - 1, by omega⟩
    obtain _ | ⟨c, w⟩ := w
    · simp [itemsLoop] at h
    · rw [itemsLoop] at h ⊢
      by_cases hc : c = z
      · rwa [if_pos hc] at h ⊢
      · rw [if_neg hc] at h ⊢
        obtain ⟨x, hx, h⟩ := Option.bind_eq_some_iff.mp h
        obtain ⟨bs', hbs', rfl⟩ := Option.map_eq_some_iff.mp h
        rw [hx, Option.bind_some, ih (by omega) hbs', Option.map_some]

theorem itemsLoop_eq (hf : Advances z f) (hz : z ∈ w) (hfuel : w.length ≤ fuel) :
    itemsLoop z f fuel w = some (items z f w) := by
  obtain ⟨bs, hbs⟩ := itemsLoop_isSome hf hz (Nat.le_refl _)
  rw [itemsLoop_mono hfuel hbs, items, hbs, Option.getD_some]

theorem items_stop (w : List α) : items z f (z :: w) = [] := by
  rw [items, List.length_cons, itemsLoop, if_pos rfl, Option.getD_some]

/-- The first of the values is read, and the others are read from what is left. -/
theorem items_cons (hf : Advances z f) (hc : c ≠ z) (hz : z ∈ w) (h : f (c :: w) = some (b, r)) :
    items z f (c :: w) = b :: items z f r := by
  obtain ⟨b', r', h', hr, hlen⟩ := hf c w hc hz
  obtain ⟨rfl, rfl⟩ := Prod.mk.inj (Option.some.inj (h.symm.trans h'))
  rw [items, List.length_cons, itemsLoop, if_neg hc, h, Option.bind_some, itemsLoop_eq hf hr hlen,
    Option.map_some, Option.getD_some]

/-- What is true of everything that the scanner reads is true of the values of a word. -/
theorem items_forall {P : β → Prop} (hP : ∀ w b r, f w = some (b, r) → P b) :
    ∀ b ∈ items z f w, P b := by
  have hloop (fuel : ℕ) (w : List α) (bs : List β) (h : itemsLoop z f fuel w = some bs) :
      ∀ b ∈ bs, P b := by
    induction fuel generalizing w bs with
    | zero => simp [itemsLoop] at h
    | succ fuel ih =>
      cases w with
      | nil => simp [itemsLoop] at h
      | cons c w =>
        rw [itemsLoop] at h
        split_ifs at h
        · simp [← Option.some.inj h]
        · obtain ⟨⟨b, r⟩, hb, h⟩ := Option.bind_eq_some_iff.mp h
          obtain ⟨bs', hbs', rfl⟩ := Option.map_eq_some_iff.mp h
          exact List.forall_mem_cons.mpr ⟨hP _ _ _ hb, ih r bs' hbs'⟩
  cases h : itemsLoop z f w.length w with
  | none => simp [items, h]
  | some bs => simpa [items, h] using hloop _ _ _ h

/-- **The values of two words** are those of the first one followed by those of the second, when
those of the first one say where they end. -/
theorem items_append (hf : Advances z f) (h0 : z ∉ w) (hz : z ∈ w')
    (hreads : ∀ b ∈ items z f (w ++ [z]), ∀ v r, f v = some (b, r) →
      ∃ pre, v = pre ++ r ∧ Reads f b pre) :
    items z f (w ++ w') = items z f (w ++ [z]) ++ items z f w' := by
  induction hn : w.length using Nat.strongRecOn generalizing w with
  | _ n ih =>
    obtain _ | ⟨c, w⟩ := w
    · rw [List.nil_append, List.nil_append, items_stop, List.nil_append]
    · have hc : c ≠ z := fun h ↦ h0 (h ▸ List.mem_cons_self)
      have hend : z ∈ w ++ [z] := List.mem_append_right _ List.mem_cons_self
      obtain ⟨b, r, hb, hr, hlen⟩ := hf c (w ++ [z]) hc hend
      have hitems : items z f (c :: w ++ [z]) = b :: items z f r := items_cons hf hc hend hb
      obtain ⟨pre, hpre, hread⟩ := hreads b (by rw [hitems]; exact List.mem_cons_self) _ r hb
      -- what is left is the rest of the first word
      obtain ⟨v, rfl⟩ : ∃ v, r = v ++ [z] := by
        rcases List.eq_nil_or_concat r with rfl | ⟨v, d, rfl⟩
        · simp at hr
        · rw [List.concat_eq_append] at hpre ⊢
          rw [← List.cons_append, ← List.append_assoc] at hpre
          exact ⟨v, by rw [(List.append_inj' hpre rfl).2]⟩
      rw [← List.cons_append, ← List.append_assoc] at hpre
      have hw : c :: w = pre ++ v := (List.append_inj' hpre rfl).1
      rw [List.length_append, List.length_append] at hlen
      have hv : v.length < n := by rw [← hn, List.length_cons]; omega
      have h0' : z ∉ v := fun h ↦ h0 (hw ▸ List.mem_append_right _ h)
      have hb' : f (c :: (w ++ w')) = some (b, v ++ w') := by
        rw [← List.cons_append, hw, List.append_assoc]
        exact hread _
      rw [List.cons_append, items_cons hf hc (List.mem_append_right _ hz) hb',
        ih _ hv h0' (fun b hb ↦ hreads b (by rw [hitems]; exact List.mem_cons_of_mem _ hb)) rfl]
      rw [← List.cons_append, hitems, List.cons_append]

end Items

end Scanner
