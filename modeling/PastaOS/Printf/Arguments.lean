import PastaOS.Printf.Format
import PastaOS.Printf.Text

/-!
# Which arguments a format takes

How many words of the `va_list` an item takes is written in the format: `Item.words`.
`Takes k f` says that `f` takes exactly `k` words off its arguments, the same whatever comes behind
them; `Takes.bind` adds the words up.  `runItems_takes` is the result: a format takes the words its
items take, and no argument behind them matters to what it prints.
-/

set_option autoImplicit false

namespace PastaOS

/-! ## Counting words -/

/-- The words a number in a directive takes. -/
def Field.words : Field → ℕ
  | .star => 1
  | _ => 0

/-- The words a field width and a precision take. -/
def Spec.words (s : Spec) : ℕ := s.width.words + s.precision.elim 0 Field.words

/-- The words a conversion takes. -/
def convertWords (qualifier : Qualifier) (c : Byte) : ℕ :=
  if c = chr 'c' ∨ c = chr 's' ∨ c = chr 'p' ∨ c = chr 'n' then 1
  else if c = chr '%' then 0
  else
    match integerConversion {} c with
    | some _ => if qualifier = .L then 2 else 1
    | none => 0

/-- The words an item takes. -/
def Item.words : Item → ℕ
  | .literal _ => 0
  | .directive s c => s.words + convertWords s.qualifier c
  | .cutoff s => s.words

/-- The words a format takes. -/
def formatWords (fmt : List Byte) : ℕ := ((parse fmt).map Item.words).sum

/-! ## Taking words -/

/-- `f` takes `k` words off its arguments, and what it makes of them does not depend on the
others. -/
def Takes {α : Type} (k : ℕ) (f : Args → Option (Args × α)) : Prop :=
  ∀ xs : List Word, xs.length = k → ∃ r : Option α, ∀ B : Args, f (xs ++ₛ B) = r.map (B, ·)

section Rules

variable {α β : Type} {j k : ℕ}

theorem Takes.congr {f f' : Args → Option (Args × α)} (hf : Takes k f)
    (h : ∀ args, f' args = f args) :
    Takes k f' := (funext h : f' = f) ▸ hf

theorem Takes.pure (a : α) : Takes 0 fun args ↦ some (args, a) := by
  intro xs hxs
  obtain rfl := List.length_eq_zero_iff.mp hxs
  exact ⟨some a, fun B ↦ rfl⟩

/-- A function of the first argument takes one word. -/
theorem Takes.one (f : Word → Option α) : Takes 1 fun args ↦ (f args.head).map (args.tail, ·) := by
  intro xs hxs
  obtain ⟨x, rfl⟩ := List.length_eq_one_iff.mp hxs
  exact ⟨f x, fun B ↦ rfl⟩

/-- **Words add up**: what is run one after another takes the words of both. -/
theorem Takes.bind {f : Args → Option (Args × α)} {g : α → Args → Option (Args × β)}
    (hf : Takes k f) (hg : ∀ a, Takes j (g a)) :
    Takes (k + j) fun args ↦ (f args).bind fun x ↦ g x.2 x.1 := by
  intro xs hxs
  obtain ⟨r, hr⟩ := hf (xs.take k) (by rw [List.length_take]; omega)
  have hsplit : ∀ B : Args, xs ++ₛ B = xs.take k ++ₛ (xs.drop k ++ₛ B) := fun B ↦ by
    rw [← Stream'.append_append_stream, List.take_append_drop]
  cases r with
  | none =>
    refine ⟨none, ?_⟩
    intro B
    simp only [hsplit, hr, Option.map_none, Option.bind_none]
  | some a =>
    obtain ⟨r', hr'⟩ := hg a (xs.drop k) (by rw [List.length_drop]; omega)
    refine ⟨r', ?_⟩
    intro B
    simp only [hsplit, hr, Option.map_some, Option.bind_some, hr']

theorem Takes.map {f : Args → Option (Args × α)} (hf : Takes k f) (p : α → β) :
    Takes k fun args ↦ (f args).map fun x ↦ (x.1, p x.2) := by
  intro xs hxs
  obtain ⟨r, hr⟩ := hf xs hxs
  refine ⟨r.map p, ?_⟩
  intro B
  simp only [hr]
  cases r <;> rfl

end Rules

/-! ## What directives take -/

theorem Field.width_takes (flags : Flags) (f : Field) :
    Takes f.words fun args ↦
      some ((f.width flags args).2.2, (f.width flags args).1, (f.width flags args).2.1) := by
  cases f with
  | absent => exact Takes.pure (flags, -1)
  | value n => exact Takes.pure (flags, n)
  | star =>
    refine (Takes.one fun w : Word ↦ some (if w.toInt < 0 then
      ({ flags with left := true }, i32 (-w.toInt)) else (flags, w.toInt))).congr ?_
    intro args
    simp only [Field.width, Option.map_some]
    split_ifs <;> rfl

theorem resolvePrecision_takes (p : Option Field) :
    Takes (p.elim 0 Field.words) fun args ↦
      some ((resolvePrecision args p).2, (resolvePrecision args p).1) := by
  rcases p with _ | (_ | n | _)
  · exact Takes.pure (-1)
  · exact Takes.pure 0
  · exact Takes.pure (if n < 0 then 0 else n)
  · exact Takes.one fun w : Word ↦ some (if w.toInt < 0 then 0 else w.toInt)

theorem Spec.resolve_takes (s : Spec) :
    Takes s.words fun args ↦
      some ((s.resolve args).2.2.2, (s.resolve args).1, (s.resolve args).2.1,
        (s.resolve args).2.2.1) :=
  ((s.width.width_takes s.flags).bind fun x ↦
    (resolvePrecision_takes s.precision).map fun p ↦ (x.1, x.2, p)).congr fun _ ↦ rfl

theorem fetchNum_takes (qualifier : Qualifier) (sign : Bool) :
    Takes (if qualifier = .L then 2 else 1) fun args ↦
      some ((fetchNum qualifier sign args).2, (fetchNum qualifier sign args).1) := by
  cases qualifier with
  | L =>
    intro xs hxs
    obtain ⟨x, y, rfl⟩ := List.length_eq_two.mp hxs
    exact ⟨some ((y ++ x : BitVec (32 + 32))), fun B ↦ rfl⟩
  | l =>
    exact Takes.one fun w : Word ↦ some (if sign then w.signExtend 64 else w.setWidth 64)
  | Z => exact Takes.one fun w : Word ↦ some (w.setWidth 64)
  | h =>
    exact Takes.one fun w : Word ↦ some (if sign then (w.setWidth 16).signExtend 64
      else (w.setWidth 16).setWidth 64)
  | none =>
    exact Takes.one fun w : Word ↦ some (if sign then w.signExtend 64 else w.setWidth 64)

/-- Whether a character is an integer conversion does not depend on the flags. -/
theorem integerConversion_isSome (flags flags' : Flags) (c : Byte) :
    (integerConversion flags c).isSome = (integerConversion flags' c).isSome := by
  unfold integerConversion
  split_ifs <;> rfl

theorem convertText_takes (flags : Flags) (fieldWidth precision : Int) (qualifier : Qualifier)
    {c : Byte} (hs : c ≠ chr 's') (hn : c ≠ chr 'n') :
    Takes (convertWords qualifier c) fun args ↦
      some (convertText flags fieldWidth precision qualifier c args) := by
  by_cases hc : c = chr 'c'
  · have hw : convertWords qualifier c = 1 := if_pos (.inl hc)
    rw [hw]
    exact (Takes.one fun w : Word ↦ some (charText flags fieldWidth (w.setWidth 8))).congr
      fun args ↦ by rw [convertText, if_pos hc]; rfl
  by_cases hp : c = chr 'p'
  · have hw : convertWords qualifier c = 1 := if_pos (.inr (.inr (.inl hp)))
    rw [hw]
    exact (Takes.one fun w : Word ↦ some (if fieldWidth = -1 then
        numberText (w.setWidth 64) 16 8 precision { flags with zeropad := true }
      else numberText (w.setWidth 64) 16 fieldWidth precision flags)).congr
      fun args ↦ by rw [convertText, if_neg hc, if_pos hp]; rfl
  have hw : ¬ (c = chr 'c' ∨ c = chr 's' ∨ c = chr 'p' ∨ c = chr 'n') := by
    simp [hc, hs, hp, hn]
  rw [convertWords, if_neg hw]
  by_cases hpc : c = chr '%'
  · rw [if_pos hpc]
    exact (Takes.pure [chr '%']).congr fun args ↦ by
      rw [convertText, if_neg hc, if_neg hp, if_pos hpc]
  rw [if_neg hpc]
  have hsome := integerConversion_isSome flags {} c
  cases hi : integerConversion flags c with
  | none =>
    have hi' : integerConversion {} c = none := by
      rw [← Option.isNone_iff_eq_none, ← Option.not_isSome, ← hsome, hi]; rfl
    rw [hi']
    exact (Takes.pure [chr '%', c]).congr fun args ↦ by
      rw [convertText, if_neg hc, if_neg hp, if_neg hpc, hi]
  | some bf =>
    obtain ⟨bf', hi'⟩ := Option.isSome_iff_exists.mp (hsome ▸ hi ▸ rfl :
      (integerConversion {} c).isSome = true)
    rw [hi']
    exact ((fetchNum_takes qualifier bf.2.sign).map fun num ↦
      numberText num bf.1 fieldWidth precision bf.2).congr fun args ↦ by
        rw [convertText, if_neg hc, if_neg hp, if_neg hpc, hi]; rfl

section Run

variable {σ : Type} (S : Sink σ)

theorem convert_takes (flags : Flags) (fieldWidth precision : Int) (qualifier : Qualifier)
    (c : Byte) (out : σ) : Takes (convertWords qualifier c) fun args ↦
      convert S flags fieldWidth precision qualifier c args out := by
  by_cases hs : c = chr 's'
  · have hw : convertWords qualifier c = 1 := if_pos (.inr (.inl hs))
    rw [hw]
    exact (Takes.one fun w ↦ convertString S flags fieldWidth precision w out).congr fun args ↦
      convert_string S _ _ _ _ hs args out
  by_cases hn : c = chr 'n'
  · have hw : convertWords qualifier c = 1 := if_pos (.inr (.inr (.inr hn)))
    rw [hw]
    exact (Takes.one fun w ↦ S.storeCount w out).congr fun args ↦
      convert_count S _ _ _ _ hn args out
  · exact ((convertText_takes flags fieldWidth precision qualifier hs hn).map
      fun xs ↦ S.puts xs out).congr fun args ↦ convert_eq S _ _ _ _ hs hn args out

theorem Item.run_takes (i : Item) (out : σ) : Takes i.words fun args ↦ i.run S args out := by
  cases i with
  | literal c => exact Takes.pure (S.put c out)
  | directive s c =>
    exact (s.resolve_takes.bind fun x ↦
      convert_takes S x.1 x.2.1 x.2.2 s.qualifier c out).congr fun _ ↦ rfl
  | cutoff s => exact (s.resolve_takes.map fun _ ↦ S.put (chr '%') out).congr fun _ ↦ rfl

/-- **A format takes the words its items take.** -/
theorem runItems_takes (items : List Item) (out : σ) :
    Takes (items.map Item.words).sum fun args ↦ runItems S items args out := by
  induction items generalizing out with
  | nil => exact Takes.pure out
  | cons i items ih =>
    rw [List.map_cons, List.sum_cons]
    exact ((i.run_takes S out).bind fun o ↦ ih o).congr fun _ ↦ rfl

end Run

end PastaOS
