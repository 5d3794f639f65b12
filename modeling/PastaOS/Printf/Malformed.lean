import PastaOS.Lib.Run
import PastaOS.Printf.Buffer

/-!
# Malformed formats

Whatever a format looks like, `vsnprintf` gets through it: `loop_ends`.  Every pass of its loop
leaves the pointer in front of a shorter end of the format, at the latest in front of the NUL.  What
cannot be a directive is printed: `loopPass_unknown` for a conversion character that there is not,
`loopPass_cutoff` for a directive that the NUL cuts off.
-/

set_option autoImplicit false

namespace PastaOS

open Scanner

/-! ## The loop, pass by pass -/

/-- The variables of `vsnprintf` at a test of the loop condition. -/
structure LoopState (σ : Type) where
  /-- `fmt` -/
  fmt : List Byte
  /-- `args` -/
  args : Args
  /-- The output. -/
  out : σ

section Loop

variable {σ : Type} (S : Sink σ)

/-- A pass of the loop, and `++fmt`; there is none in front of the NUL. -/
def loopPass (x : LoopState σ) : Option (LoopState σ) :=
  match x.fmt with
  | [] => none
  | c :: rest =>
    if c = 0 then none
    else if c ≠ chr '%' then some ⟨rest, x.args, S.put c x.out⟩
    else (directive S rest x.args x.out).map fun y ↦ ⟨y.1, y.2.1, y.2.2⟩

/-- A pass, as a relation. -/
def LoopStep (x : LoopState σ) (_ : Unit) (y : LoopState σ) : Prop := loopPass S x = some y

variable {S} {V : σ → Prop} {x y : LoopState σ} {s r : List Byte}

/-- The loop executes its passes one after another. -/
theorem vsnprintfLoop_succ (h : loopPass S x = some y) (fuel : ℕ) :
    vsnprintfLoop S (fuel + 1) x.fmt x.args x.out = vsnprintfLoop S fuel y.fmt y.args y.out := by
  obtain ⟨fmt, args, out⟩ := x
  cases fmt with
  | nil => contradiction
  | cons c rest =>
    simp only [loopPass] at h
    simp only [vsnprintfLoop]
    split_ifs at h ⊢ with h0 hpc
    · obtain rfl := Option.some.inj h
      rfl
    · obtain ⟨z, hz, rfl⟩ := Option.map_eq_some_iff.mp h
      rw [hz]
      rfl

/-! ## Where a directive ends -/

/-- The words that a width takes are gone. -/
theorem Field.width_args (f : Field) (flags : Flags) (args : Args) :
    (f.width flags args).2.2 = args.drop f.words := by
  cases f with
  | star =>
    rw [Field.width]
    split_ifs <;> rfl
  | _ => rfl

/-- So are the words that a precision takes. -/
theorem resolvePrecision_args (p : Option Field) (args : Args) :
    (resolvePrecision args p).2 = args.drop (p.elim 0 Field.words) := by
  rcases p with _ | (_ | n | _) <;> rfl

theorem Spec.resolve_args (spec : Spec) (args : Args) :
    (spec.resolve args).2.2.2 = args.drop spec.words := by
  have hresolve : (spec.resolve args).2.2.2
      = (resolvePrecision (spec.width.width spec.flags args).2.2 spec.precision).2 := rfl
  rw [hresolve, resolvePrecision_args, Field.width_args, Stream'.drop_drop, Spec.words]

/-- A directive that ends at the NUL prints its `%`. -/
theorem loopPass_cutoff {spec : Spec} (hx : x.fmt = cstr (chr '%' :: r))
    (hspec : scanSpec (cstr r) = some (spec, cstr [])) :
    loopPass S x = some ⟨cstr [], x.args.drop spec.words, S.put (chr '%') x.out⟩ := by
  have hpass : loopPass S x = (directive S (cstr r) x.args x.out).map fun y ↦
      ⟨y.1, y.2.1, y.2.2⟩ := by
    rw [loopPass, hx]
    exact (if_neg (by decide)).trans (if_neg (by decide))
  rw [hpass, directive_eq, hspec]
  simp [cstr, Item.run, Spec.resolve_args]

/-- A directive that ends at another character. -/
theorem loopPass_directive {spec : Spec} {c : Byte} {post : List Byte}
    (hx : x.fmt = cstr (chr '%' :: r)) (hspec : scanSpec (cstr r) = some (spec, cstr (c :: post)))
    (h0 : c ≠ 0) : loopPass S x
      = ((Item.directive spec c).run S x.args x.out).map fun y ↦ ⟨cstr post, y.1, y.2⟩ := by
  have hpass : loopPass S x = (directive S (cstr r) x.args x.out).map fun y ↦
      ⟨y.1, y.2.1, y.2.2⟩ := by
    rw [loopPass, hx]
    exact (if_neg (by decide)).trans (if_neg (by decide))
  have hbody : directive S (cstr r) x.args x.out
      = ((Item.directive spec c).run S x.args x.out).map fun y ↦ (cstr post, y.1, y.2) := by
    rw [directive_eq, hspec, Option.bind_some]
    exact if_neg h0
  rw [hpass, hbody, Option.map_map]
  rfl

/-- The conversion characters. -/
def conversions : List Byte := chrs ['c', 's', 'p', 'n', '%', 'o', 'X', 'x', 'd', 'i', 'u']

theorem convert_unknown {c : Byte} (hc : c ∉ conversions) (flags : Flags)
    (fieldWidth precision : Int)
    (qualifier : Qualifier) (args : Args) (out : σ) :
    convert S flags fieldWidth precision qualifier c args out
      = some (args, S.put c (S.put (chr '%') out)) := by
  simp only [conversions, chrs, List.map_cons, List.map_nil, List.mem_cons, List.not_mem_nil,
    or_false, not_or] at hc
  obtain ⟨hc, hs, hp, hn, hpc, ho, hX, hx, hd, hi, hu⟩ := hc
  have hint : integerConversion flags c = none := by
    rw [integerConversion, if_neg ho, if_neg hX, if_neg hx, if_neg (not_or.mpr ⟨hd, hi⟩), if_neg hu]
  rw [convert, if_neg hc, if_neg hs, if_neg hp, if_neg hn, if_neg hpc, hint]

/-- A directive that ends at a character without a meaning prints its `%` and the character. -/
theorem loopPass_unknown {spec : Spec} {c : Byte} {post : List Byte}
    (hx : x.fmt = cstr (chr '%' :: r)) (hspec : scanSpec (cstr r) = some (spec, cstr (c :: post)))
    (h0 : c ≠ 0) (hc : c ∉ conversions) : loopPass S x
      = some ⟨cstr post, x.args.drop spec.words, S.put c (S.put (chr '%') x.out)⟩ := by
  rw [loopPass_directive hx hspec h0, ← Spec.resolve_args]
  exact congrArg (Option.map _) (convert_unknown hc _ _ _ _ _ _)

/-! ## Every format -/

/-- **A pass leaves less of the format.** -/
theorem loopPass_cstr (hS : Total S V) (hV : V x.out) {c : Byte} (hx : x.fmt = cstr (c :: s))
    (h0 : 0 ∉ c :: s) : ∃ y s', loopPass S x = some y ∧ y.fmt = cstr s' ∧ s' <:+ s ∧ V y.out := by
  have hc : c ≠ 0 := fun h ↦ h0 (h ▸ List.mem_cons_self)
  by_cases hpc : c = chr '%'
  · subst hpc
    obtain ⟨spec, r, hspec, hr⟩ := scanSpec_stops.leaves s
    cases r with
    | nil => exact ⟨_, [], loopPass_cutoff hx hspec, rfl, List.nil_suffix, hS.put _ _ hV⟩
    | cons d post =>
      have hd : d ≠ 0 := fun h ↦
        h0 (List.mem_cons_of_mem _ (hr.subset (h ▸ List.mem_cons_self)))
      obtain ⟨⟨args, out⟩, hrun⟩ := hS.convert hV (spec.resolve x.args).1
        (spec.resolve x.args).2.1 (spec.resolve x.args).2.2.1 spec.qualifier d
        (spec.resolve x.args).2.2.2
      have hout : V out := hS.toKeeps.convert hV hrun
      refine ⟨⟨cstr post, args, out⟩, post, ?_, rfl, (List.suffix_cons d post).trans hr, hout⟩
      rw [loopPass_directive hx hspec hd]
      exact congrArg (Option.map _) hrun
  · refine ⟨⟨cstr s, x.args, S.put c x.out⟩, s, ?_, rfl, List.suffix_rfl, hS.put c _ hV⟩
    rw [loopPass, hx]
    exact (if_neg hc).trans (if_pos hpc)

/-- What is left of the format is an end of it, with its NUL. -/
def InFormat (fmt : List Byte) (V : σ → Prop) (x : LoopState σ) : Prop :=
  (∃ s, s <:+ fmt ∧ x.fmt = cstr s) ∧ V x.out

theorem InFormat.step (hS : Total S V) {fmt : List Byte} (h0 : 0 ∉ fmt) (hx : InFormat fmt V x)
    {i : Unit} (h : LoopStep S x i y) : InFormat fmt V y := by
  obtain ⟨⟨s, hs, hfmt⟩, hV⟩ := hx
  cases s with
  | nil =>
    rw [LoopStep, loopPass, hfmt] at h
    contradiction
  | cons c s =>
    obtain ⟨z, s', hz, hfmt', hs', hV'⟩ := loopPass_cstr hS hV hfmt fun h ↦ h0 (hs.subset h)
    obtain rfl := Option.some.inj (hz.symm.trans h)
    exact ⟨⟨s', hs'.trans ((List.suffix_cons c s).trans hs), hfmt'⟩, hV'⟩

/-- **The loop ends**, after at most as many passes as the format has characters. -/
theorem loop_ends (hS : Total S V) (hV : V x.out) (hx : x.fmt = cstr s) (h0 : 0 ∉ s) :
    ∃ is y, Run (LoopStep S) x is y ∧ is.length ≤ s.length ∧ y.fmt = cstr [] ∧
      ∀ fuel, s.length < fuel → vsnprintfLoop S fuel x.fmt x.args x.out = some (y.args, y.out) := by
  induction hn : s.length using Nat.strong_induction_on generalizing s x with
  | _ n ih =>
    cases s with
    | nil =>
      refine ⟨[], x, .nil x, Nat.zero_le _, hx, ?_⟩
      intro fuel hfuel
      obtain ⟨fuel, rfl⟩ : ∃ m, fuel = m + 1 := ⟨fuel - 1, by omega⟩
      rw [hx]
      rfl
    | cons c s =>
      rw [List.length_cons] at hn
      obtain ⟨y, s', hy, hfmt, hs', hV'⟩ := loopPass_cstr hS hV hx h0
      have hlen := hs'.length_le
      have h0' : 0 ∉ s' := fun h ↦ h0 (List.mem_cons_of_mem c (hs'.subset h))
      obtain ⟨is, z, hrun, his, hz, hloop⟩ := ih s'.length (by omega) hV' hfmt h0' rfl
      refine ⟨() :: is, z, .cons hy hrun, by rw [List.length_cons]; omega, hz, ?_⟩
      intro fuel hfuel
      obtain ⟨fuel, rfl⟩ : ∃ m, fuel = m + 1 := ⟨fuel - 1, by omega⟩
      rw [vsnprintfLoop_succ hy, hloop fuel (by omega)]

end Loop

/-- What a pass does in front of a `%`, with `r` behind it: the directive ends in `r`.  If the NUL
ends it, its `%` is printed, and nothing is left of the format; if it ends at a character without a
meaning, its `%` and the character are.  Either way, no argument is taken but those of the width and
the precision. -/
def PrintsUnknown {σ : Type} (S : Sink σ) (x : LoopState σ) (r : List Byte) : Prop :=
  ∃ spec r', scanSpec (cstr r) = some (spec, cstr r') ∧ r' <:+ r ∧
    (r' = [] →
      loopPass S x = some ⟨cstr [], x.args.drop spec.words, S.put (chr '%') x.out⟩) ∧
    ∀ c post, r' = c :: post → c ∉ conversions → loopPass S x
      = some ⟨cstr post, x.args.drop spec.words, S.put c (S.put (chr '%') x.out)⟩

theorem printsUnknown {σ : Type} {S : Sink σ} {x : LoopState σ} {r : List Byte}
    (hx : x.fmt = cstr (chr '%' :: r)) (h0 : 0 ∉ r) : PrintsUnknown S x r := by
  obtain ⟨spec, r', hspec, hr⟩ := scanSpec_stops.leaves r
  refine ⟨spec, r', hspec, hr, ?_, ?_⟩
  · rintro rfl
    exact loopPass_cutoff hx hspec
  · rintro c post rfl hc
    have hne : c ≠ 0 := fun h ↦ h0 (hr.subset (h ▸ List.mem_cons_self))
    exact loopPass_unknown hx hspec hne hc

/-- The same on paper, where it is a text that is printed: the `%`, or the `%` and the character. -/
def PrintsText (acc : Access) (x : LoopState Paper) (r : List Byte) : Prop :=
  ∃ spec r', scanSpec (cstr r) = some (spec, cstr r') ∧
    (r' = [] → loopPass (paperSink acc) x
      = some ⟨cstr [], x.args.drop spec.words, { x.out with text := x.out.text ++ [chr '%'] }⟩) ∧
    ∀ c post, r' = c :: post → c ∉ conversions → loopPass (paperSink acc) x
      = some ⟨cstr post, x.args.drop spec.words,
          { x.out with text := x.out.text ++ [chr '%', c] }⟩

theorem PrintsUnknown.printsText {acc : Access} {x : LoopState Paper} {r : List Byte}
    (h : PrintsUnknown (paperSink acc) x r) : PrintsText acc x r := by
  obtain ⟨spec, r', hspec, -, hcut, hchar⟩ := h
  refine ⟨spec, r', hspec, hcut, fun c post hr hc ↦ ?_⟩
  have htext : x.out.text ++ [chr '%', c] = x.out.text ++ [chr '%'] ++ [c] := by simp
  rw [hchar c post hr hc, htext]
  rfl

/-- **Every format is got through.**  `vsnprintf` comes to an end, and no sooner than at the NUL,
within as many passes as the format has characters; at every test of the loop condition, `fmt`
points to an end of the format; and what is no directive is printed. -/
theorem vsnprintf_malformed (mem : Word → Byte) (buf size : Word) {fmt : List Byte} (h0 : 0 ∉ fmt)
    (args : Args) :
    let S := bufferSink buf (bufferEnd buf size).1
    let start : LoopState Buffer := ⟨cstr fmt, args, ⟨mem, buf, [], []⟩⟩
    (∃ is y, Run (LoopStep S) start is y ∧ is.length ≤ fmt.length ∧ y.fmt = cstr [] ∧
      (∀ fuel, fmt.length < fuel →
        vsnprintfLoop S fuel (cstr fmt) args ⟨mem, buf, [], []⟩ = some (y.args, y.out)) ∧
      vsnprintf mem buf size (cstr fmt) args = some ((y.out.str - buf).toInt,
        y.out.terminate (bufferEnd buf size).1 (bufferEnd buf size).2)) ∧
    ∀ is x, Run (LoopStep S) start is x → ∃ s, s <:+ fmt ∧ x.fmt = cstr s ∧
      ∀ r, s = chr '%' :: r →
        PrintsUnknown S x r ∧ ∀ acc u, PrintsText acc ⟨x.fmt, x.args, u⟩ r := by
  intro S start
  have hS : Total S fun _ ↦ True := bufferSink_total buf _
  refine ⟨?_, ?_⟩
  · obtain ⟨is, y, hrun, his, hy, hloop⟩ := loop_ends (x := start) hS trivial rfl h0
    refine ⟨is, y, hrun, his, hy, hloop, ?_⟩
    have hall := hloop (cstr fmt).length (by rw [cstr, List.length_append]; simp)
    rw [vsnprintfLoop_cstr] at hall
    exact vsnprintf_of_run hall
  · intro is x hrun
    have hstart : InFormat fmt (fun _ ↦ True) start := ⟨⟨fmt, List.suffix_rfl, rfl⟩, trivial⟩
    obtain ⟨⟨s, hs, hfmt⟩, -⟩ := hrun.invariant (I := InFormat fmt fun _ ↦ True)
      (fun _ _ _ hx h ↦ hx.step hS h0 h) hstart
    refine ⟨s, hs, hfmt, ?_⟩
    rintro r rfl
    have h0' : 0 ∉ r := fun h ↦ h0 (hs.subset (List.mem_cons_of_mem _ h))
    refine ⟨printsUnknown hfmt h0', fun acc u ↦ ?_⟩
    have hpaper : (⟨x.fmt, x.args, u⟩ : LoopState Paper).fmt = cstr (chr '%' :: r) := hfmt
    exact (printsUnknown hpaper h0').printsText

/-- The theorem for `"%-*y%5."`. -/
theorem vsnprintf_malformed_y : ∃ r b,
    vsnprintf hiMem 0x3000 8 (cstr (chrs ['%', '-', '*', 'y', '%', '5', '.'])) (Stream'.const 0)
      = some (r, b) := by
  have hfmt : 0 ∉ chrs ['%', '-', '*', 'y', '%', '5', '.'] := by decide
  obtain ⟨⟨is, y, -, -, -, -, hy⟩, -⟩ := vsnprintf_malformed hiMem 0x3000 8 hfmt (Stream'.const 0)
  exact ⟨_, _, hy⟩

end PastaOS
