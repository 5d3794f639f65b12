import PastaOS.Lib.Scanner
import PastaOS.Printf.Defs

/-!
# Format strings

A format string is a list of `Item`s: literal characters, directives, and possibly a directive at
the end that the NUL cuts off.  `parse` finds them, looking at nothing but the format; what a
directive takes from the arguments and what it prints is decided by `Item.run`.

`vsnprintfLoop_eq` says that the loop of `vsnprintf` does the same: it runs the items of the format,
one after another.  `parse_append` says that the items of a format that no NUL cuts off stay what
they are when another format follows.
-/

set_option autoImplicit false

namespace PastaOS

/-! ## Items -/

/-- A number in a directive. -/
inductive Field
  /-- There is none. -/
  | absent
  /-- A string of digits, as `skip_atoi` reads it. -/
  | value (n : Int)
  /-- `*`: the next argument. -/
  | star
  deriving DecidableEq

/-- A directive without its conversion character. -/
structure Spec where
  /-- The flags. -/
  flags : Flags
  /-- The field width. -/
  width : Field
  /-- The precision, if there is a `.`. -/
  precision : Option Field
  /-- The qualifier. -/
  qualifier : Qualifier
  deriving DecidableEq

/-- A piece of a format string. -/
inductive Item
  /-- A character other than `%`. -/
  | literal (c : Byte)
  /-- A directive and its conversion character. -/
  | directive (s : Spec) (c : Byte)
  /-- A directive that ends with the format. -/
  | cutoff (s : Spec)
  deriving DecidableEq

/-- The flags, the field width and the arguments behind it. -/
def Field.width (flags : Flags) (args : Args) : Field → Flags × Int × Args
  | .absent => (flags, -1, args)
  | .value n => (flags, n, args)
  | .star =>
    if args.head.toInt < 0 then
      ({ flags with left := true }, i32 (-args.head.toInt), args.tail)
    else (flags, args.head.toInt, args.tail)

/-- The number behind the `.` and the arguments behind it. -/
def Field.precision (args : Args) : Field → Int × Args
  | .absent => (-1, args)
  | .value n => (n, args)
  | .star => (args.head.toInt, args.tail)

/-- The precision and the arguments behind it; a negative number behind the `.` counts as zero. -/
def resolvePrecision (args : Args) : Option Field → Int × Args
  | none => (-1, args)
  | some f =>
    (if (f.precision args).1 < 0 then 0 else (f.precision args).1, (f.precision args).2)

/-- The flags, the field width and the precision of a directive, and the arguments behind them. -/
def Spec.resolve (s : Spec) (args : Args) : Flags × Int × Int × Args :=
  let (flags, width, args) := s.width.width s.flags args
  let (precision, args) := resolvePrecision args s.precision
  (flags, width, precision, args)

section Run

variable {σ : Type} (S : Sink σ)

/-- Execute an item. -/
def Item.run (args : Args) (out : σ) : Item → Option (Args × σ)
  | .literal c => some (args, S.put c out)
  | .directive s c =>
    let (flags, width, precision, args) := s.resolve args
    convert S flags width precision s.qualifier c args out
  | .cutoff s =>
    let (_, _, _, args) := s.resolve args
    some (args, S.put (chr '%') out)

/-- Execute items one after another. -/
def runItems : List Item → Args → σ → Option (Args × σ)
  | [], args, out => some (args, out)
  | i :: items, args, out => do
    let (args, out) ← i.run S args out
    runItems items args out

theorem runItems_append (items items' : List Item) (args : Args) (out : σ) :
    runItems S (items ++ items') args out
      = (runItems S items args out).bind fun x ↦ runItems S items' x.1 x.2 := by
  induction items generalizing args out with
  | nil => rfl
  | cons i items ih =>
    simp only [List.cons_append, runItems, Option.bind_eq_bind, Option.bind_assoc]
    congr 1
    funext x
    exact ih x.1 x.2

/-- Running an item in front of items that have yet to be found. -/
theorem runItems_cons (i : Item) (p : Option (List Item)) (args : Args) (out : σ) :
    ((p.map (i :: ·)).bind fun items ↦ runItems S items args out)
      = (i.run S args out).bind fun x ↦ p.bind fun items ↦ runItems S items x.1 x.2 := by
  cases p with
  | none =>
    simp only [Option.map_none, Option.bind_none]
    exact (Option.bind_fun_none _).symm
  | some items => rfl

end Run

/-! ## Parsing -/

/-- A field width, or the number behind a `.`. -/
def scanField : Scanner Byte Field
  | [] => none
  | c :: rest =>
    if isdigit c then (skipAtoi 0 (c :: rest)).map fun x ↦ (.value x.1, x.2)
    else if c = chr '*' then some (.star, rest)
    else some (.absent, c :: rest)

/-- A precision. -/
def scanPrecision : Scanner Byte (Option Field)
  | [] => none
  | c :: rest =>
    if c = chr '.' then (scanField rest).map fun x ↦ (some x.1, x.2) else some (none, c :: rest)

/-- A directive, from behind its `%` up to its conversion character. -/
def scanSpec : Scanner Byte Spec :=
  Scanner.bind (getFlags {}) fun flags ↦ Scanner.bind scanField fun width ↦
    Scanner.bind scanPrecision fun precision ↦ Scanner.bind getQualifier fun qualifier ↦
      Scanner.pure ⟨flags, width, precision, qualifier⟩

/-- The items of a format, for at most `fuel` tests of the loop condition. -/
def parseLoop : ℕ → List Byte → Option (List Item)
  | 0, _ => none
  | _ + 1, [] => none
  | fuel + 1, c :: rest =>
    if c = 0 then some []
    else if c ≠ chr '%' then (parseLoop fuel rest).map (.literal c :: ·)
    else do
      let (s, fmt) ← scanSpec rest
      match fmt with
      | [] => none
      | c :: rest =>
        if c = 0 then (parseLoop fuel fmt).map (.cutoff s :: ·)
        else (parseLoop fuel rest).map (.directive s c :: ·)

/-- The items of a format. -/
def parse (fmt : List Byte) : List Item := (parseLoop fmt.length fmt).getD []

/-! ## The loop runs the items -/

theorem getWidth_eq (flags : Flags) (fmt : List Byte) (args : Args) :
    getWidth flags fmt args = (scanField fmt).map fun x ↦
      ((x.1.width flags args).1, (x.1.width flags args).2.1, x.2, (x.1.width flags args).2.2) := by
  cases fmt with
  | nil => rfl
  | cons c rest =>
    simp only [getWidth, scanField]
    split_ifs with hd hs hneg
    · cases skipAtoi 0 (c :: rest) <;> rfl
    · simp [Field.width, hneg]
    · simp [Field.width, hneg]
    · rfl

theorem getPrecisionValue_eq (fmt : List Byte) (args : Args) :
    getPrecisionValue fmt args = (scanField fmt).map fun x ↦
      ((x.1.precision args).1, x.2, (x.1.precision args).2) := by
  cases fmt with
  | nil => rfl
  | cons c rest =>
    simp only [getPrecisionValue, scanField]
    split_ifs with hd hs
    · cases skipAtoi 0 (c :: rest) <;> rfl
    · rfl
    · rfl

theorem getPrecision_eq (fmt : List Byte) (args : Args) :
    getPrecision fmt args = (scanPrecision fmt).map fun x ↦
      ((resolvePrecision args x.1).1, x.2, (resolvePrecision args x.1).2) := by
  cases fmt with
  | nil => rfl
  | cons c rest =>
    simp only [getPrecision, scanPrecision, getPrecisionValue_eq]
    split_ifs
    · cases scanField rest <;> rfl
    · rfl

/-- **The loop body runs an item.** -/
theorem directive_eq {σ : Type} (S : Sink σ) (fmt : List Byte) (args : Args) (out : σ) :
    directive S fmt args out = (scanSpec fmt).bind fun x ↦
      match x.2 with
      | [] => none
      | c :: rest =>
        if c = 0 then ((Item.cutoff x.1).run S args out).map fun y ↦ (c :: rest, y.1, y.2)
        else ((Item.directive x.1 c).run S args out).map fun y ↦ (rest, y.1, y.2) := by
  simp only [directive, scanSpec, Scanner.bind, Scanner.pure, getWidth_eq, getPrecision_eq,
    Option.bind_eq_bind]
  cases getFlags {} fmt with
  | none => rfl
  | some x =>
    simp only [Option.bind_some]
    cases scanField x.2 with
    | none => rfl
    | some y =>
      simp only [Option.bind_some, Option.map_some]
      cases scanPrecision y.2 with
      | none => rfl
      | some z =>
        simp only [Option.bind_some, Option.map_some]
        cases getQualifier z.2 with
        | none => rfl
        | some q =>
          obtain ⟨qualifier, _ | ⟨c, rest⟩⟩ := q
          · rfl
          · simp only [Option.bind_some]
            split_ifs
            · rfl
            · simp only [Item.run, Spec.resolve]
              cases convert S _ _ _ qualifier c _ out <;> rfl

/-- **The loop of `vsnprintf` runs the items of the format.** -/
theorem vsnprintfLoop_eq {σ : Type} (S : Sink σ) (fuel : ℕ) (fmt : List Byte) (args : Args)
    (out : σ) : vsnprintfLoop S fuel fmt args out
      = (parseLoop fuel fmt).bind fun items ↦ runItems S items args out := by
  induction fuel generalizing fmt args out with
  | zero => rfl
  | succ fuel ih =>
    cases fmt with
    | nil => rfl
    | cons c rest =>
      simp only [vsnprintfLoop, parseLoop]
      split_ifs with h0 hpc
      · rfl
      · rw [ih, runItems_cons]
        rfl
      · rw [directive_eq]
        cases scanSpec rest with
        | none => rfl
        | some x =>
          obtain ⟨s, _ | ⟨c', rest'⟩⟩ := x
          · rfl
          · simp only [Option.bind_eq_bind, Option.bind_some]
            split_ifs
            · rw [runItems_cons, Option.bind_map]
              simp only [ih]
              rfl
            · rw [runItems_cons, Option.bind_map]
              simp only [ih]
              rfl

/-! ## Where a directive ends -/

open Scanner

theorem isdigit_ne_zero {c : Byte} (h : isdigit c = true) : c ≠ 0 := by
  rintro rfl
  rw [isdigit_zero] at h
  contradiction

theorem skipAtoi_stops (i : Int) : Stops 0 (skipAtoi i) := by
  intro w
  induction w generalizing i with
  | nil => exact .nil rfl
  | cons c s ih =>
    by_cases hc : isdigit c
    · exact .step (fun s ↦ by rw [skipAtoi, if_pos hc]) (isdigit_ne_zero hc) (ih _)
    · exact .stop fun s ↦ by rw [skipAtoi, if_neg hc]

/-- The flag characters, and what they do to the flags. -/
def flagOf (flags : Flags) (c : Byte) : Option Flags :=
  if c = chr '-' then some { flags with left := true }
  else if c = chr '+' then some { flags with plus := true }
  else if c = chr ' ' then some { flags with space := true }
  else if c = chr '#' then some { flags with special := true }
  else if c = chr '0' then some { flags with zeropad := true }
  else none

theorem getFlags_cons (flags : Flags) (c : Byte) (fmt : List Byte) : getFlags flags (c :: fmt)
    = match flagOf flags c with
      | some flags => getFlags flags fmt
      | none => some (flags, c :: fmt) := by
  rw [getFlags, flagOf]
  split_ifs <;> rfl

theorem getFlags_stops (flags : Flags) : Stops 0 (getFlags flags) := by
  intro w
  induction w generalizing flags with
  | nil => exact .nil rfl
  | cons c s ih =>
    cases hc : flagOf flags c with
    | some flags' =>
      have hne : c ≠ 0 := by rintro rfl; simp [flagOf, chr] at hc
      exact .step (fun s ↦ by rw [getFlags_cons, hc]) hne (ih flags')
    | none => exact .stop fun s ↦ by rw [getFlags_cons, hc]

theorem scanField_stops : Stops 0 scanField := by
  rintro (_ | ⟨c, s⟩)
  · exact .nil rfl
  · by_cases hc : isdigit c
    · refine .step ?_ (isdigit_ne_zero hc)
        ((skipAtoi_stops (i32 (0 * 10 + c.toNat - 48)) s).map Field.value)
      intro s
      rw [scanField, if_pos hc, skipAtoi, if_pos hc]
    · by_cases hs : c = chr '*'
      · have hne : c ≠ 0 := by rw [hs]; decide
        exact .step (fun s ↦ by rw [scanField, if_neg hc, if_pos hs]; rfl) hne
          (Stops.pure Field.star s)
      · exact .stop fun s ↦ by rw [scanField, if_neg hc, if_neg hs]

theorem scanPrecision_stops : Stops 0 scanPrecision := by
  rintro (_ | ⟨c, s⟩)
  · exact .nil rfl
  · by_cases hc : c = chr '.'
    · have hne : c ≠ 0 := by rw [hc]; decide
      exact .step (fun s ↦ by rw [scanPrecision, if_pos hc]) hne ((scanField_stops s).map some)
    · exact .stop fun s ↦ by rw [scanPrecision, if_neg hc]

theorem getQualifierL_stops : Stops 0 getQualifierL := by
  rintro (_ | ⟨c, s⟩)
  · exact .nil rfl
  · by_cases hl : c = chr 'l'
    · have hne : c ≠ 0 := by rw [hl]; decide
      exact .step (fun s ↦ by rw [getQualifierL, if_pos hl]; rfl) hne (Stops.pure Qualifier.L s)
    · exact .stop fun s ↦ by rw [getQualifierL, if_neg hl]

theorem getQualifier_stops : Stops 0 getQualifier := by
  rintro (_ | ⟨c, s⟩)
  · exact .nil rfl
  by_cases hh : c = chr 'h'
  · have hne : c ≠ 0 := by rw [hh]; decide
    exact .step (fun s ↦ by rw [getQualifier, if_pos hh]; rfl) hne (Stops.pure Qualifier.h s)
  by_cases hL : c = chr 'L'
  · have hne : c ≠ 0 := by rw [hL]; decide
    exact .step (fun s ↦ by rw [getQualifier, if_neg hh, if_pos hL]; rfl) hne
      (Stops.pure Qualifier.L s)
  by_cases hZ : c = chr 'Z'
  · have hne : c ≠ 0 := by rw [hZ]; decide
    exact .step (fun s ↦ by rw [getQualifier, if_neg hh, if_neg hL, if_pos hZ]; rfl) hne
      (Stops.pure Qualifier.Z s)
  by_cases hl : c = chr 'l'
  · have hne : c ≠ 0 := by rw [hl]; decide
    exact .step (fun s ↦ by rw [getQualifier, if_neg hh, if_neg hL, if_neg hZ, if_pos hl]) hne
      (getQualifierL_stops s)
  · exact .stop fun s ↦ by rw [getQualifier, if_neg hh, if_neg hL, if_neg hZ, if_neg hl]

/-- **A directive ends at its conversion character**, at the latest at the NUL. -/
theorem scanSpec_stops : Stops 0 scanSpec :=
  (getFlags_stops {}).bind fun _ ↦ scanField_stops.bind fun _ ↦ scanPrecision_stops.bind fun _ ↦
    getQualifier_stops.bind fun _ ↦ Stops.pure _

/-- The items of a C string can be found. -/
theorem parseLoop_isSome {fuel : ℕ} {fmt : List Byte} (h0 : 0 ∈ fmt) (hfuel : fmt.length ≤ fuel) :
    ∃ items, parseLoop fuel fmt = some items := by
  induction fuel generalizing fmt with
  | zero => simp [List.length_eq_zero_iff.mp (Nat.le_zero.mp hfuel)] at h0
  | succ fuel ih =>
    cases fmt with
    | nil => simp at h0
    | cons c rest =>
      rw [parseLoop]
      by_cases hc : c = 0
      · exact ⟨[], if_pos hc⟩
      rw [if_neg hc]
      have hrest : 0 ∈ rest := List.mem_of_ne_of_mem (Ne.symm hc) h0
      rw [List.length_cons] at hfuel
      by_cases hpc : c ≠ chr '%'
      · obtain ⟨items, hi⟩ := ih hrest (by omega)
        exact ⟨.literal c :: items, by rw [if_pos hpc, hi]; rfl⟩
      · rw [if_neg hpc]
        obtain ⟨s, r, hs, hr⟩ := (scanSpec_stops rest).finds hrest
        obtain ⟨d, post, rfl⟩ := List.exists_cons_of_ne_nil (List.ne_nil_of_mem hr)
        have hlen := scanSpec_stops.length_le hs
        rw [List.length_cons] at hlen
        simp only [hs, Option.bind_eq_bind, Option.bind_some]
        by_cases hd : d = 0
        · obtain ⟨items, hi⟩ := ih hr (by rw [List.length_cons]; omega)
          exact ⟨.cutoff s :: items, by rw [if_pos hd, hi]; rfl⟩
        · obtain ⟨items, hi⟩ := ih (List.mem_of_ne_of_mem (Ne.symm hd) hr) (by omega)
          exact ⟨.directive s d :: items, by rw [if_neg hd, hi]; rfl⟩

/-- With more fuel the loop finds the same items. -/
theorem parseLoop_mono {fuel fuel' : ℕ} (hle : fuel ≤ fuel') {fmt : List Byte} {items : List Item}
    (h : parseLoop fuel fmt = some items) : parseLoop fuel' fmt = some items := by
  induction fuel generalizing fmt items fuel' with
  | zero => simp [parseLoop] at h
  | succ fuel ih =>
    obtain ⟨fuel', rfl⟩ : ∃ n, fuel' = n + 1 := ⟨fuel' - 1, by omega⟩
    have ih' {w : List Byte} {p : Item} (h : (parseLoop fuel w).map (p :: ·) = some items) :
        (parseLoop fuel' w).map (p :: ·) = some items := by
      obtain ⟨items', hi, rfl⟩ := Option.map_eq_some_iff.mp h
      rw [ih (by omega) hi, Option.map_some]
    cases fmt with
    | nil => simp [parseLoop] at h
    | cons c rest =>
      rw [parseLoop] at h ⊢
      by_cases hc : c = 0
      · rwa [if_pos hc] at h ⊢
      rw [if_neg hc] at h ⊢
      by_cases hpc : c ≠ chr '%'
      · rw [if_pos hpc] at h ⊢
        exact ih' h
      rw [if_neg hpc] at h ⊢
      obtain ⟨⟨s, r⟩, hs, hr⟩ := Option.bind_eq_some_iff.mp h
      simp only [hs, Option.bind_eq_bind, Option.bind_some]
      rcases r with _ | ⟨d, post⟩
      · simp at hr
      · by_cases hd : d = 0
        · simp only [if_pos hd] at hr ⊢
          exact ih' hr
        · simp only [if_neg hd] at hr ⊢
          exact ih' hr

/-- A letter inside a C string is not its NUL. -/
theorem cstr_split {fmt pre post : List Byte} {d : Byte} (hd : d ≠ 0)
    (h : cstr fmt = pre ++ d :: post) : ∃ post', post = cstr post' ∧ fmt = pre ++ d :: post' := by
  rcases List.eq_nil_or_concat post with rfl | ⟨post', e, rfl⟩
  · exact absurd (by simpa using (List.append_inj' h rfl).2.symm) hd
  · rw [List.concat_eq_append, ← List.cons_append, ← List.append_assoc] at h
    obtain ⟨hfmt, he⟩ := List.append_inj' h rfl
    rw [List.singleton_inj] at he
    exact ⟨post', by rw [List.concat_eq_append, ← he, cstr], hfmt⟩

/-- **Parsing in parts.**  When no directive of the first part runs into its end, the items of the
first part are followed by those of whatever stands there instead of the NUL. -/
theorem parseLoop_append {fuel fuel' : ℕ} {fmt fmt' : List Byte} {items items' : List Item}
    (h0 : 0 ∉ fmt) (h : parseLoop fuel (cstr fmt) = some items)
    (hcomplete : ∀ s, Item.cutoff s ∉ items) (h' : parseLoop fuel' fmt' = some items') :
    parseLoop (fuel + fuel') (fmt ++ fmt') = some (items ++ items') := by
  induction fuel generalizing fmt items with
  | zero => simp [parseLoop] at h
  | succ fuel ih =>
    cases fmt with
    | nil =>
      obtain rfl : [] = items := by simpa [cstr, parseLoop] using h
      exact parseLoop_mono (by omega) h'
    | cons c rest =>
      rw [List.mem_cons, not_or] at h0
      have hc : c ≠ 0 := Ne.symm h0.1
      have hfuel : fuel + 1 + fuel' = fuel + fuel' + 1 := by omega
      rw [cstr, List.cons_append, parseLoop, if_neg hc] at h
      rw [hfuel, List.cons_append, parseLoop, if_neg hc]
      by_cases hpc : c ≠ chr '%'
      · rw [if_pos hpc] at h ⊢
        obtain ⟨items₁, hi, rfl⟩ := Option.map_eq_some_iff.mp h
        rw [ih h0.2 hi fun s hs ↦ hcomplete s (List.mem_cons_of_mem _ hs)]
        rfl
      · rw [if_neg hpc] at h ⊢
        obtain ⟨⟨s, r⟩, hs, hr⟩ := Option.bind_eq_some_iff.mp h
        rcases r with _ | ⟨d, post⟩
        · simp at hr
        by_cases hd : d = 0
        · simp only [if_pos hd] at hr
          obtain ⟨items₁, -, rfl⟩ := Option.map_eq_some_iff.mp hr
          exact absurd List.mem_cons_self (hcomplete s)
        · simp only [if_neg hd] at hr
          obtain ⟨items₁, hi, rfl⟩ := Option.map_eq_some_iff.mp hr
          -- the directive lies inside the first part, so the scanner reads it again
          obtain ⟨pre, hpre, hblind⟩ := (scanSpec_stops _).blind s d post hs
          obtain ⟨post', rfl, rfl⟩ := cstr_split hd hpre
          have h0' : 0 ∉ post' := fun hm ↦
            h0.2 (List.mem_append_right _ (List.mem_cons_of_mem _ hm))
          have hs' : scanSpec (pre ++ d :: post' ++ fmt') = some (s, d :: (post' ++ fmt')) := by
            rw [List.append_assoc, List.cons_append]
            exact hblind _
          rw [hs']
          simp only [Option.bind_eq_bind, Option.bind_some, if_neg hd]
          rw [ih h0' hi fun s hs ↦ hcomplete s (List.mem_cons_of_mem _ hs)]
          rfl

/-- The items of a C string. -/
theorem parse_spec (fmt : List Byte) :
    parseLoop (cstr fmt).length (cstr fmt) = some (parse (cstr fmt)) := by
  have h0 : 0 ∈ cstr fmt := List.mem_append_right _ List.mem_cons_self
  obtain ⟨items, hi⟩ := parseLoop_isSome h0 le_rfl
  rw [parse, hi]
  rfl

/-- **The items of two formats** are those of the first one followed by those of the second, when
every directive begun in the first one is completed there. -/
theorem parse_append {fmt fmt' : List Byte} (h0 : 0 ∉ fmt)
    (hcomplete : ∀ s, Item.cutoff s ∉ parse (cstr fmt)) :
    parse (cstr (fmt ++ fmt')) = parse (cstr fmt) ++ parse (cstr fmt') := by
  have happ := parseLoop_append h0 (parse_spec fmt) hcomplete (parse_spec fmt')
  have hall := parse_spec (fmt ++ fmt')
  have hcstr : fmt ++ cstr fmt' = cstr (fmt ++ fmt') := by simp [cstr]
  rw [hcstr] at happ
  have hlen : (cstr (fmt ++ fmt')).length ≤ (cstr fmt).length + (cstr fmt').length := by
    simp only [cstr, List.length_append, List.length_singleton]; omega
  exact Option.some.inj ((parseLoop_mono hlen hall).symm.trans happ)

/-- The loop of `vsnprintf`, started on a whole format. -/
theorem vsnprintfLoop_cstr {σ : Type} (S : Sink σ) (fmt : List Byte) (args : Args) (out : σ) :
    vsnprintfLoop S (cstr fmt).length (cstr fmt) args out
      = runItems S (parse (cstr fmt)) args out := by
  rw [vsnprintfLoop_eq, parse_spec, Option.bind_some]

end PastaOS
