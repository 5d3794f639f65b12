import PastaOS.Printf.Literal
import PastaOS.Printf.Malformed

/-!
# Directives as they are written

What stands behind a `%` is cut into the parts that the formatter goes through: flag characters, a
field width, a precision and a qualifier, each of them possibly left out.  A width or a precision is
an `Amount`: a string of digits of any length, or `*`.  `written` does the cutting, for any text;
`Directive` is a text made of such parts, with the conversion character at its end.

`scanSpec_cstr` says that the formatter finds what is written, and `Written.resolve_eq` what becomes
of the numbers in it: the value of a string of digits is a natural number, of which `skip_atoi`
keeps the residue.
-/

set_option autoImplicit false

namespace PastaOS

/-! ## The parts of a directive -/

/-- A number in a directive, as it is written. -/
inductive Amount
  /-- There is none. -/
  | absent
  /-- A string of digits. -/
  | digits (ds : List Byte)
  /-- `*` -/
  | star
  deriving DecidableEq

/-- The number as the formatter reads it. -/
def Amount.field : Amount → Field
  | .absent => .absent
  | .digits ds => .value (i32 (decimal ds))
  | .star => .star

/-- The number that is meant, if there is one: `*` stands for the next argument. -/
def Amount.value (args : Args) : Amount → Option Int
  | .absent => none
  | .digits ds => some (decimal ds)
  | .star => some args.head.toInt

/-- The flag characters. -/
def flagChars : List Byte := chrs ['-', '+', ' ', '#', '0']

/-- A directive without its conversion character, as it is written. -/
structure Written where
  /-- The flag characters. -/
  flags : List Byte
  /-- The field width. -/
  width : Amount
  /-- The number behind the `.`, if there is a `.`. -/
  precision : Option Amount
  /-- The qualifier. -/
  qualifier : Qualifier
  deriving DecidableEq

namespace Written

variable (w : Written)

/-- The flags that are set. -/
def flagSet : Flags where
  zeropad := decide (chr '0' ∈ w.flags)
  plus := decide (chr '+' ∈ w.flags)
  space := decide (chr ' ' ∈ w.flags)
  left := decide (chr '-' ∈ w.flags)
  special := decide (chr '#' ∈ w.flags)

/-- The directive as the formatter reads it. -/
def spec : Spec := ⟨w.flagSet, w.width.field, w.precision.map Amount.field, w.qualifier⟩

/-- Whether the field is left-justified: by a flag, or by a negative `*` width. -/
def left (args : Args) : Bool := w.flagSet.left || decide ((w.width.value args).getD 0 < 0)

/-- The field width; without one, it is zero. -/
def minWidth (args : Args) : ℕ := ((w.width.value args).getD 0).natAbs

/-- The field width, and -1 for none. -/
def intWidth (args : Args) : Int := if w.width = .absent then -1 else w.minWidth args

/-- The number behind the `.`; without one, it is zero. -/
def precisionValue (args : Args) : Option Int :=
  w.precision.map fun a ↦ (a.value (args.drop w.width.field.words)).getD 0

/-- The argument of the conversion, behind those of the width and the precision. -/
def arg (args : Args) : Word := (args.drop w.spec.words).head

end Written

/-! ## Reading them -/

/-- A number at the beginning of a text, and what follows it. -/
def Amount.read (s : List Byte) : Amount × List Byte :=
  if s.takeWhile isdigit ≠ [] then (.digits (s.takeWhile isdigit), s.dropWhile isdigit)
  else if s.head? = some (chr '*') then (.star, s.tail)
  else (.absent, s)

/-- A precision at the beginning of a text, and what follows it. -/
def readPrecision (s : List Byte) : Option Amount × List Byte :=
  if s.head? = some (chr '.') then (some (Amount.read s.tail).1, (Amount.read s.tail).2)
  else (none, s)

/-- A qualifier at the beginning of a text, and what follows it. -/
def Qualifier.read : List Byte → Qualifier × List Byte
  | [] => (.none, [])
  | c :: s =>
    if c = chr 'h' then (.h, s)
    else if c = chr 'L' then (.L, s)
    else if c = chr 'Z' then (.Z, s)
    else if c = chr 'l' then if s.head? = some (chr 'l') then (.L, s.tail) else (.l, s)
    else (.none, c :: s)

/-- Whether a character is a flag. -/
def isFlag (c : Byte) : Bool := decide (c ∈ flagChars)

/-- What is written behind a `%`, and what follows it. -/
def written (r : List Byte) : Written × List Byte :=
  let (width, s) := Amount.read (r.dropWhile isFlag)
  let (precision, s) := readPrecision s
  let (qualifier, s) := Qualifier.read s
  (⟨r.takeWhile isFlag, width, precision, qualifier⟩, s)

theorem flagOf_eq_none {c : Byte} (hc : c ∉ flagChars) (flags : Flags) : flagOf flags c = none := by
  simp only [flagChars, chrs, List.map_cons, List.map_nil, List.mem_cons, List.not_mem_nil,
    or_false,
    not_or] at hc
  obtain ⟨hleft, hplus, hspace, hspecial, hzero⟩ := hc
  rw [flagOf, if_neg hleft, if_neg hplus, if_neg hspace, if_neg hspecial, if_neg hzero]

theorem flagOf_flag {c : Byte} (hc : c ∈ flagChars) (flags : Flags) : flagOf flags c
    = some { flags with
        zeropad := flags.zeropad || decide (chr '0' = c)
        plus := flags.plus || decide (chr '+' = c)
        space := flags.space || decide (chr ' ' = c)
        left := flags.left || decide (chr '-' = c)
        special := flags.special || decide (chr '#' = c) } := by
  simp only [flagChars, chrs, List.map_cons, List.map_nil, List.mem_cons, List.not_mem_nil,
    or_false] at hc
  rcases hc with rfl | rfl | rfl | rfl | rfl
  all_goals simp [flagOf, chr]

/-- **The flags are collected.** -/
theorem getFlags_cstr (s : List Byte) (flags : Flags) : getFlags flags (cstr s)
    = some ({ flags with
        zeropad := flags.zeropad || decide (chr '0' ∈ s.takeWhile isFlag)
        plus := flags.plus || decide (chr '+' ∈ s.takeWhile isFlag)
        space := flags.space || decide (chr ' ' ∈ s.takeWhile isFlag)
        left := flags.left || decide (chr '-' ∈ s.takeWhile isFlag)
        special := flags.special || decide (chr '#' ∈ s.takeWhile isFlag) },
      cstr (s.dropWhile isFlag)) := by
  induction s generalizing flags with
  | nil =>
    rw [cstr, List.nil_append, getFlags_cons, flagOf_eq_none (by decide)]
    simp [cstr]
  | cons c s ih =>
    rw [cstr, List.cons_append, getFlags_cons]
    by_cases hc : c ∈ flagChars
    · have hflag : isFlag c = true := decide_eq_true hc
      rw [flagOf_flag hc, List.takeWhile_cons_of_pos hflag, List.dropWhile_cons_of_pos hflag]
      refine (ih _).trans ?_
      simp only [List.mem_cons, Bool.decide_or, Bool.or_assoc]
    · have hflag : ¬ isFlag c = true := fun h ↦ hc (of_decide_eq_true h)
      rw [flagOf_eq_none hc, List.takeWhile_cons_of_neg hflag, List.dropWhile_cons_of_neg hflag]
      simp [cstr]

theorem scanField_cstr (s : List Byte) :
    scanField (cstr s) = some ((Amount.read s).1.field, cstr (Amount.read s).2) := by
  cases s with
  | nil => rfl
  | cons c s =>
    have hread := skipAtoi_cstr (c :: s)
    rw [Amount.read]
    by_cases hc : isdigit c = true
    · have hne : (c :: s).takeWhile isdigit ≠ [] := by simp [hc]
      rw [if_pos hne, Amount.field]
      rw [cstr, List.cons_append] at hread ⊢
      rw [scanField, if_pos hc, hread, Option.map_some]
    · have hnone : (c :: s).takeWhile isdigit = [] := List.takeWhile_cons_of_neg hc
      rw [if_neg (not_not.mpr hnone), cstr, List.cons_append, scanField, if_neg hc, List.head?_cons]
      by_cases hstar : c = chr '*'
      · rw [if_pos hstar, if_pos (congrArg some hstar)]
        rfl
      · rw [if_neg hstar, if_neg fun h ↦ hstar (Option.some.inj h)]
        rfl

theorem scanPrecision_cstr (s : List Byte) : scanPrecision (cstr s)
    = some ((readPrecision s).1.map Amount.field, cstr (readPrecision s).2) := by
  cases s with
  | nil => rfl
  | cons c s =>
    rw [readPrecision, cstr, List.cons_append, scanPrecision, List.head?_cons]
    by_cases hdot : c = chr '.'
    · rw [if_pos hdot, if_pos (congrArg some hdot), ← cstr, scanField_cstr]
      rfl
    · rw [if_neg hdot, if_neg fun h ↦ hdot (Option.some.inj h)]
      rfl

theorem getQualifier_cstr (s : List Byte) :
    getQualifier (cstr s) = some ((Qualifier.read s).1, cstr (Qualifier.read s).2) := by
  cases s with
  | nil => rfl
  | cons c s =>
    rw [cstr, List.cons_append, getQualifier, Qualifier.read]
    split_ifs with hh hL hZ hl hll
    · rfl
    · rfl
    · rfl
    · obtain ⟨s, rfl⟩ : ∃ r, s = chr 'l' :: r := ⟨s.tail, (List.cons_head?_tail hll).symm⟩
      rfl
    · cases s with
      | nil => rfl
      | cons e s =>
        rw [List.head?_cons, Option.some.injEq] at hll
        rw [List.cons_append, getQualifierL, if_neg hll]
        rfl
    · rfl

/-- **The formatter finds what is written.** -/
theorem scanSpec_cstr (r : List Byte) :
    scanSpec (cstr r) = some ((written r).1.spec, cstr (written r).2) := by
  rw [scanSpec]
  simp only [Scanner.bind, getFlags_cstr, Option.bind_some, scanField_cstr, scanPrecision_cstr,
    getQualifier_cstr, Scanner.pure]
  rfl

/-! ## Writing them -/

/-- The characters of a number. -/
def Amount.text : Amount → List Byte
  | .absent => []
  | .digits ds => ds
  | .star => [chr '*']

/-- A string of digits has digits in it, and nothing else. -/
def Amount.WellFormed : Amount → Prop
  | .digits ds => ds ≠ [] ∧ ∀ d ∈ ds, isdigit d = true
  | _ => True

instance (a : Amount) : Decidable a.WellFormed :=
  match a with
  | .absent => isTrue trivial
  | .digits ds => inferInstanceAs (Decidable (ds ≠ [] ∧ ∀ d ∈ ds, isdigit d = true))
  | .star => isTrue trivial

/-- The qualifiers and their texts. -/
def qualifiers : List (List Byte × Qualifier) :=
  [([], .none), ([chr 'h'], .h), ([chr 'l'], .l), ([chr 'l', chr 'l'], .L), ([chr 'L'], .L),
    ([chr 'Z'], .Z)]

/-- A directive, from behind its `%` on. -/
structure Directive extends Written where
  /-- The text of the qualifier. -/
  qualifierText : List Byte
  /-- The conversion character. -/
  conversion : Byte
  /-- The flags are flags. -/
  flags_wf : ∀ c ∈ flags, isFlag c = true
  /-- The width is a number; it does not begin with a zero, which would be a flag. -/
  width_wf : width.WellFormed ∧ width.text.head? ≠ some (chr '0')
  /-- The precision is a number. -/
  precision_wf : ∀ a ∈ precision, a.WellFormed
  /-- The text of the qualifier is one. -/
  qualifier_wf : (qualifierText, qualifier) ∈ qualifiers
  /-- The conversion character is one. -/
  conversion_wf : conversion ∈ conversions

/-- The parts make up a directive. -/
def Written.IsDirective (w : Written) (qualifierText : List Byte) (conversion : Byte) : Prop :=
  (∀ c ∈ w.flags, isFlag c = true) ∧ (w.width.WellFormed ∧ w.width.text.head? ≠ some (chr '0')) ∧
    (∀ a ∈ w.precision, a.WellFormed) ∧ (qualifierText, w.qualifier) ∈ qualifiers ∧
      conversion ∈ conversions

instance (w : Written) (qualifierText : List Byte) (conversion : Byte) :
    Decidable (w.IsDirective qualifierText conversion) :=
  inferInstanceAs (Decidable (_ ∧ _ ∧ _ ∧ _ ∧ _))

/-- The directive that they make up. -/
def Written.directive (w : Written) (qualifierText : List Byte) (conversion : Byte)
    (h : w.IsDirective qualifierText conversion) : Directive where
  toWritten := w
  qualifierText := qualifierText
  conversion := conversion
  flags_wf := h.1
  width_wf := h.2.1
  precision_wf := h.2.2.1
  qualifier_wf := h.2.2.2.1
  conversion_wf := h.2.2.2.2

theorem conversions_ne : ∀ c ∈ conversions, isFlag c = false ∧ isdigit c = false ∧ c ≠ chr '*' ∧
    c ≠ chr '.' ∧ c ≠ chr 'h' ∧ c ≠ chr 'l' ∧ c ≠ chr 'L' ∧ c ≠ chr 'Z' ∧ c ≠ 0 := by
  decide

/-- A number is read back, in front of a character that cannot belong to it. -/
theorem Amount.read_text {a : Amount} (ha : a.WellFormed) {c : Byte} (hc : isdigit c = false)
    (hstar : c ≠ chr '*') (r : List Byte) : Amount.read (a.text ++ c :: r) = (a, c :: r) := by
  have hstop : ¬ isdigit c = true := by simp [hc]
  cases a with
  | absent =>
    have hnone : (c :: r).takeWhile isdigit = [] := List.takeWhile_cons_of_neg hstop
    rw [text, List.nil_append, read, if_neg (not_not.mpr hnone), List.head?_cons,
      if_neg fun h ↦ hstar (Option.some.inj h)]
  | star => rfl
  | digits ds =>
    obtain ⟨hne, hds⟩ := ha
    have hrun : (ds ++ c :: r).takeWhile isdigit = ds := by
      rw [List.takeWhile_append_of_pos hds, List.takeWhile_cons_of_neg hstop, List.append_nil]
    have hrest : (ds ++ c :: r).dropWhile isdigit = c :: r := by
      rw [List.dropWhile_append_of_pos hds, List.dropWhile_cons_of_neg hstop]
    show Amount.read (ds ++ c :: r) = _
    rw [read, hrun, hrest, if_pos hne]

theorem Qualifier.read_text {qs r : List Byte} {q : Qualifier} {c : Byte}
    (hq : (qs, q) ∈ qualifiers) (hc : c ∈ conversions) :
    Qualifier.read (qs ++ c :: r) = (q, c :: r) := by
  obtain ⟨-, -, -, -, hh, hl, hL, hZ, -⟩ := conversions_ne c hc
  simp only [qualifiers, List.mem_cons, Prod.mk.injEq, List.not_mem_nil, or_false] at hq
  rcases hq with ⟨rfl, rfl⟩ | ⟨rfl, rfl⟩ | ⟨rfl, rfl⟩ | ⟨rfl, rfl⟩ | ⟨rfl, rfl⟩ | ⟨rfl, rfl⟩
  · rw [List.nil_append, Qualifier.read, if_neg hh, if_neg hL, if_neg hZ, if_neg hl]
  · rfl
  · show (if (c :: r).head? = some (chr 'l') then _ else _) = _
    rw [List.head?_cons, if_neg fun h ↦ hl (Option.some.inj h)]
    rfl
  all_goals rfl

namespace Directive

variable (d : Directive) (post : List Byte)

/-- The characters of the precision. -/
def precisionText : List Byte := d.precision.elim [] fun a ↦ chr '.' :: a.text

/-- The characters of a directive. -/
def text : List Byte :=
  d.flags ++ (d.width.text ++ (d.precisionText ++ (d.qualifierText ++ [d.conversion])))

/-- What is left behind the precision begins with a character that cannot belong to it. -/
theorem qualifier_head : ∃ c r, d.qualifierText ++ d.conversion :: post = c :: r ∧
    isFlag c = false ∧ isdigit c = false ∧ c ≠ chr '*' ∧ c ≠ chr '.' := by
  have hqualifier : ∀ x ∈ qualifiers, ∀ c ∈ x.1, isFlag c = false ∧ isdigit c = false ∧
      c ≠ chr '*' ∧ c ≠ chr '.' := by decide
  cases hq : d.qualifierText with
  | nil =>
    obtain ⟨hflag, hdigit, hstar, hdot, -⟩ := conversions_ne _ d.conversion_wf
    exact ⟨d.conversion, post, rfl, hflag, hdigit, hstar, hdot⟩
  | cons c qs =>
    exact ⟨c, _, rfl, hqualifier _ d.qualifier_wf c (hq ▸ List.mem_cons_self)⟩

/-- What is left behind the width begins with a character that cannot belong to it. -/
theorem precision_head : ∃ c r,
    d.precisionText ++ (d.qualifierText ++ d.conversion :: post) = c :: r ∧
    isFlag c = false ∧ isdigit c = false ∧ c ≠ chr '*' := by
  rw [precisionText]
  cases d.precision with
  | none =>
    obtain ⟨c, r, hr, hflag, hdigit, hstar, -⟩ := d.qualifier_head post
    exact ⟨c, r, hr, hflag, hdigit, hstar⟩
  | some a => exact ⟨chr '.', _, rfl, by decide, by decide, by decide⟩

/-- What is left behind the flags does not begin with one. -/
theorem width_head : ∃ c r,
    d.width.text ++ (d.precisionText ++ (d.qualifierText ++ d.conversion :: post)) = c :: r ∧
      isFlag c = false := by
  obtain ⟨hwf, hzero⟩ := d.width_wf
  cases hw : d.width with
  | absent =>
    obtain ⟨c, r, hr, hflag, -⟩ := d.precision_head post
    exact ⟨c, r, hr, hflag⟩
  | star => exact ⟨chr '*', _, rfl, by decide⟩
  | digits ds =>
    rw [hw] at hwf hzero
    obtain ⟨hne, hds⟩ := hwf
    obtain ⟨e, es, rfl⟩ := List.exists_cons_of_ne_nil hne
    refine ⟨e, _, rfl, decide_eq_false fun he ↦ ?_⟩
    have hdigit : ∀ c ∈ flagChars, isdigit c = true → c = chr '0' := by decide
    exact hzero (congrArg some (hdigit e he (hds e List.mem_cons_self)))

theorem readPrecision_text :
    readPrecision (d.precisionText ++ (d.qualifierText ++ d.conversion :: post))
      = (d.precision, d.qualifierText ++ d.conversion :: post) := by
  obtain ⟨c, r, hr, -, hdigit, hstar, hdot⟩ := d.qualifier_head post
  rw [precisionText, hr]
  cases hp : d.precision with
  | none =>
    rw [Option.elim_none, List.nil_append, readPrecision, List.head?_cons,
      if_neg fun h ↦ hdot (Option.some.inj h)]
  | some a =>
    have ha := Amount.read_text (d.precision_wf a hp) hdigit hstar r
    rw [Option.elim_some, List.cons_append, readPrecision, List.head?_cons, if_pos rfl,
      List.tail_cons, ha]

/-- **What is written is read**, up to the conversion character. -/
theorem written_text : written (d.text ++ post) = (d.toWritten, d.conversion :: post) := by
  have htext : d.text ++ post = d.flags ++ (d.width.text
      ++ (d.precisionText ++ (d.qualifierText ++ d.conversion :: post))) := by
    simp [text]
  have hflags : (d.text ++ post).takeWhile isFlag = d.flags ∧ (d.text ++ post).dropWhile isFlag
      = d.width.text ++ (d.precisionText ++ (d.qualifierText ++ d.conversion :: post)) := by
    obtain ⟨c, r, hr, hflag⟩ := d.width_head post
    have hstop : ¬ isFlag c = true := by simp [hflag]
    rw [htext, hr, List.takeWhile_append_of_pos d.flags_wf, List.dropWhile_append_of_pos d.flags_wf,
      List.takeWhile_cons_of_neg hstop, List.dropWhile_cons_of_neg hstop, List.append_nil]
    exact ⟨rfl, rfl⟩
  have hwidth : Amount.read
      (d.width.text ++ (d.precisionText ++ (d.qualifierText ++ d.conversion :: post)))
        = (d.width, d.precisionText ++ (d.qualifierText ++ d.conversion :: post)) := by
    obtain ⟨c, r, hr, -, hdigit, hstar⟩ := d.precision_head post
    rw [hr]
    exact Amount.read_text d.width_wf.1 hdigit hstar r
  rw [written, hflags.1, hflags.2, hwidth]
  simp only [d.readPrecision_text post, Qualifier.read_text d.qualifier_wf d.conversion_wf]

end Directive

/-! ## What becomes of the numbers -/

/-- An `int` is one. -/
theorem i32_toInt (w : Word) : i32 w.toInt = w.toInt := (isInt_toInt w).i32_eq

namespace Written

variable (w : Written)

/-- The flags, with `LEFT` set for a negative `*` width. -/
def codeFlags (args : Args) : Flags := { w.flagSet with left := w.left args }

/-- The `int` that the field width ends up in. -/
def codeWidth (args : Args) : Int := if w.width = .absent then -1 else i32 (w.minWidth args)

/-- The `int` that the precision ends up in. -/
def codePrecision (args : Args) : Int := (w.precisionValue args).elim (-1) fun v ↦ max (i32 v) 0

theorem width_eq (args : Args) : w.width.field.width w.flagSet args
    = (w.codeFlags args, w.codeWidth args, args.drop w.width.field.words) := by
  rw [codeFlags, left, codeWidth, minWidth]
  cases w.width with
  | absent => simp [Amount.field, Field.width, Amount.value, Field.words]
  | digits ds =>
    have hnonneg : ¬ ((decimal ds : ℕ) : Int) < 0 := by omega
    simp [Amount.field, Field.width, Amount.value, Field.words, hnonneg]
  | star =>
    by_cases hneg : args.head.toInt < 0
    · have habs : (args.head.toInt.natAbs : Int) = -args.head.toInt := by omega
      simp only [Amount.field, Field.width, Amount.value, Field.words, Option.getD_some, hneg, habs]
      simp
      rfl
    · have habs : (args.head.toInt.natAbs : Int) = args.head.toInt := by omega
      simp only [Amount.field, Field.width, Amount.value, Field.words, Option.getD_some, hneg, habs,
        i32_toInt]
      simp
      rfl

theorem resolvePrecision_some (f : Field) (args : Args) :
    (resolvePrecision args (some f)).1 = max (f.precision args).1 0 := by
  rw [resolvePrecision]
  split_ifs <;> omega

theorem resolvePrecision_amount (p : Option Amount) (args : Args) :
    (resolvePrecision args (p.map Amount.field)).1
      = (p.map fun a ↦ (a.value args).getD 0).elim (-1) fun v ↦ max (i32 v) 0 := by
  cases p with
  | none => rfl
  | some a =>
    rw [Option.map_some, resolvePrecision_some, Option.map_some, Option.elim_some]
    cases a with
    | absent => simp [Amount.field, Field.precision, Amount.value, i32]
    | digits ds => simp only [Amount.field, Field.precision, Amount.value, Option.getD_some]
    | star => simp only [Amount.field, Field.precision, Amount.value, Option.getD_some, i32_toInt]

theorem codeWidth_eq (args : Args) : w.codeWidth args = i32 (w.minWidth args) ∨
    w.minWidth args = 0 ∧ w.codeWidth args = -1 := by
  by_cases habsent : w.width = .absent
  · exact .inr ⟨by rw [minWidth, habsent]; rfl, if_pos habsent⟩
  · exact .inl (if_neg habsent)

theorem codeWidth_nonneg {args : Args} (h : w.minWidth args < 2 ^ 31) :
    0 ≤ w.codeWidth args ↔ w.width ≠ .absent := by
  rw [codeWidth]
  split_ifs with habsent
  · simp [habsent]
  · rw [i32_of_range (by omega) (by omega)]
    simp [habsent]

theorem codePrecision_eq {args : Args} {n : Option ℕ}
    (hprec : w.precisionValue args = n.map Nat.cast) (hn : ∀ m ∈ n, m < 2 ^ 31) :
    w.codePrecision args = n.elim (-1) Nat.cast := by
  rw [codePrecision, hprec]
  cases n with
  | none => rfl
  | some m =>
    have hm := hn m rfl
    rw [Option.map_some, Option.elim_some, Option.elim_some, i32_of_range (by omega) (by omega)]
    omega

theorem precision_eq (args : Args) :
    resolvePrecision (args.drop w.width.field.words) (w.precision.map Amount.field)
      = (w.codePrecision args, args.drop w.spec.words) := by
  refine Prod.ext (resolvePrecision_amount _ _) ?_
  rw [resolvePrecision_args, Stream'.drop_drop]
  rfl

/-- **What the formatter makes of a directive.** -/
theorem resolve_eq (args : Args) : w.spec.resolve args
    = (w.codeFlags args, w.codeWidth args, w.codePrecision args, args.drop w.spec.words) := by
  have hwidth : w.spec.width.width w.spec.flags args = _ := w.width_eq args
  have hprecision : resolvePrecision _ w.spec.precision = _ := w.precision_eq args
  rw [Spec.resolve, hwidth]
  simp only [hprecision]

end Written

/-- **A pass over a directive** executes it. -/
theorem Directive.loopPass_eq (d : Directive) {σ : Type} {S : Sink σ} {x : LoopState σ}
    {post : List Byte} (hx : x.fmt = cstr (chr '%' :: (d.text ++ post))) : loopPass S x
      = (convert S (d.codeFlags x.args) (d.codeWidth x.args) (d.codePrecision x.args) d.qualifier
          d.conversion (x.args.drop d.spec.words) x.out).map fun y ↦ ⟨cstr post, y.1, y.2⟩ := by
  have hspec := scanSpec_cstr (d.text ++ post)
  rw [d.written_text] at hspec
  rw [loopPass_directive hx hspec (conversions_ne _ d.conversion_wf).2.2.2.2.2.2.2.2, Item.run,
    d.resolve_eq]
  rfl

end PastaOS
