import PastaOS.Printf.Format
import PastaOS.Scanf.Defs

/-!
# Formats of the scanner

A format of the scanner is a list of `ScanItem`s, found by `scanItems` without looking at the input.
`scan_eq` says that `vsscanf` runs them, one after another; `scanItems_append` says that the items
of a format stay what they are when another format follows.

White space is the one place where a pass of the loop and an item do not agree: a pass skips all of
it and goes on with the next item, without another look at whether the input has ended.  `runScan`
therefore keeps whether it is in the middle of a pass.
-/

set_option autoImplicit false

namespace PastaOS

open Scanner

/-! ## Items -/

/-- A piece of a format of the scanner. -/
inductive ScanItem
  /-- A white space character. -/
  | space
  /-- A character to be matched. -/
  | char (c : Byte)
  /-- A `%*`, and what is skipped with it. -/
  | suppress
  /-- A conversion. -/
  | directive (width : Option Int) (qualifier : Qualifier) (c : Byte)
  /-- A directive that ends with the format. -/
  | cutoff (width : Option Int)
  deriving DecidableEq

/-- A field width. -/
def scanWidth : Scanner Byte (Option Int)
  | [] => none
  | c :: fmt =>
    if isdigit c then (skipAtoi 0 (c :: fmt)).map fun x ↦ (some x.1, x.2) else some (none, c :: fmt)

/-- A field width and a qualifier. -/
def scanModifiers : Scanner Byte (Option Int × Qualifier) :=
  Scanner.bind scanWidth fun width ↦ Scanner.bind scanQualifier fun qualifier ↦
    Scanner.pure (width, qualifier)

/-- A conversion character. -/
def readConversion (m : Option Int × Qualifier) : Scanner Byte ScanItem
  | [] => none
  | c :: fmt => if c = 0 then some (.cutoff m.1, c :: fmt) else some (.directive m.1 m.2 c, fmt)

/-- A directive, from behind its `%` on. -/
def readDirective : Scanner Byte ScanItem := Scanner.bind scanModifiers readConversion

/-- An item. -/
def readItem : Scanner Byte ScanItem
  | [] => none
  | c :: fmt =>
    if isspace c then some (.space, fmt)
    else if c ≠ chr '%' then some (.char c, fmt)
    else if fmt.head? = some (chr '*') then (skipWord fmt).map fun fmt ↦ (.suppress, fmt)
    else readDirective fmt

/-- The items of a format. -/
def scanItems (fmt : List Byte) : List ScanItem := items 0 readItem fmt

section Run

variable (buf : List Byte)

/-- Run an item: whether the scan goes on, and the variables. -/
def ScanItem.run (s : Scan) : ScanItem → Option (Bool × Scan)
  | .space => (skipSpace s.str).map fun str ↦ (true, { s with str := str })
  | .char c => s.str.head?.map fun d ↦ (decide (c = d ∧ d ≠ 0), { s with str := s.str.tail })
  | .suppress => (skipWord s.str).map fun str ↦ (true, { s with str := str })
  | .directive width qualifier c =>
    let s := { s with fieldWidth := width.getD s.fieldWidth }
    s.str.head?.bind fun d ↦ if d = 0 then some (false, s) else scanConvert buf qualifier c s
  | .cutoff width => some (false, { s with fieldWidth := width.getD s.fieldWidth })

/-- Run items one after another, in the middle of a pass of the loop or in front of one: whether the
scan gets to the end of them, and the variables. -/
def runScan : List ScanItem → Bool → Scan → Option (Bool × Scan)
  | [], _, s => some (true, s)
  | i :: items, inPass, s =>
    s.str.head?.bind fun d ↦
      if d = 0 ∧ inPass = false then some (false, s)
      else (i.run buf s).bind fun x ↦
        if x.1 then runScan items (decide (i = .space)) x.2 else some (false, x.2)

end Run

/-! ## Where an item ends -/

theorem scanWidth_stops : Stops 0 scanWidth := by
  rintro (_ | ⟨c, s⟩)
  · exact .nil rfl
  · by_cases hc : isdigit c
    · refine .step ?_ (isdigit_ne_zero hc)
        ((skipAtoi_stops (i32 (0 * 10 + c.toNat - 48)) s).map some)
      intro s
      rw [scanWidth, if_pos hc, skipAtoi, if_pos hc]
    · exact .stop fun s ↦ by rw [scanWidth, if_neg hc]

theorem scanQualifier_stops : Stops 0 scanQualifier := by
  rintro (_ | ⟨c, s⟩)
  · exact .nil rfl
  by_cases hh : c = chr 'h'
  · have hne : c ≠ 0 := by rw [hh]; decide
    exact .step (fun s ↦ by rw [scanQualifier, if_pos hh]; rfl) hne (Stops.pure Qualifier.h s)
  by_cases hl : c = chr 'l'
  · have hne : c ≠ 0 := by rw [hl]; decide
    exact .step (fun s ↦ by rw [scanQualifier, if_neg hh, if_pos hl]; rfl) hne
      (Stops.pure Qualifier.l s)
  by_cases hL : c = chr 'L'
  · have hne : c ≠ 0 := by rw [hL]; decide
    exact .step (fun s ↦ by rw [scanQualifier, if_neg hh, if_neg hl, if_pos hL]; rfl) hne
      (Stops.pure Qualifier.L s)
  by_cases hZ : c = chr 'Z'
  · have hne : c ≠ 0 := by rw [hZ]; decide
    exact .step (fun s ↦ by rw [scanQualifier, if_neg hh, if_neg hl, if_neg hL, if_pos hZ]; rfl) hne
      (Stops.pure Qualifier.Z s)
  · exact .stop fun s ↦ by rw [scanQualifier, if_neg hh, if_neg hl, if_neg hL, if_neg hZ]

theorem scanModifiers_stops : Stops 0 scanModifiers :=
  scanWidth_stops.bind fun _ ↦ scanQualifier_stops.bind fun _ ↦ Stops.pure _

/-- Skipping a word stops at the NUL. -/
theorem skipWord_isSome {fmt : List Byte} (h0 : 0 ∈ fmt) :
    ∃ r, skipWord fmt = some r ∧ 0 ∈ r ∧ r.length ≤ fmt.length := by
  induction fmt with
  | nil => simp at h0
  | cons c fmt ih =>
    rw [skipWord]
    split_ifs with hc
    · obtain ⟨r, hr, hr0, hlen⟩ := ih (List.mem_of_ne_of_mem (Ne.symm hc.2) h0)
      exact ⟨r, hr, hr0, hlen.trans (Nat.le_succ _)⟩
    · exact ⟨c :: fmt, rfl, h0, le_rfl⟩

/-- A directive stops at the NUL. -/
theorem readDirective_isSome {fmt : List Byte} (h0 : 0 ∈ fmt) :
    ∃ i r, readDirective fmt = some (i, r) ∧ 0 ∈ r ∧ r.length ≤ fmt.length := by
  obtain ⟨m, r, hm, hr⟩ := (scanModifiers_stops fmt).finds h0
  obtain ⟨c, rest, rfl⟩ := List.exists_cons_of_ne_nil (List.ne_nil_of_mem hr)
  have hlen := scanModifiers_stops.length_le hm
  rw [readDirective, Scanner.bind, hm, Option.bind_some, readConversion]
  by_cases hc : c = 0
  · exact ⟨_, _, if_pos hc, hr, hlen⟩
  · rw [List.length_cons] at hlen
    exact ⟨_, _, if_neg hc, List.mem_of_ne_of_mem (Ne.symm hc) hr, by omega⟩

/-- Every format that ends with a NUL consists of items. -/
theorem readItem_advances : Advances 0 readItem := by
  intro c fmt hc h0
  rw [readItem]
  by_cases hs : isspace c = true
  · exact ⟨_, _, if_pos hs, h0, le_rfl⟩
  rw [if_neg hs]
  by_cases hpc : c ≠ chr '%'
  · exact ⟨_, _, if_pos hpc, h0, le_rfl⟩
  rw [if_neg hpc]
  by_cases hstar : fmt.head? = some (chr '*')
  · obtain ⟨r, hr, hr0, hlen⟩ := skipWord_isSome h0
    exact ⟨_, r, by rw [if_pos hstar, hr]; rfl, hr0, hlen⟩
  · rw [if_neg hstar]
    exact readDirective_isSome h0

/-- An item that says by itself where it ends. -/
def ScanItem.isClosed : ScanItem → Bool
  | .suppress => false
  | .cutoff _ => false
  | _ => true

/-- Such an item is read whatever follows. -/
theorem readItem_reads {i : ScanItem} (hi : i.isClosed = true) {fmt r : List Byte}
    (h : readItem fmt = some (i, r)) : ∃ pre, fmt = pre ++ r ∧ Reads readItem i pre := by
  obtain _ | ⟨c, fmt⟩ := fmt
  · simp [readItem] at h
  rw [readItem] at h
  by_cases hs : isspace c = true
  · rw [if_pos hs] at h
    obtain ⟨rfl, rfl⟩ := Prod.mk.inj (Option.some.inj h)
    exact ⟨[c], rfl, fun post ↦ by rw [List.singleton_append, readItem, if_pos hs]⟩
  rw [if_neg hs] at h
  by_cases hpc : c ≠ chr '%'
  · rw [if_pos hpc] at h
    obtain ⟨rfl, rfl⟩ := Prod.mk.inj (Option.some.inj h)
    exact ⟨[c], rfl, fun post ↦ by rw [List.singleton_append, readItem, if_neg hs, if_pos hpc]⟩
  rw [if_neg hpc] at h
  by_cases hstar : fmt.head? = some (chr '*')
  · rw [if_pos hstar] at h
    obtain ⟨fmt', -, h⟩ := Option.map_eq_some_iff.mp h
    obtain ⟨rfl, -⟩ := Prod.mk.inj h
    contradiction
  rw [if_neg hstar] at h
  obtain ⟨⟨m, r'⟩, hm, h⟩ := Option.bind_eq_some_iff.mp h
  obtain _ | ⟨d, rest⟩ := r'
  · simp [readConversion] at h
  rw [readConversion] at h
  by_cases hd : d = 0
  · rw [if_pos hd] at h
    obtain ⟨rfl, -⟩ := Prod.mk.inj (Option.some.inj h)
    contradiction
  rw [if_neg hd] at h
  obtain ⟨rfl, rfl⟩ := Prod.mk.inj (Option.some.inj h)
  obtain ⟨pre, rfl, hblind⟩ := (scanModifiers_stops fmt).blind m d rest hm
  refine ⟨c :: (pre ++ [d]), by simp, ?_⟩
  intro post
  -- the directive begins with the same letter whatever follows
  have hhead : (pre ++ d :: post).head? ≠ some (chr '*') := by
    cases pre with
    | nil => exact hstar
    | cons e pre => exact hstar
  rw [List.cons_append, List.append_assoc, List.singleton_append, readItem, if_neg hs, if_neg hpc,
    if_neg hhead, readDirective, Scanner.bind, hblind post, Option.bind_some, readConversion,
    if_neg hd]

/-- A format string, without its NUL, all of whose directives are completed, and none suppressed. -/
def ScanComplete (fmt : List Byte) : Prop :=
  0 ∉ fmt ∧ ∀ i ∈ scanItems (cstr fmt), i.isClosed = true

instance (fmt : List Byte) : Decidable (ScanComplete fmt) :=
  inferInstanceAs (Decidable (0 ∉ fmt ∧ ∀ i ∈ scanItems (cstr fmt), i.isClosed = true))

theorem zero_mem_cstr (fmt : List Byte) : 0 ∈ cstr fmt :=
  List.mem_append_right _ List.mem_cons_self

/-- **The items of two formats** are those of the first one followed by those of the second. -/
theorem scanItems_append {fmt : List Byte} (h : ScanComplete fmt) (fmt' : List Byte) :
    scanItems (cstr (fmt ++ fmt')) = scanItems (cstr fmt) ++ scanItems (cstr fmt') := by
  have hcstr : cstr (fmt ++ fmt') = fmt ++ cstr fmt' := by simp [cstr]
  rw [hcstr]
  exact items_append readItem_advances h.1 (zero_mem_cstr fmt')
    fun i hi fmt r hr ↦ readItem_reads (h.2 i hi) hr

/-! ## The loop runs the items -/

variable {buf fmt fmt' : List Byte} {s : Scan} {d : Byte}

theorem scanItems_cons {c : Byte} {i : ScanItem} {r : List Byte} (hc : c ≠ 0) (h0 : 0 ∈ fmt)
    (h : readItem (c :: fmt) = some (i, r)) : scanItems (c :: fmt) = i :: scanItems r :=
  items_cons readItem_advances hc h0 h

theorem isspace_ne_zero {c : Byte} (h : isspace c = true) : c ≠ 0 := by
  rintro rfl
  rw [isspace_zero] at h
  contradiction

/-- Behind white space there is none. -/
theorem skipSpace_eq_some {str str' : List Byte} (h : skipSpace str = some str') :
    ∃ c rest, str' = c :: rest ∧ isspace c = false ∧ skipSpace str' = some str' := by
  induction str with
  | nil => simp [skipSpace] at h
  | cons c str ih =>
    rw [skipSpace] at h
    by_cases hc : isspace c = true
    · rw [if_pos hc] at h
      exact ih h
    · rw [if_neg hc] at h
      obtain rfl := Option.some.inj h
      exact ⟨c, str, rfl, by simpa using hc, by rw [skipSpace, if_neg hc]⟩

/-- Skipping white space stops at the NUL. -/
theorem skipSpace_isSome (h0 : 0 ∈ fmt) :
    ∃ r, skipSpace fmt = some r ∧ 0 ∈ r ∧ r.length ≤ fmt.length := by
  induction fmt with
  | nil => simp at h0
  | cons c fmt ih =>
    rw [skipSpace]
    split_ifs with hc
    · obtain ⟨r, hr, hr0, hlen⟩ :=
        ih (List.mem_of_ne_of_mem (Ne.symm (isspace_ne_zero hc)) h0)
      exact ⟨r, hr, hr0, hlen.trans (Nat.le_succ _)⟩
    · exact ⟨c :: fmt, rfl, h0, le_rfl⟩

/-- In the middle of a pass, the input is not looked at before the item is run. -/
theorem runScan_inPass (i : ScanItem) (items : List ScanItem) (hd : s.str.head? = some d) :
    runScan buf (i :: items) true s = (i.run buf s).bind fun x ↦
      if x.1 then runScan buf items (decide (i = .space)) x.2 else some (false, x.2) := by
  rw [runScan, hd, Option.bind_some, if_neg (by simp)]

/-- In front of a pass, it is. -/
theorem runScan_beforePass (items : List ScanItem) (hd : s.str.head? = some d) (h0 : d ≠ 0) :
    runScan buf items false s = runScan buf items true s := by
  cases items with
  | nil => rfl
  | cons i items =>
    rw [runScan, runScan, hd, Option.bind_some, Option.bind_some, if_neg (fun h ↦ h0 h.1),
      if_neg (by simp)]

/-- **White space is skipped in one go.** -/
theorem runScan_skipSpace {c : Byte} (hc : isspace c = true) (h0 : 0 ∈ fmt)
    (h : skipSpace fmt = some fmt') (hd : s.str.head? = some d) :
    runScan buf (scanItems (c :: fmt)) true s = (skipSpace s.str).bind fun str ↦
      runScan buf (scanItems fmt') true { s with str := str } := by
  induction fmt generalizing c s d with
  | nil => simp at h0
  | cons e fmt ih =>
    rw [scanItems_cons (isspace_ne_zero hc) h0 (if_pos hc), runScan_inPass _ _ hd, ScanItem.run,
      Option.bind_map]
    cases hstr : skipSpace s.str with
    | none => rfl
    | some str =>
      obtain ⟨d', rest, rfl, -, hidem⟩ := skipSpace_eq_some hstr
      rw [Option.bind_some, Option.bind_some]
      simp only [Function.comp, if_true, decide_true]
      rw [skipSpace] at h
      by_cases he : isspace e = true
      · rw [if_pos he] at h
        have h0' : 0 ∈ fmt := List.mem_of_ne_of_mem (Ne.symm (isspace_ne_zero he)) h0
        rw [ih (s := { s with str := d' :: rest }) he h0' h rfl]
        simp only [hidem, Option.bind_some]
      · rw [if_neg he] at h
        rw [Option.some.inj h]

/-- What follows a pass of the loop. -/
def Pass.resume (buf : List Byte) (fuel : ℕ) : Pass → Option (Bool × Scan)
  | .again fmt s => vsscanfLoop buf fuel fmt s
  | .leave atEnd s => some (atEnd, s)

theorem vsscanfLoop_succ (fuel : ℕ) (c : Byte) (fmt : List Byte) (s : Scan) :
    vsscanfLoop buf (fuel + 1) (c :: fmt) s
      = if c = 0 then some (true, s)
        else s.str.head?.bind fun d ↦
          if d = 0 then some (false, s)
          else (scanSpace (c :: fmt) s).bind fun x ↦
            (scanPass buf x.1 x.2).bind (Pass.resume buf fuel) := by
  rw [vsscanfLoop]
  simp only [List.head?_cons, Option.bind_eq_bind, Option.bind_some]
  split_ifs
  · rfl
  · refine congrArg (Option.bind _) (funext ?_)
    intro d
    split_ifs
    · rfl
    · refine congrArg (Option.bind _) (funext ?_)
      intro x
      refine congrArg (Option.bind _) (funext ?_)
      intro p
      cases p <;> rfl

/-- What is left to be done behind an item. -/
def ScanItem.resume (buf : List Byte) (fuel : ℕ) (s : Scan) (x : ScanItem × List Byte) :
    Option (Bool × Scan) :=
  (x.1.run buf s).bind fun y ↦ if y.1 then vsscanfLoop buf fuel x.2 y.2 else some (false, y.2)

theorem scanConversion_eq (fuel : ℕ) (width : Option Int) (qualifier : Qualifier) (fmt : List Byte)
    (hd : s.str.head? = some d) :
    (scanConversion buf qualifier { s with fieldWidth := width.getD s.fieldWidth } fmt).bind
        (Pass.resume buf fuel)
      = (readConversion (width, qualifier) fmt).bind (ScanItem.resume buf fuel s) := by
  cases fmt with
  | nil => rfl
  | cons c fmt =>
    rw [scanConversion, readConversion]
    simp only [hd, Option.bind_eq_bind, Option.bind_some]
    by_cases hc : c = 0
    · rw [if_pos (.inl hc), if_pos hc]
      rfl
    · rw [if_neg hc, Option.bind_some, ScanItem.resume, ScanItem.run]
      simp only [hd, Option.bind_some]
      by_cases h0 : d = 0
      · rw [if_pos (.inr h0), if_pos h0]
        rfl
      · rw [if_neg (not_or.mpr ⟨hc, h0⟩), if_neg h0, Option.bind_assoc]
        refine congrArg (Option.bind _) (funext ?_)
        rintro ⟨_ | _, s'⟩ <;> rfl

/-- **A directive of the loop is an item.** -/
theorem scanDirective_eq (fuel : ℕ) (fmt : List Byte) (hd : s.str.head? = some d) :
    (scanDirective buf fmt s).bind (Pass.resume buf fuel)
      = (readDirective fmt).bind (ScanItem.resume buf fuel s) := by
  have hwidth : scanFieldWidth s.fieldWidth fmt
      = (scanWidth fmt).map fun x ↦ (x.1.getD s.fieldWidth, x.2) := by
    cases fmt with
    | nil => rfl
    | cons c fmt =>
      rw [scanFieldWidth, scanWidth]
      by_cases hc : isdigit c = true
      · rw [if_pos hc, if_pos hc, Option.map_map]
        simp [Function.comp_def]
      · rw [if_neg hc, if_neg hc]
        rfl
  rw [scanDirective, hwidth, readDirective, scanModifiers, Scanner.bind, Scanner.bind]
  cases scanWidth fmt with
  | none => rfl
  | some x =>
    simp only [Option.bind_eq_bind, Option.map_some, Option.bind_some, Scanner.bind]
    cases scanQualifier x.2 with
    | none => rfl
    | some y => exact scanConversion_eq fuel x.1 y.1 y.2 hd

/-- **A pass of the loop is an item**, behind the white space. -/
theorem scanPass_eq (fuel : ℕ) {c : Byte} (hc : c ≠ 0) (hs : isspace c = false)
    (hd : s.str.head? = some d) :
    (scanPass buf (c :: fmt) s).bind (Pass.resume buf fuel)
      = (readItem (c :: fmt)).bind (ScanItem.resume buf fuel s) := by
  rw [scanPass, readItem, if_neg (by simp [hs] : ¬ isspace c = true)]
  by_cases hpc : c ≠ chr '%'
  · rw [if_pos ⟨hpc, hc⟩, if_pos hpc, Option.bind_some, ScanItem.resume, ScanItem.run]
    simp only [hd, Option.bind_eq_bind, Option.bind_some, Option.map_some]
    by_cases hcd : c = d
    · rw [if_neg (not_not.mpr hcd), decide_eq_true ⟨hcd, hcd ▸ hc⟩]
      rfl
    · rw [if_pos hcd, decide_eq_false (fun h ↦ hcd h.1)]
      rfl
  · rw [if_neg (fun h ↦ hpc h.1), if_neg hc, if_neg hpc]
    by_cases hstar : fmt.head? = some (chr '*')
    · rw [if_pos hstar]
      simp only [hstar, Option.bind_eq_bind, Option.bind_some, if_true]
      cases skipWord fmt with
      | none => rfl
      | some fmt =>
        simp only [Option.bind_some, Option.map_some, ScanItem.resume, ScanItem.run]
        cases skipWord s.str <;> rfl
    · rw [if_neg hstar, ← scanDirective_eq fuel fmt hd]
      cases hfmt : fmt.head? with
      | none =>
        obtain rfl := List.head?_eq_none_iff.mp hfmt
        rfl
      | some e =>
        have he : e ≠ chr '*' := fun h ↦ hstar (hfmt.trans (congrArg some h))
        simp only [Option.bind_eq_bind, Option.bind_some, if_neg he]

theorem readItem_ne_space {c : Byte} (hs : isspace c = false) {i : ScanItem} {r : List Byte}
    (h : readItem (c :: fmt) = some (i, r)) : i ≠ .space := by
  rintro rfl
  rw [readItem, if_neg (by simp [hs] : ¬ isspace c = true)] at h
  split_ifs at h
  · simp at h
  · simp at h
  · obtain ⟨⟨m, r'⟩, -, h⟩ := Option.bind_eq_some_iff.mp h
    cases r' with
    | nil => simp [readConversion] at h
    | cons d r' =>
      rw [readConversion] at h
      split_ifs at h <;> simp at h

/-- The items from behind the white space on, when the loop runs those behind the first one. -/
theorem scanPass_run {fuel : ℕ} {c : Byte} (hs : isspace c = false) (h0 : 0 ∈ c :: fmt)
    (hd : s.str.head? = some d)
    (hloop : ∀ {r s}, 0 ∈ r → r.length ≤ fmt.length →
      vsscanfLoop buf fuel r s = runScan buf (scanItems r) false s) :
    (scanPass buf (c :: fmt) s).bind (Pass.resume buf fuel)
      = runScan buf (scanItems (c :: fmt)) true s := by
  by_cases hc : c = 0
  · subst hc
    rw [scanItems, items_stop, runScan, scanPass, if_neg (fun h ↦ h.2 rfl), if_pos rfl]
    rfl
  · have h0' : 0 ∈ fmt := List.mem_of_ne_of_mem (Ne.symm hc) h0
    obtain ⟨i, r, hi, hr0, hlen⟩ := readItem_advances c fmt hc h0'
    rw [scanPass_eq fuel hc hs hd, scanItems_cons hc h0' hi, runScan_inPass _ _ hd, hi,
      Option.bind_some, ScanItem.resume, decide_eq_false (readItem_ne_space hs hi)]
    simp only [hloop hr0 hlen]

/-- **The loop runs the items of the format.** -/
theorem vsscanfLoop_eq {fuel : ℕ} (h0 : 0 ∈ fmt) (hfuel : fmt.length ≤ fuel) :
    vsscanfLoop buf fuel fmt s = runScan buf (scanItems fmt) false s := by
  induction fuel generalizing fmt s with
  | zero => simp [List.length_eq_zero_iff.mp (Nat.le_zero.mp hfuel)] at h0
  | succ fuel ih =>
    obtain _ | ⟨c, fmt⟩ := fmt
    · simp at h0
    rw [List.length_cons] at hfuel
    rw [vsscanfLoop_succ]
    by_cases hc : c = 0
    · rw [hc, if_pos rfl, scanItems, items_stop, runScan]
    have h0' : 0 ∈ fmt := List.mem_of_ne_of_mem (Ne.symm hc) h0
    rw [if_neg hc]
    cases hd : s.str.head? with
    | none =>
      obtain ⟨i, r, hi, -⟩ := readItem_advances c fmt hc h0'
      rw [scanItems_cons hc h0' hi, runScan, hd]
      rfl
    | some d =>
      rw [Option.bind_some]
      by_cases hd0 : d = 0
      · obtain ⟨i, r, hi, -⟩ := readItem_advances c fmt hc h0'
        rw [if_pos hd0, scanItems_cons hc h0' hi, runScan, hd, Option.bind_some,
          if_pos ⟨hd0, rfl⟩]
      · rw [if_neg hd0, runScan_beforePass _ hd hd0, scanSpace]
        simp only [List.head?_cons, Option.bind_eq_bind, Option.bind_some]
        by_cases hs : isspace c = true
        · obtain ⟨fmt', hfmt', h0'', hlen⟩ := skipSpace_isSome h0'
          obtain ⟨c', rest, rfl, hs', -⟩ := skipSpace_eq_some hfmt'
          rw [if_pos hs, skipSpace, if_pos hs, hfmt', Option.bind_some, Option.bind_assoc,
            runScan_skipSpace hs h0' hfmt' hd]
          rw [List.length_cons] at hlen
          cases hstr : skipSpace s.str with
          | none => rfl
          | some str =>
            obtain ⟨d', str', rfl, -⟩ := skipSpace_eq_some hstr
            exact scanPass_run hs' h0'' rfl fun hr0 hr ↦ ih hr0 (by omega)
        · rw [if_neg hs]
          exact scanPass_run (by simpa using hs) h0 hd fun hr0 hr ↦ ih hr0 (by omega)

/-- **A scan runs the items of the format.** -/
theorem scan_eq (buf fmt : List Byte) (args : Args) :
    scan buf (cstr fmt) args
      = runScan buf (scanItems (cstr fmt)) false ⟨buf, args, 0, -1, []⟩ :=
  vsscanfLoop_eq (zero_mem_cstr fmt) le_rfl

/-- Items of two formats are run one after another. -/
theorem runScan_append (buf : List Byte) (items items' : List ScanItem) (inPass : Bool) :
    ∃ inPass', ∀ s, runScan buf (items ++ items') inPass s
      = (runScan buf items inPass s).bind fun x ↦
          if x.1 then runScan buf items' inPass' x.2 else some (false, x.2) := by
  induction items generalizing inPass with
  | nil => exact ⟨inPass, fun s ↦ rfl⟩
  | cons i items ih =>
    obtain ⟨inPass', h⟩ := ih (decide (i = .space))
    refine ⟨inPass', ?_⟩
    intro s
    rw [List.cons_append, runScan, runScan, Option.bind_assoc]
    refine congrArg (Option.bind _) (funext ?_)
    intro d
    split_ifs
    · rfl
    · rw [Option.bind_assoc]
      refine congrArg (Option.bind _) (funext ?_)
      rintro ⟨_ | _, s'⟩
      · rfl
      · exact h s'

end PastaOS
