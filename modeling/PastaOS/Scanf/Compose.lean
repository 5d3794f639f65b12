import PastaOS.Scanf.Format
import PastaOS.Scanf.Text

/-!
# Formats one after another

A scan for two formats is a scan for the first one and, from where it ends, a scan for the second
one; only that `vsscanf` does not start afresh there.  `field_width` is set to -1 in front of the
loop and nowhere else, so what the last conversion of the first format has left in it is still
there.  `Unaffected` says when this makes no difference to the second format, and
`vsscanf_append_iff` that the two scans add up exactly then.
-/

set_option autoImplicit false

namespace PastaOS

open Scanner

/-! ## The condition -/

/-- What an item that stores no characters leaves of a text, if the text is right for it. -/
def ScanItem.rest (t : List Byte) : ScanItem → Option (List Byte)
  | .space => some (t.dropWhile isspace)
  | .char c => if t.head? = some c then some t.tail else none
  | .suppress => some (t.dropWhile isGraphic)
  | .directive _ _ c =>
    if c = chr '%' then if t.head? = some c then some t.tail else none
    else (scanBase c).bind fun x ↦
      if (t.dropWhile isspace).head?.any isdigit then
        some ((t.dropWhile isspace).dropWhile (isNumeral x.1))
      else none
  | .cutoff _ => none

/-- Scanned for the items, a text makes no difference between two field widths that are left over:
up to the first item with a width of its own, every `%c` and `%s` takes the same characters. -/
def Unaffected : List ScanItem → List Byte → Int → Int → Prop
  | [], _, _, _ => True
  | i :: items, t, w, w' =>
    t = [] ∨
      match i with
      | .directive none _ c =>
        if c = chr 'c' then
          charCount (charWidth w) t.length = charCount (charWidth w') t.length ∧
            Unaffected items (t.drop (charCount (charWidth w) t.length))
              (charLeft (charWidth w) t.length) (charLeft (charWidth w') t.length)
        else if c = chr 's' then
          let str := t.dropWhile isspace
          let n := (str.takeWhile isGraphic).length
          wordCount (wordWidth w) n = wordCount (wordWidth w') n ∧
            Unaffected items (str.drop (wordCount (wordWidth w) n))
              (wordLeft (wordWidth w) n) (wordLeft (wordWidth w') n)
        else ∀ str, i.rest t = some str → Unaffected items str w w'
      | .directive (some _) _ _ => True
      | i => ∀ str, i.rest t = some str → Unaffected items str w w'

/-- An item that stores the number of characters read. -/
def ScanItem.isCount : ScanItem → Bool
  | .directive _ _ c => decide (c = chr 'n')
  | _ => false

/-- A format without `%n`. -/
def CountFree (fmt : List Byte) : Prop := ∀ i ∈ scanItems (cstr fmt), i.isCount = false

instance (fmt : List Byte) : Decidable (CountFree fmt) :=
  inferInstanceAs (Decidable (∀ i ∈ scanItems (cstr fmt), i.isCount = false))

/-! ## What a scan does not look at -/

variable {buf buf' : List Byte} {items : List ScanItem} {i : ScanItem} {s : Scan} {num : ℕ}
  {writes : List (Word × List Byte)} {t : List Byte} {args : Args} {w w' : Int}
  {inPass inPass' : Bool}

/-- A scan, `num` and the stores in front of it included. -/
def Scan.after (num : ℕ) (writes : List (Word × List Byte)) (s : Scan) : Scan :=
  { s with num := num + s.num, writes := writes ++ s.writes }

theorem Scan.eq_after (s : Scan) {str : List Byte} (hs : s.str = str) :
    s = (⟨str, s.args, 0, s.fieldWidth, []⟩ : Scan).after s.num s.writes := by
  simp [Scan.after, ← hs]

theorem Scan.store_after (bytes : List Byte) :
    (s.after num writes).store bytes = (s.store bytes).after num writes := by
  simp [Scan.store, Scan.after]

theorem scanConvert_after (q : Qualifier) (c : Byte) (s : Scan) :
    scanConvert buf q c (s.after num writes)
      = (scanConvert buf q c s).map fun x ↦ (x.1, x.2.after num writes) := by
  have hstr : (s.after num writes).str = s.str := rfl
  have hwidth : (s.after num writes).fieldWidth = s.fieldWidth := rfl
  have hnum : (s.after num writes).num + 1 = num + (s.num + 1) := Nat.add_assoc num s.num 1
  by_cases hc : c = chr 'c'
  · subst hc
    rw [scanConvert_char, scanConvert_char, Option.map_map, hstr, hwidth]
    simp only [Scan.store_after, hnum]
    rfl
  by_cases hs : c = chr 's'
  · subst hs
    rw [scanConvert_word, scanConvert_word, hstr, hwidth, Option.map_bind]
    simp only [Scan.store_after, hnum, Function.comp_def, Option.map_map]
    rfl
  by_cases hn : c = chr 'n'
  · subst hn
    rw [scanConvert_count, scanConvert_count, hstr, Scan.store_after]
    rfl
  by_cases hpc : c = chr '%'
  · subst hpc
    rw [scanConvert_percent, scanConvert_percent, hstr, Option.map_map]
    rfl
  · rw [scanConvert_integer hc hs hn hpc, scanConvert_integer hc hs hn hpc, hstr]
    cases scanBase c with
    | none => rfl
    | some x =>
      rw [Option.map_bind]
      refine congrArg (Option.bind _) (funext ?_)
      intro str
      rw [Function.comp, Option.map_bind]
      refine congrArg (Option.bind _) (funext ?_)
      intro d
      rw [Function.comp, apply_ite (Option.map _), Option.map_map]
      simp only [Scan.store_after, hnum]
      rfl

/-- **An item does not look at what has been stored.** -/
theorem ScanItem.run_after (i : ScanItem) (s : Scan) :
    i.run buf (s.after num writes) = (i.run buf s).map fun x ↦ (x.1, x.2.after num writes) := by
  cases i with
  | space => simp [ScanItem.run, Scan.after, Function.comp_def]
  | char c => simp [ScanItem.run, Scan.after, Function.comp_def]
  | suppress => simp [ScanItem.run, Scan.after, Function.comp_def]
  | cutoff width => simp [ScanItem.run, Scan.after]
  | directive width q c =>
    have hwidth : ({ s.after num writes with fieldWidth := width.getD s.fieldWidth } : Scan)
        = ({ s with fieldWidth := width.getD s.fieldWidth } : Scan).after num writes := rfl
    have hstr : (s.after num writes).str = s.str := rfl
    rw [ScanItem.run, ScanItem.run, hstr]
    cases s.str.head? with
    | none => rfl
    | some d =>
      rw [Option.bind_some, Option.bind_some]
      split_ifs
      · rfl
      · exact scanConvert_after q c { s with fieldWidth := width.getD s.fieldWidth }

theorem runScan_after (items : List ScanItem) (inPass : Bool) (s : Scan) :
    runScan buf items inPass (s.after num writes)
      = (runScan buf items inPass s).map fun x ↦ (x.1, x.2.after num writes) := by
  induction items generalizing inPass s with
  | nil => rfl
  | cons i items ih =>
    have hstr : (s.after num writes).str = s.str := rfl
    rw [runScan, runScan, hstr]
    cases s.str.head? with
    | none => rfl
    | some d =>
      rw [Option.bind_some, Option.bind_some]
      split_ifs
      · rfl
      · rw [i.run_after]
        cases i.run buf s with
        | none => rfl
        | some x =>
          rw [Option.map_some, Option.bind_some, Option.bind_some]
          by_cases hx : x.1 = true
          · simp only [if_pos hx, ih]
          · simp only [if_neg hx, Option.map_some]

/-- Only `%n` looks at the beginning of the input. -/
theorem ScanItem.run_buf (hi : i.isCount = false) (s : Scan) : i.run buf s = i.run buf' s := by
  cases i with
  | directive width q c =>
    have hc : c ≠ chr 'n' := of_decide_eq_false hi
    simp only [ScanItem.run, scanConvert, if_neg hc]
  | _ => rfl

theorem runScan_buf (hitems : ∀ i ∈ items, i.isCount = false) (inPass : Bool) (s : Scan) :
    runScan buf items inPass s = runScan buf' items inPass s := by
  induction items generalizing inPass s with
  | nil => rfl
  | cons i items ih =>
    have hi (s : Scan) : i.run buf s = i.run buf' s :=
      ScanItem.run_buf (hitems i List.mem_cons_self) s
    rw [runScan, runScan]
    simp only [hi, ih fun j hj ↦ hitems j (List.mem_cons_of_mem _ hj)]

/-! ## What an item does to a text -/

/-- The width of its own that an item has. -/
def ScanItem.width : ScanItem → Option Int
  | .directive width _ _ => width
  | .cutoff width => width
  | _ => none

/-- An item that stores characters. -/
def ScanItem.isChars : ScanItem → Bool
  | .directive _ _ c => decide (c = chr 'c' ∨ c = chr 's')
  | _ => false

theorem cstr_head? (t : List Byte) : (cstr t).head? = some (t.headD 0) := by
  cases t <;> rfl

theorem headD_ne_zero (ht : t ≠ []) (h0 : 0 ∉ t) : t.headD 0 ≠ 0 := by
  obtain ⟨c, t, rfl⟩ := List.exists_cons_of_ne_nil ht
  exact fun h ↦ h0 (h ▸ List.mem_cons_self)

/-- A directive in front of a text. -/
theorem ScanItem.run_directive (ht : t ≠ []) (h0 : 0 ∉ t) (width : Option Int) (q : Qualifier)
    (c : Byte) (hs : s.str = cstr t) : (ScanItem.directive width q c).run buf s
      = scanConvert buf q c { s with fieldWidth := width.getD s.fieldWidth } := by
  rw [ScanItem.run, hs, cstr_head?, Option.bind_some, if_neg (headD_ne_zero ht h0), ← hs]

/-- An item takes what is right for it off the text, or stops the scan; neither depends on the field
width, nor on what the input begins with. -/
def ScanItem.TakesRest (i : ScanItem) (t : List Byte) (args : Args) : Prop :=
  (∃ str args' num writes, i.rest t = some str ∧ ∀ buf w, i.run buf ⟨cstr t, args, 0, w, []⟩
    = some (true, ⟨cstr str, args', num, i.width.getD w, writes⟩)) ∨
  (i.rest t = none ∧ ∃ str, ∀ buf w, i.run buf ⟨cstr t, args, 0, w, []⟩
    = some (false, ⟨str, args, 0, i.width.getD w, []⟩))

/-- An item that matches one character. -/
theorem ScanItem.takesRest_match {c : Byte} (hrest : i.rest t = if t.head? = some c then some t.tail
      else none) (hrun : ∀ buf w, i.run buf ⟨cstr t, args, 0, w, []⟩
        = some (decide (t.head? = some c), ⟨(cstr t).tail, args, 0, i.width.getD w, []⟩)) :
    i.TakesRest t args := by
  by_cases hc : t.head? = some c
  · obtain ⟨d, t, rfl⟩ := List.exists_cons_of_ne_nil (l := t) (by rintro rfl; simp at hc)
    refine .inl ⟨t, args, 0, [], hrest.trans (if_pos hc), ?_⟩
    intro buf w
    rw [hrun, decide_eq_true hc]
    rfl
  · refine .inr ⟨hrest.trans (if_neg hc), (cstr t).tail, ?_⟩
    intro buf w
    rw [hrun, decide_eq_false hc]

theorem ScanItem.takesRest_char (h0 : 0 ∉ t) (c : Byte) : (ScanItem.char c).TakesRest t args := by
  refine ScanItem.takesRest_match rfl ?_
  intro buf w
  rw [ScanItem.run, cstr_head?, Option.map_some]
  cases t with
  | nil => simp [ScanItem.width]
  | cons d t =>
    have hd : d ≠ 0 := fun h ↦ h0 (h ▸ List.mem_cons_self)
    have hdec : decide (c = d ∧ d ≠ 0) = decide ((d :: t).head? = some c) :=
      decide_eq_decide.mpr ⟨fun h ↦ congrArg some h.1.symm, fun h ↦ ⟨(Option.some.inj h).symm, hd⟩⟩
    rw [List.headD_cons, hdec]
    rfl

theorem ScanItem.takesRest_percent (ht : t ≠ []) (h0 : 0 ∉ t) (width : Option Int) (q : Qualifier) :
    (ScanItem.directive width q (chr '%')).TakesRest t args := by
  refine ScanItem.takesRest_match rfl ?_
  intro buf w
  rw [ScanItem.run_directive ht h0 _ _ _ rfl, scanConvert_percent, cstr_head?, Option.map_some]
  obtain ⟨d, t, rfl⟩ := List.exists_cons_of_ne_nil ht
  have hdec : decide (d = chr '%') = decide ((d :: t).head? = some (chr '%')) := by simp
  rw [List.headD_cons, hdec]
  rfl

/-- An integer conversion, and the conversions there are not. -/
theorem ScanItem.takesRest_integer {c : Byte} (hc : c ≠ chr 'c') (hs : c ≠ chr 's')
    (hn : c ≠ chr 'n') (hpc : c ≠ chr '%') (ht : t ≠ []) (h0 : 0 ∉ t) (width : Option Int)
    (q : Qualifier) : (ScanItem.directive width q c).TakesRest t args := by
  have hrest : (ScanItem.directive width q c).rest t = (scanBase c).bind fun x ↦
      if (t.dropWhile isspace).head?.any isdigit then
        some ((t.dropWhile isspace).dropWhile (isNumeral x.1))
      else none := if_neg hpc
  have hrun (buf : List Byte) (w : Int) :
      (ScanItem.directive width q c).run buf ⟨cstr t, args, 0, w, []⟩ = _ :=
    (ScanItem.run_directive ht h0 width q c rfl).trans (scanConvert_integer hc hs hn hpc q)
  cases hbase : scanBase c with
  | none =>
    rw [hbase] at hrest
    refine .inr ⟨hrest, cstr t, ?_⟩
    intro buf w
    rw [hrun, hbase]
    rfl
  | some x =>
    obtain ⟨base, isSign⟩ := x
    rw [hbase, Option.bind_some] at hrest
    simp only [hbase, skipSpace_cstr, Option.bind_some, cstr_head?] at hrun
    by_cases hd : (t.dropWhile isspace).head?.any isdigit = true
    · rw [if_pos hd] at hrest
      obtain ⟨d, rest, hnum⟩ := List.exists_cons_of_ne_nil (l := t.dropWhile isspace)
        (by intro h; simp [h] at hd)
      rw [hnum] at hd hrest
      obtain ⟨bytes, hbytes⟩ := scanInteger_cstr (scanBase_ne_zero hbase) hd q isSign rest
      refine .inl ⟨_, args.tail, 1, [(args.head, bytes)], hrest, ?_⟩
      intro buf w
      rw [hrun, hnum, List.headD_cons, if_neg (isdigit_goOn hd), hbytes]
      rfl
    · rw [if_neg hd] at hrest
      have hstop : (t.dropWhile isspace).headD 0 = 0 ∨
          isdigit ((t.dropWhile isspace).headD 0) = false := by
        cases h : t.dropWhile isspace with
        | nil => exact .inl rfl
        | cons d rest =>
          rw [h] at hd
          exact .inr (Bool.not_eq_true _ ▸ hd)
      refine .inr ⟨hrest, cstr (t.dropWhile isspace), ?_⟩
      intro buf w
      rw [hrun, if_pos hstop]
      rfl

/-- **An item that stores no characters** takes the rest. -/
theorem ScanItem.takesRest (hchars : i.isChars = false) (hcount : i.isCount = false) (h0 : 0 ∉ t)
    (args : Args) : i.TakesRest t args := by
  cases i with
  | space =>
    refine .inl ⟨t.dropWhile isspace, args, 0, [], rfl, fun buf w ↦ ?_⟩
    rw [ScanItem.run, skipSpace_cstr]
    rfl
  | char c => exact ScanItem.takesRest_char h0 c
  | suppress =>
    refine .inl ⟨t.dropWhile isGraphic, args, 0, [], rfl, fun buf w ↦ ?_⟩
    rw [ScanItem.run, skipWord_cstr h0]
    rfl
  | directive width q c =>
    obtain ⟨hc, hs⟩ := not_or.mp (of_decide_eq_false hchars)
    have hn : c ≠ chr 'n' := of_decide_eq_false hcount
    by_cases ht : t = []
    · subst ht
      exact .inr ⟨by simp [ScanItem.rest], cstr [], fun buf w ↦ rfl⟩
    · by_cases hpc : c = chr '%'
      · subst hpc
        exact ScanItem.takesRest_percent ht h0 width q
      · exact ScanItem.takesRest_integer hc hs hn hpc ht h0 width q
  | cutoff width => exact .inr ⟨rfl, cstr t, fun buf w ↦ rfl⟩

/-- `%c` -/
theorem ScanItem.run_chars (ht : t ≠ []) (h0 : 0 ∉ t) (width : Option Int) (q : Qualifier)
    (hw : IsInt (width.getD w)) : (ScanItem.directive width q (chr 'c')).run buf
        ⟨cstr t, args, 0, w, []⟩
      = some (true, ⟨cstr (t.drop (charCount (charWidth (width.getD w)) t.length)), args.tail, 1,
          charLeft (charWidth (width.getD w)) t.length,
          [(args.head, t.take (charCount (charWidth (width.getD w)) t.length))]⟩) := by
  have hw' : IsInt (charWidth (width.getD w)) := by
    rw [charWidth]
    split_ifs
    · exact ⟨by decide, by decide⟩
    · exact hw
  rw [ScanItem.run_directive ht h0 _ _ _ rfl, scanConvert_char]
  simp only [copyChars_cstr hw' ht h0]
  rfl

/-- `%s` -/
theorem ScanItem.run_word (ht : t ≠ []) (h0 : 0 ∉ t) (width : Option Int) (q : Qualifier)
    (hw : IsInt (width.getD w)) {str : List Byte} (hstr : str = t.dropWhile isspace) {n : ℕ}
    (hn : n = (str.takeWhile isGraphic).length) :
    (ScanItem.directive width q (chr 's')).run buf ⟨cstr t, args, 0, w, []⟩
      = some (true, ⟨cstr (str.drop (wordCount (wordWidth (width.getD w)) n)), args.tail, 1,
          wordLeft (wordWidth (width.getD w)) n,
          [(args.head, cstr (str.take (wordCount (wordWidth (width.getD w)) n)))]⟩) := by
  have hw' : IsInt (wordWidth (width.getD w)) := by
    rw [wordWidth]
    split_ifs
    · exact ⟨by decide, by decide⟩
    · exact hw
  have h0' : 0 ∉ str := fun h ↦ h0 ((List.dropWhile_suffix isspace).subset (hstr ▸ h))
  rw [ScanItem.run_directive ht h0 _ _ _ rfl, scanConvert_word]
  simp only [skipSpace_cstr, ← hstr, Option.bind_some, copyWord_cstr hw' h0' hn]
  rfl

/-! ## Every scan of a text comes to an end -/

/-- The width of its own that an item has is an `int`. -/
def ScanItem.IntWidth (i : ScanItem) : Prop := ∀ v, i.width = some v → IsInt v

theorem ScanItem.IntWidth.getD (h : i.IntWidth) (hw : IsInt w) : IsInt (i.width.getD w) := by
  cases hi : i.width with
  | none => exact hw
  | some v => exact h v hi

/-- The variables, with `str` at the text `t`. -/
structure Scan.At (t : List Byte) (s : Scan) : Prop where
  /-- `str` -/
  str_eq : s.str = cstr t
  /-- `field_width` is an `int`. -/
  isInt : IsInt s.fieldWidth

theorem ScanItem.rest_suffix {str : List Byte} (h : i.rest t = some str) : str <:+ t := by
  cases i with
  | space => exact Option.some.inj h ▸ List.dropWhile_suffix _
  | char c =>
    rw [ScanItem.rest] at h
    split_ifs at h
    exact Option.some.inj h ▸ List.tail_suffix t
  | suppress => exact Option.some.inj h ▸ List.dropWhile_suffix _
  | directive width q c =>
    rw [ScanItem.rest] at h
    by_cases hpc : c = chr '%'
    · rw [if_pos hpc] at h
      split_ifs at h
      exact Option.some.inj h ▸ List.tail_suffix t
    · rw [if_neg hpc] at h
      obtain ⟨x, -, h⟩ := Option.bind_eq_some_iff.mp h
      split_ifs at h
      exact Option.some.inj h ▸ (List.dropWhile_suffix _).trans (List.dropWhile_suffix _)
  | cutoff width => simp [ScanItem.rest] at h

theorem isInt_wordLeft (w : Int) (n : ℕ) : IsInt (wordLeft w n) := by
  rw [wordLeft]
  split_ifs
  · exact ⟨by decide, by decide⟩
  · exact isInt_i32 _

/-- **An item succeeds on a text**, and leaves the end of it. -/
theorem ScanItem.run_text (buf : List Byte) (hs : s.At t) (h0 : 0 ∉ t) (hi : i.IntWidth) :
    ∃ b s', i.run buf s = some (b, s') ∧ (b = true → ∃ str, str <:+ t ∧ s'.At str) := by
  have hint := hi.getD hs.isInt
  -- it is enough to look at what happens when nothing has been stored
  suffices hrun : ∃ b s', i.run buf ⟨cstr t, s.args, 0, s.fieldWidth, []⟩ = some (b, s') ∧
      (b = true → ∃ str, str <:+ t ∧ s'.At str) by
    obtain ⟨b, s', hrun, hb⟩ := hrun
    have hrun' : i.run buf s = some (b, s'.after s.num s.writes) :=
      (congrArg (i.run buf) (s.eq_after hs.str_eq)).trans
        ((i.run_after _).trans (by rw [hrun]; rfl))
    refine ⟨b, _, hrun', fun h ↦ ?_⟩
    obtain ⟨str, hstr, hat⟩ := hb h
    exact ⟨str, hstr, hat.str_eq, hat.isInt⟩
  by_cases hfree : i.isChars = false ∧ i.isCount = false
  · rcases ScanItem.takesRest hfree.1 hfree.2 h0 s.args with
      ⟨str, args', num, writes, hrest, hrun⟩ | ⟨-, str, hrun⟩
    · exact ⟨_, _, hrun buf s.fieldWidth, fun _ ↦ ⟨str, ScanItem.rest_suffix hrest, rfl, hint⟩⟩
    · exact ⟨_, _, hrun buf s.fieldWidth, fun h ↦ absurd h (by decide)⟩
  · cases i with
    | directive width q c =>
      by_cases ht : t = []
      · subst ht
        exact ⟨_, _, rfl, fun h ↦ absurd h (by decide)⟩
      by_cases hc : c = chr 'c'
      · subst hc
        exact ⟨_, _, ScanItem.run_chars ht h0 width q hint,
          fun _ ↦ ⟨_, List.drop_suffix _ _, rfl, isInt_i32 _⟩⟩
      by_cases hw : c = chr 's'
      · subst hw
        exact ⟨_, _, ScanItem.run_word ht h0 width q hint rfl rfl, fun _ ↦
          ⟨_, (List.drop_suffix _ _).trans (List.dropWhile_suffix _), rfl, isInt_wordLeft _ _⟩⟩
      have hn : c = chr 'n' := by
        by_contra hn
        exact hfree ⟨decide_eq_false (not_or.mpr ⟨hc, hw⟩), decide_eq_false hn⟩
      subst hn
      rw [ScanItem.run_directive ht h0 _ _ _ rfl, scanConvert_count]
      exact ⟨_, _, rfl, fun _ ↦ ⟨t, List.suffix_rfl, rfl, hint⟩⟩
    | _ => exact absurd ⟨rfl, rfl⟩ hfree

/-- **A scan succeeds on a text**, and leaves the end of it. -/
theorem runScan_text (buf : List Byte) (inPass : Bool) (hs : s.At t) (h0 : 0 ∉ t)
    (hitems : ∀ i ∈ items, i.IntWidth) :
    ∃ b s', runScan buf items inPass s = some (b, s') ∧
      (b = true → ∃ str, str <:+ t ∧ s'.At str) := by
  induction items generalizing t s inPass with
  | nil => exact ⟨true, s, rfl, fun _ ↦ ⟨t, List.suffix_rfl, hs⟩⟩
  | cons i items ih =>
    rw [runScan, hs.str_eq, cstr_head?, Option.bind_some]
    split_ifs
    · exact ⟨_, _, rfl, fun h ↦ absurd h (by decide)⟩
    · obtain ⟨b, s', hrun, hb⟩ :=
        ScanItem.run_text buf hs h0 (hitems i List.mem_cons_self)
      rw [hrun, Option.bind_some]
      cases b with
      | false => exact ⟨false, s', rfl, fun h ↦ absurd h (by decide)⟩
      | true =>
        obtain ⟨str, hstr, hat⟩ := hb rfl
        obtain ⟨b', s'', hrun', hb'⟩ := ih (decide (i = .space)) hat
          (fun h ↦ h0 (hstr.subset h)) fun j hj ↦ hitems j (List.mem_cons_of_mem _ hj)
        refine ⟨b', s'', hrun', fun h ↦ ?_⟩
        obtain ⟨str', hstr', hat'⟩ := hb' h
        exact ⟨str', hstr'.trans hstr, hat'⟩

theorem skipAtoi_isInt {v v' : Int} {fmt r : List Byte} (hv : IsInt v)
    (h : skipAtoi v fmt = some (v', r)) : IsInt v' := by
  induction fmt generalizing v with
  | nil => simp [skipAtoi] at h
  | cons c fmt ih =>
    rw [skipAtoi] at h
    split_ifs at h
    · exact ih (isInt_i32 _) h
    · exact (Prod.mk.inj (Option.some.inj h)).1 ▸ hv

theorem readDirective_intWidth {fmt r : List Byte} (h : readDirective fmt = some (i, r)) :
    i.IntWidth := by
  obtain ⟨⟨m, r'⟩, hm, hi⟩ := Option.bind_eq_some_iff.mp h
  obtain ⟨⟨width, r''⟩, hwidth, hm⟩ := Option.bind_eq_some_iff.mp hm
  obtain ⟨y, -, hy⟩ := Option.bind_eq_some_iff.mp hm
  obtain rfl : (width, y.1) = m := (Prod.mk.inj (Option.some.inj hy)).1
  have hitem : i.width = width := by
    cases r' with
    | nil => simp [readConversion] at hi
    | cons c fmt =>
      rw [readConversion] at hi
      split_ifs at hi <;> rw [← (Prod.mk.inj (Option.some.inj hi)).1] <;> rfl
  intro v hv
  rw [hitem] at hv
  subst hv
  cases fmt with
  | nil => simp [scanWidth] at hwidth
  | cons c fmt =>
    rw [scanWidth] at hwidth
    split_ifs at hwidth
    · obtain ⟨⟨v', r⟩, hv', hx⟩ := Option.map_eq_some_iff.mp hwidth
      obtain rfl : v' = v := Option.some.inj (Prod.mk.inj hx).1
      exact skipAtoi_isInt ⟨by decide, by decide⟩ hv'
    · simp at hwidth

/-- The widths in a format are `int`s. -/
theorem scanItems_intWidth (fmt : List Byte) : ∀ i ∈ scanItems fmt, i.IntWidth := by
  refine items_forall ?_
  intro fmt i r h
  cases fmt with
  | nil => simp [readItem] at h
  | cons c fmt =>
    rw [readItem] at h
    split_ifs at h
    · obtain ⟨rfl, -⟩ := Prod.mk.inj (Option.some.inj h)
      intro v hv
      contradiction
    · obtain ⟨rfl, -⟩ := Prod.mk.inj (Option.some.inj h)
      intro v hv
      contradiction
    · obtain ⟨fmt', -, h⟩ := Option.map_eq_some_iff.mp h
      obtain ⟨rfl, -⟩ := Prod.mk.inj h
      intro v hv
      contradiction
    · exact readDirective_intWidth h

/-! ## What is returned and stored -/

/-- What a scan of a text returns and stores. -/
def scanned (items : List ScanItem) (inPass : Bool) (t : List Byte) (args : Args) (w : Int) :
    Option (ℕ × List (Word × List Byte)) :=
  (runScan [] items inPass ⟨cstr t, args, 0, w, []⟩).map fun x ↦ (x.2.num, x.2.writes)

/-- With what is returned and stored in front of it. -/
def added (num : ℕ) (writes : List (Word × List Byte)) (x : ℕ × List (Word × List Byte)) :
    ℕ × List (Word × List Byte) :=
  (num + x.1, writes ++ x.2)

theorem added_injective (num : ℕ) (writes : List (Word × List Byte)) :
    Function.Injective (added num writes) := by
  rintro ⟨n, ws⟩ ⟨n', ws'⟩ h
  simpa [added] using h

theorem scanned_isSome (inPass : Bool) (args : Args) (hw : IsInt w) (h0 : 0 ∉ t)
    (hitems : ∀ i ∈ items, i.IntWidth) :
    ∃ x, scanned items inPass t args w = some x := by
  have hat : (⟨cstr t, args, 0, w, []⟩ : Scan).At t := ⟨rfl, hw⟩
  obtain ⟨b, s', hrun, -⟩ := runScan_text [] inPass hat h0 hitems
  exact ⟨_, by rw [scanned, hrun]; rfl⟩

/-- A scan, and what is returned and stored in front of it. -/
theorem runScan_scanned (hitems : ∀ i ∈ items, i.isCount = false) (num : ℕ)
    (writes : List (Word × List Byte)) :
    (runScan buf items inPass ⟨cstr t, args, num, w, writes⟩).map (fun x ↦ (x.2.num, x.2.writes))
      = (scanned items inPass t args w).map (added num writes) := by
  rw [Scan.eq_after ⟨cstr t, args, num, w, writes⟩ rfl, runScan_after, runScan_buf hitems,
    scanned, Option.map_map, Option.map_map]
  rfl

/-- Nothing is stored behind the end of the text. -/
theorem scanned_end : scanned items inPass [] args w = some (0, []) := by
  have hrun : ∃ b s', runScan [] items inPass ⟨cstr [], args, 0, w, []⟩ = some (b, s') ∧
      s'.num = 0 ∧ s'.writes = [] := by
    induction items generalizing inPass with
    | nil => exact ⟨_, _, rfl, rfl, rfl⟩
    | cons i items ih =>
      cases inPass with
      | false => exact ⟨_, _, rfl, rfl, rfl⟩
      | true =>
        rw [runScan_inPass i items rfl]
        cases i with
        | space => exact ih
        | suppress => exact ih
        | char c =>
          refine ⟨false, ⟨[], args, 0, w, []⟩, ?_, rfl, rfl⟩
          rw [ScanItem.run]
          simp [cstr]
        | directive width q c => exact ⟨_, _, rfl, rfl, rfl⟩
        | cutoff width => exact ⟨_, _, rfl, rfl, rfl⟩
  obtain ⟨b, s', hrun, hnum, hwrites⟩ := hrun
  rw [scanned, hrun, Option.map_some, hnum, hwrites]

/-- An item in front of a text that has not ended. -/
theorem scanned_cons (ht : t ≠ []) (h0 : 0 ∉ t) (i : ScanItem) (items : List ScanItem) :
    scanned (i :: items) inPass t args w
      = ((i.run [] ⟨cstr t, args, 0, w, []⟩).bind fun x ↦
          if x.1 then runScan [] items (decide (i = .space)) x.2 else some (false, x.2)).map
            fun x ↦ (x.2.num, x.2.writes) := by
  rw [scanned, runScan, cstr_head?, Option.bind_some, if_neg fun h ↦ headD_ne_zero ht h0 h.1]

/-- An item the scan goes on behind. -/
theorem scanned_goOn (ht : t ≠ []) (h0 : 0 ∉ t) (hitems : ∀ j ∈ items, j.isCount = false)
    {str : List Byte} {args' : Args} {v : Int}
    (hrun : i.run [] ⟨cstr t, args, 0, w, []⟩ = some (true, ⟨cstr str, args', num, v, writes⟩)) :
    scanned (i :: items) inPass t args w
      = (scanned items (decide (i = .space)) str args' v).map (added num writes) := by
  rw [scanned_cons ht h0, hrun, Option.bind_some, if_pos rfl, runScan_scanned hitems]

/-- An item that ends the scan. -/
theorem scanned_stop (ht : t ≠ []) (h0 : 0 ∉ t) {str : List Byte} {args' : Args} {v : Int}
    (hrun : i.run [] ⟨cstr t, args, 0, w, []⟩ = some (false, ⟨str, args', 0, v, []⟩)) :
    scanned (i :: items) inPass t args w = some (0, []) := by
  rw [scanned_cons ht h0, hrun]
  rfl

/-- Scans that store characters first agree if these characters do, and what comes behind them. -/
theorem map_added_eq_iff {o o' : Option (ℕ × List (Word × List Byte))} {a : Word}
    {cs cs' : List Byte} (ho : ∃ x, o = some x) (ho' : ∃ x, o' = some x) :
    o.map (added num [(a, cs)]) = o'.map (added num [(a, cs')]) ↔ cs = cs' ∧ o = o' := by
  obtain ⟨⟨n, ws⟩, rfl⟩ := ho
  obtain ⟨⟨n', ws'⟩, rfl⟩ := ho'
  simp only [added, Option.map_some, Option.some.injEq, Prod.mk.injEq, List.cons_append,
    List.nil_append, List.cons.injEq, true_and, Nat.add_left_cancel_iff]
  tauto

theorem charCount_le (w : Int) (n : ℕ) : charCount w n ≤ n := min_le_right _ _

theorem wordCount_le (w : Int) (n : ℕ) : wordCount w n ≤ n := min_le_right _ _

/-- An item that stores no characters and has no width of its own. -/
theorem unaffected_rest_iff (ht : t ≠ []) (hchars : i.isChars = false) (hwidth : i.width = none) :
    Unaffected (i :: items) t w w' ↔ ∀ str, i.rest t = some str → Unaffected items str w w' := by
  cases i with
  | directive width q c =>
    obtain rfl : width = none := hwidth
    obtain ⟨hc, hs⟩ := not_or.mp (of_decide_eq_false hchars)
    rw [Unaffected, or_iff_right ht, if_neg hc, if_neg hs]
  | _ => exact or_iff_right ht

theorem scanned_rest_iff (ht : t ≠ []) (h0 : 0 ∉ t) (hitems : ∀ j ∈ items, j.isCount = false)
    (hchars : i.isChars = false) (hcount : i.isCount = false) (hwidth : i.width = none)
    (ih : ∀ inPass str args, 0 ∉ str →
      (scanned items inPass str args w = scanned items inPass str args w' ↔
        Unaffected items str w w')) :
    scanned (i :: items) inPass t args w = scanned (i :: items) inPass' t args w' ↔
      Unaffected (i :: items) t w w' := by
  rw [unaffected_rest_iff ht hchars hwidth]
  rcases ScanItem.takesRest hchars hcount h0 args with
    ⟨str, args', num, writes, hrest, hrun⟩ | ⟨hrest, str, hrun⟩
  · have h0' : 0 ∉ str := fun h ↦ h0 ((ScanItem.rest_suffix hrest).subset h)
    simp only [hwidth, Option.getD_none] at hrun
    rw [scanned_goOn ht h0 hitems (hrun [] w), scanned_goOn ht h0 hitems (hrun [] w'),
      (Option.map_injective (added_injective num writes)).eq_iff, ih _ _ _ h0']
    simp [hrest]
  · rw [scanned_stop ht h0 (hrun [] w), scanned_stop ht h0 (hrun [] w')]
    simp [hrest]

/-- An item that stores the characters in front of the rest of `l`. -/
theorem scanned_chars_iff (ht : t ≠ []) (h0 : 0 ∉ t)
    (hitems : ∀ j ∈ items, j.isCount = false ∧ j.IntWidth) {l : List Byte} (hl : l <:+ t)
    {m m' : ℕ} (hm : m ≤ l.length) (hm' : m' ≤ l.length) {v v' : Int} (hv : IsInt v)
    (hv' : IsInt v') {f : List Byte → List Byte} (hf : Function.Injective f) {args' : Args}
    {a : Word}
    (hrun : i.run [] ⟨cstr t, args, 0, w, []⟩
      = some (true, ⟨cstr (l.drop m), args', 1, v, [(a, f (l.take m))]⟩))
    (hrun' : i.run [] ⟨cstr t, args, 0, w', []⟩
      = some (true, ⟨cstr (l.drop m'), args', 1, v', [(a, f (l.take m'))]⟩))
    (ih : ∀ inPass str args, 0 ∉ str →
      (scanned items inPass str args v = scanned items inPass str args v' ↔
        Unaffected items str v v')) :
    scanned (i :: items) inPass t args w = scanned (i :: items) inPass' t args w' ↔
      m = m' ∧ Unaffected items (l.drop m) v v' := by
  have hcount : ∀ j ∈ items, j.isCount = false := fun j hj ↦ (hitems j hj).1
  have hwidth : ∀ j ∈ items, j.IntWidth := fun j hj ↦ (hitems j hj).2
  have hdrop (n : ℕ) : 0 ∉ l.drop n := fun h ↦ h0 (((List.drop_suffix n l).trans hl).subset h)
  rw [scanned_goOn ht h0 hcount hrun, scanned_goOn ht h0 hcount hrun',
    map_added_eq_iff (scanned_isSome _ _ hv (hdrop m) hwidth)
      (scanned_isSome _ _ hv' (hdrop m') hwidth),
    hf.eq_iff, List.take_eq_take_iff, min_eq_left hm, min_eq_left hm']
  refine and_congr_right ?_
  rintro rfl
  exact ih _ _ _ (hdrop m)

/-- **Two scans that differ in the field width left over** return and store the same exactly if the
text makes no difference between the field widths. -/
theorem scanned_eq_iff (inPass inPass' : Bool) (args : Args)
    (hitems : ∀ i ∈ items, i.isCount = false ∧ i.IntWidth) (h0 : 0 ∉ t) (hw : IsInt w)
    (hw' : IsInt w') :
    scanned items inPass t args w = scanned items inPass' t args w' ↔ Unaffected items t w w' := by
  induction items generalizing t args w w' inPass inPass' with
  | nil => exact iff_of_true rfl trivial
  | cons i items ih =>
    by_cases ht : t = []
    · subst ht
      rw [scanned_end, scanned_end]
      exact iff_of_true rfl (.inl rfl)
    have hi := (hitems i List.mem_cons_self).1
    have hitems' : ∀ j ∈ items, j.isCount = false ∧ j.IntWidth :=
      fun j hj ↦ hitems j (List.mem_cons_of_mem _ hj)
    have hrest {v v' : Int} (hv : IsInt v) (hv' : IsInt v') (inPass : Bool) (str : List Byte)
        (args : Args) (h : 0 ∉ str) : scanned items inPass str args v
          = scanned items inPass str args v' ↔ Unaffected items str v v' :=
      ih _ _ _ hitems' h hv hv'
    by_cases hfree : i.isChars = false ∧ i.width = none
    · exact scanned_rest_iff ht h0 (fun j hj ↦ (hitems' j hj).1) hfree.1 hi hfree.2 (hrest hw hw')
    cases i with
    | directive width q c =>
      cases width with
      | some v =>
        -- the same variables from here on
        rw [scanned_cons ht h0, scanned_cons ht h0]
        exact iff_of_true rfl (.inr trivial)
      | none =>
        rw [Unaffected, or_iff_right ht]
        by_cases hc : c = chr 'c'
        · subst hc
          rw [if_pos rfl]
          exact scanned_chars_iff ht h0 hitems' List.suffix_rfl (charCount_le _ _)
            (charCount_le _ _) (isInt_i32 _) (isInt_i32 _) Function.injective_id
            (ScanItem.run_chars ht h0 none q hw) (ScanItem.run_chars ht h0 none q hw')
            (hrest (isInt_i32 _) (isInt_i32 _))
        by_cases hs : c = chr 's'
        · subst hs
          have hword (l : List Byte) : (l.takeWhile isGraphic).length ≤ l.length :=
            (List.takeWhile_prefix _).length_le
          rw [if_neg (by decide), if_pos rfl]
          exact scanned_chars_iff ht h0 hitems' (List.dropWhile_suffix isspace)
            ((wordCount_le _ _).trans (hword _)) ((wordCount_le _ _).trans (hword _))
            (isInt_wordLeft _ _) (isInt_wordLeft _ _) (List.append_left_injective [0])
            (ScanItem.run_word ht h0 none q hw rfl rfl) (ScanItem.run_word ht h0 none q hw' rfl rfl)
            (hrest (isInt_wordLeft _ _) (isInt_wordLeft _ _))
        · exact absurd ⟨decide_eq_false (not_or.mpr ⟨hc, hs⟩), rfl⟩ hfree
    | cutoff width =>
      rw [scanned_stop ht h0 rfl, scanned_stop ht h0 rfl]
      exact iff_of_true rfl (.inr fun str h ↦ nomatch h)
    | _ => exact absurd ⟨rfl, rfl⟩ hfree

/-! ## Two formats -/

/-- Where the scan for `fmt` has ended, with the variables `s`, the scan for `fmt` and `fmt'` goes
on like a scan for `fmt'`. -/
def ScansOn (input fmt fmt' : List Byte) (args : Args) (s : Scan) : Prop :=
  ∃ num writes, vsscanf s.str (cstr fmt') s.args = some (num, writes) ∧
    vsscanf (cstr input) (cstr (fmt ++ fmt')) args = some (s.num + num, s.writes ++ writes)

/-- **Scans add up** exactly if the rest of the input makes no difference between the field width
that the first one has left over and -1. -/
theorem vsscanf_append_iff {input fmt fmt' : List Byte} (hfmt : ScanComplete fmt)
    (hfmt' : CountFree fmt') (hinput : 0 ∉ input)
    (hscan : scan (cstr input) (cstr fmt) args = some (true, s)) :
    ∃ p rest, input = p ++ rest ∧ s.str = cstr rest ∧
      (ScansOn input fmt fmt' args s ↔
        Unaffected (scanItems (cstr fmt')) rest s.fieldWidth (-1)) := by
  have hneg : IsInt (-1) := ⟨by decide, by decide⟩
  have hstart : (⟨cstr input, args, 0, -1, []⟩ : Scan).At input := ⟨rfl, hneg⟩
  have hitems : ∀ i ∈ scanItems (cstr fmt'), i.isCount = false ∧ i.IntWidth :=
    fun i hi ↦ ⟨hfmt' i hi, scanItems_intWidth _ i hi⟩
  rw [scan_eq] at hscan
  obtain ⟨b, s', hrun, hb⟩ := runScan_text (cstr input) false hstart hinput
    (scanItems_intWidth (cstr fmt))
  obtain ⟨rfl, rfl⟩ := Prod.mk.inj (Option.some.inj (hscan.symm.trans hrun))
  obtain ⟨rest, ⟨p, hp⟩, hrest⟩ := hb rfl
  have h0 : 0 ∉ rest := fun h ↦ hinput (hp ▸ List.mem_append_right p h)
  refine ⟨p, rest, hp.symm, hrest.str_eq, ?_⟩
  -- the scan for both formats goes on with the field width left over
  obtain ⟨inPass, happend⟩ := runScan_append (cstr input) (scanItems (cstr fmt))
    (scanItems (cstr fmt')) false
  have hboth : vsscanf (cstr input) (cstr (fmt ++ fmt')) args
      = (scanned (scanItems (cstr fmt')) inPass rest s.args s.fieldWidth).map
          (added s.num s.writes) := by
    have hs : s = ⟨cstr rest, s.args, s.num, s.fieldWidth, s.writes⟩ := by rw [← hrest.str_eq]
    rw [vsscanf, scan_eq, scanItems_append hfmt, happend, hscan, Option.bind_some, if_pos rfl, hs]
    exact runScan_scanned (fun i hi ↦ (hitems i hi).1) s.num s.writes
  have hsecond : vsscanf s.str (cstr fmt') s.args
      = scanned (scanItems (cstr fmt')) false rest s.args (-1) := by
    rw [vsscanf, scan_eq, hrest.str_eq, scanned, runScan_buf fun i hi ↦ (hitems i hi).1]
  obtain ⟨x, hx⟩ := scanned_isSome false s.args hneg h0
    fun i hi ↦ (hitems i hi).2
  rw [← scanned_eq_iff inPass false s.args hitems h0 hrest.isInt hneg, hx, ScansOn, hboth, hsecond,
    hx]
  constructor
  · rintro ⟨num, writes, hnum, hadd⟩
    obtain rfl : x = (num, writes) := Option.some.inj hnum
    exact Option.map_injective (added_injective s.num s.writes) hadd
  · intro h
    exact ⟨x.1, x.2, rfl, by rw [h]; rfl⟩

/-- The theorem for `%5s` and `%d`, which does not use the field width that is left over. -/
theorem vsscanf_append_number : ∃ s,
    scan (cstr (chrs ['a', 'b', ' ', '1', '2'])) (cstr (chrs ['%', '5', 's'])) (Stream'.const 0)
      = some (true, s) ∧ s.fieldWidth = 3 ∧
    ScansOn (chrs ['a', 'b', ' ', '1', '2']) (chrs ['%', '5', 's']) (chrs ['%', 'd'])
      (Stream'.const 0) s := by
  have hscan : (scan (cstr (chrs ['a', 'b', ' ', '1', '2'])) (cstr (chrs ['%', '5', 's']))
      (Stream'.const 0)).map (fun x ↦ (x.1, x.2.fieldWidth)) = some (true, 3) := by decide +kernel
  have hitems : scanItems (cstr (chrs ['%', 'd'])) = [.directive none .none (chr 'd')] := by
    decide +kernel
  obtain ⟨⟨b, s⟩, hs, hx⟩ := Option.map_eq_some_iff.mp hscan
  obtain ⟨rfl, hwidth⟩ := Prod.mk.inj hx
  have hfree : CountFree (chrs ['%', 'd']) := by decide +kernel
  obtain ⟨p, rest, -, -, hiff⟩ := vsscanf_append_iff (by decide +kernel) hfree (by decide) hs
  refine ⟨s, hs, hwidth, hiff.mpr ?_⟩
  rw [hitems]
  exact .inr fun _ _ ↦ trivial

/-- **`%5s` reads `ab` and leaves 3 to `%s`**, which reads `cde` where it would read `cdefg`. -/
theorem not_scansOn_word : ∃ s,
    scan (cstr (chrs ['a', 'b', ' ', 'c', 'd', 'e', 'f', 'g'])) (cstr (chrs ['%', '5', 's']))
      (Stream'.const 0) = some (true, s) ∧
    vsscanf s.str (cstr (chrs ['%', 's'])) s.args
      = some (1, [(0, cstr (chrs ['c', 'd', 'e', 'f', 'g']))]) ∧
    vsscanf (cstr (chrs ['a', 'b', ' ', 'c', 'd', 'e', 'f', 'g']))
        (cstr (chrs ['%', '5', 's', '%', 's'])) (Stream'.const 0)
      = some (2, [(0, cstr (chrs ['a', 'b'])), (0, cstr (chrs ['c', 'd', 'e']))]) ∧
    ¬ ScansOn (chrs ['a', 'b', ' ', 'c', 'd', 'e', 'f', 'g']) (chrs ['%', '5', 's'])
      (chrs ['%', 's']) (Stream'.const 0) s := by
  have hfirst : (scan (cstr (chrs ['a', 'b', ' ', 'c', 'd', 'e', 'f', 'g']))
      (cstr (chrs ['%', '5', 's'])) (Stream'.const 0)).map (fun x ↦ (x.1, x.2.num, x.2.writes))
        = some (true, 1, [(0, cstr (chrs ['a', 'b']))]) := by decide +kernel
  have hsecond : ((scan (cstr (chrs ['a', 'b', ' ', 'c', 'd', 'e', 'f', 'g']))
      (cstr (chrs ['%', '5', 's'])) (Stream'.const 0)).bind fun x ↦
        vsscanf x.2.str (cstr (chrs ['%', 's'])) x.2.args)
          = some (1, [(0, cstr (chrs ['c', 'd', 'e', 'f', 'g']))]) := by decide +kernel
  have hboth : vsscanf (cstr (chrs ['a', 'b', ' ', 'c', 'd', 'e', 'f', 'g']))
      (cstr (chrs ['%', '5', 's', '%', 's'])) (Stream'.const 0)
        = some (2, [(0, cstr (chrs ['a', 'b'])), (0, cstr (chrs ['c', 'd', 'e']))]) := by
    decide +kernel
  obtain ⟨⟨b, s⟩, hs, hx⟩ := Option.map_eq_some_iff.mp hfirst
  simp only [Prod.mk.injEq] at hx
  obtain ⟨rfl, hnum, hwrites⟩ := hx
  rw [hs, Option.bind_some] at hsecond
  refine ⟨s, hs, hsecond, hboth, ?_⟩
  rintro ⟨num, writes, hrest, hadd⟩
  obtain ⟨rfl, rfl⟩ := Prod.mk.inj (Option.some.inj (hsecond.symm.trans hrest))
  have hsame := hboth.symm.trans hadd
  rw [hnum, hwrites] at hsame
  exact absurd hsame (by decide)

end PastaOS
