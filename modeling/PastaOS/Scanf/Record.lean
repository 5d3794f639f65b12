import PastaOS.Scanf.ScanBack

/-!
# Records of unsigned numbers

A record is a list of unsigned numbers, printed in decimal or octal with one space between two of
them.  Each number is followed by what is not a digit, the space or the NUL, and so the scanner
stops where the number ends, and the space takes it to the next one: `record_scansBack`.
-/

set_option autoImplicit false

namespace PastaOS

/-- A number of a record, and how it is converted. -/
structure Column where
  /-- The qualifier. -/
  qualifier : Qualifier
  /-- Whether the conversion is `%o`; it is `%u` otherwise. -/
  octal : Bool
  /-- The number. -/
  value : BitVec qualifier.bits

namespace Column

/-- The conversion character. -/
def char (f : Column) : Byte := if f.octal then chr 'o' else chr 'u'

/-- The base. -/
def base (f : Column) : ℕ := if f.octal then 8 else 10

/-- The conversion. -/
def format (f : Column) : List Byte := conversion f.qualifier f.char

/-- The words the number is passed in. -/
def words (f : Column) : List Word := passed false f.qualifier f.value

/-- The bytes of the number. -/
def bytes (f : Column) : List Byte := storedBytes f.value

/-- The digits of the number. -/
def text (f : Column) : List Byte := (digitChars false f.base f.value.toNat).reverse

end Column

/-- Strings with a space between any two of them. -/
def spaced (strs : List (List Byte)) : List Byte := [chr ' '].intercalate strs

/-- The format of a record. -/
def recordFormat (fs : List Column) : List Byte := spaced (fs.map Column.format)

/-- The text of a record. -/
def recordText (fs : List Column) : List Byte := spaced (fs.map Column.text)

/-! ## Formats -/

theorem spaced_map_singleton (p : Column → List Byte) (f : Column) : spaced ([f].map p) = p f :=
  List.intercalate_singleton

theorem spaced_map_cons_cons (p : Column → List Byte) (f g : Column) (fs : List Column) :
    spaced ((f :: g :: fs).map p) = p f ++ ([chr ' '] ++ spaced ((g :: fs).map p)) := by
  rw [spaced, List.map_cons, List.map_cons, List.intercalate_cons_cons, List.append_assoc]
  rfl

theorem Column.mem_unsignedBases (f : Column) : (f.char, f.base) ∈ unsignedBases := by
  rw [Column.char, Column.base]
  cases f.octal <;> decide

theorem Column.parse_format (f : Column) :
    parse (cstr f.format) = [.directive ⟨{}, .absent, none, f.qualifier⟩ f.char] :=
  (conversion_spec _ _ (unsignedBases_chars _ f.mem_unsignedBases)).1

theorem Column.scanItems_format (f : Column) :
    scanItems (cstr f.format) = [.directive none f.qualifier f.char] :=
  (conversion_spec _ _ (unsignedBases_chars _ f.mem_unsignedBases)).2

theorem Column.zero_notMem_format (f : Column) : 0 ∉ f.format :=
  zero_notMem_conversion _ _ (unsignedBases_chars _ f.mem_unsignedBases)

/-- The items of a record, as the formatter finds them. -/
theorem parse_record (f g : Column) (fs : List Column) :
    parse (cstr (recordFormat (f :: g :: fs)))
      = .directive ⟨{}, .absent, none, f.qualifier⟩ f.char :: .literal (chr ' ')
          :: parse (cstr (recordFormat (g :: fs))) := by
  have hspace : parse (cstr [chr ' ']) = [.literal (chr ' ')] := by decide +kernel
  rw [recordFormat, recordFormat, spaced_map_cons_cons,
    parse_append f.zero_notMem_format (by simp [f.parse_format]), f.parse_format,
    parse_append (by decide) (by simp [hspace]), hspace]
  rfl

/-- The items of a record, as the scanner finds them. -/
theorem scanItems_record (f g : Column) (fs : List Column) :
    scanItems (cstr (recordFormat (f :: g :: fs)))
      = .directive none f.qualifier f.char :: .space
          :: scanItems (cstr (recordFormat (g :: fs))) := by
  have hspace : scanItems (cstr [chr ' ']) = [.space] := by decide +kernel
  have hf : ScanComplete f.format :=
    ⟨f.zero_notMem_format, by simp [f.scanItems_format, ScanItem.isClosed]⟩
  have hs : ScanComplete [chr ' '] := ⟨by decide, by simp [hspace, ScanItem.isClosed]⟩
  rw [recordFormat, recordFormat, spaced_map_cons_cons,
    scanItems_append hf, f.scanItems_format, scanItems_append hs, hspace]
  rfl

/-! ## Printing -/

/-- What is printed for a number. -/
theorem Column.run_print (f : Column) (rest : Args) (acc : Access) (out : Paper) :
    (Item.directive ⟨{}, .absent, none, f.qualifier⟩ f.char).run (paperSink acc)
        (f.words ++ₛ rest) out
      = some (rest, { out with text := out.text ++ f.text }) := by
  obtain ⟨hb, -, hconv⟩ := unsignedBases_spec _ f.mem_unsignedBases
  have hlarge : decide (f.char = chr 'X') = false := by
    rw [Column.char]
    cases f.octal <;> decide
  rw [hlarge] at hconv
  exact run_unsigned hb hconv f.value rest acc out

/-- **The numbers are printed** one after another. -/
theorem runItems_record (fs : List Column) (rest : Args) (acc : Access) (out : Paper) :
    runItems (paperSink acc) (parse (cstr (recordFormat fs))) (fs.flatMap Column.words ++ₛ rest) out
      = some (rest, { out with text := out.text ++ recordText fs }) := by
  induction fs generalizing out with
  | nil =>
    have hnil : parse (cstr (recordFormat [])) = [] := by decide
    rw [hnil, runItems, recordText]
    simp [spaced]
  | cons f fs ih =>
    rw [List.flatMap_cons, Stream'.append_append_stream]
    cases fs with
    | nil =>
      have hone : parse (cstr (recordFormat [f])) = _ :=
        (congrArg (fun s ↦ parse (cstr s)) (spaced_map_singleton _ f)).trans f.parse_format
      rw [hone, runItems, f.run_print, recordText, spaced_map_singleton]
      rfl
    | cons g fs =>
      rw [parse_record, runItems, f.run_print]
      simp only [Option.bind_eq_bind, Option.bind_some, runItems, Item.run, ih]
      rw [recordText, recordText, spaced_map_cons_cons Column.text f]
      simp [paperSink]

/-! ## Scanning -/

/-- A number begins with a decimal digit. -/
theorem Column.text_head (f : Column) : ∃ d t, f.text = d :: t ∧ d ≠ 0 ∧ isspace d = false ∧
    isdigit d = true := by
  have hb : 2 ≤ f.base ∧ f.base ≤ 10 := by
    rw [Column.base]
    cases f.octal <;> decide
  have hlead := leadingDigit_lt hb.1 f.value.toNat
  obtain ⟨cs, hcs⟩ := digitChars_head f.base false f.value.toNat
  obtain ⟨hne, hspace, hdigit⟩ :=
    digitChar_spec false (leadingDigit f.base f.value.toNat) (by omega)
  exact ⟨_, cs, hcs, hne, hspace, hdigit.trans (decide_eq_true (by omega))⟩

theorem recordText_head (f : Column) (fs : List Column) : ∃ d t,
    recordText (f :: fs) = d :: t ∧ d ≠ 0 ∧ isspace d = false := by
  obtain ⟨d, t, htext, hne, hspace, -⟩ := f.text_head
  cases fs with
  | nil => exact ⟨d, t, by rw [recordText, spaced_map_singleton, htext], hne, hspace⟩
  | cons g fs =>
    refine ⟨d, t ++ ([chr ' '] ++ recordText (g :: fs)), ?_, hne, hspace⟩
    rw [recordText, recordText, spaced_map_cons_cons Column.text f, htext]
    rfl

/-- What is scanned for a number, in front of anything but another digit. -/
theorem Column.run_scan (f : Column) (buf : List Byte) {s : Scan} {d : Byte}
    (hd : isxdigit d = false) {str : List Byte} (hs : s.str = f.text ++ d :: str) :
    (ScanItem.directive none f.qualifier f.char).run buf s
      = some (true, { s.store f.bytes with str := d :: str, num := s.num + 1 }) := by
  obtain ⟨hb, hb', -⟩ := unsignedBases_spec _ f.mem_unsignedBases
  obtain ⟨e, t, htext, hne, hspace, hdigit⟩ := f.text_head
  have hread : scanInteger f.qualifier false (BitVec.ofNat 32 f.base) (f.text ++ d :: str)
      = some (f.bytes, d :: str) := scanInteger_digits hb hb' false f.qualifier f.value hd str
  rw [htext, List.cons_append] at hread hs
  have hhead : s.str.head? = some e := by rw [hs]; rfl
  have hconvert : scanConvert buf f.qualifier f.char s = _ :=
    scanConvert_base (unsignedBases_scan _ f.mem_unsignedBases) hspace hs f.qualifier
  rw [if_neg (isdigit_goOn hdigit), hread] at hconvert
  rw [ScanItem.run, hhead, Option.bind_some, if_neg hne]
  exact hconvert

/-- **The numbers are scanned** one after another. -/
theorem runScan_record (buf : List Byte) (fs : List Column) (inPass : Bool) (s : Scan)
    (hs : s.str = cstr (recordText fs)) : ∃ s',
    runScan buf (scanItems (cstr (recordFormat fs))) inPass s = some (true, s') ∧
      s'.num = s.num + fs.length ∧ s'.writes = s.writes ++ stores s.args (fs.map Column.bytes) := by
  induction fs generalizing inPass s with
  | nil =>
    have hnil : scanItems (cstr (recordFormat [])) = [] := by decide
    rw [hnil, runScan]
    exact ⟨s, rfl, rfl, by simp [stores]⟩
  | cons f fs ih =>
    obtain ⟨d, t, htext, hne, -⟩ := recordText_head f fs
    have hhead : s.str.head? = some d := by
      rw [hs, htext]
      rfl
    cases fs with
    | nil =>
      have hone : scanItems (cstr (recordFormat [f])) = _ :=
        (congrArg (fun s ↦ scanItems (cstr s)) (spaced_map_singleton _ f)).trans f.scanItems_format
      have hend : s.str = f.text ++ 0 :: [] := by
        rw [hs, recordText, spaced_map_singleton]
        rfl
      rw [hone, runScan, hhead, Option.bind_some, if_neg fun h ↦ hne h.1,
        f.run_scan buf (by decide) hend]
      exact ⟨_, rfl, rfl, rfl⟩
    | cons g fs =>
      have hmore : s.str = f.text ++ chr ' ' :: cstr (recordText (g :: fs)) := by
        rw [hs, recordText, spaced_map_cons_cons]
        simp [cstr, recordText]
      obtain ⟨d', t', htext', -, hspace⟩ := recordText_head g fs
      have hskip : skipSpace (chr ' ' :: cstr (recordText (g :: fs)))
          = some (cstr (recordText (g :: fs))) := by
        rw [skipSpace, if_pos (by decide), skipSpace_cstr, htext',
          List.dropWhile_cons_of_neg (by simp [hspace])]
      obtain ⟨s', hrun, hnum, hwrites⟩ := ih true { s.store f.bytes with
        str := cstr (recordText (g :: fs)), num := s.num + 1 } rfl
      refine ⟨s', ?_, ?_, ?_⟩
      · rw [scanItems_record, runScan, hhead, Option.bind_some, if_neg fun h ↦ hne h.1,
          f.run_scan buf (by decide) hmore, Option.bind_some, if_pos rfl, runScan, List.head?_cons,
          Option.bind_some, if_neg fun h ↦ absurd h.1 (by decide), ScanItem.run, hskip]
        exact hrun
      · simp only [hnum, List.length_cons]
        omega
      · rw [hwrites]
        simp [Scan.store, stores]

/-- **Records of unsigned numbers survive print and scan**: every number is stored back through its
own pointer, and their number is returned. -/
theorem record_scansBack (fs : List Column) (rest ptrs : Args) :
    ScansBack (recordFormat fs) (fs.flatMap Column.words ++ₛ rest) ptrs (fs.map Column.bytes) := by
  have hprint (acc : Access) (mem : Word → Byte) : untruncated acc mem (cstr (recordFormat fs))
      (fs.flatMap Column.words ++ₛ rest) = some (rest, ⟨mem, recordText fs, []⟩) := by
    rw [untruncated_eq, runItems_record]
    rfl
  obtain ⟨s', hrun, hnum, hwrites⟩ := runScan_record (cstr (recordText fs)) fs false
    ⟨cstr (recordText fs), ptrs, 0, -1, []⟩ rfl
  rw [scansBack_iff hprint, vsscanf, scan_eq, hrun, Option.map_some, hnum, hwrites, List.length_map]
  simp

-- 1000 in decimal and 12 as a `short` in octal: the text, and the bytes that are stored back
example :
    recordFormat [⟨.none, false, 1000⟩, ⟨.h, true, 12⟩] = chrs ['%', 'u', ' ', '%', 'h', 'o'] ∧
    recordText [⟨.none, false, 1000⟩, ⟨.h, true, 12⟩] = chrs ['1', '0', '0', '0', ' ', '1', '4'] ∧
    vsscanf (cstr (chrs ['1', '0', '0', '0', ' ', '1', '4']))
        (cstr (chrs ['%', 'u', ' ', '%', 'h', 'o'])) ([0x1000, 0x2000] ++ₛ Stream'.const 0)
      = some (2, [(0x1000, [0xe8, 0x03, 0, 0]), (0x2000, [12, 0])]) := by
  decide +kernel

end PastaOS
