import PastaOS.Printf.Paper
import PastaOS.Printf.Written

/-!
# Characters and strings in their fields

`%c` and `%s` print a payload and fill it up with spaces to the field width: `justify`.  Their
padding loops count one variable down, which starts at -1 when there is no width; `%c` tests it
behind the decrement, and `%s` in front of it and against the length of the string.

Two numbers are cut down to an `int` on the way: a width that is written in digits, by `skip_atoi`,
and the length of a string, which `strnlen` returns as a `size_t`.  `justified_iff` says what comes
of it.
-/

set_option autoImplicit false

namespace PastaOS

/-! ## Fields -/

/-- A text in a field of at least `w` characters. -/
def justify (left : Bool) (w : ℕ) (t : List Byte) : List Byte :=
  if left then t.rightpad w (chr ' ') else t.leftpad w (chr ' ')

theorem justify_length (left : Bool) (w : ℕ) (t : List Byte) :
    (justify left w t).length = max w t.length := by
  cases left
  · exact List.length_leftpad
  · simp [justify, List.rightpad]
    omega

/-! ## Strings in memory -/

section Payload

variable {σ : Type} (S : Sink σ)

/-- The characters `xs` stand at `s`, and may be read. -/
def Str.Holds (s : Str) (out : σ) (xs : List Byte) : Prop :=
  ∀ i < xs.length, s.load S out i = xs[i]?

/-- What `%s` is to print of the string at `s`: its characters up to the NUL, or the first `n` of
them if there are so many.  Only then, nothing is said about the character behind them. -/
structure IsPayload (out : σ) (s : Str) (n : Option ℕ) (t : List Byte) : Prop where
  /-- It is part of the string. -/
  noNul : 0 ∉ t
  /-- The characters stand there, and the NUL behind them if they are all. -/
  holds : s.Holds S out (if n = some t.length then t else cstr t)
  /-- It is no longer than the precision. -/
  length_le : ∀ m ∈ n, t.length ≤ m

variable {S} {out : σ} {s : Str} {n : Option ℕ} {t : List Byte}

theorem IsPayload.load (h : IsPayload S out s n t) {i : ℕ} (hi : i < t.length) :
    s.load S out i = t[i]? := by
  have hload := h.holds i
  split_ifs at hload with hn
  · exact hload hi
  · rw [cstr, List.length_append, List.getElem?_append_left hi] at hload
    exact hload (by omega)

theorem IsPayload.load_nul (h : IsPayload S out s n t) (hn : n ≠ some t.length) :
    s.load S out t.length = some 0 := by
  have hload := h.holds t.length
  rw [if_neg hn, cstr, List.length_append, List.length_singleton] at hload
  simpa using hload (by omega)

/-- Behind 2³² characters, the address space begins again. -/
theorem Str.load_wrap (p : Word) (i : ℕ) :
    (Str.arg p).load S out (i % 2 ^ 32) = (Str.arg p).load S out i := by
  have hi : BitVec.ofNat 32 (i % 2 ^ 32) = BitVec.ofNat 32 i := by
    apply BitVec.eq_of_toNat_eq
    simp
  rw [Str.load, Str.load, hi]

/-- A string ends before the address space begins again. -/
theorem IsPayload.length_lt (h : IsPayload S out s none t) : t.length < 2 ^ 32 := by
  have hnul := h.load_nul (by simp)
  by_contra hle
  rw [not_lt] at hle
  cases s with
  | null =>
    have hnone : (Str.null).load S out t.length = none :=
      List.getElem?_eq_none (Nat.le_trans (by decide) hle)
    rw [hnone] at hnul
    contradiction
  | arg p =>
    have hlt : t.length % 2 ^ 32 < t.length := (Nat.mod_lt _ (by decide)).trans_le hle
    rw [← Str.load_wrap, h.load hlt] at hnul
    exact h.noNul (List.mem_of_getElem? hnul)

/-- **`strnlen` counts** the characters in front of the NUL, at most `count` of them. -/
theorem strnlen_eq {count i : ℕ} (h0 : 0 ∉ t)
    (hload : ∀ j < t.length, s.load S out (i + j) = t[j]?)
    (hend : count = t.length ∨ t.length < count ∧ s.load S out (i + t.length) = some 0) :
    strnlen S s out count i = some (i + t.length) := by
  induction t generalizing i count with
  | nil =>
    rcases hend with rfl | ⟨hlt, hnul⟩
    · rfl
    · obtain ⟨count, rfl⟩ : ∃ m, count = m + 1 := ⟨count - 1, by simp at hlt; omega⟩
      rw [List.length_nil, Nat.add_zero] at hnul ⊢
      rw [strnlen, hnul]
      rfl
  | cons c t ih =>
    rw [List.mem_cons, not_or] at h0
    rw [List.length_cons] at hload hend ⊢
    obtain ⟨count, rfl⟩ : ∃ m, count = m + 1 := ⟨count - 1, by omega⟩
    have hhead : s.load S out i = some c := hload 0 (by omega)
    have hnext (j : ℕ) : i + 1 + j = i + (j + 1) := by omega
    have htail : strnlen S s out count (i + 1) = some (i + 1 + t.length) := by
      refine ih h0.2 (fun j hj ↦ ?_) ?_
      · rw [hnext]
        exact hload (j + 1) (by omega)
      · rw [hnext]
        exact hend.imp (by omega) fun h ↦ ⟨by omega, h.2⟩
    rw [strnlen, hhead, Option.bind_eq_bind, Option.bind_some, if_neg (Ne.symm h0.1), htail, hnext]

/-- The payload is what `strnlen` counts: up to the precision, or with room for the whole string. -/
theorem IsPayload.strnlen_eq (h : IsPayload S out s n t) {count : ℕ} (hn : ∀ m ∈ n, m = count)
    (hle : t.length ≤ count) : strnlen S s out count 0 = some t.length := by
  have hload (j : ℕ) (hj : j < t.length) : s.load S out (0 + j) = t[j]? := by
    rw [Nat.zero_add]
    exact h.load hj
  have hend : count = t.length ∨ t.length < count ∧ s.load S out (0 + t.length) = some 0 := by
    rw [Nat.zero_add]
    by_cases hlast : t.length = count
    · exact .inl hlast.symm
    · exact .inr ⟨by omega, h.load_nul fun hsome ↦ hlast (hn _ hsome)⟩
  rw [PastaOS.strnlen_eq h.noNul hload hend, Nat.zero_add]

/-- The count that `strnlen` is called with; it is -1 for a precision that is not given. -/
theorem IsPayload.strnlen_precision (h : IsPayload S out s n t) (hn : ∀ m ∈ n, m < 2 ^ 31) :
    strnlen S s out (BitVec.ofInt 32 (n.elim (-1) Nat.cast)).toNat 0 = some t.length := by
  cases n with
  | none =>
    have hall : (BitVec.ofInt 32 (-1)).toNat = 2 ^ 32 - 1 := by decide
    have hlt := h.length_lt
    rw [Option.elim_none, hall]
    exact h.strnlen_eq (by simp) (by omega)
  | some m =>
    have hm := hn m rfl
    have hcast : (BitVec.ofInt 32 (m : Int)).toNat = m := by
      rw [BitVec.toNat_ofInt]
      omega
    rw [Option.elim_some, hcast]
    exact h.strnlen_eq (by simp) (h.length_le m rfl)

/-- The characters of a string can be read up to its NUL, if the cells of its argument can be. -/
theorem strOf_load {p : Word} {i : ℕ} (hcell : ∃ c, S.load out (p + BitVec.ofNat 32 i) = some c)
    (hnul : ∀ j < i, (strOf p).load S out j ≠ some 0) : ∃ c, (strOf p).load S out i = some c := by
  rw [strOf] at hnul ⊢
  split_ifs at hnul ⊢ with hp
  · have hle : i < (cstr (chrs ['<', 'N', 'U', 'L', 'L', '>'])).length := by
      by_contra hge
      rw [not_lt] at hge
      exact hnul 6 (Nat.lt_of_lt_of_le (by decide) hge) rfl
    exact ⟨_, List.getElem?_eq_getElem hle⟩
  · exact hcell

/-- **There is a payload** of at most `m` characters, if these may be read up to a NUL. -/
theorem exists_payload {m : ℕ}
    (hload : ∀ i < m, (∀ j < i, s.load S out j ≠ some 0) → ∃ c, s.load S out i = some c) :
    ∃ t, IsPayload S out s (some m) t := by
  induction m with
  | zero => exact ⟨[], by simp, by simp [Str.Holds], by simp⟩
  | succ m ih =>
    obtain ⟨t, ht⟩ := ih fun i hi ↦ hload i (by omega)
    have hle := ht.length_le m rfl
    have hm : some (m + 1) ≠ some t.length := by simp; omega
    have hle' : ∀ k ∈ some (m + 1), t.length ≤ k := by simp; omega
    -- a string that has ended is not read any further
    have hended (hnul : s.load S out t.length = some 0) : IsPayload S out s (some (m + 1)) t := by
      refine ⟨ht.noNul, ?_, hle'⟩
      rw [if_neg hm]
      intro i hi
      rw [cstr, List.length_append, List.length_singleton] at hi
      rcases Nat.lt_or_ge i t.length with hlt | hge
      · rw [cstr, List.getElem?_append_left hlt, ht.load hlt]
      · rw [Nat.le_antisymm (by omega) hge, hnul]
        simp [cstr]
    rcases Nat.lt_or_ge t.length m with hlt | hge
    · exact ⟨t, hended (ht.load_nul (by simp; omega))⟩
    have hlen : t.length = m := by omega
    obtain ⟨c, hc⟩ := hload m (by omega) fun j hj hnul ↦ by
      rw [← hlen] at hj
      rw [ht.load hj] at hnul
      exact ht.noNul (List.mem_of_getElem? hnul)
    by_cases h0 : c = 0
    · exact ⟨t, hended (by rw [hlen, hc, h0])⟩
    · refine ⟨t ++ [c], ?_, ?_, by simp [hlen]⟩
      · rw [List.mem_append, List.mem_singleton]
        exact not_or.mpr ⟨ht.noNul, Ne.symm h0⟩
      · rw [if_pos (by simp [hlen])]
        intro i hi
        rw [List.length_append, List.length_singleton] at hi
        rcases Nat.lt_or_ge i t.length with hlt | hge
        · rw [List.getElem?_append_left hlt, ht.load hlt]
        · rw [Nat.le_antisymm (by omega) hge, hlen, hc, ← hlen]
          simp

end Payload

/-! ## On paper -/

section Paper

variable {acc : Access} {u : Paper} {s : Str} {p : Word} {n : Option ℕ} {t : List Byte}

/-- **The loop of `%s` copies** `k` characters from the `i`-th on. -/
theorem putStr_holds (h : ∀ i < t.length, s.load (paperSink acc) u i = t[i]?) {k i : ℕ}
    (hk : i + k ≤ t.length) (text : List Byte) :
    putStr (paperSink acc) s k i { u with text := text }
      = some { u with text := text ++ (t.drop i).take k } := by
  induction k generalizing i text with
  | zero => simp [putStr]
  | succ k ih =>
    have hi : i < t.length := by omega
    have hload : s.load (paperSink acc) { u with text := text } i = some t[i] := by
      rw [← List.getElem?_eq_getElem hi, ← h i hi]
      cases s <;> rfl
    rw [putStr, hload, Option.bind_eq_bind, Option.bind_some]
    refine (ih (by omega) (text ++ [t[i]])).trans ?_
    rw [List.append_assoc, List.singleton_append, List.drop_eq_getElem_cons hi, List.take_succ_cons]

/-- What `%s` prints for the payload `t`. -/
def stringText (flags : Flags) (fieldWidth : Int) (t : List Byte) : List Byte :=
  stringLeft flags fieldWidth (i32 t.length) ++ t.take (i32 t.length).toNat
    ++ stringRight flags fieldWidth (i32 t.length)

theorem IsPayload.convertString_eq (h : IsPayload (paperSink acc) u (strOf p) n t)
    (hn : ∀ m ∈ n, m < 2 ^ 31) (flags : Flags) (fieldWidth : Int) :
    convertString (paperSink acc) flags fieldWidth (n.elim (-1) Nat.cast) p u
      = some { u with text := u.text ++ stringText flags fieldWidth t } := by
  have hput := putStr_holds (i := 0) (k := (i32 t.length).toNat) (fun i hi ↦ h.load hi)
    (by rw [Nat.zero_add]; exact i32_toNat_le _)
    (u.text ++ stringLeft flags fieldWidth (i32 t.length))
  rw [PastaOS.convertString_eq, h.strnlen_precision hn, Option.bind_some, paperSink_puts, hput,
    Option.map_some, paperSink_puts, stringText, List.drop_zero]
  simp only [List.append_assoc]

end Paper

/-! ## Whether the text is the one that is meant -/

section Text

variable {flags : Flags} {w : ℕ} {fieldWidth : Int}

/-- **`%c` in its field.**  It is wrong for widths from 2³¹ on, of which `skip_atoi` makes another
width.  Where that is `INT_MIN`, the first decrement overflows, and only the other direction is of
use. -/
theorem charText_iff (hw : fieldWidth = i32 w ∨ w = 0 ∧ fieldWidth = -1)
    (hmin : w % 2 ^ 32 ≠ 2 ^ 31) (c : Byte) :
    charText flags fieldWidth c = justify flags.left w [c] ↔ w < 2 ^ 31 := by
  have hspec := i32_spec w
  have hspec₁ := i32_spec (fieldWidth - 1)
  have hspec₂ := i32_spec (min (i32 (fieldWidth - 1)) 0 - 1)
  constructor
  · intro h
    have hlen := congrArg List.length h
    rw [justify_length, charText] at hlen
    cases hleft : flags.left
    · simp [hleft] at hlen
      omega
    · simp [hleft] at hlen
      omega
  · intro h
    have hfill : (i32 (fieldWidth - 1)).toNat = w - 1 := by omega
    have hnone : (i32 (min (i32 (fieldWidth - 1)) 0 - 1)).toNat = 0 := by omega
    rw [charText]
    cases hleft : flags.left
    · simp [hfill, hnone, justify, List.leftpad]
    · simp [hfill, justify, List.rightpad]

/-- A field consists of spaces if it is as wide as it should be and its content does, too. -/
theorem replicate_eq_justify (left : Bool) (k w : ℕ) (t : List Byte) :
    List.replicate k (chr ' ') = justify left w t ↔
      k = max w t.length ∧ ∀ c ∈ t, c = chr ' ' := by
  rw [eq_comm, List.eq_replicate_iff, justify_length, eq_comm (a := k), justify]
  refine and_congr_right fun _ ↦ ?_
  cases left
  · simp [List.leftpad, or_imp]
  · simp [List.rightpad, or_imp]

/-- **`%s` in its field**, for a string whose length is an `int`. -/
theorem stringText_iff_of_lt (hw : fieldWidth = i32 w ∨ w = 0 ∧ fieldWidth = -1) {t : List Byte}
    (ht : t.length < 2 ^ 31) :
    stringText flags fieldWidth t = justify flags.left w t ↔ w < 2 ^ 31 := by
  have hspec := i32_spec w
  have hlen : i32 t.length = t.length := i32_of_range (by omega) (by omega)
  have hspec₁ := i32_spec (min fieldWidth t.length - 1)
  rw [stringText, hlen, Int.toNat_natCast, List.take_length, stringLeft, stringRight]
  constructor
  · intro h
    have h := congrArg List.length h
    rw [justify_length] at h
    cases hleft : flags.left
    · simp [hleft] at h
      omega
    · simp [hleft] at h
      omega
  · intro h
    have hfill : (fieldWidth - t.length).toNat = w - t.length := by omega
    have hnone : (i32 (min fieldWidth t.length - 1) - t.length).toNat = 0 := by omega
    cases hleft : flags.left
    · simp [hfill, hnone, justify, List.leftpad]
    · simp [hfill, justify, List.rightpad]

/-- **`%s` in its field**, for a longer string: the `int` is negative, and spaces are all that is
printed. -/
theorem stringText_iff_of_ge (hw : fieldWidth = i32 w ∨ w = 0 ∧ fieldWidth = -1) {t : List Byte}
    (ht : 2 ^ 31 ≤ t.length) (ht' : t.length < 2 ^ 32) :
    stringText flags fieldWidth t = justify flags.left w t ↔ w < 2 ^ 31 ∧ 0 ≤ fieldWidth ∧
      2 * t.length = w + 2 ^ 32 ∧ (flags.left = true ∨ w ≠ 0) ∧ ∀ c ∈ t, c = chr ' ' := by
  have hspec := i32_spec w
  have hlen : i32 t.length = t.length - 2 ^ 32 := by
    have hspec := i32_spec t.length
    omega
  have hnone : ((t.length : Int) - 2 ^ 32).toNat = 0 := by omega
  have hspec₁ := i32_spec (min fieldWidth (t.length - 2 ^ 32) - 1)
  rw [stringText, hlen, hnone, List.take_zero, List.append_nil, stringLeft, stringRight]
  generalize i32 (min fieldWidth (t.length - 2 ^ 32) - 1) = rest at hspec₁ ⊢
  cases hleft : flags.left
  · simp only [Bool.not_false, if_true, List.replicate_append_replicate, replicate_eq_justify]
    rw [← and_assoc, ← and_assoc, ← and_assoc]
    refine and_congr_left fun _ ↦ ?_
    simp
    omega
  · simp only [Bool.not_true, Bool.false_eq_true, if_false, List.nil_append, replicate_eq_justify]
    rw [← and_assoc, ← and_assoc, ← and_assoc]
    refine and_congr_left fun _ ↦ ?_
    simp
    omega

end Text

/-! ## Whether the directive does what is meant -/

/-- The first `m` cells at `p` may be read, and no others. -/
def firstCells (p : Word) (m : ℕ) : Access := ⟨fun a ↦ decide ((a - p).toNat < m), fun _ ↦ false⟩

/-- A pass over the directive takes its arguments, and prints `t` in the field that is meant. -/
def PrintsField (acc : Access) (d : Directive) (x : LoopState Paper) (post t : List Byte) : Prop :=
  loopPass (paperSink acc) x = some ⟨cstr post, x.args.drop (d.spec.words + 1),
    { x.out with text := x.out.text ++ justify (d.left x.args) (d.minWidth x.args) t }⟩

/-- When `%s` prints the payload `t` as it should: the width and the length of the payload are
`int`s.  Of a longer payload no character is printed; there is the coincidence that it consists of
spaces, and that the padding is as long as it is. -/
def StringFits (d : Directive) (args : Args) (t : List Byte) : Prop :=
  d.minWidth args < 2 ^ 31 ∧ (t.length < 2 ^ 31 ∨ d.width ≠ .absent ∧
    2 * t.length = d.minWidth args + 2 ^ 32 ∧ (d.left args = true ∨ d.minWidth args ≠ 0) ∧
      ∀ c ∈ t, c = chr ' ')

namespace Directive

variable (d : Directive) {acc : Access} {x : LoopState Paper} {post : List Byte} {n : Option ℕ}

/-- A pass over a `%c`. -/
theorem loopPass_char (hx : x.fmt = cstr (chr '%' :: (d.text ++ post)))
    (hc : d.conversion = chr 'c') : loopPass (paperSink acc) x
      = some ⟨cstr post, x.args.drop (d.spec.words + 1), { x.out with text :=
          (x.out.text ++ charText (d.codeFlags x.args) (d.codeWidth x.args)
            ((d.arg x.args).setWidth 8)) }⟩ := by
  rw [d.loopPass_eq hx, hc, convert, if_pos rfl, convertChar_eq, paperSink_puts, Option.map_some,
    Stream'.tail_drop', Written.arg]

/-- A pass over a `%s`. -/
theorem loopPass_string (hx : x.fmt = cstr (chr '%' :: (d.text ++ post)))
    (hs : d.conversion = chr 's') (hprec : d.codePrecision x.args = n.elim (-1) Nat.cast)
    (hn : ∀ m ∈ n, m < 2 ^ 31) {t : List Byte}
    (ht : IsPayload (paperSink acc) x.out (strOf (d.arg x.args)) n t) :
    loopPass (paperSink acc) x
      = some ⟨cstr post, x.args.drop (d.spec.words + 1), { x.out with text :=
          (x.out.text ++ stringText (d.codeFlags x.args) (d.codeWidth x.args) t) }⟩ := by
  rw [Written.arg] at ht
  rw [d.loopPass_eq hx, convert_string _ _ _ _ _ hs, hprec, ht.convertString_eq hn, Option.map_some,
    Option.map_some, Stream'.tail_drop']

end Directive

section Directive

variable (d : Directive) (acc : Access) {x : LoopState Paper} {post : List Byte} {n : Option ℕ}

/-- Two passes that differ in the text they print. -/
theorem printsField_iff {a t : List Byte} (h : loopPass (paperSink acc) x
      = some ⟨cstr post, x.args.drop (d.spec.words + 1), { x.out with text := x.out.text ++ a }⟩) :
    PrintsField acc d x post t ↔ a = justify (d.left x.args) (d.minWidth x.args) t := by
  rw [PrintsField, h]
  simp

theorem printsField_char_iff (hx : x.fmt = cstr (chr '%' :: (d.text ++ post)))
    (hc : d.conversion = chr 'c') (hmin : d.minWidth x.args % 2 ^ 32 ≠ 2 ^ 31) :
    PrintsField acc d x post [(d.arg x.args).setWidth 8] ↔ d.minWidth x.args < 2 ^ 31 :=
  (printsField_iff d acc (d.loopPass_char hx hc)).trans
    (charText_iff (d.codeWidth_eq x.args) hmin _)

theorem printsField_string_iff (hx : x.fmt = cstr (chr '%' :: (d.text ++ post)))
    (hs : d.conversion = chr 's') (hprec : d.codePrecision x.args = n.elim (-1) Nat.cast)
    (hn : ∀ m ∈ n, m < 2 ^ 31) {t : List Byte}
    (ht : IsPayload (paperSink acc) x.out (strOf (d.arg x.args)) n t) :
    PrintsField acc d x post t ↔ StringFits d x.args t := by
  refine (printsField_iff d acc (d.loopPass_string hx hs hprec hn ht)).trans ?_
  rw [StringFits]
  rcases Nat.lt_or_ge t.length (2 ^ 31) with hlt | hge
  · rw [(and_iff_left (.inl hlt) : _ ∧ _ ↔ _)]
    exact stringText_iff_of_lt (d.codeWidth_eq x.args) hlt
  · have hlt : t.length < 2 ^ 32 := by
      cases n with
      | none => exact ht.length_lt
      | some m => exact (ht.length_le m rfl).trans_lt ((hn m rfl).trans (by decide))
    refine (stringText_iff_of_ge (d.codeWidth_eq x.args) hge hlt).trans ?_
    refine and_congr_right fun hw ↦ ?_
    rw [d.codeWidth_nonneg hw, or_iff_right (Nat.not_lt.mpr hge)]
    rfl

/-- The first `m` characters of a string may be read when its first `m` cells may be. -/
theorem firstCells_load (p : Word) {m : ℕ} (hm : m < 2 ^ 32) (u : Paper) {i : ℕ} (hi : i < m)
    (hnul : ∀ j < i, (strOf p).load (paperSink (firstCells p m)) u j ≠ some 0) :
    ∃ c, (strOf p).load (paperSink (firstCells p m)) u i = some c := by
  have hcell : (firstCells p m).read (p + BitVec.ofNat 32 i) = true := by
    have hsub : (p + BitVec.ofNat 32 i - p).toNat = i := by
      rw [BitVec.add_comm, BitVec.add_sub_cancel, BitVec.toNat_ofNat, Nat.mod_eq_of_lt (by omega)]
    rw [firstCells, decide_eq_true_eq, hsub]
    exact hi
  exact strOf_load ⟨_, if_pos hcell⟩ hnul

end Directive

/-- **Characters and strings in their fields.**  `%c` prints its argument in a field of the width
that is written, on the side that the flags say, if that width is below 2³¹, and only if it is,
unless `field_width` is `INT_MIN`: what `--field_width` does then, C leaves undefined.  `%s` prints
its payload so if and only if `StringFits`; with a precision `m`, it reads no more than the first
`m` characters of its argument. -/
theorem justified_iff (d : Directive) (acc : Access) {x : LoopState Paper} {post : List Byte}
    (hx : x.fmt = cstr (chr '%' :: (d.text ++ post))) {n : Option ℕ}
    (hprec : d.precisionValue x.args = n.map Nat.cast) (hn : ∀ m ∈ n, m < 2 ^ 31) :
    (d.conversion = chr 'c' →
      (d.minWidth x.args < 2 ^ 31 → PrintsField acc d x post [(d.arg x.args).setWidth 8]) ∧
      (d.minWidth x.args % 2 ^ 32 ≠ 2 ^ 31 →
        PrintsField acc d x post [(d.arg x.args).setWidth 8] → d.minWidth x.args < 2 ^ 31)) ∧
    (d.conversion = chr 's' →
      (∀ t, IsPayload (paperSink acc) x.out (strOf (d.arg x.args)) n t →
        (PrintsField acc d x post t ↔ StringFits d x.args t)) ∧
      ∀ m ∈ n, ∃ y, loopPass (paperSink (firstCells (d.arg x.args) m)) x = some y) := by
  refine ⟨fun hc ↦ ⟨fun hw ↦ ?_, fun hmin ↦ (printsField_char_iff d acc hx hc hmin).mp⟩, fun hs ↦
    ⟨fun t ht ↦ printsField_string_iff d acc hx hs (d.codePrecision_eq hprec hn) hn ht, ?_⟩⟩
  · exact (printsField_char_iff d acc hx hc (by omega)).mpr hw
  intro m hm
  have hlt : m < 2 ^ 32 := (hn m hm).trans (by decide)
  obtain ⟨t, ht⟩ := exists_payload fun i hi hnul ↦ firstCells_load (d.arg x.args) hlt x.out hi hnul
  obtain rfl : n = some m := hm
  exact ⟨_, d.loopPass_string hx hs (d.codePrecision_eq hprec hn) hn ht⟩

/-- `"%-5.1s"`, from behind the `%` on. -/
def leftFive : Directive :=
  Written.directive ⟨[chr '-'], .digits [chr '5'], some (.digits [chr '1']), .none⟩ [] (chr 's')
    (by decide)

/-- The theorem for `"%-5.1s"` and `"hi"`. -/
theorem justified_hi : PrintsField lowHigh leftFive
    ⟨cstr (chr '%' :: (leftFive.text ++ [])), [0x1000] ++ₛ Stream'.const 0, ⟨hiMem, [], []⟩⟩ []
      [chr 'h'] := by
  have hpayload : IsPayload (paperSink lowHigh) ⟨hiMem, [], []⟩ (.arg 0x1000) (some 1) [chr 'h'] :=
    ⟨by decide, fun i hi ↦ by obtain rfl := Nat.lt_one_iff.mp hi; rfl, by decide⟩
  exact (((justified_iff leftFive lowHigh rfl (n := some 1) rfl (by decide)).2 rfl).1 _
    hpayload).mpr ⟨by decide, .inl (by decide)⟩

/-- `"%s"`, from behind the `%` on. -/
def plainString : Directive :=
  Written.directive ⟨[], .absent, none, .none⟩ [] (chr 's') (by decide)

/-- `"%4294967301c"`, from behind the `%` on: the width is 2³² + 5. -/
def wideChar : Directive :=
  Written.directive
    ⟨[], .digits (chrs ['4', '2', '9', '4', '9', '6', '7', '3', '0', '1']), none, .none⟩
      [] (chr 'c')
    (by decide)

/-- All of memory. -/
def everywhere : Access := ⟨fun _ ↦ true, fun _ ↦ true⟩

/-- A memory with a string of `k` letters at 1. -/
def lettersMem (k : ℕ) (a : Word) : Byte := if a.toNat ≤ k then chr 'a' else 0

theorem lettersMem_payload {k : ℕ} (hk : k + 1 < 2 ^ 32) : IsPayload (paperSink everywhere)
    ⟨lettersMem k, [], []⟩ (.arg 1) none (List.replicate k (chr 'a')) := by
  have hload (i : ℕ) (hi : i ≤ k) : (Str.arg 1).load (paperSink everywhere)
      ⟨lettersMem k, [], []⟩ i = some (if i < k then chr 'a' else 0) := by
    have hcell : (1 + BitVec.ofNat 32 i : Word).toNat = i + 1 := by
      have hone : (1 : Word).toNat = 1 := rfl
      rw [BitVec.toNat_add, BitVec.toNat_ofNat, hone]
      omega
    show some (lettersMem k (1 + BitVec.ofNat 32 i)) = _
    rw [lettersMem, hcell]
    rfl
  refine ⟨by simp [chr], ?_, by simp⟩
  rw [if_neg (by simp)]
  intro i hi
  rw [cstr, List.length_append, List.length_replicate, List.length_singleton] at hi
  rw [hload i (by omega), cstr]
  split_ifs with hlt
  · rw [List.getElem?_append_left (by rwa [List.length_replicate]),
      List.getElem?_replicate_of_lt hlt]
  · rw [show i = k by omega, List.getElem?_append_right (by simp)]
    simp

/-- **Two fields that are not.**  Of a string of 2³¹ letters, `"%s"` prints no letter; and
`"%4294967301c"` does not fill its field. -/
theorem not_justified :
    let string : LoopState Paper := ⟨cstr (chr '%' :: (plainString.text ++ [])),
      [1] ++ₛ Stream'.const 0, ⟨lettersMem (2 ^ 31), [], []⟩⟩
    let char : LoopState Paper := ⟨cstr (chr '%' :: (wideChar.text ++ [])),
      [0x61] ++ₛ Stream'.const 0, ⟨lettersMem 0, [], []⟩⟩
    (IsPayload (paperSink everywhere) string.out (strOf (plainString.arg string.args)) none
        (List.replicate (2 ^ 31) (chr 'a')) ∧
      ¬ PrintsField everywhere plainString string [] (List.replicate (2 ^ 31) (chr 'a'))) ∧
    ¬ PrintsField everywhere wideChar char [] [(wideChar.arg char.args).setWidth 8] := by
  intro string char
  have hpayload : IsPayload (paperSink everywhere) string.out
      (strOf (plainString.arg string.args)) none (List.replicate (2 ^ 31) (chr 'a')) :=
    lettersMem_payload (by decide)
  refine ⟨⟨hpayload, ?_⟩, ?_⟩
  · rw [printsField_string_iff plainString everywhere rfl rfl (n := none) rfl (by simp) hpayload]
    rintro ⟨-, hlt | ⟨habsent, -⟩⟩
    · rw [List.length_replicate] at hlt
      exact absurd hlt (lt_irrefl _)
    · exact habsent rfl
  · rw [printsField_char_iff wideChar everywhere rfl rfl (by decide)]
    decide

end PastaOS
