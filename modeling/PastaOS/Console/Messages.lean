import PastaOS.Console.Lines
import PastaOS.Console.Printk
import PastaOS.Printf.Field
import PastaOS.Scanf.RoundTrip

/-!
# Messages of the kernel

The formats that the kernel gives to `printk` consist of literal characters, of `%d` and of `%s`,
and what they print is a line.  Such a call prints a line more (`Printed.printk`).
-/

set_option autoImplicit false

namespace PastaOS

/-! ## What the items print -/

/-- A number in decimal. -/
def decimalText (n : ℕ) : List Byte := (digitChars false 10 n).reverse

/-- An integer in decimal. -/
def intText (v : Int) : List Byte := (if v < 0 then [chr '-'] else []) ++ decimalText v.natAbs

section Items

/-- Literal characters are printed as they are. -/
theorem runItems_literals {σ : Type} (S : Sink σ) (cs : List Byte) (args : Args) (out : σ) :
    runItems S (cs.map .literal) args out = some (args, S.puts cs out) := by
  induction cs generalizing out with
  | nil => rfl
  | cons c cs ih =>
    rw [List.map_cons, runItems]
    exact ih _

/-- What `%d` prints. -/
theorem numberText_int (args : Args) : numberText (fetchNum .none true args).1 10 (-1) (-1)
    { sign := true } = intText args.head.toInt := by
  have hfetch : (fetchNum .none true args).1 = args.head.signExtend 64 := rfl
  have hext : (args.head.signExtend 64).toInt = args.head.toInt :=
    BitVec.toInt_signExtend_of_le (by decide)
  rw [hfetch, numberText_plain (by decide), slt_zero, intText, decimalText, ← hext]
  by_cases hneg : (args.head.signExtend 64).toInt < 0
  · rw [if_pos ⟨rfl, decide_eq_true hneg⟩, if_pos hneg, toNat_neg_natAbs hneg]
    rfl
  · rw [if_neg (by simp [hneg]), if_neg hneg, toNat_natAbs hneg]
    rfl

/-- `%d` -/
theorem runItems_decimal (acc : Access) (args : Args) (u : Paper) (items : List Item) :
    runItems (paperSink acc) (.directive ⟨{}, .absent, none, .none⟩ (chr 'd') :: items) args u
      = runItems (paperSink acc) items args.tail
        ((paperSink acc).puts (intText args.head.toInt) u) := by
  have hconv : integerConversion {} (chr 'd') = some (10, { sign := true }) := by decide
  rw [runItems, run_integer hconv, numberText_int, paperSink_puts]
  rfl

/-- The string `t` stands at the address `p`, away from the buffer of `printk`. -/
structure StringAt (mem : Word → Byte) (buf p : Word) (t : List Byte) : Prop where
  /-- It is not NULL. -/
  ne : p ≠ 0
  /-- It ends at its NUL. -/
  noNul : 0 ∉ t
  /-- Its characters. -/
  cells : ∀ i < (cstr t).length, mem (p + BitVec.ofNat 32 i) = (cstr t)[i]?
  /-- The buffer is somewhere else. -/
  apart : ∀ i < (cstr t).length, ¬ InBuf buf PRINTK_BUFSIZE (p + BitVec.ofNat 32 i)

/-- `%s` -/
theorem runItems_string {mem : Word → Byte} {buf : Word} {t : List Byte} {args : Args} {u : Paper}
    (h : StringAt mem buf args.head t) (hu : u.mem = mem) (ht : t.length < 2 ^ 31)
    (items : List Item) :
    runItems (paperSink (offBuffer buf PRINTK_BUFSIZE))
        (.directive ⟨{}, .absent, none, .none⟩ (chr 's') :: items) args u
      = runItems (paperSink (offBuffer buf PRINTK_BUFSIZE)) items args.tail
        ((paperSink (offBuffer buf PRINTK_BUFSIZE)).puts t u) := by
  have hpay : IsPayload (paperSink (offBuffer buf PRINTK_BUFSIZE)) u (strOf args.head) none t := by
    refine ⟨h.noNul, ?_, by simp⟩
    rw [if_neg (by simp), strOf, if_neg h.ne]
    intro i hi
    rw [← h.cells i hi, ← hu]
    exact if_pos (offBuffer_read.mpr (h.apart i hi))
  have hlen : i32 t.length = t.length := i32_of_range (by omega) (by omega)
  have htext : stringText {} (-1) t = t := by
    have hleft : ((-1 : Int) - t.length).toNat = 0 := by omega
    have hright : (i32 (-2)).toNat = 0 := rfl
    simp [stringText, stringLeft, stringRight, hlen, hleft, hright]
  have hrun : (Item.directive ⟨{}, .absent, none, .none⟩ (chr 's')).run
      (paperSink (offBuffer buf PRINTK_BUFSIZE)) args u
      = some (args.tail, { u with text := u.text ++ t }) := by
    have hconv := hpay.convertString_eq (by simp) {} (-1)
    rw [htext] at hconv
    show convert _ {} (-1) (-1) .none (chr 's') args u = _
    rw [convert_string _ _ _ _ _ rfl]
    exact congrArg (Option.map _) hconv
  rw [runItems, hrun, paperSink_puts]
  rfl

end Items

/-! ## Numbers in decimal -/

theorem decimalText_length_le {n : ℕ} (hn : n < 10 ^ 10) : (decimalText n).length ≤ 10 := by
  rw [decimalText, List.length_reverse, digitChars]
  split_ifs
  · decide
  · rw [List.length_map, Nat.digits_length_le_iff (by decide)]
    exact hn

theorem intText_length_le (v : Word) : (intText v.toInt).length ≤ 11 := by
  have hlt := v.isLt
  have habs : v.toInt.natAbs < 10 ^ 10 := by
    have := BitVec.two_mul_toInt_lt (x := v)
    have := BitVec.le_two_mul_toInt (x := v)
    omega
  have hlen := decimalText_length_le habs
  rw [intText, List.length_append]
  split_ifs <;> simp only [List.length_singleton, List.length_nil] <;> omega

/-- An `int` that is not negative. -/
theorem intText_natural {n : ℕ} (hn : n < 2 ^ 31) :
    intText (BitVec.ofNat 32 n).toInt = decimalText n := by
  have hint : (BitVec.ofNat 32 n).toInt = n := toInt_ofNat_of_lt hn
  rw [intText, hint, if_neg (by omega), List.nil_append, Int.natAbs_natCast]

/-- A character that is shown, and no NUL. -/
def IsText (c : Byte) : Prop := IsPrintable c ∧ c ≠ 0

instance (c : Byte) : Decidable (IsText c) := by
  unfold IsText
  infer_instance

theorem isText_digit {d : ℕ} (hd : d < 10) : IsText (digitChar false d) := by
  revert d
  decide

theorem isText_decimalText {n : ℕ} : ∀ c ∈ decimalText n, IsText c := by
  intro c hc
  rw [decimalText, List.mem_reverse, digitChars] at hc
  split_ifs at hc with h0
  · rw [List.mem_singleton.mp hc]
    decide
  · obtain ⟨d, hd, rfl⟩ := List.mem_map.mp hc
    exact isText_digit (Nat.digits_lt_base (by decide) hd)

theorem isText_intText {v : Int} : ∀ c ∈ intText v, IsText c := by
  intro c hc
  rcases List.mem_append.mp hc with hc | hc
  · split_ifs at hc
    · rw [List.mem_singleton.mp hc]
      decide
    · simp at hc
  · exact isText_decimalText c hc

/-! ## A line more -/

/-- What is sent is all of a text that fits in the buffer and contains no NUL. -/
theorem shown_of_le {text : List Byte} (hlen : text.length < PRINTK_BUFSIZE) (h0 : 0 ∉ text) :
    shown text = text := by
  rw [shown, List.take_of_length_le (by omega), List.takeWhile_eq_self_iff]
  intro c hc
  exact isShown_iff.mpr fun h ↦ h0 (h ▸ hc)

/-- A line of a message: it fits in a row, and contains neither control characters nor a NUL. -/
structure IsMessage (l : List Byte) : Prop where
  /-- It is shorter than a row. -/
  length_lt : l.length < CONSOLE_WIDTH
  /-- What it consists of. -/
  text : ∀ c ∈ l, IsText c

/-- A call of `printk` with this buffer is possible: it is neither at the address 0 nor at the end
of the address space. -/
structure IsStackBuffer (buf : Word) : Prop where
  /-- It is not NULL. -/
  ne : buf ≠ 0
  /-- There is something behind it. -/
  top : buf.toNat + PRINTK_BUFSIZE < 2 ^ 32

/-- **A call of `printk` with a message adds a line** to those that are on the screen. -/
theorem Printed.printk {c : Console} {ls : List (List Byte)} {l : List Byte} {mem : Word → Byte}
    {buf : Word} {fmt : List Byte} {args args' : Args} {u : Paper} (h : Printed c ls)
    (hbuf : IsStackBuffer buf)
    (hu : untruncated (offBuffer buf PRINTK_BUFSIZE) mem (cstr fmt) args = some (args', u))
    (htext : u.text = l ++ [10]) (hl : IsMessage l) :
    ∃ r b c', PastaOS.printk mem buf (cstr fmt) args c = some (r, b, c') ∧
      Printed c' (ls ++ [l]) := by
  obtain ⟨t, hscreen, hholds⟩ := h
  have hlen : u.text.length < PRINTK_BUFSIZE := by
    have := hl.length_lt
    rw [htext, List.length_append, List.length_singleton]
    exact (Nat.succ_lt_succ this).trans (by decide)
  have hnul : 0 ∉ u.text := by
    rw [htext, List.mem_append, List.mem_singleton]
    exact not_or.mpr ⟨fun h0 ↦ (hl.text 0 h0).2 rfl, by decide⟩
  have hroom := hbuf.top
  obtain ⟨b, c', hc', hscreen'⟩ := hscreen.printk hbuf.ne hu (by omega)
  refine ⟨_, b, c', hc', _, hscreen', ?_⟩
  have hline : ∀ l' ∈ [l], IsLine l' := by
    intro l' hl'
    rw [List.mem_singleton.mp hl']
    exact ⟨hl.length_lt, fun c hc ↦ (hl.text c hc).1⟩
  have hlines := Tape.holds_lines hholds hline
  rw [shown_of_le hlen hnul, htext]
  simpa [lineBytes] using hlines

end PastaOS
