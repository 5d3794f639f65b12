import PastaOS.Printf.Arguments
import PastaOS.Printf.Simulation

/-!
# The untruncated text of two formats

What a format prints on paper, and `untruncated_append`: the text of a format followed by another
one is the text of the first followed by the text of the second, the counts of the second moved on
by the length of the first.

Two things could come between them, and the statement says what rules them out.  A directive may
begin in the first format and end in the second: `Complete` says that none does.  And a `%n` may
overwrite the characters of a string that a later `%s` prints, in which case the text depends on the
count: the cells the second format reads its strings from must not be cells a `%n` stores to.
`count_feeds_string` shows that this is not a figure of speech.
-/

set_option autoImplicit false

namespace PastaOS

/-! ## Memory -/

/-- A 32-bit store changes four cells. -/
theorem store32_of_ne {mem : Word → Byte} {p v a : Word} (h0 : a ≠ p) (h1 : a ≠ p + 1)
    (h2 : a ≠ p + 2) (h3 : a ≠ p + 3) : store32 mem p v a = mem a := by
  rw [store32, if_neg]
  bv_omega

/-- The four cells do not depend on memory. -/
theorem store32_congr {mem mem' : Word → Byte} {p v a : Word} (h : mem a = mem' a) :
    store32 mem p v a = store32 mem' p v a := by
  rw [store32, store32, h]

variable {acc : Access} {mem : Word → Byte} {u u' : Paper} {p : Word}

/-- A `%n` may only store to cells that may be written. -/
theorem paperSink_storeCount : (paperSink acc).storeCount p u = some u' ↔
    (acc.write p = true ∧ acc.write (p + 1) = true ∧ acc.write (p + 2) = true ∧
      acc.write (p + 3) = true) ∧
      u' = { u with
        mem := store32 u.mem p (BitVec.ofNat 32 u.text.length)
        counts := u.counts ++ [(p, BitVec.ofNat 32 u.text.length)] } := by
  simp only [paperSink, Option.ite_none_right_eq_some, Option.some.injEq, Bool.and_eq_true,
    and_assoc]
  simp only [eq_comm]

theorem paperSink_puts (acc : Access) (xs : List Byte) (u : Paper) :
    (paperSink acc).puts xs u = { u with text := u.text ++ xs } := by
  induction xs generalizing u with
  | nil => simp
  | cons c xs ih =>
    rw [puts_cons, ih]
    simp [paperSink]

/-- Cells that may not be written are not. -/
theorem paperSink_frame (acc : Access) (mem : Word → Byte) :
    Keeps (paperSink acc) fun u ↦ ∀ a, acc.write a = false → u.mem a = mem a := by
  refine ⟨fun c u h ↦ h, ?_⟩
  intro p u u' h hu a ha
  obtain ⟨⟨h0, h1, h2, h3⟩, rfl⟩ := paperSink_storeCount.mp hu
  have hne {q : Word} (hq : acc.write q = true) : a ≠ q := by
    rintro rfl; simp [ha] at hq
  simp only
  rw [store32_of_ne (hne h0) (hne h1) (hne h2) (hne h3), h a ha]

theorem untruncated_eq (acc : Access) (mem : Word → Byte) (fmt : List Byte) (args : Args) :
    untruncated acc mem (cstr fmt) args
      = runItems (paperSink acc) (parse (cstr fmt)) args ⟨mem, [], []⟩ :=
  vsnprintfLoop_cstr _ _ _ _

/-! ## Two formats -/

/-- Whether the format ends inside the item. -/
def Item.isCutoff : Item → Bool
  | .cutoff _ => true
  | _ => false

/-- A format string, without its NUL, in which every directive is completed. -/
def Complete (fmt : List Byte) : Prop :=
  0 ∉ fmt ∧ ∀ i ∈ parse (cstr fmt), i.isCutoff = false

instance (fmt : List Byte) : Decidable (Complete fmt) :=
  inferInstanceAs (Decidable (0 ∉ fmt ∧ ∀ i ∈ parse (cstr fmt), i.isCutoff = false))

/-- What either of two accesses admits. -/
def Access.or (acc acc' : Access) : Access :=
  ⟨fun a ↦ acc.read a || acc'.read a, fun a ↦ acc.write a || acc'.write a⟩

/-- With more access the text is the same. -/
theorem paperSink_mono {acc acc' : Access} (hread : ∀ a, acc.read a = true → acc'.read a = true)
    (hwrite : ∀ a, acc.write a = true → acc'.write a = true) :
    Simulates (paperSink acc) (paperSink acc') Eq (fun _ ↦ False) fun _ ↦ False where
  put c s t h := .inl (by rw [h]; rfl)
  load s t a c h hs := by
    simp only [paperSink, Option.ite_none_right_eq_some] at hs ⊢
    exact ⟨hread a hs.1, h ▸ hs.2⟩
  count p s t s' h hs := by
    obtain ⟨⟨h0, h1, h2, h3⟩, rfl⟩ := paperSink_storeCount.mp hs
    subst h
    exact ⟨_, paperSink_storeCount.mpr
      ⟨⟨hwrite _ h0, hwrite _ h1, hwrite _ h2, hwrite _ h3⟩, rfl⟩, .inl rfl⟩
  lost₁ := ⟨fun _ _ h ↦ h, fun _ _ _ h _ ↦ h⟩
  lost₂ := ⟨⟨fun _ _ h ↦ h, fun _ _ _ h _ ↦ h⟩, fun _ _ h ↦ h.elim, fun _ _ h ↦ h.elim⟩

/-- The paper `t` shows what the paper `s` shows, behind the text and the counts of `u`. -/
structure Behind (acc : Access) (u s t : Paper) : Prop where
  /-- The text. -/
  text : t.text = u.text ++ s.text
  /-- The counts. -/
  counts : t.counts
    = u.counts ++ s.counts.map fun x ↦ (x.1, x.2 + BitVec.ofNat 32 u.text.length)
  /-- The strings that may be read are the same. -/
  mem : ∀ a, acc.read a = true → t.mem a = s.mem a

/-- Continuing behind an earlier text makes no difference. -/
theorem behind_simulates (hacc : ∀ a, acc.read a = true → acc.write a = false) (u : Paper) :
    Simulates (paperSink acc) (paperSink acc) (Behind acc u) (fun _ ↦ False) fun _ ↦ False where
  put c s t h := .inl
    ⟨by simp only [paperSink, h.text, List.append_assoc], h.counts, h.mem⟩
  load s t a c h hs := by
    simp only [paperSink, Option.ite_none_right_eq_some] at hs ⊢
    exact ⟨hs.1, by rw [h.mem a hs.1, hs.2]⟩
  count p s t s' h hs := by
    obtain ⟨⟨h0, h1, h2, h3⟩, rfl⟩ := paperSink_storeCount.mp hs
    have hlen : BitVec.ofNat 32 t.text.length
        = BitVec.ofNat 32 s.text.length + BitVec.ofNat 32 u.text.length := by
      rw [h.text, List.length_append, BitVec.ofNat_add, BitVec.add_comm]
    refine ⟨_, paperSink_storeCount.mpr ⟨⟨h0, h1, h2, h3⟩, rfl⟩, .inl ⟨h.text, ?_, ?_⟩⟩
    · simp only [h.counts, hlen, List.map_append, List.append_assoc, List.map_cons, List.map_nil]
    · intro a ha
      have hne {q : Word} (hq : acc.write q = true) : a ≠ q := by
        rintro rfl; simp [hacc a ha] at hq
      simp only
      rw [store32_of_ne (hne h0) (hne h1) (hne h2) (hne h3),
        store32_of_ne (hne h0) (hne h1) (hne h2) (hne h3), h.mem a ha]
  lost₁ := ⟨fun _ _ h ↦ h, fun _ _ _ h _ ↦ h⟩
  lost₂ := ⟨⟨fun _ _ h ↦ h, fun _ _ _ h _ ↦ h⟩, fun _ _ h ↦ h.elim, fun _ _ h ↦ h.elim⟩

/-- **Formatting is a homomorphism.**  Let every directive begun in `F₁` be completed there, let
`A₁` be the arguments `F₁` takes, and let no cell that `F₂` reads a string from be one that a `%n`
of `F₁` or `F₂` stores to.  Then, whatever arguments follow `A₁`, the text of `F₁ ++ F₂` is the text
of `F₁` followed by the text of `F₂`, its length is the sum of theirs, the counts of `F₁` are stored
as they are and those of `F₂` with the length of the first text added to them, and `F₂` takes the
arguments it takes alone. -/
theorem untruncated_append {acc₁ acc₂ : Access}
    (hacc : ∀ a, acc₂.read a = true → acc₁.write a = false ∧ acc₂.write a = false)
    {F₁ F₂ : List Byte} (hF₁ : Complete F₁) {A₁ : List Word}
    (hA₁ : A₁.length = formatWords (cstr F₁))
    {B B' A₂ A' : Args} {u₁ u₂ : Paper}
    (h₁ : untruncated acc₁ mem (cstr F₁) (A₁ ++ₛ B) = some (B', u₁))
    (h₂ : untruncated acc₂ mem (cstr F₂) A₂ = some (A', u₂)) :
    B' = B ∧ ∃ u, untruncated (acc₁.or acc₂) mem (cstr (F₁ ++ F₂)) (A₁ ++ₛ A₂) = some (A', u) ∧
      u.text = u₁.text ++ u₂.text ∧ u.text.length = u₁.text.length + u₂.text.length ∧
      u.counts = u₁.counts
        ++ u₂.counts.map fun x ↦ (x.1, x.2 + BitVec.ofNat 32 u₁.text.length) := by
  rw [untruncated_eq] at h₁ h₂
  obtain ⟨r, hr⟩ := runItems_takes (paperSink acc₁) (parse (cstr F₁)) ⟨mem, [], []⟩ A₁ hA₁
  obtain ⟨u', rfl, hu'⟩ := Option.map_eq_some_iff.mp ((hr B).symm.trans h₁)
  obtain ⟨rfl, rfl⟩ := Prod.mk.inj hu'
  have hrun := hr A₂
  simp only [Option.map_some] at hrun
  -- the first format, with the access of both
  have hmono₁ : Simulates (paperSink acc₁) (paperSink (acc₁.or acc₂)) Eq (fun _ ↦ False)
      fun _ ↦ False :=
    paperSink_mono (fun a ha ↦ by simp [Access.or, ha]) fun a ha ↦ by simp [Access.or, ha]
  obtain ⟨_, hrun', h | h⟩ := hmono₁.runItems (.inl rfl) hrun
  swap
  · exact h.1.elim
  subst h
  -- the second format, behind the first one
  have hmem : ∀ a, acc₁.write a = false → u'.mem a = mem a :=
    (paperSink_frame acc₁ mem).runItems (fun _ _ ↦ rfl) h₁
  have hstart : Behind acc₂ u' ⟨mem, [], []⟩ u' :=
    ⟨by simp, by simp, fun a ha ↦ hmem a (hacc a ha).1⟩
  obtain ⟨u, hu, hb | h⟩ :=
    (behind_simulates (fun a ha ↦ (hacc a ha).2) u').runItems (.inl hstart) h₂
  swap
  · exact h.1.elim
  have hmono₂ : Simulates (paperSink acc₂) (paperSink (acc₁.or acc₂)) Eq (fun _ ↦ False)
      fun _ ↦ False :=
    paperSink_mono (fun a ha ↦ by simp [Access.or, ha]) fun a ha ↦ by simp [Access.or, ha]
  obtain ⟨_, hu', h | h⟩ := hmono₂.runItems (.inl rfl) hu
  swap
  · exact h.1.elim
  subst h
  refine ⟨rfl, u, ?_, hb.text, by rw [hb.text, List.length_append], hb.counts⟩
  have hcomplete : ∀ s, Item.cutoff s ∉ parse (cstr F₁) := fun s hs ↦ by
    simpa [Item.isCutoff] using hF₁.2 _ hs
  rw [untruncated_eq, parse_append hF₁.1 hcomplete, runItems_append, hrun']
  exact hu'

/-- A memory with the string `"hi"` at `0x1000`. -/
def hiMem (a : Word) : Byte :=
  if a = 0x1000 then chr 'h' else if a = 0x1001 then chr 'i' else 0

/-- Strings below `0x2000`, counts above. -/
def lowHigh : Access := ⟨fun a ↦ a < 0x2000, fun a ↦ 0x2000 ≤ a⟩

/-- The theorem for `"a%c"` and `"%s%n"`. -/
theorem untruncated_append_hi : ∃ A' u,
    untruncated (lowHigh.or lowHigh) hiMem
      (cstr (chrs ['a', '%', 'c'] ++ chrs ['%', 's', '%', 'n']))
      ([98] ++ₛ ([0x1000, 0x2000] ++ₛ Stream'.const 0)) = some (A', u) ∧
    u.text = chrs ['a', 'b'] ++ chrs ['h', 'i'] ∧ u.counts = [(0x2000, 4)] := by
  have hacc : ∀ a, lowHigh.read a = true →
      lowHigh.write a = false ∧ lowHigh.write a = false := fun a ha ↦ by
    simp only [lowHigh, decide_eq_true_eq, decide_eq_false_iff_not] at ha ⊢
    bv_omega
  have h₁ : (untruncated lowHigh hiMem (cstr (chrs ['a', '%', 'c']))
      ([98] ++ₛ Stream'.const 0)).map (fun r ↦ (r.2.text, r.2.counts))
        = some (chrs ['a', 'b'], []) := by decide +kernel
  have h₂ : (untruncated lowHigh hiMem (cstr (chrs ['%', 's', '%', 'n']))
      ([0x1000, 0x2000] ++ₛ Stream'.const 0)).map (fun r ↦ (r.2.text, r.2.counts))
        = some (chrs ['h', 'i'], [(0x2000, 2)]) := by decide +kernel
  obtain ⟨⟨B', u₁⟩, h₁, he₁⟩ := Option.map_eq_some_iff.mp h₁
  obtain ⟨⟨A', u₂⟩, h₂, he₂⟩ := Option.map_eq_some_iff.mp h₂
  obtain ⟨ht₁, hc₁⟩ := Prod.mk.inj he₁
  obtain ⟨ht₂, hc₂⟩ := Prod.mk.inj he₂
  obtain ⟨-, u, hu, ht, -, hc⟩ :=
    untruncated_append hacc (by decide +kernel) (by decide +kernel) h₁ h₂
  refine ⟨A', u, hu, by rw [ht, ht₁, ht₂], ?_⟩
  rw [hc, hc₁, hc₂, ht₁]
  rfl

/-- **A count can feed a string.**  When a `%n` stores to the string that the next `%s` prints, the
text depends on the count: `"%n%s"` prints nothing alone, and the character 1 behind `"a"`. -/
theorem count_feeds_string :
    let all : Access := ⟨fun _ ↦ true, fun _ ↦ true⟩
    let text := fun fmt args ↦ (untruncated all (fun _ ↦ 0) (cstr fmt) args).map fun r ↦ r.2.text
    let args : Args := [0x1000, 0x1000] ++ₛ Stream'.const 0
    Complete (chrs ['a']) ∧ formatWords (cstr (chrs ['a'])) = 0 ∧
      text (chrs ['a']) args = some (chrs ['a']) ∧
      text (chrs ['%', 'n', '%', 's']) args = some [] ∧
      text (chrs ['a'] ++ chrs ['%', 'n', '%', 's']) args = some (chrs ['a'] ++ [1]) := by
  decide +kernel

end PastaOS
