import Mathlib.Order.Basic
import PastaOS.Lib.Lexicographic
import PastaOS.Strings.Defs

/-!
# What the comparisons compare

All four of them return the difference of two characters at the first place where the strings
differ: as signed characters in `strcmp` (`strcmp_eq`), as unsigned ones in the others, in
`strcasecmp` and `strncasecmp` after both have been made small.  A difference of unsigned characters
has the sign of the lexicographic order (`resultOrder_difference`).
-/

set_option autoImplicit false

namespace PastaOS

/-! ## Orders -/

/-- The order that a result stands for by its sign. -/
def resultOrder (r : Int) : Ordering := if r < 0 then .lt else if r = 0 then .eq else .gt

/-- The order of bytes as unsigned characters. -/
def byteOrder (a b : Byte) : Ordering := compare a.toNat b.toNat

/-- The lexicographic order of strings as unsigned bytes. -/
def lexOrder (s t : List Byte) : Ordering := List.compareLex byteOrder s t

/-- The difference of two characters, if there are two. -/
def difference (value : Byte → Int) : Option (Byte × Byte) → Int
  | none => 0
  | some (a, b) => value a - value b

/-- A string with all letters made small. -/
def foldCase (s : List Byte) : List Byte := s.map tolower

instance : Std.TransCmp byteOrder where
  eq_swap {a b} := Nat.compare_swap b.toNat a.toNat |>.symm
  isLE_trans {a b c} := by
    simp only [byteOrder, Nat.isLE_compare]
    exact Nat.le_trans

instance : Std.LawfulEqCmp byteOrder where
  compare_self := Nat.compare_eq_eq.mpr rfl
  eq_of_compare h := BitVec.eq_of_toNat_eq (Nat.compare_eq_eq.mp h)

/-- The NUL is the least byte. -/
theorem byteOrder_zero (a : Byte) (ha : a ≠ 0) : byteOrder 0 a = .lt :=
  Nat.compare_eq_lt.mpr (BitVec.toNat_pos_of_ne_zero ha)

theorem resultOrder_sub (a b : Byte) : resultOrder (uchar a - uchar b) = byteOrder a b := by
  rw [resultOrder, byteOrder, Nat.compare_eq_ite_lt, uchar, uchar]
  split_ifs <;> first | rfl | omega

theorem resultOrder_difference (d : Option (Byte × Byte)) :
    resultOrder (difference uchar d) = d.elim .eq fun d ↦ byteOrder d.1 d.2 := by
  cases d with
  | none => rfl
  | some d => exact resultOrder_sub d.1 d.2

/-! ## `strcmp` -/

variable {s t u v : List Byte} {p q : Ptr} {a b : Byte}

/-- One round of `strcmp`. -/
theorem strcmp_step (hp : p.PointsTo (a :: u)) (hq : q.PointsTo (b :: v)) : strcmp p q
    = if b ≠ 0 ∧ b = a then strcmp p.next q.next else some (a.toInt - b.toInt) := by
  rw [strcmp, strcmpLoop_eq, hq.load, Option.bind_some, hp.load, Option.bind_some]
  by_cases hb : b ≠ 0
  · by_cases hba : b = a
    · rw [if_pos hb, if_pos hba, if_pos ⟨hb, hba⟩]
      rfl
    · rw [if_pos hb, if_neg hba, if_neg fun h ↦ hba h.2]
      simp [hp.load, hq.load]
  · rw [if_neg hb, if_neg fun h ↦ hb h.1]
    simp [hp.load, hq.load]

theorem strcmp_ne (hp : p.PointsTo (a :: u)) (hq : q.PointsTo (b :: v)) (hab : a ≠ b) : strcmp p q
    = some (difference BitVec.toInt (firstDifference (a :: u) (b :: v))) := by
  rw [strcmp_step hp hq, if_neg fun h ↦ hab h.2.symm, firstDifference_cons_ne hab, difference]

/-- **`strcmp` returns the difference of signed characters.** -/
theorem strcmp_eq (hs : 0 ∉ s) (ht : 0 ∉ t) (hp : p.PointsTo (cstr s)) (hq : q.PointsTo (cstr t)) :
    strcmp p q = some (difference BitVec.toInt (firstDifference (cstr s) (cstr t))) := by
  induction s generalizing t p q with
  | nil =>
    cases t with
    | nil =>
      rw [strcmp_step hp hq, if_neg fun h ↦ h.1 rfl]
      rfl
    | cons b t => exact strcmp_ne hp hq (nul_notMem_cons ht).1.symm
  | cons a s ih =>
    obtain ⟨ha, hs⟩ := nul_notMem_cons hs
    cases t with
    | nil => exact strcmp_ne hp hq ha
    | cons b t =>
      by_cases hab : a = b
      · subst hab
        rw [strcmp_step hp hq, if_pos ⟨ha, rfl⟩, cstr_cons, cstr_cons, firstDifference_cons_self]
        exact ih hs (nul_notMem_cons ht).2 hp.next hq.next
      · exact strcmp_ne hp hq hab

/-! ## Comparing up to a bound -/

variable {fold : Byte → Byte}

/-- One round of `strncmp` and `strncasecmp`. -/
theorem compareUpTo_step (hp : p.PointsTo (a :: u)) (hq : q.PointsTo (b :: v)) (n : ℕ) :
    compareUpTo fold p q (n + 1)
      = if fold a ≠ fold b then some (uchar (fold a) - uchar (fold b))
        else if a = 0 then some 0
        else compareUpTo fold p.next q.next n := by
  rw [compareUpTo, hp.load, hq.load]
  simp [hq.load]

theorem compareUpTo_ne (hp : p.PointsTo (a :: u)) (hq : q.PointsTo (b :: v)) (n : ℕ)
    (hab : fold a ≠ fold b) : compareUpTo fold p q (n + 1)
      = some (difference uchar
          (firstDifference ((a :: u).map fold) ((b :: v).map fold))) := by
  rw [compareUpTo_step hp hq, if_pos hab, List.map_cons, List.map_cons,
    firstDifference_cons_ne hab, difference]

/-- **`strncmp` and `strncasecmp` return the difference of unsigned characters**, and read no more
than `n` bytes up to the NULs. -/
theorem compareUpTo_eq (hfold : ∀ c, fold c = 0 ↔ c = 0) (hs : 0 ∉ s) (ht : 0 ∉ t) {n : ℕ}
    (hp : p.PointsTo ((cstr s).take n)) (hq : q.PointsTo ((cstr t).take n)) :
    compareUpTo fold p q n = some (difference uchar
      (firstDifference (((cstr s).take n).map fold) (((cstr t).take n).map fold))) := by
  have hzero (c : Byte) (hc : c ≠ 0) : fold c ≠ fold 0 := by
    rw [(hfold 0).mpr rfl]
    exact fun h ↦ hc ((hfold c).mp h)
  induction n generalizing s t p q with
  | zero => rfl
  | succ n ih =>
    cases s with
    | nil =>
      cases t with
      | nil =>
        rw [compareUpTo_step hp hq]
        simp [cstr_nil, firstDifference, difference]
      | cons b t => exact compareUpTo_ne hp hq n (hzero b (nul_notMem_cons ht).1).symm
    | cons a s =>
      obtain ⟨ha, hs⟩ := nul_notMem_cons hs
      cases t with
      | nil => exact compareUpTo_ne hp hq n (hzero a ha)
      | cons b t =>
        by_cases hab : fold a = fold b
        · rw [compareUpTo_step hp hq, if_neg (not_not.mpr hab), if_neg ha, cstr_cons, cstr_cons,
            List.take_succ_cons, List.take_succ_cons, List.map_cons, List.map_cons, hab,
            firstDifference_cons_self]
          exact ih hs (nul_notMem_cons ht).2 hp.next hq.next
        · exact compareUpTo_ne hp hq n hab

/-- **The result has the sign of the lexicographic order** of the first `n` bytes. -/
theorem compareUpTo_order (hfold : ∀ c, fold c = 0 ↔ c = 0) (hs : 0 ∉ s) (ht : 0 ∉ t) {n : ℕ}
    (hp : p.PointsTo ((cstr s).take n)) (hq : q.PointsTo ((cstr t).take n)) :
    ∃ r, compareUpTo fold p q n = some r ∧
      resultOrder r = lexOrder ((s.take n).map fold) ((t.take n).map fold) := by
  have htext (s : List Byte) : ((cstr s).take n).map fold = (s.map fold ++ [0]).take n := by
    rw [List.map_take, cstr, List.map_append, List.map_singleton, (hfold 0).mpr rfl]
  have hmem {s : List Byte} (hs : 0 ∉ s) : 0 ∉ s.map fold := by
    rintro hmem
    obtain ⟨c, hc, h0⟩ := List.mem_map.mp hmem
    exact hs ((hfold c).mp h0 ▸ hc)
  refine ⟨_, compareUpTo_eq hfold hs ht hp hq, ?_⟩
  rw [resultOrder_difference, htext, htext, lexOrder, List.map_take, List.map_take,
    compareLex_take byteOrder_zero (hmem hs) (hmem ht)]

/-! ## `strcasecmp` -/

/-- One round of `strcasecmp`. -/
theorem strcasecmp_step (hp : p.PointsTo (a :: u)) (hq : q.PointsTo (b :: v)) : strcasecmp p q
    = if tolower a ≠ tolower b then some (uchar (tolower a) - uchar (tolower b))
      else if a = 0 then some 0
      else strcasecmp p.next q.next := by
  rw [strcasecmp_eq, hp.load, hq.load, ite_not]
  rfl

/-- **`strcasecmp` does what `strncasecmp` does** with a bound behind the end of the string. -/
theorem strcasecmp_eq_strncasecmp (hs : 0 ∉ s) (ht : 0 ∉ t) (hp : p.PointsTo (cstr s))
    (hq : q.PointsTo (cstr t)) {n : ℕ} (hn : s.length < n) :
    strcasecmp p q = strncasecmp p q n := by
  induction s generalizing t p q n with
  | nil =>
    obtain ⟨n, rfl⟩ := Nat.exists_eq_succ_of_ne_zero (Nat.ne_of_gt hn)
    obtain ⟨b, v, hv⟩ : ∃ b v, cstr t = b :: v := by cases t <;> exact ⟨_, _, rfl⟩
    rw [hv] at hq
    rw [strcasecmp_step hp hq, strncasecmp, compareUpTo_step hp hq, if_pos rfl, if_pos rfl]
  | cons a s ih =>
    obtain ⟨n, rfl⟩ := Nat.exists_eq_succ_of_ne_zero (Nat.ne_of_gt (Nat.zero_lt_of_lt hn))
    obtain ⟨ha, hs⟩ := nul_notMem_cons hs
    cases t with
    | nil =>
      have hne : tolower a ≠ tolower 0 := fun h ↦ ha ((tolower_eq_zero_iff a).mp h)
      rw [strcasecmp_step hp hq, strncasecmp, compareUpTo_step hp hq, if_pos hne, if_pos hne]
    | cons b t =>
      have htail := ih hs (nul_notMem_cons ht).2 hp.next hq.next (Nat.lt_of_succ_lt_succ hn)
      rw [strcasecmp_step hp hq, strncasecmp, compareUpTo_step hp hq, if_neg ha, if_neg ha, htail]
      rfl

end PastaOS
