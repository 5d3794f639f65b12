import Mathlib.Data.Nat.Notation

/-!
# Counting loops that may fail

`countUp body n s` runs `body 0`, `body 1`, …, `body (n - 1)` on the state `s`, one after another,
and fails as soon as one of them does: `for (i = 0; i < n; i++) body(i)`.

`countUp_spec` is the rule for such a loop: an invariant that holds of `0` at the start and that
every round takes from `i` to `i + 1` without failing holds of `n` at the end.
-/

set_option autoImplicit false

universe u

variable {σ : Type u}

/-- `for (i = 0; i < n; i++) body(i)` -/
def countUp (body : ℕ → σ → Option σ) : ℕ → σ → Option σ
  | 0, s => some s
  | n + 1, s => (countUp body n s).bind (body n)

/-- **The rule for counting loops.** -/
theorem countUp_spec (body : ℕ → σ → Option σ) (n : ℕ) {s : σ} {Q : σ → Prop}
    (P : ℕ → σ → Prop) (h0 : P 0 s)
    (hstep : ∀ i t, i < n → P i t → ∃ t', body i t = some t' ∧ P (i + 1) t')
    (hpost : ∀ t, P n t → Q t) : ∃ t, countUp body n s = some t ∧ Q t := by
  suffices h : ∃ t, countUp body n s = some t ∧ P n t by
    obtain ⟨t, ht, hP⟩ := h
    exact ⟨t, ht, hpost t hP⟩
  clear hpost
  induction n with
  | zero => exact ⟨s, rfl, h0⟩
  | succ n ih =>
    obtain ⟨t, ht, hP⟩ := ih fun i t hi ↦ hstep i t (by omega)
    obtain ⟨t', ht', hP'⟩ := hstep n t (by omega) hP
    exact ⟨t', by rw [countUp, ht, Option.bind_some, ht'], hP'⟩
