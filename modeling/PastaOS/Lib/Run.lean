import Mathlib.Logic.Basic
import Mathlib.Data.List.Basic

/-!
# Runs of a labelled transition relation

`Run step s is t` says that from the state `s` the labels `is`, taken one after another, can lead
to `t`.  The step is an arbitrary relation between a state, a label and a state, so it may be
partial (a guard that does not hold) and it may leave part of the next state open (an environment
that changes something in a way nobody prescribes).

Three rules are all that the developments on top of this need:

* `Run.invariant` — what one step preserves, a run preserves;
* `Run.simulation` — what one step imitates on another transition relation, a run imitates, some
  labels standing for no step at all;
* `Run.mono` — a run of a stronger relation is a run of a weaker one.

The remaining lemmas take runs apart and put them together.
-/

set_option autoImplicit false

universe u v w x

/-- From the first state, the labels lead to the last one. -/
inductive Run {σ : Type u} {ι : Type v} (step : σ → ι → σ → Prop) : σ → List ι → σ → Prop
  | nil (s : σ) : Run step s [] s
  | cons {s t r : σ} {i : ι} {is : List ι} (hs : step s i t) (hr : Run step t is r) :
      Run step s (i :: is) r

namespace Run

variable {σ : Type u} {ι : Type v} {step : σ → ι → σ → Prop} {s t r : σ} {is js : List ι}

theorem nil_iff : Run step s [] t ↔ s = t :=
  ⟨fun h ↦ by cases h; rfl, fun h ↦ h ▸ Run.nil s⟩

theorem cons_iff {i : ι} : Run step s (i :: is) t ↔ ∃ m, step s i m ∧ Run step m is t :=
  ⟨fun h ↦ by cases h with | cons hs hr => exact ⟨_, hs, hr⟩, fun ⟨_, hs, hr⟩ ↦ .cons hs hr⟩

theorem append (h₁ : Run step s is t) (h₂ : Run step t js r) : Run step s (is ++ js) r := by
  induction h₁ with
  | nil => exact h₂
  | cons hs _ ih => exact .cons hs (ih h₂)

theorem append_iff : Run step s (is ++ js) r ↔ ∃ t, Run step s is t ∧ Run step t js r := by
  refine ⟨?_, fun ⟨_, h₁, h₂⟩ ↦ h₁.append h₂⟩
  intro h
  induction is generalizing s with
  | nil => exact ⟨s, .nil s, h⟩
  | cons i is ih =>
    obtain ⟨m, hs, hr⟩ := cons_iff.mp h
    obtain ⟨t, h₁, h₂⟩ := ih hr
    exact ⟨t, .cons hs h₁, h₂⟩

theorem snoc {i : ι} (h : Run step s is t) (hs : step t i r) : Run step s (is ++ [i]) r :=
  h.append (.cons hs (.nil r))

/-- When the step is a partial function, runs can be computed. -/
theorem of_foldlM {f : σ → ι → Option σ} (h : is.foldlM f s = some t) :
    Run (fun s i t ↦ f s i = some t) s is t := by
  induction is generalizing s with
  | nil => exact Option.some.inj h ▸ .nil s
  | cons i is ih =>
    rw [List.foldlM_cons] at h
    obtain ⟨m, hm, h⟩ := Option.bind_eq_some_iff.mp h
    exact .cons hm (ih h)

/-- A step that is a function leads to one end only, where ends are the states without a step. -/
theorem unique (hstep : ∀ s i j t r, step s i t → step s j r → i = j ∧ t = r)
    (ht : ∀ i m, ¬ step t i m) (hr : ∀ i m, ¬ step r i m) (h : Run step s is t)
    (h' : Run step s js r) : is = js ∧ t = r := by
  induction h generalizing js with
  | nil =>
    cases h' with
    | nil => exact ⟨rfl, rfl⟩
    | cons hs' _ => exact absurd hs' (ht _ _)
  | cons hs _ ih =>
    cases h' with
    | nil => exact absurd hs (hr _ _)
    | cons hs' hr' =>
      obtain ⟨rfl, rfl⟩ := hstep _ _ _ _ _ hs hs'
      obtain ⟨rfl, rfl⟩ := ih ht hr'
      exact ⟨rfl, rfl⟩

/-- What one step preserves, a run preserves. -/
theorem invariant {I : σ → Prop} (hstep : ∀ s i t, I s → step s i t → I t) (hI : I s)
    (h : Run step s is t) : I t := by
  induction h with
  | nil => exact hI
  | cons hs _ ih => exact ih (hstep _ _ _ hI hs)

/-- A step that keeps `I` may assume that the label satisfies `P` when all labels of the run do. -/
theorem invariant_of_labels {I : σ → Prop} {P : ι → Prop}
    (hstep : ∀ s i t, I s → P i → step s i t → I t) (hI : I s) (hP : ∀ i ∈ is, P i)
    (h : Run step s is t) : I t := by
  induction h with
  | nil => exact hI
  | cons hs _ ih =>
    have hi := hP _ List.mem_cons_self
    exact ih (hstep _ _ _ hI hi hs) fun j hj ↦ hP j (List.mem_cons_of_mem _ hj)

/-- What one step preserves of a history — the labels so far — and a state, a run preserves. -/
theorem invariant_history {I : List ι → σ → Prop}
    (hstep : ∀ js s i t, I js s → step s i t → I (js ++ [i]) t) (hI : I [] s)
    (h : Run step s is t) : I is t := by
  suffices hall : ∀ js, I js s → I (js ++ is) t from hall [] hI
  clear hI
  induction h with
  | nil =>
    intro js hjs
    rwa [List.append_nil]
  | cons hs _ ih =>
    intro js hjs
    rw [List.append_cons]
    exact ih _ (hstep _ _ _ _ hjs hs)

/-- A run of a stronger relation is a run of a weaker one. -/
theorem mono {step' : σ → ι → σ → Prop} (hle : ∀ s i t, step s i t → step' s i t)
    (h : Run step s is t) : Run step' s is t := by
  induction h with
  | nil => exact .nil _
  | cons hs _ ih => exact .cons (hle _ _ _ hs) ih

/-- A run of a relation is a run of another one, when its steps are steps of the other one wherever
an invariant holds. -/
theorem mono_of_invariant {step' : σ → ι → σ → Prop} {I : σ → Prop}
    (hle : ∀ s i t, I s → step s i t → step' s i t ∧ I t) (hI : I s) (h : Run step s is t) :
    Run step' s is t ∧ I t := by
  induction h with
  | nil => exact ⟨.nil _, hI⟩
  | cons hs _ ih =>
    obtain ⟨hs', ht⟩ := hle _ _ _ hI hs
    obtain ⟨hr', hr⟩ := ih ht
    exact ⟨.cons hs' hr', hr⟩

/-- **Simulation.**  Let `f` say which label of another transition relation a label stands for, if
any.  If every step from a related state is imitated — by a step with the corresponding label, or
by standing still — and ends in related states, then every run is imitated. -/
theorem simulation {τ : Type w} {κ : Type x} {astep : τ → κ → τ → Prop} {R : σ → τ → Prop}
    {f : ι → Option κ} {a : τ}
    (hstep : ∀ s i t a, R s a → step s i t →
      (f i = none ∧ R t a) ∨ ∃ c b, f i = some c ∧ astep a c b ∧ R t b)
    (hR : R s a) (h : Run step s is t) : ∃ b, Run astep a (is.filterMap f) b ∧ R t b := by
  induction h generalizing a with
  | nil => exact ⟨a, .nil a, hR⟩
  | cons hs _ ih =>
    rcases hstep _ _ _ _ hR hs with ⟨hf, hRa⟩ | ⟨c, b, hf, hb, hRb⟩
    · rw [List.filterMap_cons_none hf]
      exact ih hRa
    · rw [List.filterMap_cons_some hf]
      obtain ⟨d, hd, hRd⟩ := ih hRb
      exact ⟨d, .cons hb hd, hRd⟩

end Run
