import Mathlib.Data.List.Induction
import Mathlib.Data.Option.Basic
import Mathlib.Tactic.Common

/-!
# Machines

A machine has states and actions; an action leads from a state to at most one next state.
`run` executes a list of actions, `Runs ok` is the relation of runs all of whose steps satisfy
a condition, and `Runs.invariant` is the rule for what every such run preserves.
-/

namespace Core

/-- A state machine: `step s a` is the state after action `a`, `none` where `a` is not enabled. -/
structure Machine (σ α : Type*) where
  step : σ → α → Option σ

namespace Machine

variable {σ α : Type*}

/-- The state after a list of actions. -/
def run (M : Machine σ α) : σ → List α → Option σ
  | s, []      => some s
  | s, a :: as => (M.step s a).bind fun s' => M.run s' as

@[simp] lemma run_nil (M : Machine σ α) (s : σ) : M.run s [] = some s := rfl

lemma run_cons (M : Machine σ α) (s : σ) (a : α) (as : List α) :
    M.run s (a :: as) = (M.step s a).bind fun s' => M.run s' as := rfl

lemma run_append (M : Machine σ α) (s : σ) (as bs : List α) :
    M.run s (as ++ bs) = (M.run s as).bind fun s' => M.run s' bs := by
  induction as generalizing s with
  | nil => rfl
  | cons a as ih =>
    simp only [List.cons_append, run_cons]
    cases M.step s a with
    | none => rfl
    | some s₁ => exact ih s₁

lemma exists_run_of_prefix {M : Machine σ α} {s s' : σ} {as bs : List α}
    (h : M.run s bs = some s') (hpre : as <+: bs) : ∃ s₁, M.run s as = some s₁ := by
  obtain ⟨cs, rfl⟩ := hpre
  rw [run_append, Option.bind_eq_some_iff] at h
  obtain ⟨s₁, h₁, -⟩ := h
  exact ⟨s₁, h₁⟩

lemma run_concat {M : Machine σ α} {s s' : σ} {as : List α} {a : α} :
    M.run s (as ++ [a]) = some s' ↔ ∃ s₁, M.run s as = some s₁ ∧ M.step s₁ a = some s' := by
  simp [run_append, run_cons, Option.bind_eq_some_iff]

/-- A run from `s` to `s'` whose steps are all taken in a state and by an action that satisfy
`ok`. -/
inductive Runs (M : Machine σ α) (ok : σ → α → Prop) (s : σ) : σ → Prop
  | refl : M.Runs ok s s
  | tail {s₁ s₂ : σ} {a : α} (h : M.Runs ok s s₁) (hok : ok s₁ a) (hs : M.step s₁ a = some s₂) :
      M.Runs ok s s₂

/-- The states that some run reaches. -/
abbrev Reachable (M : Machine σ α) (s s' : σ) : Prop := M.Runs (fun _ _ => True) s s'

variable {M : Machine σ α} {ok : σ → α → Prop} {s s' : σ}

/-- A property that holds at the start and that every admitted step keeps holds all along. -/
theorem Runs.invariant {I : σ → Prop} (h : M.Runs ok s s') (h₀ : I s)
    (hstep : ∀ u a u', I u → ok u a → M.step u a = some u' → I u') : I s' := by
  induction h with
  | refl => exact h₀
  | tail _ hok hs ih => exact hstep _ _ _ ih hok hs

lemma Runs.trans {s'' : σ} (h : M.Runs ok s s') (h' : M.Runs ok s' s'') : M.Runs ok s s'' := by
  induction h' with
  | refl => exact h
  | tail _ hok hs ih => exact ih.tail hok hs

/-- The rule for reaching a goal: as long as it is not reached, some admitted step keeps the
invariant and brings the measure down. -/
theorem exists_runs_of_progress {I G : σ → Prop} (μ : σ → ℕ)
    (hprogress : ∀ u, I u → G u ∨ ∃ a u', ok u a ∧ M.step u a = some u' ∧ I u' ∧ μ u' < μ u)
    (hs : I s) : ∃ s', M.Runs ok s s' ∧ I s' ∧ G s' := by
  induction hμ : μ s using Nat.strongRecOn generalizing s with
  | ind m ih =>
    rcases hprogress s hs with hgoal | ⟨a, u, hok, hstep, hu, hlt⟩
    · exact ⟨s, .refl, hs, hgoal⟩
    · obtain ⟨s', hruns, hs', hgoal⟩ := ih (μ u) (hμ ▸ hlt) hu rfl
      exact ⟨s', (Runs.refl.tail hok hstep).trans hruns, hs', hgoal⟩

/-- Executing a list of actions is a run. -/
theorem reachable_of_run {s₀ : σ} {as : List α} (h₀ : M.Reachable s₀ s)
    (h : M.run s as = some s') : M.Reachable s₀ s' := by
  induction as generalizing s with
  | nil => cases h; exact h₀
  | cons a as ih =>
    rw [run_cons, Option.bind_eq_some_iff] at h
    obtain ⟨s₁, hs, h⟩ := h
    exact ih (h₀.tail trivial hs) h

/-- Each of the actions is taken in a state in which `ok` admits it. -/
def Admits (M : Machine σ α) (ok : σ → α → Prop) (s : σ) (as : List α) : Prop :=
  ∀ pre a u, pre ++ [a] <+: as → M.run s pre = some u → ok u a

lemma admits_nil : M.Admits ok s [] := by
  intro pre a u h
  simp at h

lemma admits_concat {as : List α} {a : α} :
    M.Admits ok s (as ++ [a]) ↔ M.Admits ok s as ∧ ∀ u, M.run s as = some u → ok u a := by
  constructor
  · intro h
    refine ⟨fun pre b u hpre hu => ?_, fun u hu => h as a u (List.prefix_refl _) hu⟩
    exact h pre b u (hpre.trans (List.prefix_append _ _)) hu
  · rintro ⟨h, hlast⟩ pre b u hpre hu
    rcases List.prefix_concat_iff.mp hpre with heq | hpre
    · obtain ⟨rfl, hb⟩ := List.append_inj' heq rfl
      rw [List.singleton_inj.mp hb]
      exact hlast u hu
    · exact h pre b u hpre hu

lemma admits_cons {as : List α} {a : α} (hok : ok s a)
    (has : ∀ u, M.step s a = some u → M.Admits ok u as) : M.Admits ok s (a :: as) := by
  intro pre b u hpre hu
  cases pre with
  | nil =>
    cases hu
    obtain ⟨rfl, -⟩ := List.cons_prefix_cons.mp hpre
    exact hok
  | cons c pre =>
    obtain ⟨rfl, htail⟩ := List.cons_prefix_cons.mp hpre
    rw [run_cons, Option.bind_eq_some_iff] at hu
    obtain ⟨v, hs, hu⟩ := hu
    exact has v hs pre b u htail hu

/-- A condition on the actions alone is one on the list. -/
lemma admits_iff_forall_mem {p : α → Prop} {as : List α} (hrun : M.run s as = some s') :
    M.Admits (fun _ a => p a) s as ↔ ∀ a ∈ as, p a := by
  induction as using List.reverseRecOn generalizing s' with
  | nil => simp [admits_nil]
  | append_singleton as a ih =>
    obtain ⟨s₁, hrun₁, hs⟩ := run_concat.mp hrun
    rw [admits_concat, ih hrun₁]
    simp [hrun₁, or_imp, forall_and]

/-- The rule for what each admitted action of a list keeps. -/
theorem Admits.invariant {I : σ → Prop} {as : List α} (h : M.Admits ok s as)
    (hrun : M.run s as = some s') (h₀ : I s)
    (hstep : ∀ u a u', I u → ok u a → M.step u a = some u' → I u') : I s' := by
  induction as using List.reverseRecOn generalizing s' with
  | nil => cases hrun; exact h₀
  | append_singleton as a ih =>
    obtain ⟨has, hlast⟩ := admits_concat.mp h
    obtain ⟨s₁, hrun₁, hs⟩ := run_concat.mp hrun
    exact hstep _ _ _ (ih has hrun₁) (hlast _ hrun₁) hs

/-- If the steps that `ok` admits keep an invariant which implies a property, and no other step from
a state with the invariant leads to a state with the property, then a run has the property all along
exactly when its steps are all admitted. -/
theorem forall_prefix_iff_admits_of_invariant {I P : σ → Prop} {as : List α}
    (hrun : M.run s as = some s') (h₀ : I s) (himp : ∀ u, I u → P u)
    (hkeep : ∀ u a u', I u → ok u a → M.step u a = some u' → I u')
    (hlose : ∀ u a u', I u → ¬ ok u a → M.step u a = some u' → ¬ P u') :
    (∀ pre u, pre <+: as → M.run s pre = some u → P u) ↔ M.Admits ok s as := by
  constructor
  · intro h
    induction as using List.reverseRecOn generalizing s' with
    | nil => exact admits_nil
    | append_singleton as a ih =>
      obtain ⟨s₁, hrun₁, hs⟩ := run_concat.mp hrun
      have has : M.Admits ok s as :=
        ih hrun₁ fun pre u hpre hu => h pre u (hpre.trans (List.prefix_append _ _)) hu
      refine admits_concat.mpr ⟨has, fun u hu => ?_⟩
      obtain rfl : u = s₁ := Option.some.inj (hu.symm.trans hrun₁)
      by_contra hok
      exact hlose u a s' (has.invariant hu h₀ hkeep) hok hs (h _ s' (List.prefix_refl _) hrun)
  · intro h pre u hpre hu
    have hadm : M.Admits ok s pre := fun pre' a v hpre' hv => h pre' a v (hpre'.trans hpre) hv
    exact himp u (hadm.invariant hu h₀ hkeep)

/-- If a step from a state with a property leads to a state with it exactly when `ok` admits the
step, then a run has the property all along exactly when its steps are all admitted. -/
theorem forall_prefix_iff_admits {P : σ → Prop} {as : List α} (hrun : M.run s as = some s')
    (h₀ : P s) (hstep : ∀ u a u', P u → M.step u a = some u' → (P u' ↔ ok u a)) :
    (∀ pre u, pre <+: as → M.run s pre = some u → P u) ↔ M.Admits ok s as :=
  forall_prefix_iff_admits_of_invariant hrun h₀ (fun _ => id)
    (fun u a u' hP hok hs => (hstep u a u' hP hs).mpr hok)
    fun u a u' hP hok hs hP' => hok ((hstep u a u' hP hs).mp hP')

/-- The rule for amortised costs: where some actions bring a potential down and the others raise it
by at most `gain`, the others pay for the number of the former. -/
theorem countP_le_of_potential {Φ : σ → ℕ} {gain : ℕ} {p : α → Bool} {as : List α}
    (hpay : ∀ u a u', p a = true → M.step u a = some u' → Φ u' < Φ u)
    (hgain : ∀ u a u', p a = false → M.step u a = some u' → Φ u' ≤ Φ u + gain)
    (hrun : M.run s as = some s') :
    as.countP p + Φ s' ≤ gain * as.countP (fun a => !p a) + Φ s := by
  induction as using List.reverseRecOn generalizing s' with
  | nil =>
    cases hrun
    simp
  | append_singleton as a ih =>
    obtain ⟨u, hrun, hs⟩ := run_concat.mp hrun
    have hu := ih hrun
    rw [List.countP_append, List.countP_append, Nat.mul_add]
    cases hp : p a with
    | true =>
      have hlt := hpay u a s' hp hs
      simp only [List.countP_singleton, hp]
      simp only [if_true, Bool.not_true, Bool.false_eq_true, if_false]
      omega
    | false =>
      have hle := hgain u a s' hp hs
      simp only [List.countP_singleton, hp]
      simp only [Bool.not_false, Bool.false_eq_true, if_true, if_false]
      omega

/-- A list of actions that can be executed and ends in a state with a decidable property. -/
theorem exists_reachable_of_run (as : List α) (p : σ → Bool) (h : (M.run s as).any p = true) :
    ∃ s', M.Reachable s s' ∧ p s' = true := by
  rw [Option.any_eq_true] at h
  obtain ⟨s', hs, hp⟩ := h
  exact ⟨s', reachable_of_run .refl hs, hp⟩

/-- The machine that takes only the steps that `ok` admits. -/
def restrict (M : Machine σ α) (ok : σ → α → Bool) : Machine σ α where
  step s a := if ok s a then M.step s a else none

lemma restrict_step_eq_some {p : σ → α → Bool} {a : α} :
    (M.restrict p).step s a = some s' ↔ p s a = true ∧ M.step s a = some s' := by
  simp [restrict]

/-- The state after a list of actions, as long as `ok` admits them. -/
def runWhile (M : Machine σ α) (ok : σ → α → Prop) [∀ s a, Decidable (ok s a)] :
    σ → List α → Option σ
  | s, []      => some s
  | s, a :: as => if ok s a then (M.step s a).bind fun s' => M.runWhile ok s' as else none

theorem run_of_runWhile [∀ s a, Decidable (ok s a)] {as : List α}
    (h : M.runWhile ok s as = some s') : M.run s as = some s' ∧ M.Admits ok s as := by
  induction as generalizing s with
  | nil => exact ⟨h, admits_nil⟩
  | cons a as ih =>
    simp only [runWhile, Option.ite_none_right_eq_some, Option.bind_eq_some_iff] at h
    obtain ⟨hok, s₁, hs, h⟩ := h
    obtain ⟨hrun, has⟩ := ih h
    refine ⟨by rw [run_cons, hs]; exact hrun, admits_cons hok fun u hu => ?_⟩
    obtain rfl := Option.some.inj (hs.symm.trans hu)
    exact has

theorem runs_of_runWhile [∀ s a, Decidable (ok s a)] {s₀ : σ} {as : List α}
    (h₀ : M.Runs ok s₀ s) (h : M.runWhile ok s as = some s') : M.Runs ok s₀ s' := by
  induction as generalizing s with
  | nil => cases h; exact h₀
  | cons a as ih =>
    simp only [runWhile, Option.ite_none_right_eq_some, Option.bind_eq_some_iff] at h
    obtain ⟨hok, s₁, hs, h⟩ := h
    exact ih (h₀.tail hok hs) h

/-- A list of admitted actions that ends in a state with a decidable property. -/
theorem exists_runs_of_runWhile [∀ s a, Decidable (ok s a)] (as : List α) (p : σ → Bool)
    (h : (M.runWhile ok s as).any p = true) : ∃ s', M.Runs ok s s' ∧ p s' = true := by
  rw [Option.any_eq_true] at h
  obtain ⟨s', hs, hp⟩ := h
  exact ⟨s', runs_of_runWhile .refl hs, hp⟩

end Machine

end Core
