import Mathlib.Tactic.Common

/-!
# Programs over operations

A program calls operations one after the other and goes on with what each of them answers. A
contract says when an operation may be called on a state of the caller and what it may do to it;
`wp` is the weakest condition under which a program keeps to the contract and ends in a
postcondition.
-/

namespace Core

/-- A program that calls operations `ι` and returns a value; operation `o` answers with a value
in `ρ o`. -/
inductive Program (ι : Type) (ρ : ι → Type) (α : Type)
  | ret (a : α)
  | call (o : ι) (k : ρ o → Program ι ρ α)

namespace Program

variable {ι : Type} {ρ : ι → Type} {α β : Type}

def bind : Program ι ρ α → (α → Program ι ρ β) → Program ι ρ β
  | .ret a, f    => f a
  | .call o k, f => .call o fun r => (k r).bind f

instance : Monad (Program ι ρ) where
  pure := .ret
  bind := bind

/-- The program that calls one operation and returns its answer. -/
def op (o : ι) : Program ι ρ (ρ o) := .call o .ret

/-- The value and the state in which a program ends where the operations answer by `answer`. -/
def run {σ : Type*} (answer : (o : ι) → σ → ρ o × σ) : Program ι ρ α → σ → α × σ
  | .ret a, s    => (a, s)
  | .call o k, s => (k (answer o s).1).run answer (answer o s).2

end Program

/-- What a caller in a state `σ` may call, and what an operation may answer and do to the
state. -/
structure Contract (ι : Type) (ρ : ι → Type) (σ : Type*) where
  requires : ι → σ → Prop
  ensures : (o : ι) → σ → ρ o → σ → Prop

namespace Contract

variable {ι : Type} {ρ : ι → Type} {α β : Type} {σ : Type*} (C : Contract ι ρ σ)

/-- From `s` the program only calls what the contract admits and returns in `Q`. -/
def wp : Program ι ρ α → (α → σ → Prop) → σ → Prop
  | .ret a, Q, s    => Q a s
  | .call o k, Q, s => C.requires o s ∧ ∀ r s', C.ensures o s r s' → wp (k r) Q s'

@[simp] lemma wp_pure (a : α) (Q : α → σ → Prop) (s : σ) :
    C.wp (pure a : Program ι ρ α) Q s ↔ Q a s := Iff.rfl

@[simp] lemma wp_op (o : ι) (Q : ρ o → σ → Prop) (s : σ) :
    C.wp (Program.op o) Q s ↔ C.requires o s ∧ ∀ r s', C.ensures o s r s' → Q r s' := Iff.rfl

@[simp] lemma wp_bind (p : Program ι ρ α) (f : α → Program ι ρ β) (Q : β → σ → Prop) (s : σ) :
    C.wp (p >>= f) Q s ↔ C.wp p (fun a => C.wp (f a) Q) s := by
  induction p generalizing s with
  | ret a => exact Iff.rfl
  | call o k ih =>
    change (_ ∧ ∀ r s', _ → C.wp (k r >>= f) Q s') ↔ _
    simp only [ih]
    exact Iff.rfl

/-- The rule for a sequence, as an equality of conditions on the state. -/
lemma wp_bind_eq (p : Program ι ρ α) (f : α → Program ι ρ β) (Q : β → σ → Prop) :
    C.wp (p >>= f) Q = C.wp p fun a => C.wp (f a) Q :=
  funext fun s => propext (C.wp_bind p f Q s)

/-- The rule of consequence. -/
theorem wp_mono {C : Contract ι ρ σ} {p : Program ι ρ α} {Q Q' : α → σ → Prop} {s : σ}
    (h : C.wp p Q s) (hQ : ∀ a s, Q a s → Q' a s) : C.wp p Q' s := by
  induction p generalizing s with
  | ret a => exact hQ a s h
  | call o k ih => exact ⟨h.1, fun r s' hr => ih r (h.2 r s' hr)⟩

/-- A program ends in the postcondition where the operations answer as the contract says. -/
theorem run_of_wp {C : Contract ι ρ σ} {answer : (o : ι) → σ → ρ o × σ}
    (hanswer : ∀ o s, C.ensures o s (answer o s).1 (answer o s).2) {p : Program ι ρ α}
    {Q : α → σ → Prop} {s : σ} (h : C.wp p Q s) :
    Q (p.run answer s).1 (p.run answer s).2 := by
  induction p generalizing s with
  | ret a => exact h
  | call o k ih => exact ih _ (h.2 _ _ (hanswer o s))

/-- The contract of operations that always answer by `answer`. -/
def exact (answer : (o : ι) → σ → ρ o × σ) : Contract ι ρ σ where
  requires _ _ := True
  ensures o s r s' := answer o s = (r, s')

section

variable {answer : (o : ι) → σ → ρ o × σ}

lemma wp_call_exact (o : ι) (k : ρ o → Program ι ρ α) (Q : α → σ → Prop) (s : σ) :
    (exact answer).wp (.call o k) Q s ↔
      (exact answer).wp (k (answer o s).1) Q (answer o s).2 := by
  constructor
  · intro h
    exact h.2 _ _ rfl
  · intro h
    refine ⟨trivial, fun r s' hr => ?_⟩
    rw [exact] at hr
    rw [hr] at h
    exact h

@[simp] lemma wp_op_exact (o : ι) (Q : ρ o → σ → Prop) (s : σ) :
    (exact answer).wp (Program.op o) Q s ↔ Q (answer o s).1 (answer o s).2 :=
  wp_call_exact o .ret Q s

/-- For operations that always answer alike the weakest precondition is what the one run does. -/
theorem wp_exact (p : Program ι ρ α) (Q : α → σ → Prop) (s : σ) :
    (exact answer).wp p Q s ↔ Q (p.run answer s).1 (p.run answer s).2 := by
  induction p generalizing s with
  | ret a => exact Iff.rfl
  | call o k ih => exact (wp_call_exact o k Q s).trans (ih _ _)

end

end Contract

end Core
