import Mathlib.Data.List.Count
import Mathlib.Logic.Equiv.Basic
import Mathlib.Order.Nat
import Mathlib.Tactic.Common

/-!
# Linear tokens

A ledger records numbered tokens that objects hold and hand over to each other. It is balanced
if every token issued so far is in one place: held by exactly one object, given up, or spent
once.
-/

namespace Core

/-- The number of tokens issued, the token each object holds, and the tokens given up and spent
so far. -/
structure Ledger (O : Type*) where
  issued : ℕ
  holder : O → Option ℕ
  given : List ℕ
  spent : List ℕ

namespace Ledger

variable {O : Type*}

/-- Token `i` is held by one object, and neither given up nor spent. -/
def Held (L : Ledger O) (i : ℕ) : Prop :=
  (∃! o, L.holder o = some i) ∧ i ∉ L.given ∧ L.spent.count i = 0

/-- Token `i` is held by no object, and was given up or spent, but not both, and once. -/
def Settled (L : Ledger O) (i : ℕ) : Prop :=
  (∀ o, L.holder o ≠ some i) ∧
    (i ∈ L.given ∧ L.spent.count i = 0 ∨ i ∉ L.given ∧ L.spent.count i = 1)

structure Balanced (L : Ledger O) : Prop where
  accounted : ∀ i < L.issued, L.Held i ∨ L.Settled i
  held_lt : ∀ o i, L.holder o = some i → i < L.issued
  gone_lt : ∀ i, i ∈ L.given ∨ i ∈ L.spent → i < L.issued

/-- What the other tokens see when `o` lets go of token `i`. -/
lemma drop_iff [DecidableEq O] {L : Ledger O} {o o' : O} {i j : ℕ} (ho : L.holder o = some i)
    (hj : j ≠ i) :
    Function.update L.holder o none o' = some j ↔ L.holder o' = some j := by
  by_cases hoo : o' = o
  · subst hoo
    simp [ho, hj.symm]
  · rw [Function.update_of_ne hoo]

namespace Balanced

variable {L : Ledger O} (h : L.Balanced)

include h

lemma held {o : O} {i : ℕ} (ho : L.holder o = some i) : L.Held i :=
  (h.accounted i (h.held_lt o i ho)).resolve_right fun hs => hs.1 o ho

lemma eq_of_holder {o o' : O} {i : ℕ} (ho : L.holder o = some i) (ho' : L.holder o' = some i) :
    o = o' :=
  (h.held ho).1.unique ho ho'

/-- Objects hand their tokens over to each other. -/
theorem permute (e : Equiv.Perm O) : Balanced { L with holder := L.holder ∘ e } := by
  constructor
  · intro i hi
    rcases h.accounted i hi with ⟨⟨o, ho, huniq⟩, hrest⟩ | ⟨hnone, hrest⟩
    · refine .inl ⟨⟨e.symm o, by simpa using ho, fun o' ho' => ?_⟩, hrest⟩
      rw [Equiv.eq_symm_apply]
      exact huniq _ ho'
    · exact .inr ⟨fun o => hnone (e o), hrest⟩
  · intro o i ho
    exact h.held_lt (e o) i ho
  · exact h.gone_lt

/-- A ledger is out of balance when a token disappeared from its holder without a record. -/
theorem not_balanced_of_lost {L' : Ledger O} {o : O} {i : ℕ} (ho : L.holder o = some i)
    (hissued : L'.issued = L.issued) (hgiven : L'.given = L.given) (hspent : L'.spent = L.spent)
    (hlost : ∀ o', L'.holder o' ≠ some i) : ¬ L'.Balanced := by
  intro h'
  have hheld := (h.held ho).2
  rcases h'.accounted i (hissued ▸ h.held_lt o i ho) with ⟨⟨o', ho', -⟩, -⟩ | ⟨-, hrest⟩
  · exact hlost o' ho'
  · rw [hgiven, hspent] at hrest
    rcases hrest with ⟨hg, -⟩ | ⟨-, hs⟩
    · exact hheld.1 hg
    · omega

variable [DecidableEq O]

/-- Two objects exchange what they hold. -/
theorem exchange (o o' : O) :
    Balanced { L with
      holder := Function.update (Function.update L.holder o (L.holder o')) o' (L.holder o) } := by
  rw [← Equiv.comp_swap_eq_update]
  exact h.permute (Equiv.swap o' o)

/-- An object that holds nothing receives a new token. -/
theorem issue {o : O} (ho : L.holder o = none) :
    Balanced { L with
      issued := L.issued + 1, holder := Function.update L.holder o (some L.issued) } := by
  have hkeep : ∀ o' i, i < L.issued →
      (Function.update L.holder o (some L.issued) o' = some i ↔ L.holder o' = some i) := by
    intro o' i hi
    by_cases hoo : o' = o
    · subst hoo
      simp [ho, hi.ne']
    · rw [Function.update_of_ne hoo]
  constructor
  · intro i hi
    rcases Nat.lt_succ_iff_lt_or_eq.mp hi with hi | rfl
    · simp only [Held, Settled, ne_eq, hkeep _ i hi]
      exact h.accounted i hi
    · refine .inl ⟨⟨o, by simp, fun o' ho' => ?_⟩, fun hg => ?_, ?_⟩
      · by_contra hoo
        simp only [Function.update_of_ne hoo] at ho'
        exact lt_irrefl _ (h.held_lt o' _ ho')
      · exact lt_irrefl _ (h.gone_lt _ (.inl hg))
      · exact List.count_eq_zero_of_not_mem fun hs => lt_irrefl _ (h.gone_lt _ (.inr hs))
  · intro o' i ho'
    by_cases hoo : o' = o
    · subst hoo
      simp only [Function.update_self, Option.some.injEq] at ho'
      exact ho' ▸ Nat.lt_succ_self _
    · simp only [Function.update_of_ne hoo] at ho'
      exact (h.held_lt o' i ho').trans (Nat.lt_succ_self _)
  · intro i hi
    exact (h.gone_lt i hi).trans (Nat.lt_succ_self _)

lemma drop_ne {o o' : O} {i : ℕ} (ho : L.holder o = some i) :
    Function.update L.holder o none o' ≠ some i := by
  by_cases hoo : o' = o
  · simp [hoo]
  · rw [Function.update_of_ne hoo]
    exact fun ho' => hoo (h.eq_of_holder ho' ho)

lemma drop_lt {o o' : O} {j : ℕ} (ho' : Function.update L.holder o none o' = some j) :
    j < L.issued := by
  by_cases hoo : o' = o
  · simp [hoo] at ho'
  · rw [Function.update_of_ne hoo] at ho'
    exact h.held_lt o' j ho'

/-- An object gives its token up. -/
theorem give {o : O} {i : ℕ} (ho : L.holder o = some i) :
    Balanced { L with holder := Function.update L.holder o none, given := i :: L.given } := by
  constructor
  · intro j hj
    by_cases hji : j = i
    · subst hji
      exact .inr ⟨fun _ => h.drop_ne ho, .inl ⟨List.mem_cons_self, (h.held ho).2.2⟩⟩
    · simp only [Held, Settled, ne_eq, drop_iff ho hji, List.mem_cons, hji, false_or]
      exact h.accounted j hj
  · intro o' j ho'
    exact h.drop_lt ho'
  · rintro j (hj | hj)
    · rcases List.mem_cons.mp hj with rfl | hj
      · exact h.held_lt o _ ho
      · exact h.gone_lt j (.inl hj)
    · exact h.gone_lt j (.inr hj)

/-- An object spends its token. -/
theorem spend {o : O} {i : ℕ} (ho : L.holder o = some i) :
    Balanced { L with holder := Function.update L.holder o none, spent := i :: L.spent } := by
  constructor
  · intro j hj
    by_cases hji : j = i
    · subst hji
      have hheld := (h.held ho).2
      exact .inr ⟨fun _ => h.drop_ne ho, .inr ⟨hheld.1, by simp [hheld.2]⟩⟩
    · simp only [Held, Settled, ne_eq, drop_iff ho hji, List.count_cons_of_ne (Ne.symm hji)]
      exact h.accounted j hj
  · intro o' j ho'
    exact h.drop_lt ho'
  · rintro j (hj | hj)
    · exact h.gone_lt j (.inl hj)
    · rcases List.mem_cons.mp hj with rfl | hj
      · exact h.held_lt o _ ho
      · exact h.gone_lt j (.inr hj)

end Balanced

end Ledger

end Core
