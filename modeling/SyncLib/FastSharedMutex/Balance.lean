import SyncLib.FastSharedMutex.Basic

/-!
# The books of `fast_shared_mutex`

`rdcount_` is accounted for by the readers and by the writer that has subtracted itself, a reader
on `rdsem_` by a token or by a writer ahead of it. What `rdwait_` and `wrsem_` are worth depends on
how far the owner of `wrmtx_` is; they are balanced as long as the owner is not on its way to the
`return false` of `try_lock`.
-/

namespace Sync

open Core

namespace FastSharedMutex

/-- How far the owner of `wrmtx_` is with its writing. -/
inductive Phase
  | out
  | announced (count : Int64)
  | draining
  | writing

def Phase.subtracted : Phase → ℕ
  | .out => 0
  | _    => 1

namespace Place

/-- The phase of an owner at this place, `none` where `try_lock` gives up. -/
def phase : Place → Option Phase
  | .subtracting _ | .releasing _ | .unlocking => some .out
  | .adding _ count => some (.announced count)
  | .wrWait => some .draining
  | .writing => some .writing
  | _ => none

lemma phase_of_not_inside {p : Place} (h : p.inside = false) : p.phase = none := by
  cases p <;> first | rfl | cases h

lemma subtracted_of_not_inside {p : Place} (h : p.inside = false) : p.subtracted = 0 := by
  cases p <;> first | rfl | cases h

lemma pending_of_not_inside {p : Place} (h : p.inside = false) : p.pending = 0 := by
  cases p <;> first | rfl | cases h

lemma subtracted_of_phase {p : Place} {ph : Phase} (h : p.phase = some ph) :
    p.subtracted = ph.subtracted := by
  cases p <;> cases h <;> rfl

lemma subtracted_le (p : Place) : p.subtracted ≤ 1 := by
  cases p <;> simp [subtracted]

end Place

variable {T : Type*}

/-- The phase of the mutex. -/
def phase (s : Config T (Shared T) Place) : Option Phase :=
  match s.shared.owner with
  | none   => some .out
  | some t => (s.pc t).phase

lemma phase_of_update [DecidableEq T] {sh : Shared T} {pc : T → Place} {t : T} {p : Place}
    {ph : Phase} (h : phase ⟨sh, Function.update pc t p⟩ = some ph) (ho : sh.owner = some t) :
    p.phase = some ph := by
  simpa [phase, ho] using h

lemma longMax_toInt : longMax.toInt = 2 ^ 63 - 1 := rfl

variable [Fintype T] {s s' : Config T (Shared T) Place} {t : T}

/-- What `rdwait_`, `wrsem_` and the readers that leave are worth in a phase. -/
def Balanced (s : Config T (Shared T) Place) : Phase → Prop
  | .out             => total Place.leaving s = 0 ∧ total Place.waking s = 0 ∧
      s.shared.rdwait.toInt = 0 ∧ s.shared.wrsem = 0 ∧ s.shared.behind = 0
  | .announced count => s.shared.rdwait.toInt + (longMax.toInt - count.toInt) =
        total Place.active s + s.shared.rdsem + total Place.leaving s ∧
      s.shared.rdwait.toInt ≤ 0 ∧ count.toInt < longMax.toInt ∧
      longMax.toInt - count.toInt < 2 ^ 31 ∧ total Place.waking s = 0 ∧ s.shared.wrsem = 0
  | .draining        => s.shared.rdwait.toInt =
        total Place.active s + s.shared.rdsem + total Place.leaving s ∧
      total Place.waking s + s.shared.wrsem = if s.shared.rdwait.toInt = 0 then 1 else 0
  | .writing         => total Place.active s = 0 ∧ s.shared.rdsem = 0 ∧
      total Place.leaving s = 0 ∧ total Place.waking s = 0 ∧ s.shared.rdwait.toInt = 0 ∧
      s.shared.wrsem = 0

/-- The threads inside own `wrmtx_`, and the books are balanced. -/
structure Inv (s : Config T (Shared T) Place) : Prop where
  owner : ∀ t, (s.pc t).inside = true → s.shared.owner = some t
  rdcount : s.shared.rdcount.toInt + longMax.toInt * total Place.subtracted s +
    total Place.active s + total Place.waiting s = longMax.toInt
  waiting : total Place.waiting s = s.shared.rdsem + total Place.pending s + s.shared.behind
  balanced : ∀ ph, phase s = some ph → Balanced s ph

lemma total_idle {w : Place → ℕ} (hw : w .idle = 0) (h : ∀ t, s.pc t = .idle) : total w s = 0 := by
  rw [total, tally_eq_zero_iff]
  intro t
  rw [h t, hw]

/-- Every thread is at most one reader. -/
lemma readers_le_card (s : Config T (Shared T) Place) :
    total Place.active s + total Place.waiting s + total Place.leaving s + total Place.waking s ≤
      Fintype.card T := by
  rw [total, total, total, total, ← tally_add, ← tally_add, ← tally_add,
    ← tally_eq_card (w := fun _ : Place => 1) (f := s.pc) fun _ => rfl]
  refine tally_le_tally fun t => ?_
  cases s.pc t <;> simp [Place.active, Place.waiting, Place.leaving, Place.waking]

/-- What a thread has as much of as before a step does not change. -/
lemma total_update_of_eq [DecidableEq T] (w : Place → ℕ) {p : Place} (sh : Shared T)
    (hw : w p = w (s.pc t)) : total w ⟨sh, Function.update s.pc t p⟩ = total w s := by
  have := tally_update w s.pc t p
  simp only [total]
  omega

namespace Inv

lemma start : Inv (start : Config T (Shared T) Place) := by
  have hzero : ∀ w : Place → ℕ, w .idle = 0 →
      total w (FastSharedMutex.start : Config T (Shared T) Place) = 0 :=
    fun w hw => total_idle hw fun _ => rfl
  refine ⟨?_, ?_, ?_, ?_⟩
  · intro t ht
    cases ht
  · rw [hzero _ rfl, hzero _ rfl, hzero _ rfl]
    rfl
  · rw [hzero _ rfl, hzero _ rfl]
    rfl
  · rintro ph ⟨⟩
    exact ⟨hzero _ rfl, hzero _ rfl, rfl, rfl, rfl⟩

/-! ### What the owner accounts for -/

lemma total_of_owner (h : Inv s) {w : Place → ℕ} (hw : ∀ p : Place, p.inside = false → w p = 0)
    (ho : s.shared.owner = some t) : total w s = w (s.pc t) := by
  classical
  refine Finset.sum_eq_single t (fun u _ hut => hw _ ?_) (fun ht => absurd (Finset.mem_univ t) ht)
  rw [← Bool.not_eq_true]
  intro hu
  exact hut (Option.some.inj ((h.owner u hu).symm.trans ho))

lemma total_of_owner_none (h : Inv s) {w : Place → ℕ}
    (hw : ∀ p : Place, p.inside = false → w p = 0) (ho : s.shared.owner = none) :
    total w s = 0 := by
  rw [total, tally_eq_zero_iff]
  intro t
  apply hw _
  rw [← Bool.not_eq_true]
  intro ht
  simp [h.owner t ht] at ho

lemma subtracted_le (h : Inv s) : total Place.subtracted s ≤ 1 := by
  cases ho : s.shared.owner with
  | none =>
    rw [h.total_of_owner_none (fun _ => Place.subtracted_of_not_inside) ho]
    exact Nat.zero_le _
  | some t =>
    rw [h.total_of_owner (fun _ => Place.subtracted_of_not_inside) ho]
    exact Place.subtracted_le _

/-- In every phase but the first the owner has subtracted itself. -/
lemma subtracted_phase (h : Inv s) {ph : Phase} (hph : phase s = some ph) :
    total Place.subtracted s = ph.subtracted := by
  rw [phase] at hph
  cases ho : s.shared.owner with
  | none =>
    rw [ho] at hph
    cases hph
    exact h.total_of_owner_none (fun _ => Place.subtracted_of_not_inside) ho
  | some t =>
    rw [h.total_of_owner (fun _ => Place.subtracted_of_not_inside) ho]
    rw [ho] at hph
    exact Place.subtracted_of_phase hph

lemma totals_inside (h : Inv s) {p : Place} (hp : s.pc t = p) (hin : p.inside = true) :
    total Place.subtracted s = p.subtracted ∧ total Place.pending s = p.pending := by
  have ho := h.owner t (by rw [hp, hin])
  rw [h.total_of_owner (fun _ => Place.subtracted_of_not_inside) ho,
    h.total_of_owner (fun _ => Place.pending_of_not_inside) ho, hp]
  exact ⟨rfl, rfl⟩

/-- A thread inside tells the phase. -/
lemma balanced_inside (h : Inv s) (ph : Phase) {p : Place} (hp : s.pc t = p)
    (hin : p.inside = true) (hph : p.phase = some ph) : Balanced s ph := by
  apply h.balanced ph
  rw [phase, h.owner t (by rw [hp, hin])]
  simp only [hp, hph]

/-! ### One step -/

variable [DecidableEq T]

/-- A step keeps the books if the members change by what the thread has more or less of them. -/
lemma move (h : Inv s) {p : Place} {sh : Shared T}
    (howner : ∀ u, (Function.update s.pc t p u).inside = true → sh.owner = some u)
    (hcount : sh.rdcount.toInt + longMax.toInt * p.subtracted + p.active + p.waiting =
      s.shared.rdcount.toInt + longMax.toInt * (s.pc t).subtracted + (s.pc t).active +
        (s.pc t).waiting)
    (hwaiting : p.waiting + s.shared.rdsem + (s.pc t).pending + s.shared.behind =
      (s.pc t).waiting + sh.rdsem + p.pending + sh.behind)
    (hbalanced : ∀ ph, phase ⟨sh, Function.update s.pc t p⟩ = some ph →
      Balanced ⟨sh, Function.update s.pc t p⟩ ph) :
    Inv ⟨sh, Function.update s.pc t p⟩ := by
  have hrdcount := h.rdcount
  have hdiverted := h.waiting
  have hA := tally_update Place.active s.pc t p
  have hW := tally_update Place.waiting s.pc t p
  have hP := tally_update Place.pending s.pc t p
  have hS := tally_update Place.subtracted s.pc t p
  refine ⟨howner, ?_, ?_, hbalanced⟩
  · rw [longMax_toInt] at hcount hrdcount ⊢
    simp only [total] at hrdcount ⊢
    omega
  · simp only [total] at hdiverted ⊢
    omega

/-- A step of a thread that is not inside, neither before nor after it. -/
lemma reader (h : Inv s) {p : Place} {sh : Shared T} (hp : (s.pc t).inside = false)
    (hp' : p.inside = false) (howner : sh.owner = s.shared.owner)
    (hcount : sh.rdcount.toInt + p.active + p.waiting =
      s.shared.rdcount.toInt + (s.pc t).active + (s.pc t).waiting)
    (hwaiting : p.waiting + s.shared.rdsem + s.shared.behind =
      (s.pc t).waiting + sh.rdsem + sh.behind)
    (hbalanced : ∀ ph, phase s = some ph → Balanced s ph →
      Balanced ⟨sh, Function.update s.pc t p⟩ ph) :
    Inv ⟨sh, Function.update s.pc t p⟩ := by
  apply h.move
  · intro u hu
    by_cases hut : u = t
    · rw [hut, Function.update_self, hp'] at hu
      cases hu
    · rw [Function.update_of_ne hut] at hu
      rw [howner]
      exact h.owner u hu
  · rw [Place.subtracted_of_not_inside hp, Place.subtracted_of_not_inside hp']
    simpa using hcount
  · rw [Place.pending_of_not_inside hp, Place.pending_of_not_inside hp']
    exact hwaiting
  · intro ph hph
    have hphase : phase s = some ph := by
      rw [phase, howner] at hph
      rw [phase]
      cases ho : s.shared.owner with
      | none =>
        rw [ho] at hph
        exact hph
      | some u =>
        rw [ho] at hph
        simp only at hph ⊢
        by_cases hut : u = t
        · rw [hut, Function.update_self, Place.phase_of_not_inside hp'] at hph
          cases hph
        · rwa [Function.update_of_ne hut] at hph
    exact hbalanced ph hphase (h.balanced ph hphase)

/-- A step of the owner, after which it still is the owner or no longer inside. -/
lemma owner_update (h : Inv s) {p : Place} {sh : Shared T} (ht : (s.pc t).inside = true)
    (hp : sh.owner = some t ∨ p.inside = false) :
    ∀ u, (Function.update s.pc t p u).inside = true → sh.owner = some u := by
  intro u hu
  by_cases hut : u = t
  · rw [hut, Function.update_self] at hu
    rcases hp with ho | hout
    · rw [ho, hut]
    · rw [hout] at hu
      cases hu
  · rw [Function.update_of_ne hut] at hu
    have heq := (h.owner u hu).symm.trans (h.owner t ht)
    exact absurd (Option.some.inj heq) hut

end Inv

end FastSharedMutex

end Sync
