import SyncLib.Core.Monitor

/-!
# Notifications as credit

Threads sleep on a condition variable until a resource is available that one sleeper at a time can
take. A baton counts what is available, and for every place the credit it stands for: the
single notifications that a thread there still has to send, or has received and not yet used. While
somebody sleeps, either a thread has still to notify all, or the credit covers what is available.
`Baton.Covered.step` reduces this invariant to a condition on the steps of one thread.
-/

namespace Core

namespace Monitor

variable {T σ π χ ι : Type*}

/-- What the sleepers of `c` wait for, and what the places say about the notifications that are
under way. A notification makes a sleeper worth `gain` more. -/
structure Baton [DecidableEq χ] (M : Monitor T σ π χ ι) (c : χ) where
  avail : σ → ℕ
  credit : π → ℕ
  announces : π → Prop
  gain : ℕ
  asleepOn_wake : ∀ p, M.asleepOn (M.wake p) = none
  credit_le_wake : ∀ p, credit p ≤ credit (M.wake p)
  gain_le_wake : ∀ p, M.asleepOn p = some c → credit p + gain ≤ credit (M.wake p)
  announces_wake : ∀ p, announces p → announces (M.wake p)

namespace Baton

variable [DecidableEq χ] {M : Monitor T σ π χ ι} {c : χ}

/-- The credit that a signal hands to a sleeper of `c`. -/
def sent (B : M.Baton c) : Signal χ → ℕ
  | .one d => if d = c then B.gain else 0
  | _      => 0

/-- What a step of one thread, from place `p` to place `p'`, has to respect. -/
structure Keeps (B : M.Baton c) (sh : σ) (p : π) (sh' : σ) (p' : π) (sig : Signal χ) :
    Prop where
  sleeps : M.asleepOn p' = some c → B.avail sh' = 0
  announces : B.announces p → B.announces p' ∨ sig = .all c
  balance : sig = .all c ∨ B.announces p' ∨ B.avail sh' = 0 ∨
    B.avail sh' + B.credit p ≤ B.avail sh + B.credit p' + B.sent sig

variable [Fintype T]

/-- Nobody sleeps for what nobody will be told of. -/
def Covered (B : M.Baton c) (s : Config T σ π) : Prop :=
  (∃ t, M.asleepOn (s.pc t) = some c) →
    (∃ t, B.announces (s.pc t)) ∨ B.avail s.shared ≤ tally B.credit s.pc

variable [DecidableEq T] {B : M.Baton c} {s s' : Config T σ π}

lemma credit_le_of_deliver {sig : Signal χ} {w : Option T} (h : M.deliver s sig w = some s') :
    tally B.credit s.pc ≤ tally B.credit s'.pc := by
  apply tally_le_tally
  intro t
  rcases pc_of_deliver h t with ht | ht
  · rw [ht]
  · rw [ht]
    exact B.credit_le_wake _

/-- If somebody still sleeps, the credit has grown by what was sent. -/
lemma credit_add_sent_le {sig : Signal χ} {w : Option T} (h : M.deliver s sig w = some s')
    {t : T} (ht : M.asleepOn (s'.pc t) = some c) :
    tally B.credit s.pc + B.sent sig ≤ tally B.credit s'.pc := by
  have hle := credit_le_of_deliver (B := B) h
  cases sig with
  | none => exact hle
  | all d => exact hle
  | one d =>
    by_cases hd : d = c
    · subst hd
      cases w with
      | none =>
        simp only [deliver, Option.ite_none_right_eq_some, Option.some.injEq] at h
        obtain ⟨hnone, rfl⟩ := h
        exact absurd ht (hnone t)
      | some u =>
        simp only [deliver, Option.ite_none_right_eq_some, Option.some.injEq] at h
        obtain ⟨hu, rfl⟩ := h
        have hupd := tally_update B.credit s.pc u (M.wake (s.pc u))
        have hgain := B.gain_le_wake (s.pc u) hu
        simp only [sent, if_true]
        omega
    · simpa only [sent, if_neg hd, Nat.add_zero] using hle

lemma announces_of_deliver {sig : Signal χ} {w : Option T} (h : M.deliver s sig w = some s')
    (ha : ∃ t, B.announces (s.pc t)) : ∃ t, B.announces (s'.pc t) := by
  obtain ⟨t, ht⟩ := ha
  refine ⟨t, ?_⟩
  rcases pc_of_deliver h t with hpc | hpc
  · rwa [hpc]
  · rw [hpc]
    exact B.announces_wake _ ht

/-- A step of the interleaving keeps the sleepers covered if the step of its thread does. -/
theorem Covered.step {a : Act T ι} (h : B.Covered s)
    (hkeeps : ∀ sh p sig, M.next a.tid s.shared (s.pc a.tid) a.move = some (sh, p, sig) →
      B.Keeps s.shared (s.pc a.tid) sh p sig)
    (hs : M.machine.step s a = some s') : B.Covered s' := by
  obtain ⟨sh, p, sig, hn, hd⟩ := step_eq_some.mp hs
  have hk := hkeeps sh p sig hn
  rintro ⟨u, hu⟩
  have hall : sig ≠ .all c := by
    rintro rfl
    exact asleepOn_ne_of_all B.asleepOn_wake hd u hu
  rw [shared_of_deliver hd]
  by_cases hzero : B.avail sh = 0
  · right
    show B.avail sh ≤ _
    omega
  by_cases hp : B.announces p
  · left
    apply announces_of_deliver hd
    refine ⟨a.tid, ?_⟩
    show B.announces (Function.update s.pc a.tid p a.tid)
    rwa [Function.update_self]
  -- the thread that moved neither sleeps nor notifies all, so the sleeper was asleep before
  have hbefore : M.asleepOn (s.pc u) = some c := by
    have hu' : M.asleepOn (Function.update s.pc a.tid p u) = some c :=
      asleepOn_of_deliver B.asleepOn_wake hd hu
    by_cases hut : u = a.tid
    · subst hut
      rw [Function.update_self] at hu'
      exact absurd (hk.sleeps hu') hzero
    · rwa [Function.update_of_ne hut] at hu'
  rcases h ⟨u, hbefore⟩ with ⟨v, hv⟩ | hcredit
  · left
    apply announces_of_deliver hd
    have hva : v ≠ a.tid := by
      rintro rfl
      exact (hk.announces hv).elim hp hall
    refine ⟨v, ?_⟩
    show B.announces (Function.update s.pc a.tid p v)
    rwa [Function.update_of_ne hva]
  · right
    have hbal := ((hk.balance.resolve_left hall).resolve_left hp).resolve_left hzero
    have hupd := tally_update B.credit s.pc a.tid p
    have hsent := credit_add_sent_le (B := B) hd hu
    show B.avail sh ≤ _
    simp only at hsent
    omega

end Baton

end Monitor

end Core
