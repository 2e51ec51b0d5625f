import Mathlib.Data.Fintype.Basic
import Mathlib.Logic.Function.Basic
import SyncLib.Core.Machine
import SyncLib.Core.Tally

/-!
# Threads with condition variables

A monitor is the code that threads run on a shared state: `next` is one step of one thread,
together with what the step signals to the condition variables. A thread whose place is asleep
on a condition variable moves to the place `wake` gives when it is notified; spurious wake-ups
and timeouts are steps of the sleeping thread itself.
-/

namespace Core

/-- What a step signals: nothing, one sleeper of a condition variable, or all of them. -/
inductive Signal (χ : Type*) where
  | none
  | one (c : χ)
  | all (c : χ)

/-- The end of a step that signals nothing. -/
def silently {σ π χ : Type*} (r : σ × π) : Option (σ × π × Signal χ) := some (r.1, r.2, .none)

/-- The code of the threads `T` over the shared state `σ`, with places `π`, condition variables
`χ` and moves `ι` that resolve what the code leaves open. -/
structure Monitor (T σ π χ ι : Type*) where
  next : T → σ → π → ι → Option (σ × π × Signal χ)
  asleepOn : π → Option χ
  wake : π → π

/-- A shared state and the place of every thread. -/
structure Config (T σ π : Type*) where
  shared : σ
  pc : T → π

/-- One step: the thread that moves, its move, and the sleeper a single notification reaches. -/
structure Act (T ι : Type*) where
  tid : T
  move : ι
  notified : Option T := none

namespace Monitor

section

variable {T σ π χ ι : Type*} [Fintype T] [DecidableEq χ]

/-- The place of a thread after all sleepers of `c` were notified. -/
def notify (M : Monitor T σ π χ ι) (c : χ) (p : π) : π :=
  if M.asleepOn p = some c then M.wake p else p

end

variable {T σ π χ ι : Type*} [Fintype T] [DecidableEq T] [DecidableEq χ]

/-- Deliver a signal. A single notification reaches a sleeper whenever there is one. -/
def deliver (M : Monitor T σ π χ ι) (s : Config T σ π) : Signal χ → Option T →
    Option (Config T σ π)
  | .none, none => some s
  | .all c, none => some { s with pc := fun t => M.notify c (s.pc t) }
  | .one c, none => if ∀ t, M.asleepOn (s.pc t) ≠ some c then some s else none
  | .one c, some u =>
    if M.asleepOn (s.pc u) = some c then
      some { s with pc := Function.update s.pc u (M.wake (s.pc u)) }
    else none
  | _, _ => none

/-- The interleaving of all threads. -/
def machine (M : Monitor T σ π χ ι) : Machine (Config T σ π) (Act T ι) where
  step s a := (M.next a.tid s.shared (s.pc a.tid) a.move).bind fun r =>
    M.deliver ⟨r.1, Function.update s.pc a.tid r.2.1⟩ r.2.2 a.notified

variable {M : Monitor T σ π χ ι} {s s' : Config T σ π} {a : Act T ι}

/-- A step of the interleaving is a step of one thread whose signal is then delivered. -/
theorem step_eq_some : M.machine.step s a = some s' ↔
    ∃ sh p sig, M.next a.tid s.shared (s.pc a.tid) a.move = some (sh, p, sig) ∧
      M.deliver ⟨sh, Function.update s.pc a.tid p⟩ sig a.notified = some s' := by
  simp [machine, Option.bind_eq_some_iff]

@[simp] lemma deliver_none {w : Option T} :
    M.deliver s .none w = some s' ↔ w = none ∧ s = s' := by
  cases w <;> simp [deliver]

@[simp] lemma deliver_all {c : χ} {w : Option T} :
    M.deliver s (.all c) w = some s' ↔
      w = none ∧ { s with pc := fun t => M.notify c (s.pc t) } = s' := by
  cases w <;> simp [deliver]

/-- A signal leaves a thread where it is, or wakes it. -/
lemma pc_of_deliver {sig : Signal χ} {w : Option T} (h : M.deliver s sig w = some s') (t : T) :
    s'.pc t = s.pc t ∨ s'.pc t = M.wake (s.pc t) := by
  cases sig with
  | none =>
    obtain ⟨-, rfl⟩ := deliver_none.mp h
    exact .inl rfl
  | all c =>
    obtain ⟨-, rfl⟩ := deliver_all.mp h
    simp only [notify]
    split_ifs
    · exact .inr rfl
    · exact .inl rfl
  | one c =>
    cases w with
    | none =>
      simp only [deliver, Option.ite_none_right_eq_some, Option.some.injEq] at h
      obtain ⟨-, rfl⟩ := h
      exact .inl rfl
    | some u =>
      simp only [deliver, Option.ite_none_right_eq_some, Option.some.injEq] at h
      obtain ⟨-, rfl⟩ := h
      by_cases htu : t = u
      · subst htu
        exact .inr (Function.update_self ..)
      · exact .inl (Function.update_of_ne htu ..)

lemma shared_of_deliver {sig : Signal χ} {w : Option T} (h : M.deliver s sig w = some s') :
    s'.shared = s.shared := by
  cases sig <;> cases w <;> simp only [deliver, Option.ite_none_right_eq_some,
    Option.some.injEq, reduceCtorEq] at h
  case one.none => rw [h.2]
  case one.some => rw [← h.2]
  all_goals rw [← h]

/-- What a wake-up does not change is not changed by a signal. -/
lemma apply_pc_of_deliver {α : Type*} {f : π → α} (hf : ∀ p, f (M.wake p) = f p) {sig : Signal χ}
    {w : Option T} (h : M.deliver s sig w = some s') (t : T) : f (s'.pc t) = f (s.pc t) := by
  rcases pc_of_deliver h t with ht | ht
  · rw [ht]
  · rw [ht, hf]

/-- Who is asleep after a signal was asleep before, and was not woken. -/
lemma asleepOn_of_deliver (hwake : ∀ p, M.asleepOn (M.wake p) = none) {sig : Signal χ}
    {w : Option T} (h : M.deliver s sig w = some s') {t : T} {c : χ}
    (ht : M.asleepOn (s'.pc t) = some c) : M.asleepOn (s.pc t) = some c := by
  rcases pc_of_deliver h t with hpc | hpc
  · rwa [hpc] at ht
  · simp [hpc, hwake] at ht

/-- Nobody is asleep on a condition variable after `notify_all`. -/
lemma asleepOn_ne_of_all (hwake : ∀ p, M.asleepOn (M.wake p) = none) {c : χ} {w : Option T}
    (h : M.deliver s (.all c) w = some s') (t : T) : M.asleepOn (s'.pc t) ≠ some c := by
  obtain ⟨-, rfl⟩ := deliver_all.mp h
  simp only [notify]
  split_ifs with hc
  · simp [hwake]
  · exact hc

/-- Who is still asleep after `notify_one` was not the only one. -/
lemma exists_asleepOn_of_one (hwake : ∀ p, M.asleepOn (M.wake p) = none) {c : χ} {w : Option T}
    (h : M.deliver s (.one c) w = some s') {t : T} (ht : M.asleepOn (s'.pc t) = some c) :
    ∃ u, u ≠ t ∧ M.asleepOn (s.pc u) = some c := by
  cases w with
  | none =>
    simp only [deliver, Option.ite_none_right_eq_some, Option.some.injEq] at h
    obtain ⟨hnone, rfl⟩ := h
    exact absurd ht (hnone t)
  | some u =>
    simp only [deliver, Option.ite_none_right_eq_some, Option.some.injEq] at h
    obtain ⟨hu, rfl⟩ := h
    refine ⟨u, ?_, hu⟩
    rintro rfl
    simp [hwake] at ht

end Monitor

end Core
