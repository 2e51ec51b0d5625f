import Mathlib.Data.List.Count
import Mathlib.Tactic.Common
import SyncLib.Core.Baton

/-!
# Who holds a mutex

The calls on a mutex leave a log of acquisitions, failed attempts and releases. `Accounts` says that
one owner at most holds the mutex, so and so many times over, and `holds_iff` reads the owner off
the log.
-/

namespace Sync

open Core

namespace TimedMutexes

/-- How a call ended: it acquired the mutex, it was an attempt that returned `false`, or it gave
the mutex back. -/
inductive Event (T : Type*)
  | acquired (t : T)
  | failed (t : T)
  | released (t : T)
  deriving DecidableEq, Repr

section

variable {T : Type*} [DecidableEq T]

def acquisitions (t : T) (log : List (Event T)) : ℕ := log.count (.acquired t)

def releases (t : T) (log : List (Event T)) : ℕ := log.count (.released t)

/-- A thread holds the mutex while it has acquired it more often than released. -/
def Holds (t : T) (log : List (Event T)) : Prop := releases t log < acquisitions t log

instance (t : T) (log : List (Event T)) : Decidable (Holds t log) :=
  inferInstanceAs (Decidable (_ < _))

@[simp] lemma acquisitions_acquired (t u : T) (log : List (Event T)) :
    acquisitions t (.acquired u :: log) = acquisitions t log + if u = t then 1 else 0 := by
  simp [acquisitions, List.count_cons]

@[simp] lemma acquisitions_failed (t u : T) (log : List (Event T)) :
    acquisitions t (.failed u :: log) = acquisitions t log := by
  simp [acquisitions]

@[simp] lemma acquisitions_released (t u : T) (log : List (Event T)) :
    acquisitions t (.released u :: log) = acquisitions t log := by
  simp [acquisitions]

@[simp] lemma releases_acquired (t u : T) (log : List (Event T)) :
    releases t (.acquired u :: log) = releases t log := by
  simp [releases]

@[simp] lemma releases_failed (t u : T) (log : List (Event T)) :
    releases t (.failed u :: log) = releases t log := by
  simp [releases]

@[simp] lemma releases_released (t u : T) (log : List (Event T)) :
    releases t (.released u :: log) = releases t log + if u = t then 1 else 0 := by
  simp [releases, List.count_cons]

/-- By the log the owner holds the mutex `depth` times over, and nobody else holds it. -/
def Accounts (log : List (Event T)) (owner : Option T) (depth : ℕ) : Prop :=
  ∀ t, acquisitions t log = releases t log + if owner = some t then depth else 0

namespace Accounts

variable {log : List (Event T)} {owner : Option T} {depth : ℕ} {t : T}

lemma nil : Accounts ([] : List (Event T)) none depth := by
  intro t
  simp [acquisitions, releases]

lemma failed (h : Accounts log owner depth) (t : T) : Accounts (.failed t :: log) owner depth := by
  intro u
  simpa using h u

/-- A free mutex is acquired. -/
lemma acquire (h : Accounts log none depth) (t : T) : Accounts (.acquired t :: log) (some t) 1 := by
  intro u
  have hu := h u
  by_cases htu : t = u
  · simp_all
  · simp_all

/-- The owner acquires the mutex once more. -/
lemma again (h : Accounts log (some t) depth) :
    Accounts (.acquired t :: log) (some t) (depth + 1) := by
  intro u
  have hu := h u
  by_cases htu : t = u
  · simp_all [Nat.add_assoc]
  · simp_all

/-- The owner gives one acquisition back. -/
lemma release (h : Accounts log (some t) (depth + 1)) :
    Accounts (.released t :: log) (some t) depth := by
  intro u
  have hu := h u
  by_cases htu : t = u
  · simp_all [Nat.add_assoc, Nat.add_comm]
  · simp_all

/-- Nobody owns a mutex that is held no times over. -/
lemma clear (h : Accounts log owner 0) : Accounts log none depth := by
  intro u
  have hu := h u
  simpa using hu

lemma holds_iff (h : Accounts log owner depth) (hd : 0 < depth) :
    Holds t log ↔ owner = some t := by
  have ht := h t
  simp only [Holds, ht]
  split_ifs with ho
  · simp [ho, hd]
  · simp [ho]

/-- Whoever holds the mutex is its owner. -/
lemma eq_of_holds (h : Accounts log owner depth) (ht : Holds t log) :
    owner = some t ∧ 0 < depth := by
  have hcount := h t
  simp only [Holds] at ht
  split_ifs at hcount with ho
  · exact ⟨ho, by omega⟩
  · omega

end Accounts

end

end TimedMutexes

end Sync
