import SyncLib.Core.Settling
import SyncLib.TimedMutex.Recursive
import SyncLib.TimedMutex.Timed

/-!
# Who gets a timed mutex

`timed_mutex` and `recursive_timed_mutex` notify one waiter when they become free, and that waiter
may find the mutex taken again. Still everybody who is in a call gets the mutex as soon as the
holders give it back, without another call, a spurious wake-up or a timeout: the notification is
handed on with the mutex.
-/

namespace Sync

open Core TimedMutexes

namespace TimedMutexes

variable {T : Type*} [DecidableEq T]

/-- What another thread does with the mutex does not tell whether a thread holds it. -/
lemma holds_acquired {t u : T} (h : u ≠ t) (log : List (Event T)) :
    Holds t (.acquired u :: log) ↔ Holds t log := by
  simp [Holds, h]

lemma holds_released {t u : T} (h : u ≠ t) (log : List (Event T)) :
    Holds t (.released u :: log) ↔ Holds t log := by
  simp [Holds, h]

lemma holds_failed (t u : T) (log : List (Event T)) :
    Holds t (.failed u :: log) ↔ Holds t log := by
  simp [Holds]

end TimedMutexes

/-! ### `timed_mutex` -/

namespace TimedMutex

variable {T : Type*}

def Shared.level (s : Shared T) : ℕ := 2 * s.locked.toNat

/-- How far a thread is from the end of its call. -/
def Place.rank : Place → ℕ
  | .idle      => 0
  | .asleep _  => 3
  | .woken _ _ => 4

lemma Place.rank_wake_le (p : Place) : p.wake.rank ≤ p.rank + 1 := by
  cases p <;> simp [Place.wake, Place.rank]

lemma Place.wake_eq_idle {p : Place} : p.wake = .idle ↔ p = .idle := by
  cases p <;> simp [Place.wake]

lemma next_recheck (t : T) (s : Shared T) (timed notified : Bool) :
    next t s (.woken timed notified) (.recheck true) =
      if s.locked then some (s, .asleep timed, .none) else some (s.acquire t, .idle, .none) := by
  cases timed <;> cases hl : s.locked <;> simp [next, silently, lock, tryLockUntil, hl]

/-- Who goes to sleep from outside calls `lock` or `try_lock_until`. -/
lemma waits_of_next {t : T} {s s' : Shared T} {m : Move} {timed : Bool} {sig : Signal Unit}
    (h : next t s .idle m = some (s', .asleep timed, sig)) :
    m = .lock ∨ ∃ b, m = .tryLockUntil b := by
  cases m with
  | lock => exact .inl rfl
  | tryLockUntil b => exact .inr ⟨b, rfl⟩
  | tryLock free =>
    simp only [next, silently, tryLock, Option.some.injEq] at h
    split_ifs at h <;> cases h
  | _ => simp [next] at h

variable [DecidableEq T]

/-- Only holders unlock, and a holder does not wait for the mutex that it holds. -/
def FreeHanded (s : Config T (Shared T) Place) (a : Act T Move) : Prop :=
  (a.move = .unlock → Holds a.tid s.shared.log) ∧
    (a.move = .lock ∨ (∃ b, a.move = .tryLockUntil b) → ¬ Holds a.tid s.shared.log)

instance (s : Config T (Shared T) Place) (a : Act T Move) : Decidable (FreeHanded s a) :=
  inferInstanceAs (Decidable ((_ → _) ∧ (_ ∨ _ → _)))

/-- The holder gives the mutex back, and a thread that was woken goes on in time. -/
def GoesOn (s : Config T (Shared T) Place) (a : Act T Move) : Prop :=
  a.move = .unlock ∧ Holds a.tid s.shared.log ∨ a.move = .recheck true

lemma GoesOn.freeHanded {s : Config T (Shared T) Place} {a : Act T Move} (h : GoesOn s a) :
    FreeHanded s a := by
  rcases h with ⟨hm, hholds⟩ | hm
  · exact ⟨fun _ => hholds, by simp [hm]⟩
  · exact ⟨by simp [hm], by simp [hm]⟩

/-- What another thread does with the mutex does not make a thread its holder. -/
lemma Effect.not_holds {t u : T} {s s' : Shared T} {p p' : Place} {m : Move} {sig : Signal Unit}
    (h : Effect u s p m s' p' sig) (hut : u ≠ t) (ht : ¬ Holds t s.log) : ¬ Holds t s'.log := by
  cases h with
  | acquire hl => exact fun h => ht ((holds_acquired hut _).mp h)
  | refuse h => exact fun h => ht ((holds_failed t u _).mp h)
  | sleep timed hl => exact ht
  | unlock hp hm => exact fun h => ht ((holds_released hut _).mp h)
  | wakeUp timed hp => exact ht

variable [Fintype T]

/-- The mutex and the sleepers are in order, and whoever is in a call does not hold the mutex. -/
structure Settles (s : Config T (Shared T) Place) : Prop where
  owned : Owned s.shared
  covered : baton.Covered s
  waits : ∀ t, s.pc t ≠ .idle → ¬ Holds t s.shared.log

namespace Settles

variable {s s' : Config T (Shared T) Place}

theorem step (h : Settles s) {a : Act T Move} (hfree : FreeHanded s a)
    (hs : monitor.machine.step s a = some s') : Settles s' := by
  obtain ⟨sh, p, sig, hn, hd⟩ := Monitor.step_eq_some.mp hs
  have heffect : Effect a.tid s.shared (s.pc a.tid) a.move sh p sig := Effect.of_next hn
  refine ⟨?_, h.covered.step (fun _ _ _ hn => (Effect.of_next hn).keeps) hs, fun t ht => ?_⟩
  · rw [Monitor.shared_of_deliver hd]
    exact h.owned.step heffect hfree.1
  · rw [Monitor.shared_of_deliver hd]
    have hidle : Function.update s.pc a.tid p t ≠ .idle := by
      rcases Monitor.pc_of_deliver hd t with hpc | hpc
      · rwa [hpc] at ht
      · rw [hpc] at ht
        exact fun h => ht (Place.wake_eq_idle.mpr h)
    by_cases hta : t = a.tid
    · subst hta
      rw [Function.update_self] at hidle
      by_cases hp : s.pc a.tid = .idle
      · cases heffect with
        | sleep timed hl =>
          change next a.tid s.shared (s.pc a.tid) a.move = _ at hn
          rw [hp] at hn
          exact hfree.2 (waits_of_next hn)
        | wakeUp timed hp' => simp [hp] at hp'
        | _ => exact absurd rfl hidle
      · have hnot := h.waits a.tid hp
        cases heffect with
        | sleep timed hl => exact hnot
        | wakeUp timed hp' => exact hnot
        | _ => exact absurd rfl hidle
    · rw [Function.update_of_ne hta] at hidle
      exact heffect.not_holds (Ne.symm hta) (h.waits t hidle)

theorem of_runs (h : monitor.machine.Runs FreeHanded start s) : Settles s := by
  refine h.invariant (I := Settles) ⟨⟨none, Accounts.nil, rfl⟩, ?_, fun t ht => absurd rfl ht⟩ ?_
  · rintro ⟨t, ht⟩
    cases ht
  · exact fun u a u' hu hfree hs => hu.step hfree hs

/-- Somebody can go on: a woken thread first, then the holder. -/
lemma progress (h : Settles s) : (s.shared.locked = false ∧ ∀ t, s.pc t = .idle) ∨
    ∃ t m sh p sig, (∀ w, GoesOn s ⟨t, m, w⟩) ∧ (∀ c, sig ≠ .all c) ∧
      monitor.next t s.shared (s.pc t) m = some (sh, p, sig) ∧
        sh.level + p.rank + sig.raise 1 < s.shared.level + (s.pc t).rank := by
  by_cases hwoken : ∃ t timed notified, s.pc t = .woken timed notified
  · obtain ⟨t, timed, notified, hp⟩ := hwoken
    right
    have hn := next_recheck t s.shared timed notified
    rw [← hp] at hn
    cases hl : s.shared.locked with
    | true =>
      rw [hl, if_pos rfl] at hn
      refine ⟨t, _, _, _, _, fun w => .inr rfl, by simp, hn, ?_⟩
      simp [hp, Place.rank, Signal.raise]
    | false =>
      rw [hl, if_neg Bool.false_ne_true] at hn
      refine ⟨t, _, _, _, _, fun w => .inr rfl, by simp, hn, ?_⟩
      simp [hp, hl, Place.rank, Signal.raise, Shared.level, Shared.acquire]
  obtain ⟨owner, hacc, hlocked⟩ := h.owned
  cases owner with
  | some t =>
    right
    have hholds : Holds t s.shared.log := (hacc.holds_iff Nat.one_pos).mpr rfl
    have hp : s.pc t = .idle := by
      by_contra hp
      exact h.waits t hp hholds
    refine ⟨t, .unlock, unlock t s.shared, .idle, .one (), fun w => .inl ⟨rfl, hholds⟩, by simp,
      ?_, ?_⟩
    · rw [hp]
      rfl
    · simp only [Option.isSome_some] at hlocked
      simp [hp, hlocked, Place.rank, Signal.raise, Shared.level, unlock]
  | none =>
    left
    have hl : s.shared.locked = false := by simpa using hlocked
    refine ⟨hl, fun t => ?_⟩
    cases hp : s.pc t with
    | idle => rfl
    | asleep timed =>
      obtain ⟨u, timed', hu⟩ := (law_of_owned h.owned h.covered).sleeper hl ⟨t, timed, hp⟩
      exact absurd ⟨u, timed', true, hu⟩ hwoken
    | woken timed notified => exact absurd ⟨t, timed, notified, hp⟩ hwoken

end Settles

/-- Who gets the mutex, from a state on. -/
structure ProgressLaw (s : Config T (Shared T) Place) : Prop where
  /-- A wait whose time is not over ends with the mutex. -/
  served : ∀ t, s.pc t ≠ .idle → ∀ sh sig,
    next t s.shared (s.pc t) (.recheck true) = some (sh, .idle, sig) → sh = s.shared.acquire t
  /-- As soon as the holder gives the mutex back, everybody who is in a call gets it. -/
  finishes : ∃ s', monitor.machine.Runs GoesOn s s' ∧ s'.shared.locked = false ∧
    ∀ t, s'.pc t = .idle

/-- In every run in which only holders unlock and no holder waits for its own mutex: everybody who
is in a call gets the mutex, each one from the one before. -/
theorem progress_law_of_runs {s : Config T (Shared T) Place}
    (h : monitor.machine.Runs FreeHanded start s) : ProgressLaw s := by
  refine ⟨fun t hp sh sig hn => ?_, ?_⟩
  · cases hplace : s.pc t with
    | idle => exact absurd hplace hp
    | asleep timed => simp [hplace, next] at hn
    | woken timed notified =>
      rw [hplace, next_recheck] at hn
      split_ifs at hn <;> cases hn
      rfl
  · obtain ⟨s', hruns, -, hgoal⟩ := Monitor.exists_runs_of_level
      (G := fun s => s.shared.locked = false ∧ ∀ t, s.pc t = .idle) Place.rank_wake_le
      (fun u a u' hu hgo hs => hu.step (GoesOn.freeHanded hgo) hs) (fun u hu => hu.progress)
      (Settles.of_runs h)
    exact ⟨s', hruns, hgoal⟩

/-- The first thread holds the mutex, and two threads sleep, one of them with a time. -/
theorem progress_law_of_runs_three : ∃ s : Config (Fin 3) (Shared (Fin 3)) Place,
    s.shared.locked = true ∧ s.pc 1 = .asleep true ∧ s.pc 2 = .asleep false ∧ ProgressLaw s := by
  have hrun : (monitor.machine.runWhile FreeHanded start
      [⟨(0 : Fin 3), .lock, none⟩, ⟨1, .tryLockUntil true, none⟩, ⟨2, .lock, none⟩]).any
      (fun s => s.shared.locked && s.pc 1 == .asleep true && s.pc 2 == .asleep false) = true := by
    decide +kernel
  obtain ⟨s, hs, hp⟩ := Machine.exists_runs_of_runWhile _ _ hrun
  simp only [Bool.and_eq_true, beq_iff_eq, and_assoc] at hp
  exact ⟨s, hp.1, hp.2.1, hp.2.2, progress_law_of_runs hs⟩

end TimedMutex

/-! ### `recursive_timed_mutex` -/

namespace RecursiveTimedMutex

variable {T : Type*}

def Shared.level (s : Shared T) : ℕ := 4 * s.count.toNat

/-- How far a thread is from the end of its call. -/
def Place.rank : Place → ℕ
  | .idle      => 0
  | .notifying => 2
  | .asleep _  => 5
  | .woken _ _ => 6

def Place.waits : Place → Bool
  | .asleep _ | .woken _ _ => true
  | _                      => false

lemma Place.rank_wake_le (p : Place) : p.wake.rank ≤ p.rank + 1 := by
  cases p <;> simp [Place.wake, Place.rank]

@[simp] lemma Place.waits_wake (p : Place) : p.wake.waits = p.waits := by
  cases p <;> rfl

/-- What another thread does with the mutex does not make a thread its owner. -/
lemma Effect.id_ne {t u : T} {s s' : Shared T} {p p' : Place} {m : Move} {sig : Signal Unit}
    (h : Effect u s p m s' p' sig) (hut : u ≠ t) (ht : s.id ≠ some t) : s'.id ≠ some t := by
  cases h with
  | acquire hc => exact fun h => hut (Option.some.inj h)
  | free hp hm hc => simp
  | _ => exact ht

variable [DecidableEq T]

lemma next_recheck (t : T) (s : Shared T) (timed notified : Bool) :
    next t s (.woken timed notified) (.recheck true) =
      if s.count = 0 then some (s.acquire t, .idle, .none) else some (s, .asleep timed, .none) := by
  cases timed <;> by_cases hc : s.count = 0 <;> simp [next, silently, lockLoop, tryLockLoop, hc]

/-- The owner does not go to sleep. -/
lemma id_ne_of_next {t : T} {s s' : Shared T} {m : Move} {timed : Bool} {sig : Signal Unit}
    (h : next t s .idle m = some (s', .asleep timed, sig)) : s.id ≠ some t := by
  intro hid
  cases m with
  | lock => simp [next, silently, lock, hid] at h
  | tryLockUntil b =>
    simp only [next, silently, tryLockUntil, hid, if_true, Option.some.injEq] at h
    split_ifs at h <;> cases h
  | tryLock free =>
    simp only [next, silently, tryLock, Option.some.injEq] at h
    split_ifs at h <;> cases h
  | unlock =>
    simp only [next, silently, unlock, Option.some.injEq] at h
    split_ifs at h <;> cases h
  | _ => simp [next] at h

/-- The owner gives back what it holds, a notification is sent, and a thread that was woken goes on
in time. -/
def GoesOn (s : Config T (Shared T) Place) (a : Act T Move) : Prop :=
  a.move = .unlock ∧ Holds a.tid s.shared.log ∨ a.move = .notify ∨ a.move = .recheck true

lemma GoesOn.allowed {s : Config T (Shared T) Place} {a : Act T Move} (h : GoesOn s a) :
    Allowed s a := by
  rcases h with ⟨hm, hholds⟩ | hm | hm
  · exact ⟨fun _ => hholds, by simp [hm]⟩
  · exact ⟨by simp [hm], by simp [hm]⟩
  · exact ⟨by simp [hm], by simp [hm]⟩

variable [Fintype T]

/-- The mutex and the sleepers are in order, and whoever waits is not the owner. -/
structure Settles (s : Config T (Shared T) Place) : Prop where
  owned : Owned s.shared
  covered : baton.Covered s
  waits : ∀ t, (s.pc t).waits = true → s.shared.id ≠ some t

namespace Settles

variable {s s' : Config T (Shared T) Place}

theorem step (h : Settles s) {a : Act T Move} (hallowed : Allowed s a)
    (hs : monitor.machine.step s a = some s') : Settles s' := by
  obtain ⟨sh, p, sig, hn, hd⟩ := Monitor.step_eq_some.mp hs
  have heffect : Effect a.tid s.shared (s.pc a.tid) a.move sh p sig := Effect.of_next hn
  have hbelow : BelowMax a.tid s.shared a.move := fun hm hid =>
    hallowed.2 hm (h.owned.holds_iff.mpr hid)
  refine ⟨?_, h.covered.step (fun _ _ _ hn => (Effect.of_next hn).keeps hbelow) hs, fun t ht => ?_⟩
  · rw [Monitor.shared_of_deliver hd]
    exact h.owned.step heffect hbelow hallowed.1
  · rw [Monitor.apply_pc_of_deliver (f := Place.waits) Place.waits_wake hd t] at ht
    rw [Monitor.shared_of_deliver hd]
    simp only at ht ⊢
    by_cases hta : t = a.tid
    · subst hta
      rw [Function.update_self] at ht
      cases heffect with
      | sleep timed hc =>
        change next a.tid s.shared (s.pc a.tid) a.move = _ at hn
        cases hp : s.pc a.tid with
        | idle =>
          rw [hp] at hn
          exact id_ne_of_next hn
        | notifying => cases hm : a.move <;> simp [hp, hm, next] at hn
        | _ => exact h.waits a.tid (by rw [hp]; rfl)
      | wakeUp timed hp => exact h.waits a.tid (by rw [hp]; rfl)
      | _ => cases ht
    · rw [Function.update_of_ne hta] at ht
      exact heffect.id_ne (Ne.symm hta) (h.waits t ht)

theorem of_runs (h : monitor.machine.Runs Allowed start s) : Settles s := by
  refine h.invariant (I := Settles) ⟨⟨Accounts.nil, by simp [start]⟩, ?_, ?_⟩ ?_
  · rintro ⟨t, ht⟩
    cases ht
  · intro t ht
    cases ht
  · exact fun u a u' hu hallowed hs => hu.step hallowed hs

/-- The owner is outside, and one acquisition less is left when it has unlocked. -/
lemma progress_of_owner (h : Settles s) {t : T} (hid : s.shared.id = some t)
    (hidle : s.pc t = .idle) : ∃ sh p sig, (∀ w, GoesOn s ⟨t, .unlock, w⟩) ∧ (∀ c, sig ≠ .all c) ∧
      monitor.next t s.shared (s.pc t) .unlock = some (sh, p, sig) ∧
        sh.level + p.rank + sig.raise 1 < s.shared.level + (s.pc t).rank := by
  have hcount := toNat_sub_one_add_one (h.owned.count_ne_zero hid)
  have hholds := h.owned.holds_iff.mpr hid
  refine ⟨_, _, .none, fun w => .inl ⟨rfl, hholds⟩, by simp, by rw [hidle]; rfl, ?_⟩
  by_cases hc : s.shared.count - 1 = 0
  · simp only [unlock, hc, if_true, hidle, Place.rank, Signal.raise, Shared.level] at hcount ⊢
    simp only [UInt64.toNat_zero] at hcount ⊢
    omega
  · simp only [unlock, hc, if_false, hidle, Place.rank, Signal.raise, Shared.level]
    omega

/-- Somebody can go on: whoever has to notify or was woken first, then the owner. -/
lemma progress (h : Settles s) : (s.shared.count = 0 ∧ ∀ t, s.pc t = .idle) ∨
    ∃ t m sh p sig, (∀ w, GoesOn s ⟨t, m, w⟩) ∧ (∀ c, sig ≠ .all c) ∧
      monitor.next t s.shared (s.pc t) m = some (sh, p, sig) ∧
        sh.level + p.rank + sig.raise 1 < s.shared.level + (s.pc t).rank := by
  by_cases hnotifying : ∃ t, s.pc t = .notifying
  · obtain ⟨t, hp⟩ := hnotifying
    right
    refine ⟨t, .notify, s.shared, .idle, .one (), fun w => .inr (.inl rfl), by simp, ?_, ?_⟩
    · rw [hp]
      rfl
    · simp [hp, Place.rank, Signal.raise]
  by_cases hwoken : ∃ t timed notified, s.pc t = .woken timed notified
  · obtain ⟨t, timed, notified, hp⟩ := hwoken
    right
    have hn := next_recheck t s.shared timed notified
    rw [← hp] at hn
    by_cases hc : s.shared.count = 0
    · rw [if_pos hc] at hn
      refine ⟨t, _, _, _, _, fun w => .inr (.inr rfl), by simp, hn, ?_⟩
      simp [hp, hc, Place.rank, Signal.raise, Shared.level, Shared.acquire]
    · rw [if_neg hc] at hn
      refine ⟨t, _, _, _, _, fun w => .inr (.inr rfl), by simp, hn, ?_⟩
      simp [hp, Place.rank, Signal.raise]
  by_cases hc : s.shared.count = 0
  · left
    refine ⟨hc, fun t => ?_⟩
    cases hp : s.pc t with
    | idle => rfl
    | asleep timed =>
      rcases (law_of_owned h.owned h.covered).sleeper hc ⟨t, timed, hp⟩ with hu | ⟨u, timed', hu⟩
      · exact absurd hu hnotifying
      · exact absurd ⟨u, timed', true, hu⟩ hwoken
    | woken timed notified => exact absurd ⟨t, timed, notified, hp⟩ hwoken
    | notifying => exact absurd ⟨t, hp⟩ hnotifying
  · right
    obtain ⟨t, hid⟩ := Option.ne_none_iff_exists'.mp (mt h.owned.null_iff.mp hc)
    have hidle : s.pc t = .idle := by
      cases hp : s.pc t with
      | idle => rfl
      | notifying => exact absurd ⟨t, hp⟩ hnotifying
      | _ => exact absurd hid (h.waits t (by rw [hp]; rfl))
    obtain ⟨sh, p, sig, hgo⟩ := h.progress_of_owner hid hidle
    exact ⟨t, .unlock, sh, p, sig, hgo⟩

end Settles

/-- Who gets the mutex, from a state on. -/
structure ProgressLaw (s : Config T (Shared T) Place) : Prop where
  /-- The owner never waits. -/
  owner : ∀ t, s.shared.id = some t → (s.pc t).waits = false
  /-- A wait whose time is not over ends with the mutex. -/
  served : ∀ t, (s.pc t).waits = true → ∀ sh sig,
    next t s.shared (s.pc t) (.recheck true) = some (sh, .idle, sig) → sh = s.shared.acquire t
  /-- As soon as the owner has unlocked as often as it locked, everybody who is in a call gets the
  mutex. -/
  finishes : ∃ s', monitor.machine.Runs GoesOn s s' ∧ s'.shared.count = 0 ∧ ∀ t, s'.pc t = .idle

/-- In every run in which only holders unlock and `lock` stays below the limit: everybody who is in
a call gets the mutex, each one from the one before, however often the owner has locked it. -/
theorem recursive_progress_law_of_runs {s : Config T (Shared T) Place}
    (h : monitor.machine.Runs Allowed start s) : ProgressLaw s := by
  have hs := Settles.of_runs h
  refine ⟨fun t hid => ?_, fun t hp sh sig hn => ?_, ?_⟩
  · rw [← Bool.not_eq_true]
    exact fun hw => hs.waits t hw hid
  · cases hplace : s.pc t with
    | asleep timed => simp [hplace, next] at hn
    | woken timed notified =>
      rw [hplace, next_recheck] at hn
      split_ifs at hn <;> cases hn
      rfl
    | _ => simp [hplace, Place.waits] at hp
  · obtain ⟨s', hruns, -, hgoal⟩ := Monitor.exists_runs_of_level
      (G := fun s => s.shared.count = 0 ∧ ∀ t, s.pc t = .idle) Place.rank_wake_le
      (fun u a u' hu hgo hs => hu.step (GoesOn.allowed hgo) hs) (fun u hu => hu.progress) hs
    exact ⟨s', hruns, hgoal⟩

/-- The first thread has locked twice over, and two threads sleep, one of them with a time. -/
theorem recursive_progress_law_of_runs_three : ∃ s : Config (Fin 3) (Shared (Fin 3)) Place,
    s.shared.count = 2 ∧ s.pc 1 = .asleep true ∧ s.pc 2 = .asleep false ∧ ProgressLaw s := by
  have hrun : (monitor.machine.runWhile Allowed start
      [⟨(0 : Fin 3), .lock, none⟩, ⟨0, .lock, none⟩, ⟨1, .tryLockUntil true, none⟩,
        ⟨2, .lock, none⟩]).any
      (fun s => s.shared.count == 2 && s.pc 1 == .asleep true && s.pc 2 == .asleep false)
      = true := by
    decide +kernel
  obtain ⟨s, hs, hp⟩ := Machine.exists_runs_of_runWhile _ _ hrun
  simp only [Bool.and_eq_true, beq_iff_eq, and_assoc] at hp
  exact ⟨s, hp.1, hp.2.1, hp.2.2, recursive_progress_law_of_runs hs⟩

end RecursiveTimedMutex

end Sync
