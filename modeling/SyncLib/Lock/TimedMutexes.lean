import SyncLib.Lock.Custody
import SyncLib.TimedMutex.Timed

/-!
# `lock` on timed mutexes

`timed_mutex` is lawful for threads that lock, try and unlock it, so `lock` and `scoped_lock` on
selections of timed mutexes do not make threads wait for each other.
-/

namespace Sync

open Core TimedMutexes

namespace TimedMutex

variable {T : Type*}

/-- The calls of `timed_mutex` that `lock` and `try_lock` make. -/
def begins : MutexCall → Move → Bool
  | .lock, .lock         => true
  | .tryLock, .tryLock _ => true
  | .unlock, .unlock     => true
  | _, _                 => false

/-- Where a thread is in the middle of a call. -/
def Within (k : MutexCall) (p : Place) : Prop :=
  k = .lock ∧ (p = .asleep false ∨ ∃ notified, p = .woken false notified)

variable {t : T} {s s' : Shared T} {p p' : Place} {m : Move} {sig : Signal Unit}

lemma Within.wake {k : MutexCall} (h : Within k p) : Within k p.wake := by
  obtain ⟨rfl, rfl | ⟨notified, rfl⟩⟩ := h
  · exact ⟨rfl, .inr ⟨true, rfl⟩⟩
  · exact ⟨rfl, .inr ⟨notified, rfl⟩⟩

lemma not_within_idle {k : MutexCall} : ¬ Within k .idle := by
  rintro ⟨-, h | ⟨notified, h⟩⟩ <;> cases h

/-- What a step of a call does. -/
inductive Goes (t : T) (s : Shared T) : MutexCall → Shared T → Place → Signal Unit → Prop
  | acquire {k : MutexCall} (hk : k ≠ .unlock) (hl : s.locked = false) :
      Goes t s k (s.acquire t) .idle .none
  | refuse : Goes t s .tryLock (s.refuse t) .idle .none
  | stay {p : Place} (hp : Within .lock p) : Goes t s .lock s p .none
  | unlock : Goes t s .unlock (unlock t s) .idle (.one ())

lemma goes_of_lock : Goes t s .lock (lock t s).1 (lock t s).2 .none := by
  unfold TimedMutex.lock
  split_ifs with hl
  · exact .stay ⟨rfl, .inl rfl⟩
  · exact .acquire (by simp) (by simpa using hl)

lemma goes_of_tryLock (free : Bool) :
    Goes t s .tryLock (tryLock t free s).1 (tryLock t free s).2 .none := by
  unfold tryLock
  split_ifs with hl
  · rw [Bool.and_eq_true, Bool.not_eq_true'] at hl
    exact .acquire (by simp) hl.2
  · exact .refuse

lemma Goes.place {k : MutexCall} (h : Goes t s k s' p' sig) : p' = .idle ∨ Within .lock p' := by
  cases h with
  | stay hp => exact .inr hp
  | _ => exact .inl rfl

variable [DecidableEq T]

/-- What is left of a call that is over, by the last entry of the log. -/
def ended (t : T) (s : Shared T) (p : Place) : Option MutexEnd :=
  if p = .idle then some ⟨s.log.head? == some (.acquired t), decide (Holds t s.log)⟩ else none

lemma eq_idle_of_ended {t : T} {s : Shared T} {p : Place} {e : MutexEnd}
    (h : ended t s p = some e) : p = .idle := by
  unfold ended at h
  split_ifs at h with hp
  exact hp

/-- `timed_mutex`, as a mutex. -/
def mutexCode : MutexCode T (Shared T) Place Unit Move where
  monitor := monitor
  start := ⟨false, []⟩
  rest _ := .idle
  begins := begins
  ended := ended
  rest_of_ended := eq_idle_of_ended
  asleepOn_rest _ := rfl

lemma goes_of_next {k : MutexCall} {had : Bool}
    (hgoes : (mutexCode (T := T)).Goes Within k had p m)
    (h : next t s p m = some (s', p', sig)) : Goes t s k s' p' sig := by
  rcases hgoes with ⟨rfl, hbegins, -, -⟩ | ⟨rfl, rfl | ⟨notified, rfl⟩⟩
  · cases k with
    | lock =>
      cases m <;> cases hbegins
      cases h
      exact goes_of_lock
    | tryLock =>
      cases m <;> cases hbegins
      cases h
      exact goes_of_tryLock _
    | unlock =>
      cases m <;> cases hbegins
      cases h
      exact .unlock
  · cases m <;> cases h
    exact .stay ⟨rfl, .inr ⟨false, rfl⟩⟩
  · cases m <;> cases h
    exact goes_of_lock

/-- A mutex that is not locked is held by nobody. -/
lemma Owned.not_holds (h : Owned s) (hl : s.locked = false) (t : T) : ¬ Holds t s.log := by
  obtain ⟨owner, hacc, hlocked⟩ := h
  intro ht
  rw [hlocked, (hacc.eq_of_holds ht).1] at hl
  cases hl

lemma Owned.holds_acquire (h : Owned s) (hl : s.locked = false) (t : T) :
    Holds t (s.acquire t).log := by
  obtain ⟨owner, hacc, hlocked⟩ := h
  rw [hl] at hlocked
  obtain rfl : owner = none := by simpa using hlocked.symm
  exact ((hacc.acquire t).holds_iff Nat.one_pos).mpr rfl

lemma Owned.not_holds_unlock (h : Owned s) (ht : Holds t s.log) : ¬ Holds t (unlock t s).log := by
  obtain ⟨owner, hacc, -⟩ := h
  obtain ⟨rfl, -⟩ := hacc.eq_of_holds ht
  intro hholds
  have hfree : Accounts (unlock t s).log none 1 := hacc.release.clear
  cases (hfree.eq_of_holds hholds).1

/-- A step of a call is about its own thread. -/
lemma Goes.holds_other {k : MutexCall} (h : Goes t s k s' p' sig) {u : T} (hu : u ≠ t) :
    Holds u s'.log ↔ Holds u s.log := by
  cases h with
  | acquire => simp [Shared.acquire, Holds, hu.symm]
  | refuse => simp [Shared.refuse, Holds]
  | stay => rfl
  | unlock => simp [TimedMutex.unlock, Holds, hu.symm]

/-- A call that is not over waits, and has changed nothing. -/
lemma Goes.of_ended_eq_none {k : MutexCall} (h : Goes t s k s' p' sig)
    (he : ended t s' p' = none) : k = .lock ∧ Within k p' ∧ s' = s := by
  cases h with
  | stay hp => exact ⟨rfl, hp, rfl⟩
  | _ => cases he

lemma holds_of_ended {e : MutexEnd} (h : ended t s p = some e) :
    e.answer = (s.log.head? == some (.acquired t)) ∧ e.holds = decide (Holds t s.log) := by
  unfold ended at h
  split_ifs at h
  cases h
  exact ⟨rfl, rfl⟩

/-- What a call leaves that is over. -/
lemma Goes.leaves {k : MutexCall} {had : Bool} {e : MutexEnd} (h : Goes t s k s' p' sig)
    (howned : Owned s) (hhad : had = true ↔ Holds t s.log) (hunlock : k = .unlock → had = true)
    (he : ended t s' p' = some e) : k.Leaves had e := by
  obtain ⟨hanswer, hholds⟩ := holds_of_ended he
  cases h with
  | acquire hk hl =>
    have hnot : had = false := by
      rw [← Bool.not_eq_true, hhad]
      exact howned.not_holds hl t
    have hheld : e.holds = true := by
      rw [hholds]
      exact decide_eq_true (howned.holds_acquire hl t)
    cases k with
    | lock => exact hheld
    | tryLock => simp [MutexCall.Leaves, hheld, hnot, hanswer, Shared.acquire]
    | unlock => exact absurd rfl hk
  | refuse =>
    have hheld : e.holds = had := by
      rw [hholds, Bool.eq_iff_iff, decide_eq_true_iff, hhad]
      simp [Shared.refuse, Holds]
    simp [MutexCall.Leaves, hheld, hanswer, Shared.refuse]
  | stay hp =>
    obtain ⟨-, rfl | ⟨_, rfl⟩⟩ := hp <;> cases he
  | unlock =>
    change e.holds = false
    rw [hholds]
    exact decide_eq_false (howned.not_holds_unlock (hhad.mp (hunlock rfl)))

/-- Callers unlock what they hold. -/
lemma has_of_goes {k : MutexCall} {had : Bool}
    (hgoes : (mutexCode (T := T)).Goes Within k had p m) (hk : k = .unlock) : had = true := by
  rcases hgoes with ⟨-, -, -, hhad⟩ | ⟨hlock, -⟩
  · exact hhad hk
  · rw [hk] at hlock
    cases hlock

lemma eq_unlock_of_goes {k : MutexCall} {had : Bool}
    (hgoes : (mutexCode (T := T)).Goes Within k had p m)
    (h : next t s p m = some (s', p', sig)) (hm : m = .unlock) : k = .unlock := by
  subst hm
  rcases hgoes with ⟨-, hbegins, -, -⟩ | ⟨-, rfl | ⟨notified, rfl⟩⟩
  · cases k with
    | unlock => rfl
    | _ => cases hbegins
  · cases h
  · cases h

/-! ### What callers rely on -/

variable [Fintype T] {c c' : Config T (Shared T) Place}

/-- The state is one of a run in which only holders unlock, the holder by the log is the thread that
is said to hold the mutex, and nobody waits with a time. -/
structure Held (c : Config T (Shared T) Place) (has : T → Bool) : Prop where
  runs : monitor.machine.Runs UnlocksOwn start c
  holds_iff : ∀ t, has t = true ↔ Holds t c.shared.log
  place : ∀ t, c.pc t = .idle ∨ Within .lock (c.pc t)

lemma held_start : Held (start : Config T (Shared T) Place) fun _ => false :=
  ⟨.refl, fun t => by simp [start, Holds, acquisitions, releases], fun _ => .inl rfl⟩

/-- The log accounts for `locked_`, and an unlocked mutex has somebody who will look at it. -/
lemma owned_of_runs (h : monitor.machine.Runs UnlocksOwn start c) :
    Owned c.shared ∧ baton.Covered c := by
  refine h.invariant (I := fun s => Owned s.shared ∧ baton.Covered s) ⟨?_, ?_⟩ ?_
  · exact ⟨none, Accounts.nil, rfl⟩
  · rintro ⟨t, ht⟩
    cases ht
  · rintro u a u' ⟨howned, hcovered⟩ hok hs
    obtain ⟨sh, p, sig, hn, hd⟩ := Monitor.step_eq_some.mp hs
    refine ⟨?_, hcovered.step (fun _ _ _ hn => (Effect.of_next hn).keeps) hs⟩
    rw [Monitor.shared_of_deliver hd]
    exact howned.step (Effect.of_next hn) hok

/-- The state after a step of a call of thread `t`. -/
lemma Held.step {has : T → Bool} (h : Held c has) {k : MutexCall} {w : Option T} {b : Bool}
    (hgoes : (mutexCode (T := T)).Goes Within k (has t) (c.pc t) m)
    (hn : next t c.shared (c.pc t) m = some (s', p', sig))
    (hd : monitor.deliver ⟨s', Function.update c.pc t p'⟩ sig w = some c')
    (hb : b = true ↔ Holds t s'.log) : Held c' (Function.update has t b) := by
  have hstep := goes_of_next hgoes hn
  refine ⟨?_, fun u => ?_, fun u => ?_⟩
  · refine h.runs.tail (a := ⟨t, m, w⟩) (fun hm => ?_) (Monitor.step_eq_some.mpr ⟨_, _, _, hn, hd⟩)
    exact (h.holds_iff t).mp (has_of_goes hgoes (eq_unlock_of_goes hgoes hn hm))
  · rw [Monitor.shared_of_deliver hd]
    by_cases hu : u = t
    · subst hu
      simpa only [Function.update_self] using hb
    · rw [Function.update_of_ne hu, h.holds_iff u]
      exact (hstep.holds_other hu).symm
  · have hplace :
        Function.update c.pc t p' u = .idle ∨ Within .lock (Function.update c.pc t p' u) := by
      by_cases hu : u = t
      · subst hu
        simpa only [Function.update_self] using hstep.place
      · simpa only [Function.update_of_ne hu] using h.place u
    rcases Monitor.pc_of_deliver hd u with hpc | hpc
    · rwa [hpc]
    · rw [hpc]
      refine hplace.imp (fun hidle => ?_) fun hwithin => hwithin.wake
      simp only [hidle]
      rfl

/-- A step of a call ends it as its caller relies on, or goes on with it. -/
lemma Held.goes {has : T → Bool} (h : Held c has) {k : MutexCall} {w : Option T}
    (hgoes : (mutexCode (T := T)).Goes Within k (has t) (c.pc t) m)
    (hn : next t c.shared (c.pc t) m = some (s', p', sig))
    (hd : monitor.deliver ⟨s', Function.update c.pc t p'⟩ sig w = some c') :
    (∀ e, ended t s' p' = some e →
        k.Leaves (has t) e ∧ Held c' (Function.update has t e.holds)) ∧
      (ended t s' p' = none →
        Within k p' ∧ Held c' (Function.update has t (k.during (has t)))) := by
  have hstep := goes_of_next hgoes hn
  refine ⟨fun e he => ⟨?_, ?_⟩, fun he => ?_⟩
  · exact hstep.leaves (owned_of_runs h.runs).1 (h.holds_iff t) (has_of_goes hgoes) he
  · refine h.step hgoes hn hd ?_
    rw [(holds_of_ended he).2, decide_eq_true_iff]
  · obtain ⟨rfl, hwithin, rfl⟩ := hstep.of_ended_eq_none he
    exact ⟨hwithin, h.step hgoes hn hd (h.holds_iff t)⟩

/-- Somebody holds the mutex, or has been notified and is awake. -/
lemma Held.exists_of_asleep {has : T → Bool} (h : Held c has)
    (ht : (c.pc t).asleepOn ≠ none) :
    ∃ u, has u = true ∨ (∃ k, Within k (c.pc u)) ∧ (c.pc u).asleepOn = none := by
  obtain ⟨howned, hcovered⟩ := owned_of_runs h.runs
  have hlaw := law_of_owned howned hcovered
  by_cases hl : c.shared.locked = true
  · obtain ⟨u, hu, -⟩ := hlaw.locked_iff.mp hl
    exact ⟨u, .inl ((h.holds_iff u).mpr hu)⟩
  · have hasleep : ∃ t timed, c.pc t = .asleep timed := by
      refine ⟨t, ?_⟩
      cases hp : c.pc t with
      | asleep timed => exact ⟨timed, rfl⟩
      | _ => simp [hp, Place.asleepOn] at ht
    obtain ⟨u, timed, hu⟩ := hlaw.sleeper (by simpa using hl) hasleep
    refine ⟨u, .inr ⟨⟨.lock, ?_⟩, by rw [hu]; rfl⟩⟩
    rcases h.place u with hidle | hwithin
    · rw [hu] at hidle
      cases hidle
    · exact hwithin

lemma Held.exclusive {has : T → Bool} (h : Held c has) {u : T} (ht : has t = true)
    (hu : has u = true) : t = u := by
  obtain ⟨owner, hacc, -⟩ := (owned_of_runs h.runs).1
  have ho := (hacc.eq_of_holds ((h.holds_iff t).mp ht)).1
  have ho' := (hacc.eq_of_holds ((h.holds_iff u).mp hu)).1
  rw [ho] at ho'
  exact Option.some.inj ho'

/-- `timed_mutex` is lawful. -/
def lawful : (mutexCode (T := T)).Lawful where
  Inv := Held
  within := Within
  start := held_start
  step h hgoes hn hd := h.goes hgoes hn hd
  within_wake := Within.wake
  not_within_rest := not_within_idle
  lock_of_asleep h _ := h.1
  exclusive h := h.exclusive
  sleeper h ht := h.exists_of_asleep ht

end TimedMutex

namespace Lock

namespace WithMutexes

/-- Threads that lock selections of timed mutexes, in every reachable state. -/
theorem timed_mutexes_law {T : Type*} {N : Type} [Fintype T] [DecidableEq T] [DecidableEq N]
    {c : Config T (N → TimedMutex.Shared T) (Place N TimedMutex.Place)}
    (h : (monitor TimedMutex.mutexCode).machine.Reachable (start TimedMutex.mutexCode) c) :
    Law TimedMutex.mutexCode c :=
  law_of_reachable TimedMutex.lawful h

/-- Two threads lock two timed mutexes in opposite orders. The second one has given its mutex back
and sleeps in the other, the first one holds both. -/
theorem timed_mutexes_law_two :
    ∃ c : Config (Fin 2) (Fin 2 → TimedMutex.Shared (Fin 2)) (Place (Fin 2) TimedMutex.Place),
      (c.pc 0).phase.isHolding = true ∧
        (c.pc 1).asleepOn (TimedMutex.mutexCode (T := Fin 2)) = some (0, ()) ∧
        Law TimedMutex.mutexCode c := by
  obtain ⟨c, hc, hp⟩ := Machine.exists_reachable_of_run
    (M := (monitor (TimedMutex.mutexCode (T := Fin 2))).machine)
    (s := start (N := Fin 2) (TimedMutex.mutexCode (T := Fin 2)))
    [⟨0, .own (.lock 0 1 []), none⟩, ⟨0, .step .lock, none⟩, ⟨1, .own (.lock 1 0 []), none⟩,
      ⟨1, .step .lock, none⟩, ⟨1, .step (.tryLock true), none⟩, ⟨1, .step .unlock, none⟩,
      ⟨1, .own (.proceed true), none⟩, ⟨1, .step .lock, none⟩, ⟨0, .step (.tryLock true), none⟩,
      ⟨0, .own (.proceed true), none⟩]
    (fun c => (c.pc 0).phase.isHolding &&
      (c.pc 1).asleepOn (TimedMutex.mutexCode (T := Fin 2)) == some (0, ()))
    (by decide +kernel)
  simp only [Bool.and_eq_true, beq_iff_eq] at hp
  exact ⟨c, hp.1, hp.2, timed_mutexes_law hc⟩

end WithMutexes

end Lock

end Sync
