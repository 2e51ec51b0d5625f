import SyncLib.FastMutex.WithEvent
import SyncLib.Lock.Custody

/-!
# `lock` on fast mutexes

`fast_mutex` with its event is lawful, so threads that lock selections of fast mutexes never wait
for each other, down to the waits and the notifications of the events.
-/

namespace Sync

open Core

namespace FastMutex

namespace WithEvent

variable {T : Type*}

/-- The calls of `fast_mutex`. -/
def begins : MutexCall → Move → Bool
  | .lock, .own .lock           => true
  | .tryLock, .own (.tryLock _) => true
  | .unlock, .own .unlock       => true
  | _, _                        => false

/-- What is left of a call that is over. -/
def ended (p : Place) : Option MutexEnd :=
  if p = held then some ⟨true, true⟩ else if p = idle then some ⟨false, false⟩ else none

lemma place_of_ended {p : Place} {e : MutexEnd} (h : ended p = some e) :
    p = if e.holds then held else idle := by
  unfold ended at h
  split_ifs at h with hheld hidle
  · cases h
    exact hheld
  · cases h
    exact hidle

/-- `fast_mutex`, as a mutex. -/
def mutexCode : MutexCode T (Shared T) Place Unit Move where
  monitor := monitor
  start := ⟨0, ⟨false, []⟩⟩
  rest b := if b then held else idle
  begins := begins
  ended _ _ := ended
  rest_of_ended := place_of_ended
  asleepOn_rest b := by cases b <;> rfl

/-- Where a thread is in the middle of a call. -/
def Within (k : MutexCall) (p : Place) : Prop :=
  Fits p ∧ match k with
    | .lock    => p.mutex.entering = true
    | .tryLock => False
    | .unlock  => p.mutex = .signaling

lemma ended_of_within {k : MutexCall} {p : Place} (h : Within k p) : ended p = none := by
  obtain ⟨-, h⟩ := h
  unfold ended
  split_ifs with hheld hidle
  · subst hheld
    cases k <;> cases h
  · subst hidle
    cases k <;> cases h
  · rfl

variable {t : T} {s s' : Shared T} {p p' : Place} {m : Move} {sig : Signal Unit}

lemma within_of_lock (hfits : Fits p) (h : Step t s p m s' p' sig)
    (hp : p = idle ∧ m = .own .lock ∨ p.mutex.entering = true) : Within .lock p' ∨ p' = held := by
  rcases lock_step h hp with hent | ⟨hhold, -⟩
  · exact .inl ⟨h.fits hfits, hent⟩
  · exact .inr (eq_held (h.fits hfits) hhold)

lemma within_of_unlock (hfits : Fits p) (h : Step t s p m s' p' sig)
    (hp : p = held ∧ m = .own .unlock ∨ p.mutex = .signaling) : Within .unlock p' ∨ p' = idle :=
  (unlock_step h hp).imp_left fun hsig => ⟨h.fits hfits, hsig⟩

lemma of_tryLock {had ok : Bool} (hp : p = if had then held else idle)
    (h : Step t s p (.own (.tryLock ok)) s' p' sig) : had = false ∧ (p' = held ∨ p' = idle) := by
  cases had with
  | true =>
    cases hp
    cases h with
    | own _ hn => cases hn
  | false =>
    cases hp
    cases h with
    | own _ hn =>
      simp only [FastMutex.next] at hn
      split_ifs at hn <;> cases hn
      · exact ⟨rfl, .inl rfl⟩
      · exact ⟨rfl, .inr rfl⟩

/-- A step of a call ends it, or the thread is in the middle of it. -/
lemma goes_on {k : MutexCall} {had : Bool} (hfits : Fits p)
    (hgoes : (mutexCode (T := T)).Goes Within k had p m) (h : Step t s p m s' p' sig) :
    Within k p' ∨ (k = .tryLock → had = false) ∧
      (k ≠ .unlock ∧ p' = held ∨ k ≠ .lock ∧ p' = idle) := by
  cases k with
  | lock =>
    have hp : p = idle ∧ m = .own .lock ∨ p.mutex.entering = true := by
      rcases hgoes with ⟨hp, hbegins, hhad, -⟩ | hwithin
      · rw [hhad rfl] at hp
        refine .inl ⟨hp, ?_⟩
        cases m with
        | own m => cases m <;> first | rfl | cases hbegins
        | event => cases hbegins
      · exact .inr hwithin.2
    exact (within_of_lock hfits h hp).imp_right fun hheld => ⟨by simp, .inl ⟨by simp, hheld⟩⟩
  | tryLock =>
    rcases hgoes with ⟨hp, hbegins, -, -⟩ | hwithin
    · obtain ⟨ok, rfl⟩ : ∃ ok, m = .own (.tryLock ok) := by
        cases m with
        | own m =>
          cases m with
          | tryLock ok => exact ⟨ok, rfl⟩
          | _ => cases hbegins
        | event => cases hbegins
      obtain ⟨hhad, hp'⟩ := of_tryLock hp h
      refine .inr ⟨fun _ => hhad, ?_⟩
      exact hp'.imp (fun hheld => ⟨by simp, hheld⟩) fun hidle => ⟨by simp, hidle⟩
    · exact hwithin.2.elim
  | unlock =>
    have hp : p = held ∧ m = .own .unlock ∨ p.mutex = .signaling := by
      rcases hgoes with ⟨hp, hbegins, -, hhad⟩ | hwithin
      · rw [hhad rfl] at hp
        refine .inl ⟨hp, ?_⟩
        cases m with
        | own m => cases m <;> first | rfl | cases hbegins
        | event => cases hbegins
      · exact .inr hwithin.2
    exact (within_of_unlock hfits h hp).imp_right fun hidle => ⟨by simp, .inr ⟨by simp, hidle⟩⟩

/-! ### What callers rely on -/

variable [Fintype T] [DecidableEq T] {c c' : Config T (Shared T) Place}

/-- The state is a reachable one, and the thread that is said to hold the mutex is its holder. -/
structure Held (c : Config T (Shared T) Place) (has : T → Bool) : Prop where
  reachable : monitor.machine.Reachable start c
  holding_iff : ∀ t, has t = true ↔ (c.pc t).mutex = .holding

/-- The holder after a step of thread `t`. -/
lemma Held.step {has : T → Bool} (h : Held c has) {w : Option T} {b : Bool}
    (hn : monitor.next t c.shared (c.pc t) m = some (s', p', sig))
    (hd : monitor.deliver ⟨s', Function.update c.pc t p'⟩ sig w = some c')
    (hb : b = true ↔ p'.mutex = .holding) : Held c' (Function.update has t b) := by
  refine ⟨h.reachable.tail (a := ⟨t, m, w⟩) trivial
    (Monitor.step_eq_some.mpr ⟨_, _, _, hn, hd⟩), fun u => ?_⟩
  rw [Monitor.apply_pc_of_deliver (f := Place.mutex) (fun _ => rfl) hd u]
  by_cases hu : u = t
  · subst hu
    simpa only [Function.update_self] using hb
  · simpa only [Function.update_of_ne hu] using h.holding_iff u

lemma not_holding_of_within {k : MutexCall} {p : Place} (h : Within k p) :
    p.mutex ≠ .holding := by
  intro hhold
  obtain ⟨-, h⟩ := h
  cases k <;> simp [hhold, FastMutex.Place.entering] at h

lemma holding_rest {b : Bool} : (if b then held else idle : Place).mutex = .holding ↔ b = true := by
  cases b <;> simp [held, idle]

/-- A step of a call ends it as its caller relies on, or goes on with it. -/
lemma Held.goes {has : T → Bool} (h : Held c has) {k : MutexCall} {w : Option T}
    (hgoes : (mutexCode (T := T)).Goes Within k (has t) (c.pc t) m)
    (hn : monitor.next t c.shared (c.pc t) m = some (s', p', sig))
    (hd : monitor.deliver ⟨s', Function.update c.pc t p'⟩ sig w = some c') :
    (∀ e, ended p' = some e → k.Leaves (has t) e ∧ Held c' (Function.update has t e.holds)) ∧
      (ended p' = none → Within k p' ∧ Held c' (Function.update has t (k.during (has t)))) := by
  have hfits := (seen_of_reachable h.reachable).1 t
  refine ⟨fun e he => ?_, fun he => ?_⟩
  · have hplace := place_of_ended he
    refine ⟨?_, h.step hn hd (by rw [hplace, holding_rest])⟩
    rcases goes_on hfits hgoes (step_of_next hfits hn) with hwithin | ⟨hhad, hp' | hp'⟩
    · rw [ended_of_within hwithin] at he
      cases he
    · rw [hp'.2] at he
      cases he
      cases k with
      | lock => rfl
      | tryLock => simp [MutexCall.Leaves, hhad rfl]
      | unlock => exact absurd rfl hp'.1
    · rw [hp'.2] at he
      cases he
      cases k with
      | lock => exact absurd rfl hp'.1
      | tryLock => simp [MutexCall.Leaves, hhad rfl]
      | unlock => rfl
  · rcases goes_on hfits hgoes (step_of_next hfits hn) with hwithin | ⟨-, hp' | hp'⟩
    · refine ⟨hwithin, h.step hn hd ?_⟩
      have hnot := not_holding_of_within hwithin
      cases k with
      | tryLock => exact hwithin.2.elim
      | unlock => simpa [MutexCall.during] using hnot
      | lock =>
        -- a thread in the middle of `lock` has not held the mutex before
        have hhas : has t ≠ true := by
          intro hhas
          rcases hgoes with ⟨-, -, hhad, -⟩ | hwithin'
          · rw [hhad rfl] at hhas
            cases hhas
          · exact not_holding_of_within hwithin' ((h.holding_iff t).mp hhas)
        simpa [MutexCall.during, hhas] using hnot
    · rw [hp'.2] at he
      cases he
    · rw [hp'.2] at he
      cases he

lemma Held.exists_of_asleep {has : T → Bool} (h : Held c has)
    (ht : (c.pc t).event.asleepOn ≠ none) :
    ∃ u, has u = true ∨ (∃ k, Within k (c.pc u)) ∧ (c.pc u).event.asleepOn = none := by
  have hlaw := law_of_reachable h.reachable
  obtain ⟨⟨⟩, hasleep⟩ := Option.ne_none_iff_exists'.mp ht
  rcases hlaw.sleeper t hasleep with hmark | ⟨u, hu⟩
  · obtain ⟨u, hu⟩ := hlaw.held_iff.mp (by simp [hmark])
    exact ⟨u, .inl ((h.holding_iff u).mpr hu)⟩
  · have hfits : Fits (c.pc u) := (seen_of_reachable h.reachable).1 u
    refine ⟨u, .inr ⟨?_, (awake_of_underWay hfits hu).2⟩⟩
    generalize c.pc u = p at hfits hu
    cases hfits with
    | own p =>
      cases p with
      | contending | waiting | woken => exact ⟨.lock, .own _, rfl⟩
      | signaling => exact ⟨.unlock, .own _, rfl⟩
      | _ => cases hu
    | asleep => exact ⟨.lock, .asleep, rfl⟩
    | woken b => exact ⟨.lock, .woken b, rfl⟩
    | notifying => exact ⟨.unlock, .notifying, rfl⟩

lemma held_start : Held (start : Config T (Shared T) Place) fun _ => false := by
  refine ⟨.refl, fun t => ?_⟩
  simp [start, idle]

lemma eq_lock_of_asleep {k : MutexCall} {p : Place} (h : Within k p)
    (hp : p.event.asleepOn ≠ none) : k = .lock := by
  obtain ⟨hfits, h⟩ := h
  cases hfits with
  | asleep =>
    cases k with
    | lock => rfl
    | tryLock => exact h.elim
    | unlock => cases h
  | _ => exact absurd rfl hp

lemma not_within_rest {k : MutexCall} {b : Bool} : ¬ Within k (if b then held else idle) := by
  intro h
  have hended := ended_of_within h
  cases b <;> simp [ended, held, idle] at hended

/-- `fast_mutex` is lawful. -/
def lawful : (mutexCode (T := T)).Lawful where
  Inv := Held
  within := Within
  start := held_start
  step h hgoes hn hd := h.goes hgoes hn hd
  within_wake h := ⟨h.1.wake, h.2⟩
  not_within_rest := not_within_rest
  lock_of_asleep := eq_lock_of_asleep
  exclusive h ht hu :=
    (law_of_reachable h.reachable).exclusive _ _ ((h.holding_iff _).mp ht) ((h.holding_iff _).mp hu)
  sleeper h ht := h.exists_of_asleep ht

end WithEvent

end FastMutex

namespace Lock

namespace WithMutexes

/-- Threads that lock selections of fast mutexes, in every reachable state. -/
theorem fast_mutexes_law {T : Type*} {N : Type} [Fintype T] [DecidableEq T] [DecidableEq N]
    {c : Config T (N → FastMutex.WithEvent.Shared T) (Place N FastMutex.WithEvent.Place)}
    (h : (monitor FastMutex.WithEvent.mutexCode).machine.Reachable
      (start FastMutex.WithEvent.mutexCode) c) : Law FastMutex.WithEvent.mutexCode c :=
  law_of_reachable FastMutex.WithEvent.lawful h

/-- Two threads lock two fast mutexes in opposite orders. The second one has given its mutex back
and sleeps in the other, the first one holds both. -/
theorem fast_mutexes_law_two :
    ∃ c : Config (Fin 2) (Fin 2 → FastMutex.WithEvent.Shared (Fin 2))
        (Place (Fin 2) FastMutex.WithEvent.Place),
      (c.pc 0).phase.isHolding = true ∧
        (c.pc 1).asleepOn (FastMutex.WithEvent.mutexCode (T := Fin 2)) = some (0, ()) ∧
        Law FastMutex.WithEvent.mutexCode c := by
  obtain ⟨c, hc, hp⟩ := Machine.exists_reachable_of_run
    (M := (monitor (FastMutex.WithEvent.mutexCode (T := Fin 2))).machine)
    (s := start (N := Fin 2) (FastMutex.WithEvent.mutexCode (T := Fin 2)))
    [⟨0, .own (.lock 0 1 []), none⟩, ⟨0, .step (.own .lock), none⟩, ⟨1, .own (.lock 1 0 []), none⟩,
      ⟨1, .step (.own .lock), none⟩, ⟨1, .step (.own (.tryLock true)), none⟩,
      ⟨1, .step (.own .unlock), none⟩, ⟨1, .own (.proceed true), none⟩,
      ⟨1, .step (.own .lock), none⟩, ⟨1, .step (.own .proceed), none⟩,
      ⟨1, .step (.event .wait), none⟩, ⟨0, .step (.own (.tryLock true)), none⟩,
      ⟨0, .own (.proceed true), none⟩]
    (fun c => (c.pc 0).phase.isHolding &&
      (c.pc 1).asleepOn (FastMutex.WithEvent.mutexCode (T := Fin 2)) == some (0, ()))
    (by decide +kernel)
  simp only [Bool.and_eq_true, beq_iff_eq] at hp
  exact ⟨c, hp.1, hp.2, fast_mutexes_law hc⟩

end WithMutexes

end Lock

end Sync
