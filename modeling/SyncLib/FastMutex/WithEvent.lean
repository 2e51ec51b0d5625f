import SyncLib.Core.Part
import SyncLib.Event
import SyncLib.FastMutex

/-!
# `fast_mutex` with its event

`SyncLib.FastMutex` reads `event_` as an auto-reset event whose operations are single steps. Here
the threads run the code of `auto_event`: sections under a mutex, a notification after it was
released, and a wait on a condition variable that may end for no reason. What is known of either of
them holds of the two together.
-/

namespace Sync

open Core

namespace FastMutex

/-- A thread in `lock`, after its first exchange. -/
def Place.entering : Place → Bool
  | .contending | .waiting | .woken => true
  | _                               => false

namespace WithEvent

/-! ### The threads -/

/-- Where a thread is in the code of `fast_mutex`, and in the methods of `event_`. -/
structure Place where
  mutex : FastMutex.Place
  event : AutoEvent.Place
  deriving DecidableEq, Repr

/-- An operation on `state_`, or a step of a method of `event_`. -/
inductive Move
  | own (m : FastMutex.Move)
  | event (m : AutoEvent.Move)
  deriving DecidableEq, Repr

structure Shared (T : Type*) where
  state : ℕ
  event : AutoEvent.Shared T

variable {T : Type*}

/-- The method of `event_` that is called at a place, and where the code goes on. -/
def call : FastMutex.Place → Option (AutoEvent.Move × FastMutex.Place)
  | .waiting   => some (.wait, .woken)
  | .signaling => some (.signal, .idle)
  | _          => none

/-- What `fast_mutex` sees of the members. -/
def Shared.view (s : Shared T) : FastMutex.Shared := ⟨s.state, s.event.signaled⟩

/-- One operation of `fast_mutex`, or one step of `auto_event`. -/
def next (t : T) (s : Shared T) (p : Place) : Move → Option (Shared T × Place × Signal Unit)
  | .own m =>
    match call p.mutex with
    | none   => (FastMutex.next s.view p.mutex m).map fun r =>
        ({ s with state := r.1.state }, { p with mutex := r.2 }, .none)
    | some _ => none
  | .event m =>
    match call p.mutex with
    | none            => none
    | some (first, q) => (AutoEvent.monitor.callStep .idle first t s.event p.event m).map fun r =>
        ({ s with event := r.1 }, ⟨if r.2.1 = .idle then q else p.mutex, r.2.1⟩, r.2.2)

/-- All threads around one mutex. -/
def monitor : Monitor T (Shared T) Place Unit Move where
  next := next
  asleepOn p := p.event.asleepOn
  wake p := { p with event := p.event.wake }

/-- A thread outside of the methods, without the mutex. -/
def idle : Place := ⟨.idle, .idle⟩

/-- A thread outside of the methods, with the mutex. -/
def held : Place := ⟨.holding, .idle⟩

def start : Config T (Shared T) Place := ⟨⟨0, ⟨false, []⟩⟩, fun _ => idle⟩

/-- The places that a thread can be at. -/
inductive Fits : Place → Prop
  | own (p : FastMutex.Place) : Fits ⟨p, .idle⟩
  | asleep : Fits ⟨.waiting, .asleep false⟩
  | woken (notified : Bool) : Fits ⟨.waiting, .woken false notified⟩
  | notifying : Fits ⟨.signaling, .notifying⟩

/-- What a step of one thread does. -/
inductive Step (t : T) (s : Shared T) : Place → Move → Shared T → Place → Signal Unit → Prop
  | own {p q : FastMutex.Place} {m : FastMutex.Move} {sh : FastMutex.Shared} (hcall : call p = none)
      (h : FastMutex.next s.view p m = some (sh, q)) :
      Step t s ⟨p, .idle⟩ (.own m) { s with state := sh.state } ⟨q, .idle⟩ .none
  | wait {e : AutoEvent.Place} {m : AutoEvent.Move} {sh : AutoEvent.Shared T}
      {e' : AutoEvent.Place} {sig : Signal Unit} (he : e ≠ .notifying)
      (hm : e = .idle → m = .wait) (h : AutoEvent.next t s.event e m = some (sh, e', sig)) :
      Step t s ⟨.waiting, e⟩ (.event m) { s with event := sh }
        ⟨if e' = .idle then .woken else .waiting, e'⟩ sig
  | signal : Step t s ⟨.signaling, .idle⟩ (.event .signal)
      { s with event := (AutoEvent.signal t s.event).1 } ⟨.signaling, .notifying⟩ .none
  | notify : Step t s ⟨.signaling, .notifying⟩ (.event .notify) s ⟨.idle, .idle⟩ (.one ())

variable {t : T} {s s' : Shared T} {p p' : Place} {m : Move} {sig : Signal Unit}

lemma step_of_next (hp : Fits p) (h : next t s p m = some (s', p', sig)) :
    Step t s p m s' p' sig := by
  cases m with
  | own m =>
    simp only [next] at h
    split at h
    · rename_i hcall
      simp only [Option.map_eq_some_iff, Prod.mk.injEq] at h
      obtain ⟨⟨sh, q⟩, hn, rfl, rfl, rfl⟩ := h
      cases hp with
      | own p => exact .own hcall hn
      | asleep | woken | notifying => cases hcall
    · cases h
  | event m =>
    simp only [next] at h
    split at h
    · cases h
    · rename_i first q hcall
      simp only [Option.map_eq_some_iff, Prod.mk.injEq] at h
      obtain ⟨⟨sh, e', sig'⟩, hn, rfl, rfl, rfl⟩ := h
      obtain ⟨hfirst, hn⟩ := Monitor.next_of_callStep hn
      cases hp with
      | own p =>
        obtain rfl := hfirst rfl
        cases p with
        | waiting =>
          cases hcall
          exact .wait (by simp) (fun _ => rfl) hn
        | signaling =>
          cases hcall
          cases hn
          exact .signal
        | _ => cases hcall
      | asleep | woken =>
        cases hcall
        exact .wait (by simp) (fun he => by cases he) hn
      | notifying =>
        cases hcall
        cases m <;> cases hn
        exact .notify

/-- The steps of a call of `wait`. -/
lemma fits_wait {e e' : AutoEvent.Place} {m : AutoEvent.Move} {ev ev' : AutoEvent.Shared T}
    (hp : Fits ⟨.waiting, e⟩) (hm : e = .idle → m = .wait)
    (h : AutoEvent.next t ev e m = some (ev', e', sig)) :
    Fits ⟨if e' = .idle then .woken else .waiting, e'⟩ := by
  have hwait : Fits ⟨if (AutoEvent.wait t ev).2 = .idle then .woken else .waiting,
      (AutoEvent.wait t ev).2⟩ := by
    unfold AutoEvent.wait
    split_ifs
    · exact .own _
    · contradiction
    · contradiction
    · exact .asleep
  cases hp with
  | own =>
    obtain rfl := hm rfl
    cases h
    exact hwait
  | asleep =>
    cases m <;> cases h
    exact .woken false
  | woken notified =>
    cases m <;> cases h
    exact hwait

lemma Step.fits (h : Step t s p m s' p' sig) (hp : Fits p) : Fits p' := by
  cases h with
  | own => exact .own _
  | wait he hm h => exact fits_wait hp hm h
  | signal => exact .notifying
  | notify => exact .own _

lemma Fits.wake (hp : Fits p) : Fits { p with event := p.event.wake } := by
  cases hp with
  | own p => exact .own p
  | asleep => exact .woken true
  | woken b => exact .woken b
  | notifying => exact .notifying

/-! ### The calls -/

lemma eq_held (hp : Fits p) (h : p.mutex = .holding) : p = held := by
  cases hp with
  | own p =>
    cases h
    rfl
  | _ => cases h

lemma of_exchangeTwo {v : FastMutex.Shared} {sh : FastMutex.Shared} {p : FastMutex.Place}
    (h : FastMutex.exchangeTwo v = (sh, p)) : p.entering = true ∨ p = .holding ∧ v.state = 0 := by
  simp only [FastMutex.exchangeTwo, Prod.mk.injEq] at h
  obtain ⟨-, rfl⟩ := h
  split_ifs with hne
  · exact .inl rfl
  · exact .inr ⟨rfl, not_not.mp hne⟩

/-- A step of `lock` takes a free mutex, or the thread is still in `lock`. -/
lemma lock_step (h : Step t s p m s' p' sig)
    (hp : p = idle ∧ m = .own .lock ∨ p.mutex.entering = true) :
    p'.mutex.entering = true ∨ p'.mutex = .holding ∧ s.state = 0 := by
  cases h with
  | @own q q' m sh hcall hn =>
    cases q with
    | idle =>
      obtain ⟨-, hm⟩ : _ ∧ _ := hp.resolve_right (by simp [FastMutex.Place.entering])
      cases hm
      obtain ⟨-, rfl⟩ := Prod.mk.inj (Option.some.inj hn)
      simp only
      split_ifs with hne
      · exact .inl rfl
      · exact .inr ⟨rfl, not_not.mp hne⟩
    | contending | woken =>
      cases m with
      | proceed => exact of_exchangeTwo (Option.some.inj hn)
      | _ => cases hn
    | waiting | signaling => cases hcall
    | holding => rcases hp with ⟨hp, -⟩ | hp <;> cases hp
  | wait =>
    left
    simp only
    split_ifs <;> rfl
  | signal | notify => rcases hp with ⟨hp, -⟩ | hp <;> cases hp

/-- A step of `unlock` ends it, or the thread has to signal. -/
lemma unlock_step (h : Step t s p m s' p' sig)
    (hp : p = held ∧ m = .own .unlock ∨ p.mutex = .signaling) :
    p'.mutex = .signaling ∨ p' = idle := by
  cases h with
  | @own q q' m sh hcall hn =>
    rcases hp with ⟨hp, hm⟩ | hp
    · cases hp
      cases hm
      obtain ⟨-, rfl⟩ := Prod.mk.inj (Option.some.inj hn)
      split_ifs
      · exact .inl rfl
      · exact .inr rfl
    · cases hp
      cases hcall
  | wait => rcases hp with ⟨hp, -⟩ | hp <;> cases hp
  | signal => exact .inl rfl
  | notify => exact .inr rfl

/-! ### What the mutex and the event see -/

/-- The operations of `fast_mutex` on `state_` leave the event alone. -/
lemma signaled_of_next {v v' : FastMutex.Shared} {p q : FastMutex.Place} {m : FastMutex.Move}
    (hcall : call p = none) (h : FastMutex.next v p m = some (v', q)) :
    v'.signaled = v.signaled := by
  cases p with
  | waiting | signaling => cases hcall
  | idle =>
    cases m with
    | tryLock ok =>
      simp only [FastMutex.next] at h
      split_ifs at h <;> cases h <;> rfl
    | lock => cases h; rfl
    | unlock | proceed => cases h
  | _ => cases m <;> cases h; rfl

def Move.seen : Move → FastMutex.Move
  | .own m   => m
  | .event _ => .proceed

/-- A call of `signal` is over for `fast_mutex` when the flag is set. -/
def Place.seen (p : Place) : FastMutex.Place :=
  if p.event = .notifying then .idle else p.mutex

lemma seen_of_wait {e : AutoEvent.Place} (he : e ≠ .notifying) (q : FastMutex.Place) :
    (⟨q, e⟩ : Place).seen = q :=
  if_neg he

/-- A step of `wait` is the operation of an auto-reset event, or it is not seen. -/
lemma seen_wait {e e' : AutoEvent.Place} {m : AutoEvent.Move} {ev : AutoEvent.Shared T}
    (he : e ≠ .notifying) (hm : e = .idle → m = .wait) (hp : Fits ⟨.waiting, e⟩)
    (hn : AutoEvent.next t s.event e m = some (ev, e', sig)) :
    (ev.signaled = s.event.signaled ∧ e' ≠ .idle ∧ e' ≠ .notifying) ∨
      (s.event.signaled = true ∧ ev.signaled = false ∧ e' = .idle) := by
  have hwait : ∀ {r}, AutoEvent.wait t s.event = r →
      (r.1.signaled = s.event.signaled ∧ r.2 ≠ .idle ∧ r.2 ≠ .notifying) ∨
        (s.event.signaled = true ∧ r.1.signaled = false ∧ r.2 = .idle) := by
    rintro r rfl
    unfold AutoEvent.wait
    split_ifs with hset
    · exact .inr ⟨hset, rfl, rfl⟩
    · exact .inl ⟨rfl, by simp, by simp⟩
  cases hp with
  | own =>
    obtain rfl := hm rfl
    cases hn
    exact hwait rfl
  | asleep =>
    cases m <;> cases hn
    exact .inl ⟨rfl, by simp, by simp⟩
  | woken notified =>
    cases m <;> cases hn
    exact hwait rfl

/-- A step of the code with the event is one of the mutex with an auto-reset event, or it is not
seen. -/
lemma seen_of_step (hp : Fits p) (h : Step t s p m s' p' sig) :
    (s'.view = s.view ∧ p'.seen = p.seen) ∨
      FastMutex.next s.view p.seen m.seen = some (s'.view, p'.seen) := by
  cases h with
  | @own p q m sh hcall hn =>
    right
    have hsh : Shared.view { s with state := sh.state } = sh := by
      rw [Shared.view, ← show sh.signaled = s.event.signaled from signaled_of_next hcall hn]
    rw [hsh]
    exact hn
  | @wait e m ev e' sig he hm hn =>
    rcases seen_wait he hm hp hn with ⟨hsame, hne, hne'⟩ | ⟨hset, hclear, rfl⟩
    · left
      rw [if_neg hne, seen_of_wait he, seen_of_wait hne', Shared.view, Shared.view, hsame]
      exact ⟨rfl, rfl⟩
    · right
      rw [if_pos rfl, seen_of_wait he, seen_of_wait (by simp), Shared.view, Shared.view, hclear,
        hset]
      rfl
  | signal => exact .inr rfl
  | notify => exact .inl ⟨rfl, rfl⟩

lemma seen_wake (hp : Fits p) : Place.seen { p with event := p.event.wake } = p.seen := by
  cases hp with
  | own p => rfl
  | _ => rfl

/-- `fast_mutex` sees an auto-reset event. -/
def view : View (monitor (T := T)) (FastMutex.code (T := T)) where
  shared := Shared.view
  place := Place.seen
  move _ _ := Move.seen
  fits := Fits
  safe _ _ _ _ := True
  fits_wake _ := Fits.wake
  place_wake _ := seen_wake
  fits_next hp h := (step_of_next hp h).fits hp
  next hp _ h := seen_of_step hp (step_of_next hp h)

/-- An operation on `state_` leaves the event alone, and any other step is one of the event. -/
lemma event_of_next (h : next t s p m = some (s', p', sig)) :
    (s'.event = s.event ∧ p'.event = p.event ∧ ∀ c : Unit, sig.cond ≠ some c) ∨
      ∃ m₂, AutoEvent.next t s.event p.event m₂ = some (s'.event, p'.event, sig) := by
  cases m with
  | own m =>
    left
    simp only [next] at h
    split at h
    · simp only [Option.map_eq_some_iff, Prod.mk.injEq] at h
      obtain ⟨⟨sh, q⟩, -, rfl, rfl, rfl⟩ := h
      exact ⟨rfl, rfl, fun c hc => by cases hc⟩
    · cases h
  | event m =>
    right
    simp only [next] at h
    split at h
    · cases h
    · simp only [Option.map_eq_some_iff, Prod.mk.injEq] at h
      obtain ⟨⟨sh, e', sig'⟩, hn, rfl, rfl, rfl⟩ := h
      exact ⟨m, (Monitor.next_of_callStep hn).2⟩

/-- The event, as a part of the mutex. -/
def event : Part (monitor (T := T)) (AutoEvent.monitor (T := T)) where
  shared := Shared.event
  place := Place.event
  cond := id
  asleepOn _ _ := Iff.rfl
  wake _ _ _ := rfl
  wake_other _ d _ hd := absurd rfl (hd d)
  next h := (event_of_next h).imp_right fun ⟨m, hm⟩ => ⟨m, _, hm, (Signal.map_id _).symm⟩

/-! ### The law -/

/-- A thread that is awake and will execute its `exchange(2)`, test the flag of the event after it
was notified, set the flag, or notify. -/
def Place.underWay (p : Place) : Bool :=
  match p.mutex, p.event with
  | .contending, _ | .woken, _ | .signaling, _ => true
  | .waiting, .woken _ notified                => notified
  | _, _                                       => false

/-- One thread holds the mutex when `state_` is not `0`. As long as somebody sleeps on the condition
variable of the event, the mark is set or somebody is under way, and of the threads that have not
finished one is awake. -/
structure Law (s : Config T (Shared T) Place) : Prop where
  exclusive : ∀ t u, (s.pc t).mutex = .holding → (s.pc u).mutex = .holding → t = u
  held_iff : s.shared.state ≠ 0 ↔ ∃ t, (s.pc t).mutex = .holding
  sleeper : ∀ t, (s.pc t).event.asleepOn = some () →
    s.shared.state = 2 ∨ ∃ u, (s.pc u).underWay = true
  live : (∃ t, s.pc t ≠ idle) → ∃ t, s.pc t ≠ idle ∧ (s.pc t).event.asleepOn = none

lemma seen_eq_holding (hp : Fits p) : p.seen = .holding ↔ p.mutex = .holding := by
  cases hp with
  | notifying => simp [Place.seen]
  | own p => simp [Place.seen]
  | _ => simp [Place.seen]

lemma underWay_of_seen (hp : Fits p) (h : p.seen.underWay = true) : p.underWay = true := by
  cases hp with
  | own p => cases p <;> first | rfl | cases h
  | notifying => rfl
  | _ => cases h

lemma underWay_of_notified (hp : Fits p) (h : 0 < p.event.notified) : p.underWay = true := by
  cases hp with
  | notifying => rfl
  | woken notified =>
    cases notified with
    | true => rfl
    | false => cases h
  | _ => cases h

lemma awake_of_underWay (hp : Fits p) (h : p.underWay = true) :
    p ≠ idle ∧ p.event.asleepOn = none := by
  cases hp with
  | own p =>
    refine ⟨?_, rfl⟩
    rintro ⟨⟩
    cases h
  | asleep => cases h
  | woken | notifying =>
    refine ⟨?_, rfl⟩
    rintro ⟨⟩

variable [Fintype T] {c : Config T (Shared T) Place}

/-- What is known of the mutex with an auto-reset event, and of the event by itself. -/
lemma law_of_seen (hfits : view.Fits c) (hmutex : FastMutex.Law (view.config c))
    (hevent : AutoEvent.baton.Covered (event.config c)) : Law c := by
  have hholding : ∀ t, (view.config c).pc t = .holding ↔ (c.pc t).mutex = .holding :=
    fun t => seen_eq_holding (hfits t)
  have hsleeper : ∀ t, (c.pc t).event.asleepOn = some () →
      c.shared.state = 2 ∨ ∃ u, (c.pc u).underWay = true := by
    intro t ht
    cases hset : c.shared.event.signaled with
    | true =>
      -- the event has somebody who will look at the flag
      rcases hevent ⟨t, ht⟩ with ⟨u, hu⟩ | hcredit
      · exact hu.elim
      · have hpos : 0 < tally AutoEvent.Place.notified (event.config c).pc := by
          refine lt_of_lt_of_le ?_ hcredit
          simp [AutoEvent.baton, event, Part.config, hset]
        obtain ⟨u, hu⟩ := tally_pos_iff.mp hpos
        exact .inr ⟨u, underWay_of_notified (hfits u) hu⟩
    | false =>
      have hwaiting : (view.config c).pc t = .waiting := by
        change (c.pc t).seen = _
        have hp := hfits t
        generalize c.pc t = p at hp ht
        cases hp with
        | asleep => rfl
        | _ => cases ht
      refine (hmutex.awake t hwaiting hset).imp_right ?_
      rintro ⟨u, hu⟩
      exact ⟨u, underWay_of_seen (hfits u) hu⟩
  refine ⟨?_, ?_, hsleeper, ?_⟩
  · intro t u ht hu
    exact hmutex.exclusive t u ((hholding t).mpr ht) ((hholding u).mpr hu)
  · rw [show c.shared.state = (view.config c).shared.state from rfl, hmutex.held_iff]
    exact exists_congr hholding
  · rintro ⟨t, ht⟩
    cases hasleep : (c.pc t).event.asleepOn with
    | none => exact ⟨t, ht, hasleep⟩
    | some =>
      rcases hsleeper t hasleep with hmark | ⟨u, hu⟩
      · obtain ⟨u, hu⟩ := hmutex.held_iff.mp (show c.shared.state ≠ 0 by simp [hmark])
        refine ⟨u, ?_⟩
        have hhold := (hholding u).mp hu
        have hp := hfits u
        generalize c.pc u = p at hp hhold
        cases hp with
        | own p =>
          refine ⟨?_, rfl⟩
          rintro ⟨⟩
          cases hhold
        | _ => cases hhold
      · exact ⟨u, awake_of_underWay (hfits u) hu⟩

variable [DecidableEq T]

lemma seen_of_reachable (h : monitor.machine.Reachable start c) :
    view.Fits c ∧ code.machine.Reachable FastMutex.start (view.config c) :=
  have h₀ : view.Fits (start : Config T (Shared T) Place) := fun _ => .own .idle
  view.reachable (fun _ _ _ _ => trivial) h₀ h

lemma law_of_reachable (h : monitor.machine.Reachable start c) : Law c := by
  obtain ⟨hfits, hseen⟩ := seen_of_reachable h
  have hevent : AutoEvent.monitor.machine.Reachable (AutoEvent.start false) (event.config c) :=
    event.reachable h
  refine law_of_seen hfits ?_ (AutoEvent.covered_of_reachable hevent)
  exact hseen.invariant (I := FastMutex.Law) law_start fun _ _ _ hu _ hs => hu.step hs

/-- In every reachable state, down to the operations on `state_`, the sections and the notifications
of the event. -/
theorem mutex_and_event_law (h : monitor.machine.Reachable start c) : Law c := law_of_reachable h

/-- The second of three threads sleeps, the first one has released the mutex and set the flag and
has still to notify, and the third one has taken the mutex meanwhile. -/
theorem mutex_and_event_law_three : ∃ s : Config (Fin 3) (Shared (Fin 3)) Place,
    (s.pc 0).event = .notifying ∧ (s.pc 1).event = .asleep false ∧ (s.pc 2).mutex = .holding ∧
      Law s := by
  obtain ⟨s, hs, hp⟩ := Machine.exists_reachable_of_run (M := monitor.machine)
    (s := (start : Config (Fin 3) (Shared (Fin 3)) Place))
    [⟨0, .own .lock, none⟩, ⟨1, .own .lock, none⟩, ⟨1, .own .proceed, none⟩,
      ⟨1, .event .wait, none⟩, ⟨0, .own .unlock, none⟩, ⟨2, .own .lock, none⟩,
      ⟨0, .event .signal, none⟩]
    (fun s => (s.pc 0).event == .notifying && (s.pc 1).event == .asleep false &&
      (s.pc 2).mutex == .holding) (by decide +kernel)
  simp only [Bool.and_eq_true, beq_iff_eq, and_assoc] at hp
  exact ⟨s, hp.1, hp.2.1, hp.2.2, mutex_and_event_law hs⟩

end WithEvent

end FastMutex

end Sync
