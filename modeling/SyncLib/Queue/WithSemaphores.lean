import SyncLib.Core.Part
import SyncLib.Core.Settling
import SyncLib.Queue.Blocking
import SyncLib.Semaphore.Counting

/-!
# `blocking_queue` with its semaphores

`SyncLib.Queue.Blocking` reads `open_slots_` and `full_slots_` as counters. Here they are semaphores
whose threads run sections, notifications and waits, so that a push may sleep in a full queue and a
pop in an empty one, and nowhere else for good.
-/

namespace Sync

namespace Queue

open Core

namespace Blocking

namespace WithSemaphores

/-! ### The threads -/

/-- Where a thread is in the code of the queue, and in the method of a semaphore that it calls. -/
structure Place (α : Type*) where
  own : Blocking.Place α
  inner : Semaphore.Place
  deriving DecidableEq, Repr

/-- A call or a section, or a step of a method of a semaphore. -/
inductive Move (α : Type*)
  | own (m : Queue.Move α)
  | inner (m : Semaphore.Move)
  deriving DecidableEq, Repr

/-- The members. `pushed` and `popped` are not in the code: the elements in the order of the
sections that construct and remove them. -/
structure Shared (α T : Type*) where
  openSlots : Semaphore.Shared T
  fullSlots : Semaphore.Shared T
  data : ℕ → Option α
  pushIndex : UInt32
  popIndex : UInt32
  count : UInt32
  pushed : List α
  popped : List α

variable {α T : Type*}

/-- The semaphore that the operations of one side wait for. -/
def Shared.slots (s : Shared α T) : Side → Semaphore.Shared T
  | .push => s.openSlots
  | .pop  => s.fullSlots

def Shared.setSlots (s : Shared α T) (c : Semaphore.Shared T) : Side → Shared α T
  | .push => { s with openSlots := c }
  | .pop  => { s with fullSlots := c }

/-- What the queue sees of the members. -/
def Shared.view (s : Shared α T) : Blocking.Shared α :=
  ⟨s.openSlots.count.toNat, s.fullSlots.count.toNat, s.data, s.pushIndex, s.popIndex, s.count,
    s.pushed, s.popped⟩

/-- The members after a section under `mutex_`. -/
def Shared.setRing (s : Shared α T) (r : Blocking.Shared α) : Shared α T :=
  { s with data := r.data, pushIndex := r.pushIndex, popIndex := r.popIndex, count := r.count,
           pushed := r.pushed, popped := r.popped }

/-- The operation waits with `wait_for(seconds(0))`. -/
def tries : Op α → Bool
  | .push _ | .pop       => false
  | .tryPush _ | .tryPop => true

/-- The method of a semaphore that is called at a place. -/
def call : Blocking.Place α → Option (Side × Semaphore.Move)
  | .entering op  => some (op.side, if tries op then .waitFor else .wait)
  | .posting op _ => some (op.side.other, .post)
  | _             => none

/-- What an operation returns when its `wait_for` has returned `false`. -/
def refused : Op α → Result α
  | .push _ | .tryPush _ => .flag false
  | .pop | .tryPop       => .item none

/-- What a wait has returned. -/
def answer (s : Semaphore.Shared T) : Bool :=
  match s.log with
  | .failed _ :: _ => false
  | _              => true

/-- Where the code goes on after the method of a semaphore. -/
def goOn (b : Bool) : Blocking.Place α → Blocking.Place α
  | .entering op    => if b then .inside op else .outside (some (refused op))
  | .posting op opt => .outside (some (result op opt))
  | p               => p

/-- A call, a section under `mutex_`, or a step of a semaphore. -/
def next (size : UInt32) (t : T) (s : Shared α T) (p : Place α) :
    Move α → Option (Shared α T × Place α × Signal Side)
  | .own m =>
    match call p.own with
    | none   => (Blocking.next size s.view p.own m).map fun r =>
        (s.setRing r.1, ⟨r.2, .idle⟩, .none)
    | some _ => none
  | .inner m =>
    match call p.own with
    | none            => none
    | some (d, first) =>
      (Semaphore.monitor.callStep .idle first t (s.slots d) p.inner m).map fun r =>
        (s.setSlots r.1 d, ⟨if r.2.1 = .idle then goOn (answer r.1) p.own else p.own, r.2.1⟩,
          r.2.2.map fun _ => d)

/-- The semaphore in whose wait a thread sleeps. -/
def Place.asleepOn (p : Place α) : Option Side :=
  p.inner.asleepOn.bind fun _ => (call p.own).map (·.1)

/-- All threads around one queue. -/
def monitor (size : UInt32) : Monitor T (Shared α T) (Place α) Side (Move α) where
  next := next size
  asleepOn := Place.asleepOn
  wake p := { p with inner := p.inner.wake }

/-- After the constructor. -/
def start (size : UInt32) : Config T (Shared α T) (Place α) :=
  ⟨⟨⟨size.toUInt64, []⟩, ⟨0, []⟩, fun _ => none, 0, 0, 0, [], []⟩, fun _ => ⟨.outside none, .idle⟩⟩

/-- The places that a thread can be at. -/
inductive Fits : Place α → Prop
  | own (p : Blocking.Place α) : Fits ⟨p, .idle⟩
  | asleep (op : Op α) : Fits ⟨.entering op, .asleep (tries op)⟩
  | woken (op : Op α) (notified : Bool) : Fits ⟨.entering op, .woken (tries op) notified⟩
  | notifying (op : Op α) (opt : Option α) : Fits ⟨.posting op opt, .notifyingOne⟩

/-- Where a thread is in a semaphore that tests the predicate of its wait next. -/
def Tests (e : Semaphore.Place) : Prop := e = .idle ∨ ∃ timed notified, e = .woken timed notified

lemma Tests.ne {e : Semaphore.Place} (h : Tests e) : e ≠ .notifyingOne ∧ e.asleepOn = none := by
  rcases h with rfl | ⟨timed, notified, rfl⟩
  · exact ⟨by simp, rfl⟩
  · exact ⟨by simp, rfl⟩

/-- What a step of one thread does, one constructor for each effect. -/
inductive Step (size : UInt32) (t : T) (s : Shared α T) :
    Place α → Move α → Shared α T → Place α → Signal Side → Prop
  | own {q q' : Blocking.Place α} {m : Queue.Move α} {r : Blocking.Shared α} (hq : call q = none)
      (h : Blocking.next size s.view q m = some (r, q')) :
      Step size t s ⟨q, .idle⟩ (.own m) (s.setRing r) ⟨q', .idle⟩ .none
  | take {op : Op α} {e : Semaphore.Place} {m : Semaphore.Move} (he : Tests e)
      (hc : (s.slots op.side).count ≠ 0) :
      Step size t s ⟨.entering op, e⟩ (.inner m) (s.setSlots ((s.slots op.side).take t) op.side)
        ⟨.inside op, .idle⟩ .none
  | refuse {op : Op α} {e : Semaphore.Place} {m : Semaphore.Move} (he : Tests e)
      (htries : tries op = true) (hc : (s.slots op.side).count = 0) :
      Step size t s ⟨.entering op, e⟩ (.inner m) (s.setSlots ((s.slots op.side).fail t) op.side)
        ⟨.outside (some (refused op)), .idle⟩ .none
  | sleep {op : Op α} {e : Semaphore.Place} {m : Semaphore.Move} (he : Tests e)
      (hc : (s.slots op.side).count = 0) :
      Step size t s ⟨.entering op, e⟩ (.inner m) s ⟨.entering op, .asleep (tries op)⟩ .none
  | wakeUp {op : Op α} :
      Step size t s ⟨.entering op, .asleep (tries op)⟩ (.inner .wakeUp) s
        ⟨.entering op, .woken (tries op) false⟩ .none
  | post {op : Op α} {opt : Option α} :
      Step size t s ⟨.posting op opt, .idle⟩ (.inner .post)
        (s.setSlots (Semaphore.post t (s.slots op.side.other)).1 op.side.other)
        ⟨.posting op opt, .notifyingOne⟩ .none
  | notify {op : Op α} {opt : Option α} :
      Step size t s ⟨.posting op opt, .notifyingOne⟩ (.inner .notify) s
        ⟨.outside (some (result op opt)), .idle⟩ (.one op.side.other)

variable {size : UInt32} {t : T} {s s' : Shared α T} {p p' : Place α} {m : Move α}
  {sig : Signal Side}

@[simp] lemma Shared.setSlots_slots (s : Shared α T) (d : Side) : s.setSlots (s.slots d) d = s := by
  cases d <;> rfl

@[simp] lemma Shared.slots_setSlots_self (s : Shared α T) (c : Semaphore.Shared T) (d : Side) :
    (s.setSlots c d).slots d = c := by
  cases d <;> rfl

lemma Shared.slots_setSlots_of_ne (s : Shared α T) (c : Semaphore.Shared T) {d e : Side}
    (h : e ≠ d) : (s.setSlots c d).slots e = s.slots e := by
  cases d <;> cases e <;> first | rfl | exact absurd rfl h

@[simp] lemma Shared.slots_setRing (s : Shared α T) (r : Blocking.Shared α) (d : Side) :
    (s.setRing r).slots d = s.slots d := by
  cases d <;> rfl

/-- The step of a wait that tests its predicate, with what it makes of the thread. -/
lemma step_of_test {op : Op α} {e : Semaphore.Place} {m : Semaphore.Move}
    {r : Semaphore.Shared T × Semaphore.Place} (he : Tests e)
    (hr : r = ((s.slots op.side).take t, .idle) ∧ (s.slots op.side).count ≠ 0 ∨
      r = ((s.slots op.side).fail t, .idle) ∧ tries op = true ∧ (s.slots op.side).count = 0 ∨
      r = (s.slots op.side, .asleep (tries op)) ∧ (s.slots op.side).count = 0) :
    Step size t s ⟨.entering op, e⟩ (.inner m) (s.setSlots r.1 op.side)
      ⟨if r.2 = .idle then goOn (answer r.1) (.entering op) else .entering op, r.2⟩ .none := by
  rcases hr with ⟨rfl, hc⟩ | ⟨rfl, htries, hc⟩ | ⟨rfl, hc⟩
  · exact .take he hc
  · exact .refuse he htries hc
  · rw [Shared.setSlots_slots]
    exact .sleep he hc

lemma step_of_wait {op : Op α} {e : Semaphore.Place} {m : Semaphore.Move} (he : Tests e)
    (htries : tries op = false) :
    Step size t s ⟨.entering op, e⟩ (.inner m)
      (s.setSlots (Semaphore.wait t (s.slots op.side)).1 op.side)
      ⟨if (Semaphore.wait t (s.slots op.side)).2 = .idle
        then goOn (answer (Semaphore.wait t (s.slots op.side)).1) (.entering op) else .entering op,
        (Semaphore.wait t (s.slots op.side)).2⟩ .none := by
  refine step_of_test he ?_
  unfold Semaphore.wait
  split_ifs with hc
  · exact .inl ⟨rfl, hc⟩
  · rw [htries]
    exact .inr (.inr ⟨rfl, not_not.mp hc⟩)

lemma step_of_timedWait {op : Op α} {e : Semaphore.Place} {m : Semaphore.Move}
    (he : Tests e) (htries : tries op = true) (b : Bool) :
    Step size t s ⟨.entering op, e⟩ (.inner m)
      (s.setSlots (Semaphore.timedWait t b (s.slots op.side)).1 op.side)
      ⟨if (Semaphore.timedWait t b (s.slots op.side)).2 = .idle
        then goOn (answer (Semaphore.timedWait t b (s.slots op.side)).1) (.entering op)
        else .entering op,
        (Semaphore.timedWait t b (s.slots op.side)).2⟩ .none := by
  refine step_of_test he ?_
  unfold Semaphore.timedWait
  split_ifs with hc hb
  · exact .inl ⟨rfl, hc⟩
  · rw [htries]
    exact .inr (.inr ⟨rfl, not_not.mp hc⟩)
  · exact .inr (.inl ⟨rfl, htries, not_not.mp hc⟩)

lemma step_of_next (hp : Fits p) (h : next size t s p m = some (s', p', sig)) :
    Step size t s p m s' p' sig := by
  cases m with
  | own m =>
    simp only [next] at h
    split at h
    · rename_i hcall
      simp only [Option.map_eq_some_iff, Prod.mk.injEq] at h
      obtain ⟨⟨r, q⟩, hn, rfl, rfl, rfl⟩ := h
      cases hp with
      | own p => exact .own hcall hn
      | _ => cases hcall
    · cases h
  | inner m =>
    simp only [next] at h
    split at h
    · cases h
    · rename_i d first hcall
      simp only [Option.map_eq_some_iff, Prod.mk.injEq] at h
      obtain ⟨⟨c, e', sig'⟩, hn, rfl, rfl, rfl⟩ := h
      obtain ⟨hfirst, hn⟩ := Monitor.next_of_callStep hn
      cases hp with
      | own p =>
        obtain rfl := hfirst rfl
        cases p with
        | outside | inside => cases hcall
        | posting op opt =>
          cases hcall
          cases hn
          exact .post
        | entering op =>
          cases hcall
          cases htries : tries op with
          | false =>
            simp only [htries, Bool.false_eq_true, if_false] at hn
            cases hn
            exact step_of_wait (.inl rfl) htries
          | true =>
            simp only [htries, if_true] at hn
            cases hn
            exact step_of_timedWait (.inl rfl) htries true
      | asleep op =>
        cases hcall
        cases m <;> cases hn
        rw [Shared.setSlots_slots]
        exact .wakeUp
      | woken op notified =>
        cases hcall
        cases htries : tries op with
        | false =>
          rw [htries] at hn
          cases m <;> cases hn
          exact step_of_wait (.inr ⟨_, _, rfl⟩) htries
        | true =>
          rw [htries] at hn
          cases m <;> cases hn
          exact step_of_timedWait (.inr ⟨_, _, rfl⟩) htries _
      | notifying op opt =>
        cases hcall
        cases m <;> cases hn
        rw [Shared.setSlots_slots]
        exact .notify

lemma Step.fits (h : Step size t s p m s' p' sig) : Fits p' := by
  cases h with
  | own | take | refuse | notify => exact .own _
  | sleep => exact .asleep _
  | wakeUp => exact .woken _ _
  | post => exact .notifying _ _

lemma Fits.wake (hp : Fits p) : Fits { p with inner := p.inner.wake } := by
  cases hp with
  | own p => exact .own p
  | asleep op => exact .woken op true
  | woken op b => exact .woken op b
  | notifying op opt => exact .notifying op opt

/-! ### What the queue sees -/

/-- A call is over for the queue when the token is there. -/
def Place.seen (p : Place α) : Blocking.Place α :=
  if p.inner = .notifyingOne then goOn true p.own else p.own

/-- The step that the queue sees when it sees one. -/
def Move.seen (s : Shared α T) (p : Place α) : Move α → Queue.Move α
  | .own m   => m
  | .inner _ =>
    match p.own with
    | .entering op => if (s.slots op.side).count = 0 then .fail else .proceed
    | _            => .proceed

lemma view_take (op : Op α) (hc : (s.slots op.side).count ≠ 0) :
    Blocking.wait op.side s.view =
      some (s.setSlots ((s.slots op.side).take t) op.side).view := by
  have hpred := toNat_sub_one_add_one hc
  have hpos : 0 < (s.slots op.side).count.toNat := by omega
  have hsub : ((s.slots op.side).count - 1).toNat = (s.slots op.side).count.toNat - 1 := by omega
  cases hop : op.side with
  | push =>
    rw [hop] at hpos hsub
    refine (if_pos hpos).trans (congrArg some ?_)
    simp only [Shared.view, Shared.setSlots, Shared.slots, Semaphore.Shared.take] at hsub ⊢
    rw [hsub]
  | pop =>
    rw [hop] at hpos hsub
    refine (if_pos hpos).trans (congrArg some ?_)
    simp only [Shared.view, Shared.setSlots, Shared.slots, Semaphore.Shared.take] at hsub ⊢
    rw [hsub]

lemma view_post (d : Side) (hd : (s.slots d).count.toNat + 1 < 2 ^ 64) :
    (s.setSlots (Semaphore.post t (s.slots d)).1 d).view = Blocking.post d.other s.view := by
  have hadd : ((s.slots d).count + 1).toNat = (s.slots d).count.toNat + 1 := toNat_add_of_lt hd
  cases d with
  | push =>
    simp only [Shared.view, Shared.setSlots, Shared.slots, Semaphore.post] at hadd ⊢
    rw [hadd]
    rfl
  | pop =>
    simp only [Shared.view, Shared.setSlots, Shared.slots, Semaphore.post] at hadd ⊢
    rw [hadd]
    rfl

/-- What is refused leaves the queue alone. -/
lemma view_fail (d : Side) : (s.setSlots ((s.slots d).fail t) d).view = s.view := by
  cases d <;> rfl

lemma view_setRing {q q' : Blocking.Place α} {m : Queue.Move α} {r : Blocking.Shared α}
    (hq : call q = none) (h : Blocking.next size s.view q m = some (r, q')) :
    (s.setRing r).view = r := by
  have heffect := Effect.of_next h
  cases heffect with
  | call => rfl
  | enter op => cases op <;> rfl
  | _ => cases hq

/-- A step of the code with the semaphores is one of the code with counters, or it is not seen, as
long as a post does not wrap a count around. -/
lemma seen_of_step (hsafe : ∀ d, (s.slots d).count.toNat + 1 < 2 ^ 64)
    (h : Step size t s p m s' p' sig) : (s'.view = s.view ∧ p'.seen = p.seen) ∨
      Blocking.next size s.view p.seen (m.seen s p) = some (s'.view, p'.seen) := by
  cases h with
  | own hq hn =>
    right
    rw [view_setRing hq hn]
    exact hn
  | @take op e m he hc =>
    right
    have hseen : (⟨.entering op, e⟩ : Place α).seen = .entering op := if_neg he.ne.1
    simp only [hseen, Move.seen, if_neg hc, Blocking.next, view_take (t := t) op hc]
    rfl
  | @refuse op e m he htries hc =>
    right
    have hseen : (⟨.entering op, e⟩ : Place α).seen = .entering op := if_neg he.ne.1
    rw [view_fail]
    simp only [hseen, Move.seen, if_pos hc]
    cases op with
    | push | pop => cases htries
    | tryPush x => rfl
    | tryPop => rfl
  | sleep he hc => exact .inl ⟨rfl, (if_neg he.ne.1).symm⟩
  | wakeUp => exact .inl ⟨rfl, rfl⟩
  | @post op opt =>
    right
    rw [view_post _ (hsafe _)]
    have hside : op.side.other.other = op.side := by cases op <;> rfl
    rw [hside]
    rfl
  | notify => exact .inl ⟨rfl, rfl⟩

lemma seen_wake (hp : Fits p) : Place.seen { p with inner := p.inner.wake } = p.seen := by
  cases hp <;> rfl

/-- The queue sees counters. -/
def view (size : UInt32) : View (monitor size : Monitor T (Shared α T) (Place α) Side (Move α))
    (code size : Code T (Blocking.Shared α) (Blocking.Place α) (Queue.Move α)) where
  shared := Shared.view
  place := Place.seen
  move s p m := m.seen s p
  fits := Fits
  safe _ s _ _ := ∀ d, (s.slots d).count.toNat + 1 < 2 ^ 64
  fits_wake _ := Fits.wake
  place_wake _ := seen_wake
  fits_next hp h := (step_of_next hp h).fits
  next hp hsafe h := seen_of_step hsafe (step_of_next hp h)

/-! ### What a semaphore sees -/

/-- Where a thread is in the methods of a semaphore. -/
def Place.sem (p : Place α) (d : Side) : Semaphore.Place :=
  match call p.own with
  | some (e, _) => if e = d then p.inner else .idle
  | none        => .idle

lemma sem_of_idle {d : Side} (h : p.inner = .idle) : p.sem d = .idle := by
  unfold Place.sem
  split
  · split_ifs
    · exact h
    · rfl
  · rfl

/-- Where a thread is after a step of the method that it calls. -/
lemma sem_of_call {q : Blocking.Place α} {d e : Side} {first : Semaphore.Move} {b : Bool}
    {i : Semaphore.Place} (hcall : call q = some (e, first)) :
    Place.sem ⟨if i = .idle then goOn b q else q, i⟩ d = if e = d then i else .idle := by
  by_cases hi : i = .idle
  · subst hi
    rw [sem_of_idle rfl]
    split_ifs <;> rfl
  · simp only [Place.sem, if_neg hi, hcall]

lemma asleepOn_iff {d : Side} {c : Unit} :
    p.asleepOn = some d ↔ (p.sem d).asleepOn = some c := by
  obtain ⟨own, inner⟩ := p
  cases hcall : call own with
  | none => simp [Place.asleepOn, Place.sem, hcall, Semaphore.Place.asleepOn]
  | some r =>
    obtain ⟨e, first⟩ := r
    cases hinner : inner.asleepOn with
    | none =>
      simp only [Place.asleepOn, Place.sem, hcall, hinner, Option.bind_none, reduceCtorEq,
        false_iff]
      split_ifs
      · simp [hinner]
      · simp [Semaphore.Place.asleepOn]
    | some u =>
      simp only [Place.asleepOn, Place.sem, hcall, hinner, Option.bind_some, Option.map_some,
        Option.some.injEq]
      split_ifs with he
      · simp [he, hinner]
      · simp [he, Semaphore.Place.asleepOn]

lemma sem_wake {d : Side} (h : p.asleepOn = some d) :
    Place.sem { p with inner := p.inner.wake } d = (p.sem d).wake := by
  obtain ⟨u, -, hr⟩ := Option.bind_eq_some_iff.mp h
  obtain ⟨⟨e, first⟩, hcall, rfl⟩ := Option.map_eq_some_iff.mp hr
  simp [Place.sem, hcall]

lemma sem_wake_other {d e : Side} (h : p.asleepOn = some e) (he : e ≠ d) :
    Place.sem { p with inner := p.inner.wake } d = p.sem d := by
  obtain ⟨u, -, hr⟩ := Option.bind_eq_some_iff.mp h
  obtain ⟨⟨e', first⟩, hcall, rfl⟩ := Option.map_eq_some_iff.mp hr
  simp [Place.sem, hcall, he]

/-- A step is one of the semaphore of one side, or the semaphore does not see it. -/
lemma sem_of_next (d : Side) (h : next size t s p m = some (s', p', sig)) :
    (s'.slots d = s.slots d ∧ p'.sem d = p.sem d ∧ ∀ _ : Unit, sig.cond ≠ some d) ∨
      ∃ m₂ sig₂, Semaphore.next t (s.slots d) (p.sem d) m₂ = some (s'.slots d, p'.sem d, sig₂) ∧
        sig = sig₂.map fun _ => d := by
  cases m with
  | own m =>
    left
    simp only [next] at h
    split at h
    · rename_i hcall
      simp only [Option.map_eq_some_iff, Prod.mk.injEq] at h
      obtain ⟨⟨r, q⟩, -, rfl, rfl, rfl⟩ := h
      refine ⟨Shared.slots_setRing .., ?_, fun _ hc => by cases hc⟩
      rw [sem_of_idle rfl, Place.sem, hcall]
    · cases h
  | inner m =>
    simp only [next] at h
    split at h
    · cases h
    · rename_i e first hcall
      simp only [Option.map_eq_some_iff, Prod.mk.injEq] at h
      obtain ⟨⟨c, e', sig'⟩, hn, rfl, rfl, rfl⟩ := h
      rw [sem_of_call (b := answer c) hcall, Place.sem, hcall]
      by_cases he : e = d
      · subst he
        simp only [Shared.slots_setSlots_self, if_true]
        exact .inr ⟨m, sig', (Monitor.next_of_callStep hn).2, rfl⟩
      · refine .inl ⟨Shared.slots_setSlots_of_ne _ _ (Ne.symm he), ?_,
          fun _ => Signal.cond_map_ne (fun _ => he) _⟩
        rw [if_neg he]
        exact (if_neg he).symm

/-- The semaphore of one side, as a part. -/
def sem (size : UInt32) (d : Side) :
    Part (monitor size : Monitor T (Shared α T) _ _ _) (Semaphore.monitor (T := T)) where
  shared s := s.slots d
  place p := p.sem d
  cond _ := d
  asleepOn _ _ := asleepOn_iff
  wake _ _ := sem_wake
  wake_other _ _ h hd := sem_wake_other h (hd ())
  next h := sem_of_next d h

/-! ### Threads that settle -/

/-- A thread is outside of the methods, or it sleeps. -/
def Place.Settled (p : Place α) : Prop := (∃ r, p.own = .outside r) ∨ p.asleepOn ≠ none

/-- No call begins, and nobody wakes up without a notification. -/
def GoesOn : Move α → Prop
  | .own (.call _)  => False
  | .own _          => True
  | .inner .wakeUp  => False
  | .inner _        => True

/-- How far a thread is from the end of its call, or from its sleep. -/
def Place.rank (p : Place α) : ℕ :=
  match p.own with
  | .outside _   => 0
  | .entering _  => if p.inner.asleepOn = none then 5 else 4
  | .inside _    => 4
  | .posting _ _ => if p.inner = .idle then 3 else 2

lemma rank_wake_le (p : Place α) : Place.rank { p with inner := p.inner.wake } ≤ p.rank + 1 := by
  obtain ⟨own, inner⟩ := p
  cases own with
  | outside | inside => exact Nat.le_succ _
  | entering =>
    simp only [Place.rank]
    split_ifs <;> omega
  | posting => cases inner <;> exact Nat.le_succ _

lemma rank_of_tests {op : Op α} {e : Semaphore.Place} (he : Tests e) :
    Place.rank ⟨.entering op, e⟩ = 5 :=
  if_pos he.ne.2

/-- A step brings the thread nearer, and wakes one other thread at most. -/
lemma rank_of_step (h : Step size t s p m s' p' sig) (hm : GoesOn m) :
    (∀ d, sig ≠ .all d) ∧ p'.rank + sig.raise 1 < p.rank := by
  cases h with
  | @own q q' m r hq hn =>
    refine ⟨by simp, ?_⟩
    cases Effect.of_next hn with
    | call r op => cases m <;> first | exact hm.elim | cases hn
    | enter op => exact Nat.lt_succ_self 3
    | _ => cases hq
  | take he | refuse he | sleep he =>
    refine ⟨by simp, ?_⟩
    rw [rank_of_tests he]
    exact Nat.le_add_left _ _
  | wakeUp => exact hm.elim
  | post => exact ⟨by simp, Nat.lt_succ_self 2⟩
  | notify => exact ⟨by simp, Nat.lt_succ_self 1⟩

/-- A thread that has not settled can take a step. -/
lemma exists_next (hp : Fits p) (hsettled : ¬ p.Settled) :
    ∃ m, GoesOn m ∧ (next size t s p m).isSome = true := by
  cases hp with
  | own q =>
    cases q with
    | outside r => exact absurd (.inl ⟨r, rfl⟩) hsettled
    | inside op => exact ⟨.own .proceed, trivial, rfl⟩
    | posting op opt => exact ⟨.inner .post, trivial, rfl⟩
    | entering op =>
      cases htries : tries op with
      | false =>
        refine ⟨.inner .wait, trivial, ?_⟩
        simp only [next, call, htries, Bool.false_eq_true, if_false, Option.isSome_map]
        rfl
      | true =>
        refine ⟨.inner .waitFor, trivial, ?_⟩
        simp only [next, call, htries, if_true, Option.isSome_map]
        rfl
  | asleep op =>
    refine absurd (.inr ?_) hsettled
    simp [Place.asleepOn, Semaphore.Place.asleepOn, call]
  | woken op notified =>
    refine ⟨.inner (.recheck true), trivial, ?_⟩
    cases tries op <;> rfl
  | notifying op opt => exact ⟨.inner .notify, trivial, rfl⟩

/-- A thread that has not settled can get nearer. -/
lemma exists_nearer (hp : Fits p) (hsettled : ¬ p.Settled) :
    ∃ m s' p' sig, GoesOn m ∧ (∀ d, sig ≠ .all d) ∧ next size t s p m = some (s', p', sig) ∧
      p'.rank + sig.raise 1 < p.rank := by
  obtain ⟨m, hm, hsome⟩ := exists_next hp hsettled
  obtain ⟨⟨s', p', sig⟩, hn⟩ := Option.isSome_iff_exists.mp hsome
  obtain ⟨hall, hlt⟩ := rank_of_step (step_of_next hp hn) hm
  exact ⟨m, s', p', sig, hm, hall, hn, hlt⟩

/-! ### The law -/

/-- A thread is outside of the methods, or it sleeps in a push of a full queue, or in a pop of an
empty one. -/
def AtRest (size : UInt32) (s : Shared α T) (p : Place α) : Prop :=
  (∃ r, p.own = .outside r) ∨ p.asleepOn = some .push ∧ s.count = size ∨
    p.asleepOn = some .pop ∧ s.count = 0

lemma AtRest.settled (h : AtRest size s p) : p.Settled := by
  rcases h with hout | ⟨hasleep, -⟩ | ⟨hasleep, -⟩
  · exact .inl hout
  · exact .inr (by simp [hasleep])
  · exact .inr (by simp [hasleep])

/-- A thread that has settled has no token in its hands, and owes nobody a notification. -/
lemma of_settled (hp : Fits p) (h : p.Settled) (d : Side) :
    p.seen.insideOf d = 0 ∧ p.seen.postingOf d = 0 ∧ p.sem d ≠ .notifyingAll ∧
      (p.sem d).toSend + (p.sem d).notified = 0 := by
  cases hp with
  | own q =>
    cases q with
    | outside r => exact ⟨rfl, rfl, by simp [Place.sem, call], rfl⟩
    | _ =>
      rcases h with ⟨r, hr⟩ | hasleep
      · cases hr
      · exact absurd rfl hasleep
  | asleep op =>
    refine ⟨rfl, rfl, ?_, ?_⟩
    · simp only [Place.sem, call]
      split_ifs <;> simp
    · simp only [Place.sem, call]
      split_ifs <;> rfl
  | woken | notifying =>
    rcases h with ⟨r, hr⟩ | hasleep
    · cases hr
    · exact absurd rfl hasleep

variable [Fintype T] {c c' : Config T (Shared α T) (Place α)} {l : List α}

/-- What is known of the queue with counters, and of each semaphore by itself. -/
lemma atRest_of_settled (hfits : (view size).Fits c) (hinv : Inv size ((view size).config c) l)
    (hsem : ∀ d, Semaphore.baton.Covered ((sem size d).config c))
    (hsettled : ∀ t, (c.pc t).Settled) (t : T) : AtRest size c.shared (c.pc t) := by
  have hplace := fun u => of_settled (hfits u) (hsettled u)
  have hinside : ∀ d, total (Place.insideOf d) ((view size).config c) = 0 := fun d =>
    tally_eq_zero_iff.mpr fun u => (hplace u d).1
  have hposting : ∀ d, total (Place.postingOf d) ((view size).config c) = 0 := fun d =>
    tally_eq_zero_iff.mpr fun u => (hplace u d).2.1
  -- a semaphore with a sleeper has no token, as nobody is left who could have been told of it
  have hzero : ∀ d, (c.pc t).asleepOn = some d → (c.shared.slots d).count.toNat = 0 := by
    intro d hd
    have hcredit : tally (fun p : Semaphore.Place => p.toSend + p.notified)
        ((sem size d).config c).pc = 0 :=
      tally_eq_zero_iff.mpr fun u => (hplace u d).2.2.2
    rcases hsem d ⟨t, asleepOn_iff.mp hd⟩ with ⟨u, hu⟩ | hle
    · exact absurd hu (hplace u d).2.2.1
    · exact Nat.le_zero.mp (hle.trans hcredit.le)
  have hcount : c.shared.count.toNat = l.length := hinv.count
  rcases hsettled t with hout | hasleep
  · exact .inl hout
  · obtain ⟨d, hd⟩ := Option.ne_none_iff_exists'.mp hasleep
    cases d with
    | push =>
      refine .inr (.inl ⟨hd, UInt32.toNat_inj.mp ?_⟩)
      have hopen := hinv.openSlots
      rw [hinside, hposting] at hopen
      have hnone : ((view size).config c).shared.openSlots = 0 := hzero .push hd
      omega
    | pop =>
      refine .inr (.inr ⟨hd, UInt32.toNat_inj.mp ?_⟩)
      have hfull := hinv.fullSlots
      rw [hinside, hposting] at hfull
      have hnone : ((view size).config c).shared.fullSlots = 0 := hzero .pop hd
      rw [UInt32.toNat_zero]
      omega

lemma safe_of_inv (h : Inv size ((view size).config c) l) (d : Side) :
    (c.shared.slots d).count.toNat + 1 < 2 ^ 64 := by
  have hlength := h.ring.length_le
  have hopen := h.openSlots
  have hfull := h.fullSlots
  have hsize := size.toNat_lt
  cases d with
  | push =>
    change ((view size).config c).shared.openSlots + 1 < 2 ^ 64
    omega
  | pop =>
    change ((view size).config c).shared.fullSlots + 1 < 2 ^ 64
    omega

/-- The queue is in order and keeps the order of its elements, and its threads get as far as the
queue lets them: who is left in a call sleeps in a push of a full queue or in a pop of an empty
one. -/
structure Law [DecidableEq T] (size : UInt32) (c : Config T (Shared α T) (Place α)) : Prop where
  queue : QueueLaw size ((view size).config c)
  fifo : ∃ l, c.shared.pushed = c.shared.popped ++ l ∧ c.shared.count.toNat = l.length
  rest : (∀ t, (c.pc t).Settled) → ∀ t, AtRest size c.shared (c.pc t)
  /-- This takes no call of another thread. -/
  settles : ∃ c', (monitor size).machine.Runs (fun _ a => GoesOn a.move) c c' ∧
    ∀ t, AtRest size c'.shared (c'.pc t)

variable [DecidableEq T]

lemma seen_of_reachable (hsize : size ≠ 0) (h : (monitor size).machine.Reachable (start size) c) :
    (view size).Fits c ∧ ∃ l, Inv size ((view size).config c) l := by
  have hstart : (view size).config (start size : Config T (Shared α T) (Place α))
      = Blocking.start size := by
    simp only [View.config, view, start, Shared.view, UInt32.toNat_toUInt64]
    rfl
  have hseen : (view size).Fits c ∧
      (code size).machine.Reachable (Blocking.start size) ((view size).config c) := by
    rw [← hstart]
    refine (view size).runs (fun _ => .own _) (fun u _ _ _ hu _ => ?_) (fun _ _ _ => trivial) h
    rw [hstart] at hu
    obtain ⟨l, hl⟩ := Inv.of_reachable hsize hu
    exact safe_of_inv hl
  exact ⟨hseen.1, Inv.of_reachable hsize hseen.2⟩

lemma covered_of_reachable (hsize : size ≠ 0)
    (h : (monitor size).machine.Reachable (start size) c) (d : Side) :
    Semaphore.baton.Covered ((sem size d).config c) := by
  have hsem : Semaphore.monitor.machine.Runs
      (fun u a => a.move = .post → u.shared.count.toNat + 1 < 2 ^ 64)
      ((sem size d).config (start size : Config T (Shared α T) (Place α)))
      ((sem size d).config c) := by
    refine (sem size d).runs (fun u _ _ _ hu _ _ _ _ => ?_) h
    obtain ⟨-, l, hl⟩ := seen_of_reachable hsize hu
    exact safe_of_inv hl d
  have hstart : (sem size d).config (start size : Config T (Shared α T) (Place α))
      = Semaphore.start (match d with | .push => size.toUInt64 | .pop => 0) := by
    cases d <;> rfl
  rw [hstart] at hsem
  exact Semaphore.covered_of_runs (fun _ _ h => h) hsem

lemma rest_of_reachable (hsize : size ≠ 0)
    (h : (monitor size).machine.Reachable (start size) c) (hsettled : ∀ t, (c.pc t).Settled)
    (t : T) : AtRest size c.shared (c.pc t) := by
  obtain ⟨hfits, l, hinv⟩ := seen_of_reachable hsize h
  exact atRest_of_settled hfits hinv (covered_of_reachable hsize h) hsettled t

/-- In every reachable state of a queue of any size and any number of threads, down to the sections
and the notifications of its semaphores. -/
theorem queue_and_semaphores_law (hsize : size ≠ 0)
    (h : (monitor size).machine.Reachable (start size) c) : Law size c := by
  obtain ⟨hfits, l, hinv⟩ := seen_of_reachable hsize h
  refine ⟨hinv.queueLaw, ⟨l, hinv.history, hinv.count⟩, rest_of_reachable hsize h, ?_⟩
  have hsettled : ∃ c', (monitor size).machine.Runs (fun _ a => GoesOn a.move) c c' ∧
      (monitor size).machine.Reachable (start size) c' ∧ ∀ t, (c'.pc t).Settled :=
    Monitor.exists_runs_settled rank_wake_le (fun _ _ _ hu _ hs => hu.tail trivial hs)
      (fun _ t hu => exists_nearer ((seen_of_reachable hsize hu).1 t)) h
  obtain ⟨c', hruns, hc', hsettled⟩ := hsettled
  exact ⟨c', hruns, rest_of_reachable hsize hc' hsettled⟩

/-- In a queue of one slot, a push sleeps in `open_slots_`, where a pop has posted and has still to
notify. -/
theorem queue_and_semaphores_law_three : ∃ c : Config (Fin 3) (Shared ℕ (Fin 3)) (Place ℕ),
    (c.pc 1).asleepOn = some .push ∧ (c.pc 2).inner = .notifyingOne ∧ c.shared.popped = [7] ∧
      Law 1 c := by
  obtain ⟨c, hc, hp⟩ := Machine.exists_reachable_of_run (M := (monitor 1).machine)
    (s := (start 1 : Config (Fin 3) (Shared ℕ (Fin 3)) (Place ℕ)))
    [⟨0, .own (.call (.push 7)), none⟩, ⟨0, .inner .wait, none⟩, ⟨0, .own .proceed, none⟩,
      ⟨0, .inner .post, none⟩, ⟨0, .inner .notify, none⟩, ⟨1, .own (.call (.push 8)), none⟩,
      ⟨1, .inner .wait, none⟩, ⟨2, .own (.call .pop), none⟩, ⟨2, .inner .wait, none⟩,
      ⟨2, .own .proceed, none⟩, ⟨2, .inner .post, none⟩]
    (fun c => (c.pc 1).asleepOn == some .push && (c.pc 2).inner == .notifyingOne &&
      c.shared.popped == [7]) (by decide +kernel)
  simp only [Bool.and_eq_true, beq_iff_eq, and_assoc] at hp
  exact ⟨c, hp.1, hp.2.1, hp.2.2, queue_and_semaphores_law (by decide) hc⟩

end WithSemaphores

end Blocking

end Queue

end Sync
