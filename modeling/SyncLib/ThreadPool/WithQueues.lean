import SyncLib.Core.Part
import SyncLib.Core.Settling
import SyncLib.ThreadPool.Shutdown

/-!
# The thread pools with their queues

In `SyncLib.ThreadPool.Basic` an operation of a queue is one step. Here the threads of a pool run
the methods of `simple_blocking_queue`, with their notifications and their waits: a pool that is
left alone executes everything that was posted, and its workers sleep then.
-/

namespace Sync

open Core

namespace ThreadPool

namespace WithQueues

open Queue.SimpleBlocking (Contents)

/-! ### The threads -/

/-- A thread that posts, or a worker. -/
inductive Own (n : ℕ) (κ α : Type*)
  | poster (q : Poster κ α)
  | worker (i : Fin n) (q : Worker κ α)

/-- Where a thread is in the code of the pool, and in the method of a queue that it calls. -/
structure Place (n : ℕ) (κ α : Type*) where
  own : Own n κ α
  inner : Queue.SimpleBlocking.Place

/-- A call of `post_work` or `post_task`, the execution of a work object, the call of a method of a
queue, where `free` is whether its mutex was free, or the next step in a method. -/
inductive Move (α : Type*)
  | post (proc : α)
  | run
  | call (free : Bool)
  | go (m : Queue.SimpleBlocking.Move (Work α))

/-- The members of a pool, with the work objects that were posted, those that were placed, in which
queue, and those that were executed. -/
structure Shared (T κ ξ α : Type*) where
  queues : κ → Queue.SimpleBlocking.Shared T (Work α)
  counter : ξ
  posted : List (Work α)
  placed : List (κ × Work α)
  executed : List (Work α)

variable {P T κ ξ α : Type*} {n : ℕ}

/-- The work object that goes into the queue `k` in the section that ends before a notification. -/
def Own.places (k : κ) (e : Queue.SimpleBlocking.Place) : Own n κ α → List (κ × Work α)
  | .poster (.posting work _ _) => if e = .notifyingOne then [(k, work)] else []
  | _                           => []

/-- Where the code goes on after the method of a queue, by the place in it before its last step and
the log of the queue after it. -/
def goOn (e : Queue.SimpleBlocking.Place) (log : List (Queue.SimpleBlocking.Event T (Work α))) :
    Own n κ α → Own n κ α
  | .poster (.posting work rest last) =>
    if e = .notifyingOne then .poster .idle else .poster (.posting work rest.tail last)
  | .worker i (.taking rest) =>
    match log, rest with
    | .popped _ work :: _, _ => .worker i (.running work)
    | _, []                  => .worker i .exited
    | _, _ :: rest           => .worker i (.taking rest)
  | q => q

section

variable (D : Design n κ ξ)

/-- The queue and the method that a thread calls next. -/
def first (free : Bool) : Own n κ α → Option (κ × Queue.SimpleBlocking.Move (Work α))
  | .poster (.posting work [] last)    => some (last, .push work)
  | .poster (.posting work (k :: _) _) => some (k, .tryPush free work)
  | .worker i (.taking [])             => some (D.home i, .pop)
  | .worker _ (.taking (k :: _))       => some (k, .tryPop free)
  | _                                  => none

/-- The queue whose method a thread is in, or calls next. -/
def queue (q : Own n κ α) : Option κ := (first D true q).map (·.1)

variable [DecidableEq κ]

/-- One step in a method of the queue `k`. -/
def queueStep (t : T) (s : Shared T κ ξ α) (p : Place n κ α) (k : κ)
    (m : Queue.SimpleBlocking.Move (Work α)) : Option (Shared T κ ξ α × Place n κ α × Signal κ) :=
  (Queue.SimpleBlocking.next t (s.queues k) p.inner m).map fun r =>
    ({ s with queues := Function.update s.queues k r.1,
              placed := s.placed ++ p.own.places k r.2.1 },
      ⟨if r.2.1 = .idle then goOn p.inner r.1.log p.own else p.own, r.2.1⟩, r.2.2.map fun _ => k)

/-- One step of a poster or of a worker. -/
def next (t : T) (s : Shared T κ ξ α) (p : Place n κ α) :
    Move α → Option (Shared T κ ξ α × Place n κ α × Signal κ)
  | .post proc =>
    match p.own with
    | .poster .idle =>
      let work : Work α := ⟨s.posted.length, proc⟩
      let r := D.draw s.counter
      some ({ s with counter := r.1, posted := s.posted ++ [work] },
        ⟨.poster (.posting work r.2.1 r.2.2), .idle⟩, .none)
    | _             => none
  | .run =>
    match p.own with
    | .worker i (.running work) =>
      some ({ s with executed := s.executed ++ [work] }, ⟨.worker i (.taking (D.scan i)), .idle⟩,
        .none)
    | _                         => none
  | .call free =>
    if p.inner = .idle then (first D free p.own).bind fun c => queueStep t s p c.1 c.2 else none
  | .go m      =>
    if p.inner = .idle then none else (queue D p.own).bind fun k => queueStep t s p k m

/-- The queue in whose `pop` a thread sleeps. -/
def Place.asleepOn (p : Place n κ α) : Option κ := p.inner.asleepOn.bind fun _ => queue D p.own

/-- All threads of one pool. -/
def monitor : Monitor T (Shared T κ ξ α) (Place n κ α) κ (Move α) where
  next := next D
  asleepOn := Place.asleepOn D
  wake p := { p with inner := p.inner.wake }

/-- The constructor: all workers begin their loops. -/
def start : Config (P ⊕ Fin n) (Shared (P ⊕ Fin n) κ ξ α) (Place n κ α) where
  shared := ⟨fun _ => ⟨.empty, []⟩, D.counter, [], [], []⟩
  pc
    | .inl _ => ⟨.poster .idle, .idle⟩
    | .inr i => ⟨.worker i (.taking (D.scan i)), .idle⟩

/-! ### The steps -/

/-- The places that a thread can be at. -/
inductive Fits : P ⊕ Fin n → Place n κ α → Prop
  | poster (u : P) (q : Poster κ α) : Fits (.inl u) ⟨.poster q, .idle⟩
  | notifying (u : P) (work : Work α) (rest : List κ) (last : κ) :
      Fits (.inl u) ⟨.poster (.posting work rest last), .notifyingOne⟩
  | worker (i : Fin n) (q : Worker κ α) : Fits (.inr i) ⟨.worker i q, .idle⟩
  | asleep (i : Fin n) : Fits (.inr i) ⟨.worker i (.taking []), .asleep⟩
  | woken (i : Fin n) (notified : Bool) : Fits (.inr i) ⟨.worker i (.taking []), .woken notified⟩

/-- The members after a section of the queue `k`. -/
def Shared.setQueue (s : Shared T κ ξ α) (k : κ) (q : Queue.SimpleBlocking.Shared T (Work α)) :
    Shared T κ ξ α :=
  { s with queues := Function.update s.queues k q }

/-- What a step of one thread does, one constructor for each effect. -/
inductive Step (s : Shared (P ⊕ Fin n) κ ξ α) : P ⊕ Fin n → Place n κ α → Move α →
    Shared (P ⊕ Fin n) κ ξ α → Place n κ α → Signal κ → Prop
  | post {u : P} {proc : α} :
      Step s (.inl u) ⟨.poster .idle, .idle⟩ (.post proc)
        { s with counter := (D.draw s.counter).1,
                 posted := s.posted ++ [⟨s.posted.length, proc⟩] }
        ⟨.poster (.posting ⟨s.posted.length, proc⟩ (D.draw s.counter).2.1 (D.draw s.counter).2.2),
          .idle⟩ .none
  | place {u : P} {work : Work α} {rest : List κ} {last : κ} {free : Bool} (k : κ)
      (hk : k = rest.headD last) :
      Step s (.inl u) ⟨.poster (.posting work rest last), .idle⟩ (.call free)
        { s.setQueue k ⟨(s.queues k).contents.emplace work,
            .pushed (.inl u) work :: (s.queues k).log⟩ with placed := s.placed ++ [(k, work)] }
        ⟨.poster (.posting work rest last), .notifyingOne⟩ .none
  | refuse {u : P} {work : Work α} {rest : List κ} {k last : κ} {free : Bool} :
      Step s (.inl u) ⟨.poster (.posting work (k :: rest) last), .idle⟩ (.call free)
        (s.setQueue k ⟨(s.queues k).contents, .refused (.inl u) :: (s.queues k).log⟩)
        ⟨.poster (.posting work rest last), .idle⟩ .none
  | notify {u : P} {work : Work α} {rest : List κ} {last : κ} (k : κ) :
      Step s (.inl u) ⟨.poster (.posting work rest last), .notifyingOne⟩ (.go .notify) s
        ⟨.poster .idle, .idle⟩ (.one k)
  | take {i : Fin n} {rest : List κ} {e : Queue.SimpleBlocking.Place} {m : Move α}
      {work : Work α} {q : List (Work α)} (k : κ) (hk : k = rest.headD (D.home i))
      (he : e.asleepOn = none) (hq : (s.queues k).contents.queue = work :: q) :
      Step s (.inr i) ⟨.worker i (.taking rest), e⟩ m
        (s.setQueue k ⟨{ (s.queues k).contents with queue := q },
          .popped (.inr i) work :: (s.queues k).log⟩)
        ⟨.worker i (.running work), .idle⟩ .none
  | skip {i : Fin n} {k : κ} {rest : List κ} {free : Bool} :
      Step s (.inr i) ⟨.worker i (.taking (k :: rest)), .idle⟩ (.call free)
        (s.setQueue k ⟨(s.queues k).contents, .refused (.inr i) :: (s.queues k).log⟩)
        ⟨.worker i (.taking rest), .idle⟩ .none
  | leave {i : Fin n} {e : Queue.SimpleBlocking.Place} {m : Move α}
      (hq : (s.queues (D.home i)).contents.queue = [])
      (hone : (s.queues (D.home i)).contents.one = true) :
      Step s (.inr i) ⟨.worker i (.taking []), e⟩ m
        (s.setQueue (D.home i) ⟨(s.queues (D.home i)).contents,
          .emptied (.inr i) :: (s.queues (D.home i)).log⟩)
        ⟨.worker i .exited, .idle⟩ .none
  | sleep {i : Fin n} {e : Queue.SimpleBlocking.Place} {m : Move α} (he : e.asleepOn = none)
      (hq : (s.queues (D.home i)).contents.queue = []) :
      Step s (.inr i) ⟨.worker i (.taking []), e⟩ m s ⟨.worker i (.taking []), .asleep⟩ .none
  | wakeUp {i : Fin n} :
      Step s (.inr i) ⟨.worker i (.taking []), .asleep⟩ (.go .wakeUp) s
        ⟨.worker i (.taking []), .woken false⟩ .none
  | run {i : Fin n} {work : Work α} :
      Step s (.inr i) ⟨.worker i (.running work), .idle⟩ .run
        { s with executed := s.executed ++ [work] } ⟨.worker i (.taking (D.scan i)), .idle⟩ .none

end

variable {D : Design n κ ξ} {t : P ⊕ Fin n} {p p' : Place n κ α}

lemma Fits.wake (hp : Fits t p) : Fits t { p with inner := p.inner.wake } := by
  cases hp with
  | poster u q => exact .poster u q
  | notifying u work rest last => exact .notifying u work rest last
  | worker i q => exact .worker i q
  | asleep i => exact .woken i true
  | woken i b => exact .woken i b

lemma queue_of_asleep {k : κ} (h : p.asleepOn D = some k) : queue D p.own = some k := by
  obtain ⟨_, -, hk⟩ := Option.bind_eq_some_iff.mp h
  exact hk

lemma queue_of_first {free : Bool} {q : Own n κ α} {r : κ × Queue.SimpleBlocking.Move (Work α)}
    (h : first D free q = some r) : queue D q = some r.1 := by
  match q with
  | .poster .idle | .worker _ (.running _) | .worker _ .exited => cases h
  | .poster (.posting _ [] _) | .poster (.posting _ (_ :: _) _) =>
    cases h
    rfl
  | .worker _ (.taking []) | .worker _ (.taking (_ :: _)) =>
    cases h
    rfl

/-! ### What the pool sees -/

/-- A post is over for the pool when the work object is in a queue. -/
def Place.poster (p : Place n κ α) : Poster κ α :=
  match p.own with
  | .poster q   => if p.inner = .notifyingOne then .idle else q
  | .worker _ _ => .idle

def Place.worker (p : Place n κ α) : Worker κ α :=
  match p.own with
  | .worker _ q => q
  | .poster _   => .exited

/-- What the pool sees of a configuration. -/
def state (c : Config (P ⊕ Fin n) (Shared (P ⊕ Fin n) κ ξ α) (Place n κ α)) :
    State P n κ ξ α where
  queues k := (c.shared.queues k).contents
  counter := c.shared.counter
  poster u := (c.pc (.inl u)).poster
  worker i := (c.pc (.inr i)).worker
  owner := .alive
  posted := c.shared.posted
  placed := c.shared.placed
  executed := c.shared.executed

lemma seen_wake (p : Place n κ α) :
    Place.poster { p with inner := p.inner.wake } = p.poster ∧
      Place.worker { p with inner := p.inner.wake } = p.worker := by
  obtain ⟨own, inner⟩ := p
  refine ⟨?_, rfl⟩
  cases own with
  | poster q => cases inner <;> rfl
  | worker i q => rfl

section

variable [DecidableEq P] {c : Config (P ⊕ Fin n) (Shared (P ⊕ Fin n) κ ξ α) (Place n κ α)}

lemma state_update_poster {u : P} {sh : Shared (P ⊕ Fin n) κ ξ α} :
    state ⟨sh, Function.update c.pc (.inl u) p⟩ = { state ⟨sh, c.pc⟩ with
      poster := Function.update (state c).poster u p.poster } := by
  simp only [state, State.mk.injEq, true_and]
  refine ⟨funext fun v => ?_, ?_⟩
  · by_cases hv : v = u
    · subst hv
      simp
    · simp [hv]
  · simp

lemma state_update_worker {i : Fin n} {sh : Shared (P ⊕ Fin n) κ ξ α} :
    state ⟨sh, Function.update c.pc (.inr i) p⟩ = { state ⟨sh, c.pc⟩ with
      worker := Function.update (state c).worker i p.worker } := by
  simp only [state, State.mk.injEq, true_and]
  refine ⟨?_, funext fun j => ?_, trivial⟩
  · simp
  · by_cases hj : j = i
    · subst hj
      simp
    · simp [hj]

end

/-! ### Threads that come to rest -/

/-- A poster is outside, and a worker has left its loop or sleeps. -/
def Place.Settled (p : Place n κ α) : Prop :=
  p.own = .poster .idle ∨ (∃ i, p.own = .worker i .exited) ∨ p.inner = .asleep

/-- A poster is outside, and a worker sleeps in the `pop` of its own queue. -/
def AtRest : P ⊕ Fin n → Place n κ α → Prop
  | .inl _, p => p.own = .poster .idle ∧ p.inner = .idle
  | .inr i, p => p.own = .worker i (.taking []) ∧ p.inner = .asleep

lemma AtRest.settled (h : AtRest t p) : p.Settled := by
  cases t with
  | inl u => exact .inl h.1
  | inr i => exact .inr (.inr h.2)

/-- Nobody posts, and nobody wakes up without a notification. -/
def GoesOn : Move α → Prop
  | .post _     => False
  | .go .wakeUp => False
  | _           => True

/-- How far a thread is from the end of its post, or from a work object or its sleep. -/
def Own.rank : Own n κ α → ℕ
  | .poster .idle               => 0
  | .poster (.posting _ rest _) => rest.length + 3
  | .worker _ (.taking rest)    => rest.length + 3
  | .worker _ (.running _)      => 0
  | .worker _ .exited           => 0

def Place.rank (p : Place n κ α) : ℕ :=
  match p.inner with
  | .idle   => p.own.rank
  | .asleep => 1
  | _       => 2

lemma rank_wake_le (p : Place n κ α) :
    Place.rank { p with inner := p.inner.wake } ≤ p.rank + 1 := by
  obtain ⟨own, inner⟩ := p
  cases inner <;> simp [Place.rank, Queue.SimpleBlocking.Place.wake]

/-- What the work objects that have not been executed are worth: each of them sends a worker through
its loop once more. -/
def level (D : Design n κ ξ) (s : Shared T κ ξ α) : ℕ :=
  (∑ i, (D.scan i).length + 4) * (s.posted.length - s.executed.length)

lemma rank_pos_of_awake {i : Fin n} {rest : List κ} {e : Queue.SimpleBlocking.Place}
    (he : e.asleepOn = none) : 1 < Place.rank ⟨.worker i (.taking rest) (α := α), e⟩ := by
  cases e with
  | asleep => cases he
  | idle => exact Nat.lt_add_left _ (by decide)
  | _ => exact Nat.lt_succ_self 1

/-! ### What a step does -/

variable [DecidableEq κ] {s s' : Shared (P ⊕ Fin n) κ ξ α} {m : Move α} {sig : Signal κ}

/-- A notification or the end of a wait leaves the members alone. -/
lemma Step.unchanged (h : Step D s t p m s p' sig) (k : κ) :
    Step D s t p m { s with
      queues := Function.update s.queues k (s.queues k), placed := s.placed ++ [] } p' sig := by
  rwa [Function.update_eq_self, List.append_nil]

/-- An attempt of a post that fails. -/
lemma step_of_refused {u : P} {work : Work α} {rest : List κ} {k last : κ} {free : Bool} :
    Step D s (.inl u) ⟨.poster (.posting work (k :: rest) last), .idle⟩ (.call free)
      { s with queues := Function.update s.queues k
                 ⟨(s.queues k).contents, .refused (.inl u) :: (s.queues k).log⟩,
               placed := s.placed ++ [] }
      ⟨.poster (.posting work rest last), .idle⟩ .none := by
  rw [List.append_nil]
  exact .refuse

/-- The test of the predicate in the `pop` of a worker. -/
lemma step_of_pop {i : Fin n} {e : Queue.SimpleBlocking.Place} (he : e.asleepOn = none)
    {r : Queue.SimpleBlocking.Shared (P ⊕ Fin n) (Work α) × Queue.SimpleBlocking.Place}
    (hr : r = Queue.SimpleBlocking.pop (.inr i) (s.queues (D.home i))) :
    Step D s (.inr i) ⟨.worker i (.taking []), e⟩ m
      { s with queues := Function.update s.queues (D.home i) r.1, placed := s.placed ++ [] }
      ⟨if r.2 = .idle then goOn e r.1.log (.worker i (.taking [])) else .worker i (.taking []), r.2⟩
      .none := by
  rw [List.append_nil]
  cases hq : (s.queues (D.home i)).contents.queue with
  | nil =>
    cases hone : (s.queues (D.home i)).contents.one with
    | true =>
      have hpop : r = (⟨(s.queues (D.home i)).contents,
          .emptied (.inr i) :: (s.queues (D.home i)).log⟩, .idle) := by
        simp [hr, Queue.SimpleBlocking.pop, Contents.ready, Contents.take, hq, hone]
      rw [hpop]
      exact .leave hq hone
    | false =>
      have hpop : r = (s.queues (D.home i), .asleep) := by
        simp [hr, Queue.SimpleBlocking.pop, Contents.ready, hq, hone]
      rw [hpop]
      simpa [Shared.setQueue] using Step.sleep (D := D) (s := s) (m := m) he hq
  | cons work q =>
    have hpop : r = (⟨{ (s.queues (D.home i)).contents with queue := q },
        .popped (.inr i) work :: (s.queues (D.home i)).log⟩, .idle) := by
      simp [hr, Queue.SimpleBlocking.pop, Contents.ready, Contents.take, hq]
    rw [hpop]
    exact .take _ rfl he hq

/-- A `try_pop` of a worker. -/
lemma step_of_tryPop {i : Fin n} {k : κ} {rest : List κ} {free : Bool}
    {r : Queue.SimpleBlocking.Shared (P ⊕ Fin n) (Work α) × Queue.SimpleBlocking.Place}
    (hr : r = Queue.SimpleBlocking.tryPop (.inr i) free (s.queues k)) :
    Step D s (.inr i) ⟨.worker i (.taking (k :: rest)), .idle⟩ (.call free)
      { s with queues := Function.update s.queues k r.1, placed := s.placed ++ [] }
      ⟨if r.2 = .idle then goOn .idle r.1.log (.worker i (.taking (k :: rest)))
        else .worker i (.taking (k :: rest)), r.2⟩ .none := by
  rw [List.append_nil]
  have hrefused : r = (⟨(s.queues k).contents, .refused (.inr i) :: (s.queues k).log⟩, .idle) →
      Step D s (.inr i) ⟨.worker i (.taking (k :: rest)), .idle⟩ (.call free)
        { s with queues := Function.update s.queues k r.1 }
        ⟨if r.2 = .idle then goOn .idle r.1.log (.worker i (.taking (k :: rest)))
          else .worker i (.taking (k :: rest)), r.2⟩ .none := by
    rintro rfl
    exact .skip
  cases free with
  | false => exact hrefused hr
  | true =>
    cases hq : (s.queues k).contents.queue with
    | nil => exact hrefused (by simp [hr, Queue.SimpleBlocking.tryPop, Contents.take, hq])
    | cons work q =>
      have hpop : r = (⟨{ (s.queues k).contents with queue := q },
          .popped (.inr i) work :: (s.queues k).log⟩, .idle) := by
        simp [hr, Queue.SimpleBlocking.tryPop, Contents.take, hq]
      rw [hpop]
      exact .take k rfl rfl hq

lemma step_of_next (hp : Fits t p) (h : next D t s p m = some (s', p', sig)) :
    Step D s t p m s' p' sig := by
  cases m with
  | post proc =>
    cases hp with
    | poster u q =>
      cases q with
      | idle =>
        cases h
        exact .post
      | posting => cases h
    | _ => cases h
  | run =>
    cases hp with
    | worker i q =>
      cases q with
      | running work =>
        cases h
        exact .run
      | _ => cases h
    | _ => cases h
  | call free =>
    simp only [next, Option.ite_none_right_eq_some, Option.bind_eq_some_iff] at h
    obtain ⟨hidle, ⟨k, c⟩, hfirst, h⟩ := h
    cases hp with
    | poster u q =>
      match q with
      | .idle => cases hfirst
      | .posting work [] last =>
        cases hfirst
        cases h
        exact .place _ rfl
      | .posting work (k' :: rest) last =>
        cases hfirst
        cases free with
        | true =>
          cases h
          exact .place _ rfl
        | false =>
          cases h
          exact step_of_refused
    | worker i q =>
      match q with
      | .taking [] =>
        cases hfirst
        cases h
        exact step_of_pop rfl rfl
      | .taking (k' :: rest) =>
        cases hfirst
        cases h
        exact step_of_tryPop rfl
      | .running work => cases hfirst
      | .exited => cases hfirst
    | _ => cases hidle
  | go c =>
    simp only [next, Option.ite_none_left_eq_some, Option.bind_eq_some_iff] at h
    obtain ⟨hidle, k, hqueue, h⟩ := h
    cases hp with
    | notifying u work rest last =>
      cases c <;> cases h
      exact (Step.notify k).unchanged k
    | asleep i =>
      cases hqueue
      cases c <;> cases h
      exact Step.wakeUp.unchanged _
    | woken i notified =>
      cases hqueue
      cases c <;> cases h
      exact step_of_pop rfl rfl
    | _ => exact absurd rfl hidle

lemma Step.fits (h : Step D s t p m s' p' sig) : Fits t p' := by
  cases h with
  | post | refuse | notify => exact .poster _ _
  | place => exact .notifying _ _ _ _
  | take | skip | leave | run => exact .worker _ _
  | sleep => exact .asleep _
  | wakeUp => exact .woken _ _

/-! ### What a queue sees -/

/-- Where a thread is in the methods of a queue. -/
def Place.inQueue (D : Design n κ ξ) (p : Place n κ α) (k : κ) : Queue.SimpleBlocking.Place :=
  if queue D p.own = some k then p.inner else .idle

lemma inQueue_of_idle {k : κ} (h : p.inner = .idle) : p.inQueue D k = .idle := by
  unfold Place.inQueue
  split_ifs
  · exact h
  · rfl

lemma asleepOn_iff {k : κ} {c : Unit} :
    p.asleepOn D = some k ↔ (p.inQueue D k).asleepOn = some c := by
  unfold Place.asleepOn Place.inQueue
  rw [Option.bind_eq_some_iff]
  split_ifs with hk
  · exact ⟨fun ⟨_, hu, _⟩ => hu, fun hu => ⟨c, hu, hk⟩⟩
  · exact iff_of_false (fun ⟨_, _, hq⟩ => hk hq) (by simp [Queue.SimpleBlocking.Place.asleepOn])

lemma inQueue_wake {k : κ} (h : p.asleepOn D = some k) :
    Place.inQueue D { p with inner := p.inner.wake } k = (p.inQueue D k).wake := by
  simp [Place.inQueue, queue_of_asleep h]

lemma inQueue_wake_other {k d : κ} (h : p.asleepOn D = some d) (hd : d ≠ k) :
    Place.inQueue D { p with inner := p.inner.wake } k = p.inQueue D k := by
  simp [Place.inQueue, queue_of_asleep h, hd]

/-- A step in a method of the queue `k` is one of this queue, and the other ones do not see it. -/
lemma queue_of_step {k k' : κ} {c : Queue.SimpleBlocking.Move (Work α)}
    (hk : queue D p.own = some k) (h : queueStep t s p k c = some (s', p', sig)) :
    (s'.queues k' = s.queues k' ∧ p'.inQueue D k' = p.inQueue D k' ∧
        ∀ _ : Unit, sig.cond ≠ some k') ∨
      ∃ c sig₂, Queue.SimpleBlocking.next t (s.queues k') (p.inQueue D k') c =
        some (s'.queues k', p'.inQueue D k', sig₂) ∧ sig = sig₂.map fun _ => k' := by
  obtain ⟨⟨q, e, sig'⟩, hn, hr⟩ := Option.map_eq_some_iff.mp h
  cases hr
  have hplace : Place.inQueue D ⟨if e = .idle then goOn p.inner q.log p.own else p.own, e⟩ k'
      = if k = k' then e else .idle := by
    by_cases he : e = .idle
    · subst he
      rw [inQueue_of_idle rfl]
      split_ifs <;> rfl
    · simp [Place.inQueue, if_neg he, hk]
  rw [hplace]
  by_cases hkk : k = k'
  · subst hkk
    right
    refine ⟨c, sig', ?_, rfl⟩
    simpa [Place.inQueue, hk] using hn
  · left
    refine ⟨?_, ?_, fun _ => Signal.cond_map_ne (fun _ => hkk) _⟩
    · simp [Function.update_of_ne (Ne.symm hkk)]
    · simp [Place.inQueue, hk, hkk]

lemma queue_of_next (k : κ) (h : next D t s p m = some (s', p', sig)) :
    (s'.queues k = s.queues k ∧ p'.inQueue D k = p.inQueue D k ∧
        ∀ _ : Unit, sig.cond ≠ some k) ∨
      ∃ c sig₂, Queue.SimpleBlocking.next t (s.queues k) (p.inQueue D k) c =
        some (s'.queues k, p'.inQueue D k, sig₂) ∧ sig = sig₂.map fun _ => k := by
  cases m with
  | post proc =>
    simp only [next] at h
    split at h
    · rename_i hown
      cases h
      refine .inl ⟨rfl, ?_, fun _ hc => by cases hc⟩
      rw [inQueue_of_idle rfl, Place.inQueue, hown]
      rfl
    · cases h
  | run =>
    simp only [next] at h
    split at h
    · rename_i hown
      cases h
      refine .inl ⟨rfl, ?_, fun _ hc => by cases hc⟩
      rw [inQueue_of_idle rfl, Place.inQueue, hown]
      rfl
    · cases h
  | call free =>
    simp only [next, Option.ite_none_right_eq_some, Option.bind_eq_some_iff] at h
    obtain ⟨-, r, hfirst, hstep⟩ := h
    exact queue_of_step (queue_of_first hfirst) hstep
  | go c =>
    simp only [next, Option.ite_none_left_eq_some, Option.bind_eq_some_iff] at h
    obtain ⟨-, k', hqueue, hstep⟩ := h
    exact queue_of_step hqueue hstep

/-- A queue, as a part. -/
def queuePart (D : Design n κ ξ) (k : κ) :
    Part (monitor D : Monitor (P ⊕ Fin n) (Shared (P ⊕ Fin n) κ ξ α) (Place n κ α) κ (Move α))
      (Queue.SimpleBlocking.monitor (T := P ⊕ Fin n) (α := Work α)) where
  shared s := s.queues k
  place p := p.inQueue D k
  cond _ := k
  asleepOn _ _ := asleepOn_iff
  wake _ _ := inQueue_wake
  wake_other _ _ h hd := inQueue_wake_other h (hd ())
  next h := queue_of_next k h

lemma state_setQueue (c : Config (P ⊕ Fin n) (Shared (P ⊕ Fin n) κ ξ α) (Place n κ α)) (k : κ)
    (q : Queue.SimpleBlocking.Shared (P ⊕ Fin n) (Work α)) :
    state ⟨c.shared.setQueue k q, c.pc⟩
      = { state c with queues := Function.update (state c).queues k q.contents } := by
  simp only [state, Shared.setQueue, State.mk.injEq, and_true]
  funext j
  by_cases hj : j = k
  · subst hj
    simp
  · simp [hj]

/-- A section that leaves the contents of the queue is not seen. -/
lemma state_setQueue_same (c : Config (P ⊕ Fin n) (Shared (P ⊕ Fin n) κ ξ α) (Place n κ α)) (k : κ)
    (log : List (Queue.SimpleBlocking.Event (P ⊕ Fin n) (Work α))) :
    state ⟨c.shared.setQueue k ⟨(c.shared.queues k).contents, log⟩, c.pc⟩ = state c := by
  rw [state_setQueue]
  simp only [state, Function.update_eq_self]

section

variable [DecidableEq P] {c : Config (P ⊕ Fin n) (Shared (P ⊕ Fin n) κ ξ α) (Place n κ α)}

/-- A step of the code with the queues is one of the pool, or it is not seen. -/
lemma state_of_step (hp : c.pc t = p) (h : Step D c.shared t p m s' p' sig) :
    state ⟨s', Function.update c.pc t p'⟩ = state c ∨
      ∃ a, D.machine.step (state c) a = some (state ⟨s', Function.update c.pc t p'⟩) := by
  cases h with
  | @post u proc =>
    right
    have hposter : (state c).poster u = .idle := by simp [state, hp, Place.poster]
    refine ⟨.post u proc, ?_⟩
    simp only [Design.machine, Design.step, hposter, state_update_poster]
    rfl
  | @place u work rest last free k hk =>
    right
    have hposter : (state c).poster u = .posting work rest last := by
      simp [state, hp, Place.poster]
    have hplace : state ⟨{ c.shared.setQueue k ⟨(c.shared.queues k).contents.emplace work,
          .pushed (.inl u) work :: (c.shared.queues k).log⟩ with
        placed := c.shared.placed ++ [(k, work)] }, Function.update c.pc (.inl u)
          ⟨.poster (.posting work rest last), .notifyingOne⟩⟩ = (state c).place u k work := by
      have hqueue := state_setQueue c k ⟨(c.shared.queues k).contents.emplace work,
        .pushed (.inl u) work :: (c.shared.queues k).log⟩
      rw [state_update_poster]
      exact congrArg (fun q : State P n κ ξ α => { q with
        poster := Function.update (state c).poster u .idle
        placed := (state c).placed ++ [(k, work)] }) hqueue
    refine ⟨.push u true, ?_⟩
    rw [hplace, hk]
    cases rest with
    | nil | cons => simp [Design.machine, Design.step, hposter]
  | @refuse u work rest k last free =>
    right
    have hposter : (state c).poster u = .posting work (k :: rest) last := by
      simp [state, hp, Place.poster]
    refine ⟨.push u false, ?_⟩
    rw [state_update_poster, state_setQueue_same]
    simp only [Design.machine, Design.step, hposter]
    rfl
  | @notify u work rest last k =>
    left
    have hposter : (state c).poster u = .idle := by simp [state, hp, Place.poster]
    rw [state_update_poster]
    exact congrArg (fun q => { state c with poster := q })
      ((congrArg (Function.update _ u) hposter.symm).trans (Function.update_eq_self u _))
  | @take i rest e m work q k hk he hq =>
    right
    have hworker : (state c).worker i = .taking rest := by simp [state, hp, Place.worker]
    have htake : ((state c).queues k).take =
        (some work, { (state c).queues k with queue := q }) := by
      simp [state, Contents.take, hq]
    have hready : ((state c).queues k).ready = true := by simp [state, Contents.ready, hq]
    refine ⟨.pop i true, ?_⟩
    rw [state_update_worker, state_setQueue]
    subst hk
    cases rest with
    | nil =>
      simp only [List.headD_nil] at htake hready
      simp only [Design.machine, Design.step, hworker, hready, if_true, State.take, htake]
      rfl
    | cons k rest =>
      simp only [List.headD_cons] at htake hready
      simp only [Design.machine, Design.step, hworker, if_true, State.take, htake]
      rfl
  | @skip i k rest free =>
    right
    have hworker : (state c).worker i = .taking (k :: rest) := by simp [state, hp, Place.worker]
    refine ⟨.pop i false, ?_⟩
    rw [state_update_worker, state_setQueue_same]
    simp only [Design.machine, Design.step, hworker]
    rfl
  | @leave i e m hq hone =>
    right
    have hworker : (state c).worker i = .taking [] := by simp [state, hp, Place.worker]
    have htake : ((state c).queues (D.home i)).take = (none, (state c).queues (D.home i)) := by
      simp [state, Contents.take, hq]
    have hready : ((state c).queues (D.home i)).ready = true := by
      simp [state, Contents.ready, hone]
    refine ⟨.pop i true, ?_⟩
    rw [state_update_worker, state_setQueue_same]
    simp only [Design.machine, Design.step, hworker, hready, if_true, State.take, htake]
    rfl
  | @sleep i | @wakeUp i =>
    left
    have hworker : (state c).worker i = .taking [] := by simp [state, hp, Place.worker]
    rw [state_update_worker]
    exact congrArg (fun q => { state c with worker := q })
      ((congrArg (Function.update _ i) hworker.symm).trans (Function.update_eq_self i _))
  | @run i work =>
    right
    have hworker : (state c).worker i = .running work := by simp [state, hp, Place.worker]
    refine ⟨.run i, ?_⟩
    rw [state_update_worker]
    simp only [Design.machine, Design.step, hworker]
    rfl

end

/-- A step brings the thread nearer, and wakes one other thread at most. -/
lemma rank_of_step (h : Step D s t p m s' p' sig) (hm : GoesOn m)
    (hroom : s'.executed.length ≤ s'.posted.length) :
    (∀ k, sig ≠ .all k) ∧ level D s' + p'.rank + sig.raise 1 < level D s + p.rank := by
  cases h with
  | post => exact hm.elim
  | place => exact ⟨by simp, by simp [level, Shared.setQueue, Place.rank, Own.rank, Signal.raise]⟩
  | refuse => exact ⟨by simp, by simp [level, Shared.setQueue, Place.rank, Own.rank, Signal.raise]⟩
  | notify => exact ⟨by simp, by simp [Place.rank, Own.rank, Signal.raise]⟩
  | @take i rest e m work q k hk he hq =>
    have hrank : 1 < Place.rank ⟨.worker i (.taking rest) (α := α), e⟩ := rank_pos_of_awake he
    exact ⟨by simp, Nat.add_lt_add_left (Nat.zero_lt_of_lt hrank) _⟩
  | skip => exact ⟨by simp, by simp [level, Shared.setQueue, Place.rank, Own.rank, Signal.raise]⟩
  | @leave i e =>
    have hrank : 0 < Place.rank ⟨.worker i (.taking []) (κ := κ) (α := α), e⟩ := by
      cases e <;> exact Nat.succ_pos _
    exact ⟨by simp, Nat.add_lt_add_left hrank _⟩
  | @sleep i e m he =>
    have hrank : 1 < Place.rank ⟨.worker i (.taking []) (κ := κ) (α := α), e⟩ :=
      rank_pos_of_awake he
    exact ⟨by simp, Nat.add_lt_add_left hrank _⟩
  | wakeUp => exact hm.elim
  | @run i work =>
    refine ⟨by simp, ?_⟩
    have hle : (D.scan i).length ≤ ∑ j, (D.scan j).length :=
      Finset.single_le_sum (f := fun j => (D.scan j).length) (fun _ _ => Nat.zero_le _)
        (Finset.mem_univ i)
    simp only [List.length_append, List.length_singleton] at hroom
    have hleft : s.posted.length - s.executed.length
        = s.posted.length - (s.executed ++ [work]).length + 1 := by
      simp only [List.length_append, List.length_singleton]
      omega
    simp only [level, Place.rank, Own.rank, Signal.raise, hleft, Nat.mul_add, Nat.mul_one]
    omega

/-- A thread that has not settled can take a step. -/
lemma exists_next (hp : Fits t p) (hsettled : ¬ p.Settled) :
    ∃ m, GoesOn m ∧ (next D t s p m).isSome = true := by
  cases hp with
  | poster u q =>
    match q with
    | .idle => exact absurd (.inl rfl) hsettled
    | .posting work [] last => exact ⟨.call true, trivial, rfl⟩
    | .posting work (k :: rest) last => exact ⟨.call true, trivial, rfl⟩
  | notifying u work rest last =>
    refine ⟨.go .notify, trivial, ?_⟩
    cases rest with
    | nil => rfl
    | cons => rfl
  | worker i q =>
    match q with
    | .taking [] => exact ⟨.call true, trivial, rfl⟩
    | .taking (k :: rest) => exact ⟨.call true, trivial, rfl⟩
    | .running work => exact ⟨.run, trivial, rfl⟩
    | .exited => exact absurd (.inr (.inl ⟨i, rfl⟩)) hsettled
  | asleep i => exact absurd (.inr (.inr rfl)) hsettled
  | woken i notified => exact ⟨.go .recheck, trivial, rfl⟩

/-- A thread at rest owes nobody a notification. -/
lemma AtRest.quiet (h : AtRest t p) (k : κ) : p.inQueue D k ≠ .notifyingAll ∧
    (p.inQueue D k).toSend + (p.inQueue D k).notified = 0 := by
  have hinner : p.inQueue D k = .idle ∨ p.inQueue D k = .asleep := by
    cases t with
    | inl u => exact .inl (inQueue_of_idle h.2)
    | inr i =>
      unfold Place.inQueue
      split_ifs
      · exact .inr h.2
      · exact .inl rfl
  rcases hinner with hidle | hasleep
  · rw [hidle]
    exact ⟨by simp, rfl⟩
  · rw [hasleep]
    exact ⟨by simp, rfl⟩

lemma posted_of_step (h : Step D s t p m s' p' sig) (hm : GoesOn m) : s'.posted = s.posted := by
  cases h with
  | post => exact hm.elim
  | _ => rfl

/-! ### The law -/

section

variable [Fintype P] [DecidableEq P]
  {c c' : Config (P ⊕ Fin n) (Shared (P ⊕ Fin n) κ ξ α) (Place n κ α)}

lemma state_of_deliver {w : Option (P ⊕ Fin n)} (hd : (monitor D).deliver c sig w = some c') :
    state c' = state c := by
  have hposter := fun u => Monitor.apply_pc_of_deliver (M := monitor D) (f := Place.poster)
    (fun p => (seen_wake p).1) hd (.inl u)
  have hworker := fun i => Monitor.apply_pc_of_deliver (M := monitor D) (f := Place.worker)
    (fun p => (seen_wake p).2) hd (.inr i)
  simp only [state, Monitor.shared_of_deliver hd, hposter, hworker]

/-- The threads are where they can be, and what the pool sees of a run is a run of the pool. -/
lemma seen_of_reachable (h : (monitor D).machine.Reachable (start D) c) :
    (∀ t, Fits t (c.pc t)) ∧ D.machine.Reachable D.start (state c) := by
  obtain ⟨u, hu, hfits, rfl⟩ : ∃ u, D.machine.Runs (fun _ _ => True) D.start u ∧
      (∀ t, Fits t (c.pc t)) ∧ state c = u := by
    refine h.simulate (R := fun c u => (∀ t, Fits t (c.pc t)) ∧ state c = u) ⟨?_, rfl⟩ ?_
    · rintro (u | i)
      · exact .poster u .idle
      · exact .worker i _
    · rintro c a c' _ - - ⟨hfits, rfl⟩ - hs
      obtain ⟨sh, p, sig, hn, hd⟩ := Monitor.step_eq_some.mp hs
      have hstep := step_of_next (hfits a.tid) hn
      have hfits' : ∀ t, Fits t (c'.pc t) := by
        intro t
        have hupdate : Fits t (Function.update c.pc a.tid p t) := by
          by_cases ht : t = a.tid
          · subst ht
            rw [Function.update_self]
            exact hstep.fits
          · rw [Function.update_of_ne ht]
            exact hfits t
        rcases Monitor.pc_of_deliver hd t with ht | ht
        · rw [ht]
          exact hupdate
        · rw [ht]
          exact hupdate.wake
      rw [state_of_deliver hd]
      rcases state_of_step rfl hstep with hsame | ⟨b, hb⟩
      · exact .inl ⟨hfits', hsame⟩
      · exact .inr ⟨b, _, trivial, hb, hfits', rfl⟩
  exact ⟨hfits, hu⟩

lemma executed_le_posted [Fintype κ] {u : State P n κ ξ α} (h : D.machine.Reachable D.start u) :
    u.executed.length ≤ u.posted.length := by
  classical
  have hcard := congrArg Multiset.card (Conserved.of_runs h).law.conserved
  simp only [Multiset.card_add, Multiset.coe_card] at hcard
  omega

lemma covered_of_reachable (h : (monitor D).machine.Reachable (start D) c) (k : κ) :
    Queue.SimpleBlocking.itemBaton.Covered ((queuePart D k).config c) := by
  have hqueue := (queuePart D k).reachable h
  refine hqueue.invariant (I := Queue.SimpleBlocking.itemBaton.Covered) ?_ fun _ _ _ hu _ hs =>
    hu.step (fun _ _ _ hn => (Queue.SimpleBlocking.Effect.of_next hn).keepsItems) hs
  rintro ⟨t, ht⟩
  have hidle : ((start (α := α) D).pc t).inner = .idle := by cases t <;> rfl
  change Queue.SimpleBlocking.Place.asleepOn (Place.inQueue D _ k) = _ at ht
  rw [inQueue_of_idle hidle] at ht
  cases ht

/-- No worker leaves its loop, so a worker that has settled sleeps in the `pop` of its own queue. -/
lemma atRest_of_settled (hn : 0 < n) (h : (monitor D).machine.Reachable (start D) c)
    {t : P ⊕ Fin n} (hsettled : (c.pc t).Settled) : AtRest t (c.pc t) := by
  obtain ⟨hfits, hseen⟩ := seen_of_reachable h
  have hworker := (undone_of_runs hn hseen).worker
  have hplace := hfits t
  cases t with
  | inl u =>
    generalize c.pc (.inl u) = p at hsettled hplace
    cases hplace with
    | poster u q =>
      rcases hsettled with hidle | ⟨i, hi⟩ | hasleep
      · exact ⟨hidle, rfl⟩
      · cases hi
      · cases hasleep
    | notifying =>
      rcases hsettled with hidle | ⟨i, hi⟩ | hasleep
      · cases hidle
      · cases hi
      · cases hasleep
  | inr i =>
    have hexited : (c.pc (.inr i)).worker ≠ .exited := hworker i
    generalize c.pc (.inr i) = p at hsettled hplace hexited
    cases hplace with
    | asleep => exact ⟨rfl, rfl⟩
    | worker i q =>
      rcases hsettled with hidle | ⟨j, hj⟩ | hasleep
      · cases hidle
      · cases hj
        exact absurd rfl hexited
      · cases hasleep
    | woken =>
      rcases hsettled with hidle | ⟨j, hj⟩ | hasleep
      · cases hidle
      · cases hj
      · cases hasleep

/-- When all threads are at rest, the own queue of every worker is empty. -/
lemma queue_eq_nil (h : (monitor D).machine.Reachable (start D) c)
    (hrest : ∀ t, AtRest t (c.pc t)) (i : Fin n) :
    (c.shared.queues (D.home i)).contents.queue = [] := by
  have hasleep : (c.pc (.inr i)).inQueue D (D.home i) = .asleep := by
    obtain ⟨hown, hinner⟩ := hrest (.inr i)
    simp [Place.inQueue, hown, hinner, queue, first]
  have hcredit : tally (fun p : Queue.SimpleBlocking.Place => p.toSend + p.notified)
      ((queuePart D (D.home i)).config c).pc = 0 :=
    tally_eq_zero_iff.mpr fun t => ((hrest t).quiet _).2
  have hcovered := covered_of_reachable h (D.home i) ⟨.inr i, by
    change ((c.pc (.inr i)).inQueue D (D.home i)).asleepOn = some ()
    rw [hasleep]
    rfl⟩
  rcases hcovered with ⟨t, ht⟩ | hle
  · exact absurd ht ((hrest t).quiet _).1
  · exact List.length_eq_zero_iff.mp (Nat.le_zero.mp (hle.trans hcredit.le))

/-- When all threads are at rest, everything that was posted has been executed, once. -/
lemma perm_of_atRest [Fintype κ] (hhome : Function.Surjective D.home)
    (h : (monitor D).machine.Reachable (start D) c) (hrest : ∀ t, AtRest t (c.pc t)) :
    c.shared.executed.Perm c.shared.posted := by
  classical
  have hlaw := (Conserved.of_runs (seen_of_reachable h).2).law
  have hqueues : ∀ k, ((state c).queues k).queue = [] := by
    intro k
    obtain ⟨i, rfl⟩ := hhome k
    exact queue_eq_nil h hrest i
  have hposters : ∀ u, ((state c).poster u).held = [] := by
    intro u
    obtain ⟨hown, hinner⟩ := hrest (.inl u)
    simp [state, Place.poster, hown, hinner, Poster.held]
  have hworkers : ∀ i, ((state c).worker i).held = [] := by
    intro i
    simp [state, Place.worker, (hrest (.inr i)).1, Worker.held]
  have hconserved := hlaw.conserved
  simp only [hqueues, hposters, hworkers, Multiset.coe_nil, Finset.sum_const_zero,
    zero_add] at hconserved
  exact (Multiset.coe_eq_coe.mp hconserved).symm

/-- A pool that is left alone executes everything that was posted. -/
structure Law (D : Design n κ ξ) (c : Config (P ⊕ Fin n) (Shared (P ⊕ Fin n) κ ξ α) (Place n κ α)) :
    Prop where
  refines : D.machine.Reachable D.start (state c)
  /-- Nothing is left when nobody is awake. -/
  rest : (∀ t, AtRest t (c.pc t)) →
    (∀ k, (c.shared.queues k).contents.queue = []) ∧ c.shared.executed.Perm c.shared.posted
  drains : ∃ c', (monitor D).machine.Runs (fun _ a => GoesOn a.move) c c' ∧
    c'.shared.posted = c.shared.posted ∧ c'.shared.executed.Perm c'.shared.posted ∧
    ∀ t, AtRest t (c'.pc t)

/-- A thread that has not settled can get nearer. -/
lemma exists_nearer [Fintype κ] (h : (monitor D).machine.Reachable (start D) c)
    (hsettled : ¬ (c.pc t).Settled) : ∃ m s' p' sig, GoesOn m ∧ (∀ k, sig ≠ .all k) ∧
      next D t c.shared (c.pc t) m = some (s', p', sig) ∧
      level D s' + p'.rank + sig.raise 1 < level D c.shared + (c.pc t).rank := by
  obtain ⟨hfits, hseen⟩ := seen_of_reachable h
  obtain ⟨m, hm, hsome⟩ := exists_next (D := D) (s := c.shared) (hfits t) hsettled
  obtain ⟨⟨s', p', sig⟩, hn⟩ := Option.isSome_iff_exists.mp hsome
  have hstep := step_of_next (hfits t) hn
  have hseen' : D.machine.Reachable D.start (state ⟨s', Function.update c.pc t p'⟩) := by
    rcases state_of_step rfl hstep with hsame | ⟨a, ha⟩
    · rwa [hsame]
    · exact hseen.tail trivial ha
  obtain ⟨hall, hlt⟩ := rank_of_step hstep hm (executed_le_posted hseen')
  exact ⟨m, s', p', sig, hm, hall, hn, hlt⟩

/-- In every reachable state of a pool in which every queue is the own queue of some worker. -/
lemma law_of_reachable [Fintype κ] (hn : 0 < n) (hhome : Function.Surjective D.home)
    (h : (monitor D).machine.Reachable (start D) c) : Law D c := by
  refine ⟨(seen_of_reachable h).2, fun hrest => ⟨fun k => ?_, perm_of_atRest hhome h hrest⟩, ?_⟩
  · obtain ⟨i, rfl⟩ := hhome k
    exact queue_eq_nil h hrest i
  · have hdrained : ∃ c', (monitor D).machine.Runs (fun _ a => GoesOn a.move) c c' ∧
        ((monitor D).machine.Reachable (start D) c' ∧ c'.shared.posted = c.shared.posted) ∧
        ∀ t, (c'.pc t).Settled := by
      refine Monitor.exists_runs_settled_of_level rank_wake_le
        (fun u a u' ⟨hu, hposted⟩ hgo hs => ⟨hu.tail trivial hs, ?_⟩)
        (fun u t ⟨hu, _⟩ ht => exists_nearer hu ht) ⟨h, rfl⟩
      obtain ⟨sh, p, sig, hn, hd⟩ := Monitor.step_eq_some.mp hs
      rw [Monitor.shared_of_deliver hd, ← hposted]
      exact posted_of_step (step_of_next ((seen_of_reachable hu).1 _) hn) hgo
    obtain ⟨c', hruns, ⟨hc', hposted⟩, hsettled⟩ := hdrained
    have hrest := fun t => atRest_of_settled hn hc' (hsettled t)
    exact ⟨c', hruns, hposted, perm_of_atRest hhome hc' hrest, hrest⟩

/-- In every reachable state of a `simple_thread_pool` with at least one worker. -/
theorem simple_pool_law {c : Config (P ⊕ Fin n) (Shared (P ⊕ Fin n) Unit Unit α) (Place n Unit α)}
    (hn : 0 < n) (h : (monitor (simple n)).machine.Reachable (start (simple n)) c) :
    Law (simple n) c :=
  law_of_reachable hn (fun _ => ⟨⟨0, hn⟩, rfl⟩) h

/-- Two workers sleep in the queue, a work object is in it, and one of them has been notified. -/
theorem simple_pool_law_three :
    ∃ c : Config (Fin 1 ⊕ Fin 2) (Shared (Fin 1 ⊕ Fin 2) Unit Unit ℕ) (Place 2 Unit ℕ),
      (c.pc (.inr 0)).inner = .asleep ∧ (c.pc (.inr 1)).inner = .woken true ∧
        c.shared.executed = [] ∧ Law (simple 2) c := by
  obtain ⟨c, hc, hp⟩ := Machine.exists_reachable_of_run (M := (monitor (simple 2)).machine)
    (s := (start (simple 2) :
      Config (Fin 1 ⊕ Fin 2) (Shared (Fin 1 ⊕ Fin 2) Unit Unit ℕ) (Place 2 Unit ℕ)))
    [⟨.inr 0, .call true, none⟩, ⟨.inr 1, .call true, none⟩, ⟨.inl 0, .post 7, none⟩,
      ⟨.inl 0, .call true, none⟩, ⟨.inl 0, .go .notify, some (.inr 1)⟩]
    (fun c => (c.pc (.inr 0)).inner == .asleep && (c.pc (.inr 1)).inner == .woken true &&
      c.shared.executed == []) (by decide +kernel)
  simp only [Bool.and_eq_true, beq_iff_eq, and_assoc] at hp
  exact ⟨c, hp.1, hp.2.1, hp.2.2, simple_pool_law (by decide) hc⟩

/-- In every reachable state of a `work_stealing_thread_pool` with at least one worker. -/
theorem work_stealing_pool_law {count : UInt32} (hc : 0 < count)
    {c : Config (P ⊕ Fin count.toNat) (Shared (P ⊕ Fin count.toNat) (Fin count.toNat) UInt32 α)
      (Place count.toNat (Fin count.toNat) α)}
    (h : (monitor (workStealing count hc)).machine.Reachable (start (workStealing count hc)) c) :
    Law (workStealing count hc) c :=
  law_of_reachable (UInt32.lt_iff_toNat_lt.mp hc) (fun i => ⟨i, rfl⟩) h

/-- The first worker sleeps in its own queue, where a post has placed a work object and has still to
notify. The second worker has stolen the work object. -/
theorem work_stealing_pool_law_three :
    ∃ c : Config (Fin 1 ⊕ Fin 2) (Shared (Fin 1 ⊕ Fin 2) (Fin 2) UInt32 ℕ) (Place 2 (Fin 2) ℕ),
      (c.pc (.inr 0)).inner = .asleep ∧ (c.pc (.inl 0)).inner = .notifyingOne ∧
        (c.shared.queues 0).contents.queue = [] ∧ Law (workStealing 2 (by decide)) c := by
  obtain ⟨c, hc, hp⟩ := Machine.exists_reachable_of_run
    (M := (monitor (workStealing 2 (by decide))).machine)
    (s := (start (workStealing 2 (by decide)) :
      Config (Fin 1 ⊕ Fin 2) (Shared (Fin 1 ⊕ Fin 2) (Fin 2) UInt32 ℕ) (Place 2 (Fin 2) ℕ)))
    ([⟨.inr 0, .call true, none⟩, ⟨.inr 0, .call true, none⟩, ⟨.inr 0, .call true, none⟩,
      ⟨.inr 1, .call true, none⟩, ⟨.inl 0, .post 7, none⟩, ⟨.inl 0, .call true, none⟩,
      ⟨.inr 1, .call true, none⟩] : List (Core.Act (Fin 1 ⊕ Fin 2) (Move ℕ)))
    (fun c => (c.pc (.inr (0 : Fin 2))).inner == .asleep &&
      (c.pc (.inl 0)).inner == .notifyingOne &&
      (c.shared.queues (0 : Fin 2)).contents.queue == []) (by decide +kernel)
  simp only [Bool.and_eq_true, beq_iff_eq, and_assoc] at hp
  exact ⟨c, hp.1, hp.2.1, hp.2.2, work_stealing_pool_law (by decide) hc⟩

end

end WithQueues

end ThreadPool

end Sync
