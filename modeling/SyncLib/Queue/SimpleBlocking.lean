import SyncLib.Core.Baton

/-!
# `simple_blocking_queue`

A FIFO queue and a flag under one mutex. Both `push` and `done` notify after they have released it,
one waiter for an item and all of them for the flag, and a pop that does not wait can take an item
that somebody was notified of. The flag is called `one_` where it is declared and `done_` where it
is used; it is read as one flag here.
-/

namespace Sync

open Core

namespace Queue

namespace SimpleBlocking

/-! ### What the mutex guards -/

/-- `queue_` and `one_`. -/
structure Contents (α : Type*) where
  queue : List α
  one : Bool
  deriving DecidableEq, Repr

namespace Contents

variable {α : Type*}

/-- A new queue. -/
def empty : Contents α := ⟨[], false⟩

def emplace (q : Contents α) (x : α) : Contents α := { q with queue := q.queue ++ [x] }

/-- The predicate that `pop` waits for. -/
def ready (q : Contents α) : Bool := !q.queue.isEmpty || q.one

/-- What `pop` and `try_pop` do under the mutex when they need not wait. -/
def take (q : Contents α) : Option α × Contents α :=
  match q.queue with
  | []      => (none, q)
  | x :: xs => (some x, { q with queue := xs })

def done (q : Contents α) : Contents α := { q with one := true }

end Contents

/-! ### The threads -/

/-- Where a thread is: outside, in `push`, `try_push` or `done` between the release of the mutex and
the notification, in the wait of `pop`, or on its way out of it, where it waits for the mutex. -/
inductive Place
  | idle
  | notifyingOne
  | notifyingAll
  | asleep
  | woken (notified : Bool)
  deriving DecidableEq, Repr

/-- A call, up to its end, to its wait or to its notification, or the next step of a thread in a
call. `free` is whether the mutex was free. -/
inductive Move (α : Type*)
  | push (x : α)
  | tryPush (free : Bool) (x : α)
  | pop
  | tryPop (free : Bool)
  | done
  | notify
  | wakeUp
  | recheck
  deriving DecidableEq, Repr

/-- What a section under the mutex did. An attempt is refused when `try_push` returns `false` or
`try_pop` nothing; `emptied` is a `pop` that returns nothing. -/
inductive Event (T α : Type*)
  | pushed (t : T) (x : α)
  | popped (t : T) (x : α)
  | refused (t : T)
  | emptied (t : T)
  | done (t : T)
  deriving DecidableEq, Repr

/-- The members, and the sections so far, the last one first. -/
structure Shared (T α : Type*) where
  contents : Contents α
  log : List (Event T α)

variable {T α : Type*}

def push (t : T) (x : α) (s : Shared T α) : Shared T α × Place :=
  (⟨s.contents.emplace x, .pushed t x :: s.log⟩, .notifyingOne)

def tryPush (t : T) (free : Bool) (x : α) (s : Shared T α) : Shared T α × Place :=
  if free then push t x s else ({ s with log := .refused t :: s.log }, .idle)

/-- The test of the predicate in `pop`, and what follows when it holds. -/
def pop (t : T) (s : Shared T α) : Shared T α × Place :=
  if s.contents.ready then
    match s.contents.take with
    | (none, q)   => (⟨q, .emptied t :: s.log⟩, .idle)
    | (some x, q) => (⟨q, .popped t x :: s.log⟩, .idle)
  else (s, .asleep)

def tryPop (t : T) (free : Bool) (s : Shared T α) : Shared T α × Place :=
  if free then
    match s.contents.take with
    | (none, q)   => (⟨q, .refused t :: s.log⟩, .idle)
    | (some x, q) => (⟨q, .popped t x :: s.log⟩, .idle)
  else ({ s with log := .refused t :: s.log }, .idle)

def done (t : T) (s : Shared T α) : Shared T α × Place :=
  (⟨s.contents.done, .done t :: s.log⟩, .notifyingAll)

/-- One section under the mutex, a notification, or the end of a wait. -/
def next (t : T) (s : Shared T α) :
    Place → Move α → Option (Shared T α × Place × Signal Unit)
  | .idle, .push x           => silently (push t x s)
  | .idle, .tryPush free x   => silently (tryPush t free x s)
  | .idle, .pop              => silently (pop t s)
  | .idle, .tryPop free      => silently (tryPop t free s)
  | .idle, .done             => silently (done t s)
  | .notifyingOne, .notify   => some (s, .idle, .one ())
  | .notifyingAll, .notify   => some (s, .idle, .all ())
  | .asleep, .wakeUp         => some (s, .woken false, .none)
  | .woken _, .recheck       => silently (pop t s)
  | _, _                     => none

/-- The place of a thread on `ready_` after a notification. -/
def Place.wake : Place → Place
  | .asleep => .woken true
  | p       => p

def Place.asleepOn : Place → Option Unit
  | .asleep => some ()
  | _       => none

/-- All threads around one queue. -/
def monitor : Monitor T (Shared T α) Place Unit (Move α) where
  next := next
  asleepOn := Place.asleepOn
  wake := Place.wake

def start : Config T (Shared T α) Place := ⟨⟨.empty, []⟩, fun _ => .idle⟩

/-! ### The steps -/

/-- What a step of one thread does, one constructor for each effect. -/
inductive Effect (t : T) (s : Shared T α) (p : Place) :
    Shared T α → Place → Signal Unit → Prop
  | push (x : α) (hp : p = .idle) :
      Effect t s p ⟨s.contents.emplace x, .pushed t x :: s.log⟩ .notifyingOne .none
  | refuse (hp : p = .idle) : Effect t s p { s with log := .refused t :: s.log } .idle .none
  | take (x : α) (xs : List α) (hp : p ≠ .notifyingAll) (hq : s.contents.queue = x :: xs) :
      Effect t s p ⟨{ s.contents with queue := xs }, .popped t x :: s.log⟩ .idle .none
  | giveUp (hp : p ≠ .notifyingAll) (hq : s.contents.queue = []) (hone : s.contents.one = true) :
      Effect t s p { s with log := .emptied t :: s.log } .idle .none
  | sleep (hp : p ≠ .notifyingAll) (hq : s.contents.queue = [])
      (hone : s.contents.one = false) : Effect t s p s .asleep .none
  | done (hp : p = .idle) :
      Effect t s p ⟨s.contents.done, .done t :: s.log⟩ .notifyingAll .none
  | notifyOne (hp : p = .notifyingOne) : Effect t s p s .idle (.one ())
  | notifyAll (hp : p = .notifyingAll) : Effect t s p s .idle (.all ())
  | wakeUp (hp : p = .asleep) : Effect t s p s (.woken false) .none

namespace Effect

variable {t : T} {s s' : Shared T α} {p p' : Place} {m : Move α} {sig : Signal Unit}

lemma of_pop (hp : p ≠ .notifyingAll) :
    Effect t s p (SimpleBlocking.pop t s).1 (SimpleBlocking.pop t s).2 .none := by
  cases hq : s.contents.queue with
  | nil =>
    cases hone : s.contents.one with
    | true =>
      simp only [SimpleBlocking.pop, Contents.ready, Contents.take, hq, hone, Bool.or_true, if_true]
      exact .giveUp hp hq hone
    | false =>
      simp only [SimpleBlocking.pop, Contents.ready, hq, hone, List.isEmpty_nil, Bool.not_true,
        Bool.or_self, Bool.false_eq_true, if_false]
      exact .sleep hp hq hone
  | cons x xs =>
    simp only [SimpleBlocking.pop, Contents.ready, Contents.take, hq, List.isEmpty_cons,
      Bool.not_false, Bool.true_or, if_true]
    exact .take x xs hp hq

lemma of_tryPop (free : Bool) :
    Effect t s .idle (tryPop t free s).1 (tryPop t free s).2 .none := by
  unfold tryPop
  split_ifs
  · cases hq : s.contents.queue with
    | nil =>
      simp only [Contents.take, hq]
      exact .refuse rfl
    | cons x xs =>
      simp only [Contents.take, hq]
      exact .take x xs (by simp) hq
  · exact .refuse rfl

lemma of_tryPush (free : Bool) (x : α) :
    Effect t s .idle (tryPush t free x s).1 (tryPush t free x s).2 .none := by
  unfold tryPush
  split_ifs
  · exact .push x rfl
  · exact .refuse rfl

lemma of_next (h : next t s p m = some (s', p', sig)) : Effect t s p s' p' sig := by
  unfold next silently at h
  split at h <;> simp only [Option.some.injEq, Prod.mk.injEq, reduceCtorEq] at h <;>
    obtain ⟨rfl, rfl, rfl⟩ := h
  · exact .push _ rfl
  · exact of_tryPush _ _
  · exact of_pop (by simp)
  · exact of_tryPop _
  · exact .done rfl
  · exact .notifyOne rfl
  · exact .notifyAll rfl
  · exact .wakeUp rfl
  · exact of_pop (by simp)

end Effect

/-! ### The order of the items -/

/-- The items pushed, in the order of the sections. -/
def pushes : List (Event T α) → List α
  | []               => []
  | .pushed _ x :: l => pushes l ++ [x]
  | _ :: l           => pushes l

/-- The items popped, in the order of the sections. -/
def pops : List (Event T α) → List α
  | []               => []
  | .popped _ x :: l => pops l ++ [x]
  | _ :: l           => pops l

/-- A `pop` that returned nothing did so after `done`, when every item pushed had been popped. -/
def EmptiedLaw : List (Event T α) → Prop
  | []              => True
  | .emptied _ :: l => (∃ u, .done u ∈ l) ∧ pops l = pushes l ∧ EmptiedLaw l
  | _ :: l          => EmptiedLaw l

/-- The log accounts for the members. -/
structure Recorded (s : Shared T α) : Prop where
  queue_eq : pops s.log ++ s.contents.queue = pushes s.log
  one_iff : s.contents.one = true ↔ ∃ u, .done u ∈ s.log
  emptied : EmptiedLaw s.log

lemma Recorded.step {t : T} {s s' : Shared T α} {p p' : Place} {sig : Signal Unit}
    (h : Recorded s) (he : Effect t s p s' p' sig) : Recorded s' := by
  obtain ⟨hqueue, hone, hemptied⟩ := h
  cases he with
  | push x hp =>
    refine ⟨?_, by simpa [Contents.emplace] using hone, hemptied⟩
    show pops s.log ++ (s.contents.queue ++ [x]) = pushes s.log ++ [x]
    rw [← List.append_assoc, hqueue]
  | refuse hp => exact ⟨hqueue, by simpa using hone, hemptied⟩
  | take x xs hp hq =>
    refine ⟨?_, by simpa using hone, hemptied⟩
    show pops s.log ++ [x] ++ xs = pushes s.log
    rw [← hqueue, hq, List.append_assoc, List.singleton_append]
  | giveUp hp hq h₁ =>
    refine ⟨hqueue, by simpa using hone, hone.mp h₁, ?_, hemptied⟩
    rw [← hqueue, hq, List.append_nil]
  | done hp => exact ⟨hqueue, by simp [Contents.done], hemptied⟩
  | sleep hp hq h₁ => exact ⟨hqueue, hone, hemptied⟩
  | notifyOne hp => exact ⟨hqueue, hone, hemptied⟩
  | notifyAll hp => exact ⟨hqueue, hone, hemptied⟩
  | wakeUp hp => exact ⟨hqueue, hone, hemptied⟩

/-! ### The batons -/

/-- The single notifications that a thread has still to send. -/
def Place.toSend : Place → ℕ
  | .notifyingOne => 1
  | _             => 0

/-- Poppers that were notified and have not tested their predicate yet. -/
def Place.notified : Place → ℕ
  | .woken true => 1
  | _           => 0

lemma Place.credit_le_one (p : Place) : p.toSend + p.notified ≤ 1 := by
  unfold toSend notified
  split <;> split <;> simp_all

/-- Each item is for one popper, and a notified one will look for an item. -/
def itemBaton : (monitor (T := T) (α := α)).Baton () where
  avail s := s.contents.queue.length
  credit p := p.toSend + p.notified
  announces p := p = .notifyingAll
  gain := 1
  asleepOn_wake p := by cases p <;> rfl
  credit_le_wake p := by cases p <;> simp [monitor, Place.wake, Place.toSend, Place.notified]
  gain_le_wake p hp := by
    cases p <;> simp_all [monitor, Place.asleepOn, Place.wake, Place.toSend, Place.notified]
  announces_wake p hp := by
    subst hp
    rfl

/-- The flag is for all poppers, and nothing but `notify_all` will do. -/
def doneBaton : (monitor (T := T) (α := α)).Baton () where
  avail s := s.contents.one.toNat
  credit _ := 0
  announces p := p = .notifyingAll
  gain := 0
  asleepOn_wake p := by cases p <;> rfl
  credit_le_wake _ := le_rfl
  gain_le_wake _ _ := le_rfl
  announces_wake p hp := by
    subst hp
    rfl

namespace Effect

variable {t : T} {s s' : Shared T α} {p p' : Place} {sig : Signal Unit}

/-- Only `notify_all` itself ends the place of a thread that has it to send. -/
lemma announces (h : Effect t s p s' p' sig) (ha : p = .notifyingAll) :
    p' = .notifyingAll ∨ sig = .all () := by
  subst ha
  cases h with
  | push x hp => cases hp
  | take x xs hp hq => exact absurd rfl hp
  | giveUp hp hq hone => exact absurd rfl hp
  | sleep hp hq hone => exact absurd rfl hp
  | done hp => cases hp
  | notifyAll hp => exact .inr rfl
  | _ hp => cases hp

lemma keepsItems (h : Effect t s p s' p' sig) : itemBaton.Keeps s p s' p' sig := by
  refine ⟨fun hp' => ?_, h.announces, ?_⟩
  · cases h with
    | sleep hp hq hone => exact congrArg List.length hq
    | _ => cases hp'
  · cases h with
    | push x hp =>
      subst hp
      refine .inr (.inr (.inr ?_))
      simp [itemBaton, Contents.emplace, Place.toSend, Place.notified]
    | refuse hp =>
      subst hp
      exact .inr (.inr (.inr le_rfl))
    | take x xs hp hq =>
      refine .inr (.inr (.inr ?_))
      show xs.length + (p.toSend + p.notified) ≤ s.contents.queue.length
      rw [hq]
      exact Nat.add_le_add_left p.credit_le_one _
    | giveUp hp hq hone => exact .inr (.inr (.inl (congrArg List.length hq)))
    | sleep hp hq hone => exact .inr (.inr (.inl (congrArg List.length hq)))
    | done hp => exact .inr (.inl rfl)
    | notifyOne hp =>
      subst hp
      exact .inr (.inr (.inr le_rfl))
    | notifyAll hp => exact .inl rfl
    | wakeUp hp =>
      subst hp
      exact .inr (.inr (.inr le_rfl))

lemma keepsDone (h : Effect t s p s' p' sig) : doneBaton.Keeps s p s' p' sig := by
  refine ⟨fun hp' => ?_, h.announces, ?_⟩
  · cases h with
    | sleep hp hq hone => exact congrArg Bool.toNat hone
    | _ => cases hp'
  · cases h with
    | done hp => exact .inr (.inl rfl)
    | notifyAll hp => exact .inl rfl
    | _ => exact .inr (.inr (.inr le_rfl))

end Effect

/-! ### The law -/

variable [Fintype T] {s : Config T (Shared T α) Place}

/-- The items come out in the order in which they went in, `pop` gives up only when it may, and who
sleeps will be told. -/
structure Law (s : Config T (Shared T α) Place) : Prop where
  queue_eq : pops s.shared.log ++ s.shared.contents.queue = pushes s.shared.log
  isPrefix : pops s.shared.log <+: pushes s.shared.log
  emptied : EmptiedLaw s.shared.log
  sleeper : (∃ t, s.pc t = .asleep) →
    s.shared.contents.queue ≠ [] ∨ s.shared.contents.one = true →
    (∃ u, s.pc u = .notifyingAll) ∨ (∃ u, s.pc u = .notifyingOne) ∨ ∃ u, s.pc u = .woken true

lemma exists_of_credit (h : 0 < tally (fun p : Place => p.toSend + p.notified) s.pc) :
    (∃ u, s.pc u = .notifyingOne) ∨ ∃ u, s.pc u = .woken true := by
  obtain ⟨u, hu⟩ := tally_pos_iff.mp h
  cases hp : s.pc u with
  | notifyingOne => exact .inl ⟨u, hp⟩
  | woken notified =>
    cases notified with
    | true => exact .inr ⟨u, hp⟩
    | false => simp [hp, Place.toSend, Place.notified] at hu
  | _ => simp [hp, Place.toSend, Place.notified] at hu

lemma law_of_covered (h : Recorded s.shared) (hitems : itemBaton.Covered s)
    (hdone : doneBaton.Covered s) : Law s := by
  refine ⟨h.queue_eq, ⟨_, h.queue_eq⟩, h.emptied, ?_⟩
  rintro ⟨t, ht⟩ havail
  have hasleep : monitor.asleepOn (T := T) (σ := Shared T α) (ι := Move α) (s.pc t) = some () := by
    rw [ht]
    rfl
  rcases havail with hq | hone
  · rcases hitems ⟨t, hasleep⟩ with hall | hle
    · exact .inl hall
    · right
      apply exists_of_credit
      exact lt_of_lt_of_le (List.length_pos_iff.mpr hq) hle
  · rcases hdone ⟨t, hasleep⟩ with hall | hle
    · exact .inl hall
    · have hzero : tally (fun _ : Place => 0) s.pc = 0 := tally_eq_zero_iff.mpr fun _ => rfl
      have hle' : s.shared.contents.one.toNat ≤ 0 := hle.trans hzero.le
      rw [hone] at hle'
      cases hle'

/-- In every run the items popped are a prefix of the items pushed, `pop` returns nothing only after
`done` and from an empty queue, and nobody sleeps at a queue with an item or with its flag set
unless a notification is still to be sent or a notified popper has not looked yet. -/
theorem fifo_law_of_reachable [DecidableEq T] (h : monitor.machine.Reachable start s) :
    Law s := by
  have hinv : Recorded s.shared ∧ itemBaton.Covered s ∧ doneBaton.Covered s := by
    refine h.invariant
      (I := fun s => Recorded s.shared ∧ itemBaton.Covered s ∧ doneBaton.Covered s) ⟨?_, ?_, ?_⟩ ?_
    · exact ⟨rfl, by simp [start, Contents.empty], trivial⟩
    · rintro ⟨t, ht⟩
      cases ht
    · rintro ⟨t, ht⟩
      cases ht
    · rintro u a u' ⟨hrec, hitems, hdone⟩ - hs
      obtain ⟨sh, p, sig, hn, hd⟩ := Monitor.step_eq_some.mp hs
      refine ⟨?_, hitems.step (fun _ _ _ hn => (Effect.of_next hn).keepsItems) hs,
        hdone.step (fun _ _ _ hn => (Effect.of_next hn).keepsDone) hs⟩
      rw [Monitor.shared_of_deliver hd]
      exact hrec.step (Effect.of_next hn)
  exact law_of_covered hinv.1 hinv.2.1 hinv.2.2

/-- Two poppers sleep, one item is pushed and one of them notified, and a third popper takes the
item without waiting. `done` is called, and its notification is still to come. -/
theorem fifo_law_of_reachable_four : ∃ s : Config (Fin 4) (Shared (Fin 4) ℕ) Place,
    s.pc 0 = .woken true ∧ s.pc 1 = .asleep ∧ s.pc 3 = .notifyingAll ∧
      pops s.shared.log = [7] ∧ Law s := by
  obtain ⟨s, hs, hp⟩ := Machine.exists_reachable_of_run
    (M := (monitor (T := Fin 4) (α := ℕ)).machine) (s := start)
    [⟨0, .pop, none⟩, ⟨1, .pop, none⟩, ⟨2, .push 7, none⟩, ⟨2, .notify, some 0⟩,
      ⟨2, .tryPop true, none⟩, ⟨3, .done, none⟩]
    (fun s => s.pc 0 == .woken true && s.pc 1 == .asleep && s.pc 3 == .notifyingAll &&
      pops s.shared.log == [7]) (by decide +kernel)
  simp only [Bool.and_eq_true, beq_iff_eq] at hp
  obtain ⟨⟨⟨h₀, h₁⟩, h₃⟩, hpops⟩ := hp
  exact ⟨s, h₀, h₁, h₃, hpops, fifo_law_of_reachable hs⟩

end SimpleBlocking

end Queue

end Sync
