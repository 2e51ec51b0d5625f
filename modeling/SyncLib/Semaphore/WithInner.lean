import SyncLib.Core.Part
import SyncLib.Semaphore.Counting
import SyncLib.Semaphore.Fast

/-!
# `fast_semaphore` with its inner semaphore

`SyncLib.Semaphore.Fast` reads `semaphore_` as a counter. Here the threads run the code of
`semaphore`: a post is a section and a notification, and a wait sleeps on a condition variable.
-/

namespace Sync

open Core

namespace FastSemaphore

namespace WithInner

/-! ### The threads -/

/-- Where a thread is in the code of `fast_semaphore`, and in the methods of `semaphore_`. -/
structure Place where
  own : FastSemaphore.Place
  inner : Semaphore.Place
  deriving DecidableEq, Repr

/-- An operation on `count_`, or a step of a method of `semaphore_`. -/
inductive Move
  | own (m : FastSemaphore.Move)
  | inner (m : Semaphore.Move)
  deriving DecidableEq, Repr

/-- The members, and how many calls of `post` and of `wait` have begun, and of `wait` completed. -/
structure Shared (T : Type*) where
  count : Int64
  semaphore : Semaphore.Shared T
  posts : ℕ
  waits : ℕ
  passed : ℕ

variable {T : Type*}

/-- The method of `semaphore_` that is called at a place; it is the last thing that a call does. -/
def call : FastSemaphore.Place → Option Semaphore.Move
  | .posting => some .post
  | .waiting => some .wait
  | .idle    => none

/-- What `fast_semaphore` sees of the members. -/
def Shared.view (s : Shared T) : FastSemaphore.Shared :=
  ⟨s.count, s.semaphore.count.toNat, s.posts, s.waits, s.passed⟩

/-- A step of `semaphore_` that ends a `wait` completes it. -/
def Shared.completed (s : Shared T) (p : Place) (q : Semaphore.Place) : ℕ :=
  if p.own = .waiting ∧ q = .idle then s.passed + 1 else s.passed

/-- One operation of `fast_semaphore`, or one step of `semaphore`. -/
def next (t : T) (s : Shared T) (p : Place) : Move → Option (Shared T × Place × Signal Unit)
  | .own m =>
    match call p.own with
    | none   => (FastSemaphore.next s.view p.own m).map fun r =>
        ({ s with count := r.1.count, posts := r.1.posts, waits := r.1.waits,
                  passed := r.1.passed }, { p with own := r.2 }, .none)
    | some _ => none
  | .inner m =>
    match call p.own with
    | none       => none
    | some first => (Semaphore.monitor.callStep .idle first t s.semaphore p.inner m).map fun r =>
        ({ s with semaphore := r.1, passed := s.completed p r.2.1 },
          ⟨if r.2.1 = .idle then .idle else p.own, r.2.1⟩, r.2.2)

/-- All threads around one semaphore. -/
def monitor : Monitor T (Shared T) Place Unit Move where
  next := next
  asleepOn p := p.inner.asleepOn
  wake p := { p with inner := p.inner.wake }

/-- A thread outside of the methods. -/
def idle : Place := ⟨.idle, .idle⟩

/-- The constructor. -/
def start (count : Int32) : Config T (Shared T) Place :=
  ⟨⟨count.toInt64, ⟨0, []⟩, 0, 0, 0⟩, fun _ => idle⟩

/-- The places that a thread can be at. -/
inductive Fits : Place → Prop
  | own (p : FastSemaphore.Place) : Fits ⟨p, .idle⟩
  | asleep : Fits ⟨.waiting, .asleep false⟩
  | woken (notified : Bool) : Fits ⟨.waiting, .woken false notified⟩
  | notifying : Fits ⟨.posting, .notifyingOne⟩

/-- What a step of one thread does. -/
inductive Step (t : T) (s : Shared T) : Place → Move → Shared T → Place → Signal Unit → Prop
  | own {q : FastSemaphore.Place} {m : FastSemaphore.Move} {sh : FastSemaphore.Shared}
      (h : FastSemaphore.next s.view .idle m = some (sh, q)) :
      Step t s idle (.own m) { s with count := sh.count, posts := sh.posts, waits := sh.waits,
                                      passed := sh.passed } ⟨q, .idle⟩ .none
  | take {e : Semaphore.Place} {m : Semaphore.Move} (he : e ≠ .notifyingOne)
      (hc : s.semaphore.count ≠ 0) :
      Step t s ⟨.waiting, e⟩ (.inner m)
        { s with semaphore := s.semaphore.take t, passed := s.passed + 1 } idle .none
  | sleep {e : Semaphore.Place} {m : Semaphore.Move} (he : e ≠ .notifyingOne)
      (hc : s.semaphore.count = 0) :
      Step t s ⟨.waiting, e⟩ (.inner m) s ⟨.waiting, .asleep false⟩ .none
  | wakeUp :
      Step t s ⟨.waiting, .asleep false⟩ (.inner .wakeUp) s ⟨.waiting, .woken false false⟩ .none
  | post :
      Step t s ⟨.posting, .idle⟩ (.inner .post)
        { s with semaphore := (Semaphore.post t s.semaphore).1 } ⟨.posting, .notifyingOne⟩ .none
  | notify :
      Step t s ⟨.posting, .notifyingOne⟩ (.inner .notify) s idle (.one ())

variable {t : T} {s s' : Shared T} {p p' : Place} {m : Move} {sig : Signal Unit}

/-- The test of the predicate in a call of `semaphore_.wait()`. -/
lemma step_of_wait {e : Semaphore.Place} {m : Semaphore.Move} (he : e ≠ .notifyingOne) :
    Step t s ⟨.waiting, e⟩ (.inner m)
      { s with semaphore := (Semaphore.wait t s.semaphore).1,
               passed := s.completed ⟨.waiting, e⟩ (Semaphore.wait t s.semaphore).2 }
      ⟨if (Semaphore.wait t s.semaphore).2 = .idle then .idle else .waiting,
        (Semaphore.wait t s.semaphore).2⟩ .none := by
  by_cases hc : s.semaphore.count = 0
  · have hwait : Semaphore.wait t s.semaphore = (s.semaphore, .asleep false) :=
      if_neg (not_not.mpr hc)
    rw [hwait]
    exact .sleep he hc
  · have hwait : Semaphore.wait t s.semaphore = (s.semaphore.take t, .idle) := if_pos hc
    rw [hwait]
    exact .take he hc

lemma step_of_next (hp : Fits p) (h : next t s p m = some (s', p', sig)) :
    Step t s p m s' p' sig := by
  cases m with
  | own m =>
    simp only [next] at h
    split at h
    · rename_i hcall
      simp only [Option.map_eq_some_iff, Prod.mk.injEq] at h
      obtain ⟨⟨sh, q⟩, hn, rfl, rfl, rfl⟩ := h
      cases hp with
      | own p =>
        cases p with
        | idle => exact .own hn
        | _ => cases hcall
      | _ => cases hcall
    · cases h
  | inner m =>
    simp only [next] at h
    split at h
    · cases h
    · rename_i first hcall
      simp only [Option.map_eq_some_iff, Prod.mk.injEq] at h
      obtain ⟨⟨sh, e', sig'⟩, hn, rfl, rfl, rfl⟩ := h
      obtain ⟨hfirst, hn⟩ := Monitor.next_of_callStep hn
      cases hp with
      | own p =>
        obtain rfl := hfirst rfl
        cases p with
        | idle => cases hcall
        | posting =>
          cases hcall
          cases hn
          exact .post
        | waiting =>
          cases hcall
          cases hn
          exact step_of_wait (by simp)
      | asleep =>
        cases hcall
        cases m <;> cases hn
        exact .wakeUp
      | woken =>
        cases hcall
        cases m <;> cases hn
        exact step_of_wait (by simp)
      | notifying =>
        cases hcall
        cases m <;> cases hn
        exact .notify

lemma Step.fits (h : Step t s p m s' p' sig) : Fits p' := by
  cases h with
  | own => exact .own _
  | take | notify => exact .own .idle
  | sleep => exact .asleep
  | wakeUp => exact .woken false
  | post => exact .notifying

lemma Fits.wake (hp : Fits p) : Fits { p with inner := p.inner.wake } := by
  cases hp with
  | own p => exact .own p
  | asleep => exact .woken true
  | woken b => exact .woken b
  | notifying => exact .notifying

/-! ### What the two semaphores see -/

/-- A call of `post` is over for `fast_semaphore` when the unit is there. -/
def Place.seen (p : Place) : FastSemaphore.Place :=
  if p.inner = .notifyingOne then .idle else p.own

/-- The operations on `count_` leave the inner semaphore alone. -/
lemma inner_of_next {v v' : FastSemaphore.Shared} {q : FastSemaphore.Place}
    {m : FastSemaphore.Move} (h : FastSemaphore.next v .idle m = some (v', q)) :
    v'.inner = v.inner := by
  cases m with
  | post => cases h; rfl
  | wait =>
    simp only [FastSemaphore.next, FastSemaphore.wait, Option.some.injEq] at h
    split_ifs at h <;> cases h <;> rfl
  | proceed => cases h

def Move.seen : Move → FastSemaphore.Move
  | .own m   => m
  | .inner _ => .proceed

/-- A step of the code with the inner semaphore is one of the code with a counter, or it is not
seen, as long as a post does not wrap the count around. -/
lemma seen_of_step (hsafe : m = .inner .post → s.semaphore.count.toNat + 1 < 2 ^ 64)
    (h : Step t s p m s' p' sig) : (s'.view = s.view ∧ p'.seen = p.seen) ∨
      FastSemaphore.next s.view p.seen m.seen = some (s'.view, p'.seen) := by
  cases h with
  | @own q m sh hn =>
    right
    have hsh : Shared.view { s with
        count := sh.count, posts := sh.posts, waits := sh.waits, passed := sh.passed } = sh := by
      rw [Shared.view, ← show sh.inner = s.semaphore.count.toNat from inner_of_next hn]
    rw [hsh]
    exact hn
  | @take e m he hc =>
    right
    have hpred := toNat_sub_one_add_one hc
    have hpos : s.semaphore.count.toNat ≠ 0 := by omega
    have hseen : (⟨.waiting, e⟩ : Place).seen = .waiting := if_neg he
    have hinner : (s.semaphore.count - 1).toNat = s.semaphore.count.toNat - 1 := by omega
    simp only [Move.seen, FastSemaphore.next, hseen, Shared.view, Semaphore.Shared.take, hinner]
    exact if_neg hpos
  | sleep he hc => exact .inl ⟨rfl, (if_neg he).symm⟩
  | wakeUp => exact .inl ⟨rfl, rfl⟩
  | post =>
    right
    have hadd : (s.semaphore.count + 1).toNat = s.semaphore.count.toNat + 1 :=
      toNat_add_of_lt (hsafe rfl)
    simp only [Shared.view, Semaphore.post, hadd]
    rfl
  | notify => exact .inl ⟨rfl, rfl⟩

lemma seen_wake (hp : Fits p) : Place.seen { p with inner := p.inner.wake } = p.seen := by
  cases hp with
  | own p => rfl
  | _ => rfl

/-- `fast_semaphore` sees a counter. -/
def view : View (monitor (T := T)) (FastSemaphore.code (T := T)) where
  shared := Shared.view
  place := Place.seen
  move _ _ := Move.seen
  fits := Fits
  safe _ s _ m := m = .inner .post → s.semaphore.count.toNat + 1 < 2 ^ 64
  fits_wake _ := Fits.wake
  place_wake _ := seen_wake
  fits_next hp h := (step_of_next hp h).fits
  next hp hsafe h := seen_of_step hsafe (step_of_next hp h)

/-- An operation on `count_` leaves the inner semaphore alone, and any other step is one of it. -/
lemma inner_of_step (h : next t s p m = some (s', p', sig)) :
    (s'.semaphore = s.semaphore ∧ p'.inner = p.inner ∧ ∀ c : Unit, sig.cond ≠ some c) ∨
      ∃ m₂, Semaphore.next t s.semaphore p.inner m₂ = some (s'.semaphore, p'.inner, sig) := by
  cases m with
  | own m =>
    left
    simp only [next] at h
    split at h
    · simp only [Option.map_eq_some_iff, Prod.mk.injEq] at h
      obtain ⟨⟨sh, q⟩, -, rfl, rfl, rfl⟩ := h
      exact ⟨rfl, rfl, fun c hc => by cases hc⟩
    · cases h
  | inner m =>
    right
    simp only [next] at h
    split at h
    · cases h
    · simp only [Option.map_eq_some_iff, Prod.mk.injEq] at h
      obtain ⟨⟨sh, e', sig'⟩, hn, rfl, rfl, rfl⟩ := h
      exact ⟨m, (Monitor.next_of_callStep hn).2⟩

/-- The inner semaphore, as a part. -/
def inner : Part (monitor (T := T)) (Semaphore.monitor (T := T)) where
  shared := Shared.semaphore
  place := Place.inner
  cond := id
  asleepOn _ _ := Iff.rfl
  wake _ _ _ := rfl
  wake_other _ d _ hd := absurd rfl (hd d)
  next h := (inner_of_step h).imp_right fun ⟨m, hm⟩ => ⟨m, _, hm, (Signal.map_id _).symm⟩

/-! ### The law -/

/-- A thread that sleeps in a call of `wait`. -/
def Place.sleeping (p : Place) : ℕ :=
  match p.inner with
  | .asleep _ => 1
  | _         => 0

/-- No more waits are completed than there were units. Where nobody is awake in a call, as many
threads sleep as waits were begun for which there is no unit. -/
structure Law [Fintype T] (c : ℤ) (s : Config T (Shared T) Place) : Prop where
  passed_le : (s.shared.passed : ℤ) ≤ c + s.shared.posts
  sleepers : (∀ t, s.pc t = idle ∨ (s.pc t).inner.asleepOn = some ()) →
    (tally Place.sleeping s.pc : ℤ) = max 0 (s.shared.waits - (c + s.shared.posts))

def Move.begins : Move → Bool
  | .own _   => true
  | .inner _ => false

/-- Fewer than `2 ^ 63` calls begin, and no post begins while `count_` is `LONG_MAX`. -/
def Countable (s : Config T (Shared T) Place) (a : Act T Move) : Prop :=
  (a.move.begins = true → s.shared.posts + s.shared.waits + 1 < 2 ^ 63) ∧
    (a.move = .own .post → s.shared.count ≠ Int64.maxValue)

instance (s : Config T (Shared T) Place) (a : Act T Move) : Decidable (Countable s a) :=
  inferInstanceAs (Decidable (_ ∧ _))

lemma countable_seen {s : Config T (Shared T) Place} {a : Act T Move} (h : Countable s a) :
    FastSemaphore.Countable (view.config s) (a.tid, a.move.seen) := by
  obtain ⟨hfew, hrep⟩ := h
  cases hm : a.move with
  | own m =>
    refine ⟨fun _ => hfew (by rw [hm]; rfl), fun hpost => hrep ?_⟩
    rw [hm, show m = .post from hpost]
  | inner m => exact ⟨fun h => absurd rfl h, fun h => by cases h⟩

/-- A thread that is outside or asleep is in the slow path of `wait` when it is asleep. -/
lemma slow_seen_of_settled (hp : Fits p) (h : p = idle ∨ p.inner.asleepOn = some ()) :
    p.seen.slow = p.sleeping ∧ p.seen.toPost = 0 ∧ ¬ p.inner = .notifyingAll ∧
      p.inner.toSend + p.inner.notified = 0 := by
  rcases h with rfl | h
  · exact ⟨rfl, rfl, by simp [idle], rfl⟩
  · cases hp with
    | asleep => exact ⟨rfl, rfl, by simp, rfl⟩
    | _ => cases h

variable [Fintype T] {c : ℤ} {s : Config T (Shared T) Place}

/-- What is known of the two levels with a counter, and of the inner semaphore by itself. -/
lemma law_of_seen (hfits : view.Fits s) (hcounts : Counts c (view.config s))
    (hinner : Semaphore.baton.Covered (inner.config s)) : Law c s := by
  refine ⟨hcounts.law.passed_le, fun hsettled => ?_⟩
  have hplace := fun t => slow_seen_of_settled (hfits t) (hsettled t)
  have hslow : tally FastSemaphore.Place.slow (view.config s).pc = tally Place.sleeping s.pc :=
    Finset.sum_congr rfl fun t _ => (hplace t).1
  have hpost : tally FastSemaphore.Place.toPost (view.config s).pc = 0 :=
    tally_eq_zero_iff.mpr fun t => (hplace t).2.1
  obtain ⟨hcount, hlevels, -⟩ := hcounts
  rw [hslow, hpost] at hlevels
  have hnone : tally Place.sleeping s.pc ≠ 0 → (view.config s).shared.inner = 0 := by
    intro hne
    -- nobody is left who could have been told of a unit
    have hcredit : tally (fun p : Semaphore.Place => p.toSend + p.notified) (inner.config s).pc
        = 0 :=
      tally_eq_zero_iff.mpr fun t => (hplace t).2.2.2
    obtain ⟨t, ht⟩ := tally_pos_iff.mp (Nat.pos_of_ne_zero hne)
    have hasleep : (s.pc t).inner.asleepOn = some () := by
      rcases hsettled t with hidle | hasleep
      · rw [hidle] at ht
        cases ht
      · exact hasleep
    rcases hinner ⟨t, hasleep⟩ with ⟨u, hu⟩ | hle
    · exact absurd hu (hplace u).2.2.1
    · exact Nat.le_zero.mp (hle.trans hcredit.le)
  change (view.config s).shared.count.toInt = c + s.shared.posts - s.shared.waits at hcount
  by_cases hzero : tally Place.sleeping s.pc = 0
  · omega
  · have hinner0 := hnone hzero
    omega

variable [DecidableEq T]

/-- In every run of fewer than `2 ^ 63` calls in which no post finds `count_` at `LONG_MAX`, down to
the sections and the notifications of the inner semaphore. -/
theorem both_semaphores_law {count : Int32} (hc : 0 ≤ count.toInt)
    (h : monitor.machine.Runs Countable (start count) s) : Law count.toInt s := by
  have h₀ : view.Fits (start count : Config T (Shared T) Place) := fun _ => .own .idle
  have hpost : ∀ u : Config T (Shared T) Place,
      code.machine.Runs FastSemaphore.Countable (FastSemaphore.start count) (view.config u) →
        u.shared.semaphore.count.toNat + 1 < 2 ^ 64 := by
    intro u hu
    obtain ⟨⟨-, hlevels, hpassed⟩, hcalls⟩ := counts_of_runs hc hu
    change _ = (u.shared.semaphore.count.toNat : ℤ) + _ + _ at hlevels
    omega
  have hseen : ∀ {u : Config T (Shared T) Place},
      monitor.machine.Runs Countable (start count) u → view.Fits u ∧
        code.machine.Runs FastSemaphore.Countable (FastSemaphore.start count) (view.config u) :=
    fun hu => view.runs h₀ (fun u _ _ _ hu _ _ => hpost u hu) (fun _ _ => countable_seen) hu
  have hinner : Semaphore.monitor.machine.Runs
      (fun u a => a.move = .post → u.shared.count.toNat + 1 < 2 ^ 64) (Semaphore.start 0)
      (inner.config s) :=
    inner.runs (fun u _ _ _ hu _ _ _ _ => hpost u (hseen hu).2) h
  exact law_of_seen (hseen h).1 (counts_of_runs hc (hseen h).2).1
    (Semaphore.covered_of_runs (fun _ _ h => h) hinner)

/-- The first of three waits has taken the only unit, and one of the other two was told of the only
post. -/
theorem both_semaphores_law_four : ∃ s : Config (Fin 4) (Shared (Fin 4)) Place,
    (s.pc 1).inner = .asleep false ∧ (s.pc 2).inner = .woken false true ∧ s.pc 3 = idle ∧
      s.shared.passed = 1 ∧ Law 1 s := by
  have hrun : (monitor.machine.runWhile Countable
      (start 1 : Config (Fin 4) (Shared (Fin 4)) Place)
      [⟨0, .own .wait, none⟩, ⟨1, .own .wait, none⟩, ⟨2, .own .wait, none⟩,
        ⟨1, .inner .wait, none⟩, ⟨2, .inner .wait, none⟩, ⟨3, .own .post, none⟩,
        ⟨3, .inner .post, none⟩, ⟨3, .inner .notify, some 2⟩]).any
      (fun s => (s.pc 1).inner == .asleep false && (s.pc 2).inner == .woken false true &&
        s.pc 3 == idle && s.shared.passed == 1) = true := by
    decide +kernel
  obtain ⟨s, hs, hp⟩ := Machine.exists_runs_of_runWhile _ _ hrun
  simp only [Bool.and_eq_true, beq_iff_eq, and_assoc] at hp
  exact ⟨s, hp.1, hp.2.1, hp.2.2.1, hp.2.2.2, both_semaphores_law (by decide) hs⟩

end WithInner

end FastSemaphore

end Sync
