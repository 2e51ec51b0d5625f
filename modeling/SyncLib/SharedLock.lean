import SyncLib.Core.Ledger
import SyncLib.Core.Machine

/-!
# `shared_lock`

Collections of `shared_lock` objects, the shared acquisitions they make and the calls of
`unlock_shared`. The second constructor with a `defer_lock_t` argument is read as the adopting
one, `ohter` as `other` and `mtx_.unlock_shared()` as `mtx_->unlock_shared()`.

`operator=` has no `return`. What its statements do is followed beyond its end, and that the
behaviour of the program is undefined from there on is kept in the state.
-/

namespace Sync

open Core

structure SharedLock (M : Type*) where
  mtx : Option M := none
  owns : Bool := false
  deriving DecidableEq, Repr

namespace SharedLock

variable {M : Type*}

/-! ### Members -/

/-- The constructors other than the move constructor. The last argument is what the attempt to
take the mutex returns. -/
inductive Ctor (M : Type*)
  | default
  | locking (m : M)
  | defer (m : M)
  | tryToLock (m : M) (ok : Bool)
  | adopt (m : M)
  | timeoutDuration (m : M) (ok : Bool)
  deriving DecidableEq, Repr

def Ctor.make : Ctor M → SharedLock M
  | .default              => {}
  | .locking m            => { mtx := some m }
  | .defer m              => { mtx := some m }
  | .tryToLock m ok       => { mtx := some m, owns := ok }
  | .adopt m              => { mtx := some m, owns := true }
  | .timeoutDuration m ok => { mtx := some m, owns := ok }

/-- The mutex that the constructor acquires, or whose acquisition it adopts. -/
def Ctor.takes : Ctor M → Option M
  | .default              => none
  | .locking m            => some m
  | .defer _              => none
  | .tryToLock m ok       => if ok then some m else none
  | .adopt m              => some m
  | .timeoutDuration m ok => if ok then some m else none

/-- The new object and `other` after the move constructor. -/
def moveConstruct (other : SharedLock M) : SharedLock M × SharedLock M :=
  ({ mtx := other.mtx, owns := other.owns }, { mtx := none, owns := false })

/-- `operator=(shared_lock&&)` between two objects: the target and `other` after its assignments,
and whether it gets to a `return`. -/
def moveAssign (_self other : SharedLock M) : (SharedLock M × SharedLock M) × Bool :=
  (({ mtx := other.mtx, owns := other.owns }, { mtx := none, owns := false }), false)

/-- `operator=(shared_lock&&)` with the object itself as `other`: each `std::exchange` returns
the old value before it is assigned. -/
def selfMoveAssign (self : SharedLock M) : SharedLock M × Bool :=
  ({ mtx := self.mtx, owns := self.owns }, false)

def swap (self other : SharedLock M) : SharedLock M × SharedLock M := (other, self)

/-- The object after `release`, and the pointer it returns. -/
def release (self : SharedLock M) : SharedLock M × Option M := ({}, self.mtx)

/-- The mutex that `if (owns_) mtx_->unlock_shared()` unlocks. -/
def destroy (self : SharedLock M) : Option M := if self.owns then self.mtx else none

/-- The members that take or give back the mutex, with what the attempt returns. -/
inductive Call
  | lock
  | tryLock (ok : Bool)
  | tryLockFor (ok : Bool)
  | tryLockUntil (ok : Bool)
  | unlock
  deriving DecidableEq, Repr

def Call.perform (self : SharedLock M) : Call → SharedLock M
  | .lock            => { self with owns := true }
  | .tryLock ok      => { self with owns := ok }
  | .tryLockFor ok   => { self with owns := ok }
  | .tryLockUntil ok => { self with owns := ok }
  | .unlock          => { self with owns := false }

/-- The call acquires the mutex. -/
def Call.takes : Call → Bool
  | .lock            => true
  | .tryLock ok      => ok
  | .tryLockFor ok   => ok
  | .tryLockUntil ok => ok
  | .unlock          => false

/-- Acquiring is for objects that do not own the mutex, unlocking for those that do. -/
def Call.legal (self : SharedLock M) : Call → Bool
  | .unlock => self.owns
  | _       => !self.owns

/-- A `SYNC_ASSERT`: its condition and the message where that is false. -/
structure Assert where
  cond : Bool
  msg : String
  deriving DecidableEq, Repr

/-- The assertions of the acquiring member `name`. -/
def acquireAsserts (name : String) (self : SharedLock M) : List Assert :=
  [⟨self.mtx.isSome, "shared_lock::" ++ name ++ ", mutex is null"⟩,
    ⟨self.owns, "shard_lock::" ++ name ++ ", does not own mutex"⟩]

def Call.asserts (self : SharedLock M) : Call → List Assert
  | .lock           => acquireAsserts "lock" self
  | .tryLock _      => acquireAsserts "try_lock" self
  | .tryLockFor _   => acquireAsserts "try_lock_for" self
  | .tryLockUntil _ => acquireAsserts "try_lock_until" self
  | .unlock         => [⟨!self.owns, "shared_lock::unlock, does not own mutex"⟩]

/-- Some assertion of the call fires. -/
def Call.fires (self : SharedLock M) (k : Call) : Bool := (k.asserts self).any (!·.cond)

/-! ### Collections of objects -/

/-- An operation on objects named by `O`. -/
inductive Op (O M : Type*)
  | construct (o : O) (c : Ctor M)
  | moveConstruct (o other : O)
  | moveAssign (o other : O)
  | swap (o other : O)
  | call (o : O) (k : Call)
  | release (o : O)
  | destroy (o : O)
  deriving DecidableEq, Repr

/-- The live objects, the acquisition in the custody of each, the mutex of each acquisition so
far, those that `release` gave up, the calls of `unlock_shared` with the acquisition that each gave
back, the newest first, and whether a call has reached the end of a function with a result without a
`return`. -/
structure State (O M : Type*) where
  objs : O → Option (SharedLock M)
  held : O → Option ℕ
  acquired : List M
  released : List ℕ
  unlocked : List (M × Option ℕ)
  undefined : Bool

variable {O : Type*}

def start : State O M := ⟨fun _ => none, fun _ => none, [], [], [], false⟩

section

variable [DecidableEq O]

namespace State

/-- A new shared acquisition of `m` for `o`. -/
def take (s : State O M) (o : O) (m : M) : State O M :=
  { s with
    held := Function.update s.held o (some s.acquired.length)
    acquired := s.acquired ++ [m] }

/-- `m.unlock_shared()` by `o`. -/
def giveBack (s : State O M) (o : O) (m : M) : State O M :=
  { s with held := Function.update s.held o none, unlocked := (m, s.held o) :: s.unlocked }

/-- `if (owns_) mtx_->unlock_shared()` in `o`, which is `l`. -/
def drop (s : State O M) (o : O) (l : SharedLock M) : State O M :=
  match l.destroy with
  | some m => s.giveBack o m
  | none   => s

/-- `o` becomes `x`. -/
def put (s : State O M) (o : O) (x : Option (SharedLock M)) : State O M :=
  { s with objs := Function.update s.objs o x }

/-- `o` and `o'` trade what is in their custody. -/
def trade (s : State O M) (o o' : O) : State O M :=
  { s with held := Function.update (Function.update s.held o (s.held o')) o' (s.held o) }

/-- Nothing is in the custody of `o` any more. -/
def forget (s : State O M) (o : O) : State O M :=
  { s with held := Function.update s.held o none }

/-- The end of a function with a result, with a `return` or without. -/
def finish (s : State O M) (returns : Bool) : State O M :=
  { s with undefined := s.undefined || !returns }

end State

/-- The members dereference `mtx_`, so a call needs an object with a mutex. -/
def step (s : State O M) : Op O M → Option (State O M)
  | .construct o c =>
    match s.objs o, c.takes with
    | none, some m => some ((s.put o (some c.make)).take o m)
    | none, none   => some (s.put o (some c.make))
    | some _, _    => none
  | .moveConstruct o other =>
    match s.objs o, s.objs other with
    | none, some l =>
      let r := moveConstruct l
      some (((s.put o (some r.1)).put other (some r.2)).trade o other)
    | _, _ => none
  | .moveAssign o other =>
    match s.objs o, s.objs other with
    | some l, some l' =>
      if o = other then
        let r := l.selfMoveAssign
        some (((s.drop o l).put o (some r.1)).finish r.2)
      else
        let r := moveAssign l l'
        some ((((((s.drop o l).forget o).put o (some r.1.1)).put other (some r.1.2)).trade o
          other).finish r.2)
    | _, _ => none
  | .swap o other =>
    match s.objs o, s.objs other with
    | some l, some l' =>
      let r := swap l l'
      some (((s.put o (some r.1)).put other (some r.2)).trade o other)
    | _, _ => none
  | .call o k =>
    match s.objs o with
    | some l =>
      match l.mtx with
      | some m =>
        if k.legal l then
          let s' := s.put o (some (k.perform l))
          if k = .unlock then some (s'.giveBack o m)
          else if k.takes then some (s'.take o m)
          else some s'
        else none
      | none => none
    | none => none
  | .release o =>
    match s.objs o with
    | some l =>
      some { (s.put o (some l.release.1)).forget o with
        released := (s.held o).toList ++ s.released }
    | none => none
  | .destroy o =>
    match s.objs o with
    | some l => some (((s.drop o l).forget o).put o none)
    | none   => none

def machine : Machine (State O M) (Op O M) := ⟨step⟩

end

/-! ### Custody of the acquisitions -/

/-- The acquisitions as tokens: an object holds the one in its custody, `release` gives it up and
`unlock_shared` spends it. -/
def ledger (s : State O M) : Ledger O where
  issued := s.acquired.length
  holder := s.held
  given := s.released
  spent := s.unlocked.filterMap (·.2)

/-- `o`, which is `l`, holds a shared acquisition of `*mtx_`. -/
def Holds (s : State O M) (o : O) (l : SharedLock M) : Prop :=
  ∃ m i, l.mtx = some m ∧ s.held o = some i ∧ s.acquired[i]? = some m

/-- Every acquisition is held by one object, or was given up, or was unlocked once; an object
owns exactly what it holds, and every unlock was made for an acquisition of its mutex. -/
structure Accounts (s : State O M) : Prop where
  balanced : (ledger s).Balanced
  flag : ∀ o l, s.objs o = some l → (l.owns = true ↔ Holds s o l)
  live : ∀ o i, s.held o = some i → ∃ l, s.objs o = some l ∧ l.owns = true
  unlocks : ∀ m a, (m, a) ∈ s.unlocked → ∃ i, a = some i ∧ s.acquired[i]? = some m

/-- The acquisitions are accounted for, and what the program does is defined. -/
structure Law (s : State O M) : Prop extends Accounts s where
  defined : s.undefined = false

/-- The object, if there is one, owns no mutex. -/
def Idle (x : Option (SharedLock M)) : Prop := ∀ l, x = some l → l.owns = false

/-- Neither the locking constructor nor a move assignment of an object that owns the mutex to
itself. -/
def KeepsAccounts (s : State O M) : Op O M → Prop
  | .construct _ (.locking _) => False
  | .moveAssign o other       => o = other → Idle (s.objs o)
  | _                         => True

/-- Neither the locking constructor nor a move assignment. -/
def Op.Allowed : Op O M → Prop
  | .construct _ (.locking _) => False
  | .moveAssign _ _           => False
  | _                         => True

variable {s s' : State O M}

lemma accounts_start : Accounts (start : State O M) := by
  constructor
  · constructor <;> simp [ledger, start]
  · simp [start]
  · simp [start]
  · simp [start]

lemma idle_none : Idle (none : Option (SharedLock M)) := by
  simp [Idle]

lemma idle_some {l : SharedLock M} : Idle (some l) ↔ l.owns = false := by
  simp [Idle]

lemma accounts_finish {b : Bool} : Accounts (s.finish b) ↔ Accounts s :=
  ⟨fun h => ⟨h.balanced, h.flag, h.live, h.unlocks⟩,
    fun h => ⟨h.balanced, h.flag, h.live, h.unlocks⟩⟩

lemma law_start : Law (start : State O M) := ⟨accounts_start, rfl⟩

namespace Accounts

variable (h : Accounts s)

include h

lemma held_eq_none {o : O} (ho : Idle (s.objs o)) : s.held o = none := by
  by_contra hne
  obtain ⟨i, hi⟩ := Option.ne_none_iff_exists'.mp hne
  obtain ⟨l, hl, howns⟩ := h.live o i hi
  simp [ho l hl] at howns

lemma holds {o : O} {l : SharedLock M} (ho : s.objs o = some l) (hl : l.owns = true) :
    ∃ m i, l = ⟨some m, true⟩ ∧ s.held o = some i ∧ s.acquired[i]? = some m := by
  obtain ⟨m, i, hm, hi, hacq⟩ := (h.flag o l ho).mp hl
  refine ⟨m, i, ?_, hi, hacq⟩
  cases l
  simp_all

end Accounts

variable [DecidableEq O]

namespace Accounts

variable (h : Accounts s)

include h

/-- An object that held nothing becomes one that owns nothing. -/
lemma put {o : O} {x : Option (SharedLock M)} (ho : Idle (s.objs o)) (hx : Idle x) :
    Accounts (s.put o x) := by
  have hnone := h.held_eq_none ho
  constructor
  · exact h.balanced
  · intro o' l hl
    by_cases hoo : o' = o
    · subst hoo
      simp only [State.put, Function.update_self] at hl
      simp [Holds, State.put, hnone, hx l hl]
    · simp only [State.put, Function.update_of_ne hoo] at hl
      exact h.flag o' l hl
  · intro o' i hi
    obtain ⟨l, hl, howns⟩ := h.live o' i hi
    have hoo : o' ≠ o := by
      rintro rfl
      simp [ho l hl] at howns
    exact ⟨l, by simpa [State.put, hoo] using hl, howns⟩
  · exact h.unlocks

/-- An object that held nothing acquires its mutex. -/
lemma take {o : O} {m : M} (ho : Idle (s.objs o)) :
    Accounts ((s.put o (some ⟨some m, true⟩)).take o m) := by
  have hkeep : ∀ {i : ℕ} {m' : M}, s.acquired[i]? = some m' →
      (s.acquired ++ [m])[i]? = some m' := by
    intro i m' hi
    rwa [List.getElem?_append_left (List.getElem?_eq_some_iff.mp hi).1]
  constructor
  · have hb := h.balanced.issue (h.held_eq_none ho)
    simpa [ledger, State.take, State.put] using hb
  · intro o' l hl
    by_cases hoo : o' = o
    · subst hoo
      simp only [State.take, State.put, Function.update_self, Option.some.injEq] at hl
      subst hl
      simp [Holds, State.take, State.put]
    · simp only [State.take, State.put, Function.update_of_ne hoo] at hl
      rw [h.flag o' l hl]
      -- an older acquisition keeps its place in the list
      simp only [Holds, State.take, State.put, Function.update_of_ne hoo]
      constructor
      · rintro ⟨m', i, hm, hi, hacq⟩
        exact ⟨m', i, hm, hi, hkeep hacq⟩
      · rintro ⟨m', i, hm, hi, hacq⟩
        refine ⟨m', i, hm, hi, ?_⟩
        rwa [List.getElem?_append_left (h.balanced.held_lt o' i hi)] at hacq
  · intro o' i hi
    by_cases hoo : o' = o
    · subst hoo
      exact ⟨⟨some m, true⟩, by simp [State.take, State.put], rfl⟩
    · simp only [State.take, State.put, Function.update_of_ne hoo] at hi ⊢
      exact h.live o' i hi
  · intro m' a ha
    obtain ⟨i, rfl, hacq⟩ := h.unlocks m' a ha
    exact ⟨i, rfl, hkeep hacq⟩

/-- An owner calls `unlock_shared`. -/
lemma giveBack {o : O} {m : M} {x : Option (SharedLock M)} (ho : s.objs o = some ⟨some m, true⟩)
    (hx : Idle x) : Accounts ((s.giveBack o m).put o x) := by
  obtain ⟨m', i, heq, hi, hacq⟩ := h.holds ho rfl
  cases heq
  constructor
  · have hb := h.balanced.spend hi
    simpa [ledger, State.giveBack, State.put, hi] using hb
  · intro o' l hl
    by_cases hoo : o' = o
    · subst hoo
      simp only [State.put, Function.update_self] at hl
      simp [Holds, State.put, State.giveBack, hx l hl]
    · simp only [State.put, State.giveBack, Function.update_of_ne hoo] at hl
      rw [h.flag o' l hl]
      simp [Holds, State.put, State.giveBack, hoo]
  · intro o' j hj
    by_cases hoo : o' = o
    · subst hoo
      simp [State.put, State.giveBack] at hj
    · simp only [State.put, State.giveBack, Function.update_of_ne hoo] at hj ⊢
      exact h.live o' j hj
  · intro m' a ha
    simp only [State.put, State.giveBack, List.mem_cons, Prod.mk.injEq] at ha
    rcases ha with ⟨rfl, rfl⟩ | ha
    · exact ⟨i, hi, hacq⟩
    · exact h.unlocks m' a ha

/-- `release` gives the acquisition up. -/
lemma giveUp {o : O} {l : SharedLock M} (ho : s.objs o = some l) :
    Accounts { (s.put o (some {})).forget o with released := (s.held o).toList ++ s.released } := by
  cases hl : l.owns with
  | false =>
    have hidle : Idle (s.objs o) := by rwa [ho, idle_some]
    have hput := h.put hidle (x := some {}) (idle_some.mpr rfl)
    have hnone := h.held_eq_none hidle
    have hsame : Function.update s.held o none = s.held :=
      Function.update_eq_self_iff.mpr hnone.symm
    simpa [State.forget, State.put, hnone, hsame] using hput
  | true =>
    obtain ⟨m, i, rfl, hi, hacq⟩ := h.holds ho hl
    constructor
    · have hb := h.balanced.give hi
      simpa [ledger, State.forget, State.put, hi] using hb
    · intro o' l' hl'
      by_cases hoo : o' = o
      · subst hoo
        simp only [State.put, State.forget, Function.update_self, Option.some.injEq] at hl'
        subst hl'
        simp [Holds]
      · simp only [State.put, State.forget, Function.update_of_ne hoo] at hl'
        rw [h.flag o' l' hl']
        simp [Holds, State.put, State.forget, hoo]
    · intro o' j hj
      by_cases hoo : o' = o
      · subst hoo
        simp [State.forget] at hj
      · simp only [State.put, State.forget, Function.update_of_ne hoo] at hj ⊢
        exact h.live o' j hj
    · exact h.unlocks

/-- Two names trade their objects together with what is in their custody. -/
lemma exchange (o o' : O) :
    Accounts (((s.put o (s.objs o')).put o' (s.objs o)).trade o o') := by
  have hobjs : (((s.put o (s.objs o')).put o' (s.objs o)).trade o o').objs =
      s.objs ∘ Equiv.swap o' o := (Equiv.comp_swap_eq_update _ _ _).symm
  have hheld : (((s.put o (s.objs o')).put o' (s.objs o)).trade o o').held =
      s.held ∘ Equiv.swap o' o := (Equiv.comp_swap_eq_update _ _ _).symm
  constructor
  · exact h.balanced.exchange o o'
  · intro u l hl
    rw [hobjs] at hl
    rw [h.flag _ l hl]
    unfold Holds
    rw [hheld]
    rfl
  · intro u i hi
    rw [hheld] at hi
    rw [hobjs]
    exact h.live _ i hi
  · exact h.unlocks

/-- An object gives back what it owns and becomes one that owns nothing. -/
lemma drop {o : O} {l : SharedLock M} {x : Option (SharedLock M)} (ho : s.objs o = some l)
    (hx : Idle x) : Accounts (((s.drop o l).forget o).put o x) := by
  cases hl : l.owns with
  | false =>
    have hidle : Idle (s.objs o) := by rwa [ho, idle_some]
    have hsame : s.forget o = s := by
      simp [State.forget, ← h.held_eq_none hidle]
    simpa [State.drop, destroy, hl, hsame] using h.put hidle hx
  | true =>
    obtain ⟨m, i, rfl, -, -⟩ := h.holds ho hl
    have hback := h.giveBack ho hx
    simpa [State.drop, destroy, State.forget, State.giveBack] using hback

end Accounts

lemma Ctor.make_of_takes {c : Ctor M} {m : M} (hc : ∀ m, c ≠ .locking m)
    (hm : c.takes = some m) : c.make = ⟨some m, true⟩ := by
  cases c <;> simp_all [takes, make]

lemma Ctor.owns_of_not_takes {c : Ctor M} (hm : c.takes = none) : c.make.owns = false := by
  cases c <;> simp_all [takes, make]

lemma Call.perform_eq {m : M} {l : SharedLock M} (hm : l.mtx = some m) (k : Call) :
    k.perform l = ⟨some m, k.takes⟩ := by
  cases k <;> simp [perform, takes, hm]

namespace Accounts

/-- Only the locking constructor makes an object that does not know that it holds its mutex. -/
lemma construct_iff (h : Accounts s) {o : O} {c : Ctor M} (hs : step s (.construct o c) = some s') :
    Accounts s' ↔ KeepsAccounts s (.construct o c) := by
  cases ho : s.objs o <;> cases hm : c.takes <;>
    simp only [step, ho, hm, Option.some.injEq, reduceCtorEq] at hs
  · subst hs
    have hidle : Idle (s.objs o) := by rw [ho]; exact idle_none
    have hallowed : KeepsAccounts s (.construct o c) := by
      cases c <;> simp_all [KeepsAccounts, Ctor.takes]
    exact iff_of_true (h.put hidle (idle_some.mpr (Ctor.owns_of_not_takes hm))) hallowed
  · rename_i m
    subst hs
    have hidle : Idle (s.objs o) := by rw [ho]; exact idle_none
    by_cases hlocking : ∃ m, c = .locking m
    · obtain ⟨m', rfl⟩ := hlocking
      cases hm
      -- the new object holds an acquisition and its flag does not say so
      refine iff_of_false (fun h' => ?_) (fun h' => h')
      have hflag := h'.flag o ⟨some m, false⟩ (by simp [State.take, State.put, Ctor.make])
      simp [Holds, State.take, State.put] at hflag
    · have hne : ∀ m, c ≠ .locking m := fun m hc => hlocking ⟨m, hc⟩
      rw [Ctor.make_of_takes hne hm]
      refine iff_of_true (h.take hidle) ?_
      cases c <;> simp_all [KeepsAccounts]

/-- Only an object that is assigned to itself loses what it holds. -/
lemma moveAssign_iff (h : Accounts s) {o other : O} (hs : step s (.moveAssign o other) = some s') :
    Accounts s' ↔ KeepsAccounts s (.moveAssign o other) := by
  cases ho : s.objs o <;> cases hother : s.objs other <;>
    simp only [step, ho, hother, reduceCtorEq] at hs
  rename_i l l'
  split_ifs at hs with hself
  · subst hself
    cases hs
    simp only [KeepsAccounts, forall_const, ho, idle_some, accounts_finish]
    cases hl : l.owns with
    | false =>
      have hsame : s.put o (some l) = s := by
        simp [State.put, ← ho]
      have hkeep : (s.drop o l).put o (some l.selfMoveAssign.1) = s.put o (some l) := by
        simp [State.drop, destroy, hl, selfMoveAssign]
      rw [hkeep, hsame]
      exact iff_of_true h rfl
    | true =>
      obtain ⟨m, i, rfl, -, -⟩ := h.holds ho hl
      refine iff_of_false (fun h' => ?_) (by simp)
      -- the acquisition was given back and the flag is still set
      obtain ⟨_, _, -, hheld, -⟩ := (h'.flag o ⟨some m, true⟩
        (by simp [State.drop, destroy, State.put, selfMoveAssign])).mp rfl
      simp [State.drop, destroy, State.put, State.giveBack] at hheld
  · cases hs
    have hdrop := h.drop (x := some {}) ho (idle_some.mpr rfl)
    have hobjs : ∀ u x, (((s.drop o l).forget o).put o x).objs u =
        Function.update s.objs o x u := by
      intro u x
      unfold State.drop
      split <;> rfl
    have hex := hdrop.exchange o other
    rw [hobjs, hobjs, Function.update_self, Function.update_of_ne (Ne.symm hself), hother] at hex
    refine accounts_finish.trans (iff_of_true ?_ fun heq => absurd heq hself)
    simpa [State.put, State.trade, moveAssign] using hex

/-- A call acquires the mutex of the object, gives it back, or fails. -/
lemma call (h : Accounts s) {o : O} {k : Call} (hs : step s (.call o k) = some s') :
    Accounts s' := by
  simp only [step] at hs
  cases ho : s.objs o <;> simp only [ho, reduceCtorEq] at hs
  rename_i l
  cases hm : l.mtx <;> simp only [hm, reduceCtorEq] at hs
  rename_i m
  rw [Call.perform_eq hm] at hs
  split_ifs at hs with hlegal hunlock htakes
  · cases hs
    subst hunlock
    obtain ⟨m', i, rfl, -, -⟩ := h.holds ho hlegal
    cases hm
    exact h.giveBack ho (idle_some.mpr rfl)
  · cases hs
    have hidle : Idle (s.objs o) := by
      rw [ho, idle_some]
      cases k <;> simp_all [Call.legal]
    rw [htakes]
    exact h.take hidle
  · cases hs
    have hidle : Idle (s.objs o) := by
      rw [ho, idle_some]
      cases k <;> simp_all [Call.legal]
    exact h.put hidle (idle_some.mpr (by simpa using htakes))

end Accounts

/-- A step keeps the accounts exactly when it is neither of the two that lose a flag or keep one. -/
theorem accounts_step (h : Accounts s) {a : Op O M} (hs : step s a = some s') :
    Accounts s' ↔ KeepsAccounts s a := by
  cases a with
  | construct o c => exact h.construct_iff hs
  | moveConstruct o other =>
    cases ho : s.objs o <;> cases hother : s.objs other <;>
      simp only [step, ho, hother, Option.some.injEq, reduceCtorEq] at hs
    rename_i l
    subst hs
    have hex := h.exchange o other
    rw [ho, hother] at hex
    have hput := hex.put (o := other) (x := some {})
      (by simp [Idle, State.trade, State.put]) (idle_some.mpr rfl)
    refine iff_of_true ?_ trivial
    simpa [State.put, State.trade, moveConstruct] using hput
  | moveAssign o other => exact h.moveAssign_iff hs
  | swap o other =>
    cases ho : s.objs o <;> cases hother : s.objs other <;>
      simp only [step, ho, hother, Option.some.injEq, reduceCtorEq] at hs
    subst hs
    have hex := h.exchange o other
    rw [ho, hother] at hex
    exact iff_of_true hex trivial
  | call o k => exact iff_of_true (h.call hs) trivial
  | release o =>
    cases ho : s.objs o <;> simp only [step, ho, Option.some.injEq, reduceCtorEq] at hs
    subst hs
    exact iff_of_true (h.giveUp ho) trivial
  | destroy o =>
    cases ho : s.objs o <;> simp only [step, ho, Option.some.injEq, reduceCtorEq] at hs
    subst hs
    exact iff_of_true (h.drop ho idle_none) trivial

lemma State.undefined_drop (s : State O M) (o : O) (l : SharedLock M) :
    (s.drop o l).undefined = s.undefined := by
  unfold State.drop
  split <;> rfl

/-- Only a move assignment runs off the end of its function. -/
lemma undefined_step {a : Op O M} (hs : step s a = some s') :
    s'.undefined = true ↔ s.undefined = true ∨ ∃ o other, a = .moveAssign o other := by
  cases a with
  | construct o c =>
    cases ho : s.objs o <;> cases hm : c.takes <;>
      simp only [step, ho, hm, Option.some.injEq, reduceCtorEq] at hs
    all_goals
      subst hs
      simp [State.put, State.take]
  | moveConstruct o other | swap o other =>
    cases ho : s.objs o <;> cases hother : s.objs other <;>
      simp only [step, ho, hother, Option.some.injEq, reduceCtorEq] at hs
    subst hs
    simp [State.put, State.trade]
  | moveAssign o other =>
    cases ho : s.objs o <;> cases hother : s.objs other <;>
      simp only [step, ho, hother, reduceCtorEq] at hs
    split_ifs at hs
    all_goals
      cases hs
      simp [State.finish, selfMoveAssign, moveAssign]
  | call o k =>
    simp only [step] at hs
    cases ho : s.objs o <;> simp only [ho, reduceCtorEq] at hs
    rename_i l
    cases hm : l.mtx <;> simp only [hm, reduceCtorEq] at hs
    split_ifs at hs
    all_goals
      cases hs
      simp [State.put, State.take, State.giveBack]
  | release o =>
    cases ho : s.objs o <;> simp only [step, ho, Option.some.injEq, reduceCtorEq] at hs
    subst hs
    simp [State.put, State.forget]
  | destroy o =>
    cases ho : s.objs o <;> simp only [step, ho, Option.some.injEq, reduceCtorEq] at hs
    subst hs
    simp [State.put, State.forget, State.undefined_drop]

/-- A step keeps the law exactly when it is neither the locking constructor nor a move
assignment. -/
theorem law_step (h : Law s) {a : Op O M} (hs : step s a = some s') : Law s' ↔ a.Allowed := by
  have haccounts := accounts_step h.toAccounts hs
  have hundefined := undefined_step hs
  rw [h.defined] at hundefined
  cases a with
  | moveAssign o other =>
    refine iff_of_false (fun h' => ?_) id
    have htrue := hundefined.mpr (.inr ⟨o, other, rfl⟩)
    rw [h'.defined] at htrue
    cases htrue
  | construct o c =>
    have hdefined : s'.undefined = false := by
      simpa using hundefined
    have hallowed : (Op.construct o c).Allowed ↔ KeepsAccounts s (.construct o c) := by
      cases c <;> exact Iff.rfl
    rw [hallowed]
    exact ⟨fun h' => haccounts.mp h'.toAccounts, fun ha => ⟨haccounts.mpr ha, hdefined⟩⟩
  | moveConstruct | swap | call | release | destroy =>
    have hdefined : s'.undefined = false := by
      simpa using hundefined
    exact iff_of_true ⟨haccounts.mpr trivial, hdefined⟩ trivial

/-- The accounts alone, as if `operator=` had its `return`: they are kept exactly when no object is
made by the locking constructor and none that owns its mutex is move assigned to itself. -/
theorem accounts_iff_keepsAccounts {ops : List (Op O M)} (hrun : machine.run start ops = some s) :
    (∀ pre u, pre <+: ops → machine.run start pre = some u → Accounts u) ↔
      machine.Admits KeepsAccounts start ops :=
  Machine.forall_prefix_iff_admits hrun accounts_start fun _ _ _ hu hs => accounts_step hu hs

/-- After every operation the program is defined, the flags tell who holds an acquisition and every
acquisition is accounted for, exactly when no object is made by the locking constructor and none is
move assigned. -/
theorem law_iff_forall_allowed {ops : List (Op O M)} (hrun : machine.run start ops = some s) :
    (∀ pre u, pre <+: ops → machine.run start pre = some u → Law u) ↔ ∀ a ∈ ops, a.Allowed := by
  rw [← Machine.admits_iff_forall_mem hrun]
  exact Machine.forall_prefix_iff_admits hrun law_start fun _ _ _ hu hs => law_step hu hs

/-- An object made by the locking constructor is destroyed: its acquisition is not given back. -/
theorem acquired_for_ever :
    ∃ s : State (Fin 1) Unit,
      machine.run start [.construct 0 (.locking ()), .destroy 0] = some s ∧
        s.acquired.length = 1 ∧ s.unlocked = [] ∧ s.released = [] ∧ ¬ Law s := by
  refine ⟨_, rfl, rfl, rfl, rfl, fun h => ?_⟩
  rcases h.balanced.accounted 0 (by decide) with ⟨⟨o, ho, -⟩, -⟩ | ⟨-, ⟨hmem, -⟩ | ⟨-, hcount⟩⟩
  · obtain rfl : o = 0 := Subsingleton.elim o 0
    exact absurd ho (by decide)
  · exact absurd hmem (by decide)
  · exact absurd hcount (by decide)

instance : DecidablePred (Op.Allowed : Op O M → Prop) := by
  intro a
  unfold Op.Allowed
  split <;> infer_instance

/-- An object acquires, is moved to another one, and that one unlocks and is destroyed: the
operations are allowed, so the law holds. -/
theorem law_iff_forall_allowed_move :
    (∀ a ∈ ([.construct 0 (.defer true), .call 0 .lock, .moveConstruct 1 0, .call 1 .unlock,
        .destroy 1] : List (Op (Fin 2) Bool)), a.Allowed) ∧
      ∀ pre u, pre <+: [.construct 0 (.defer true), .call 0 .lock, .moveConstruct 1 0,
          .call 1 .unlock, .destroy 1] →
        machine.run (start : State (Fin 2) Bool) pre = some u → Law u :=
  ⟨by decide, (law_iff_forall_allowed (s := _) rfl).mpr (by decide)⟩

/-! ### Assertions -/

/-- The assertions guard the calls on `o`: along the operations none fires at a call, and where a
call would not be legal one of its assertions fires. A run is followed beyond an assertion that
fires, as where `assert` is compiled out. -/
structure Guarded (ops : List (Op O M)) (o : O) : Prop where
  silent : ∀ pre k u l, pre ++ [.call o k] <+: ops → machine.run start pre = some u →
    u.objs o = some l → k.fires l = false
  loud : ∀ pre u l (k : Call), pre <+: ops → machine.run start pre = some u →
    u.objs o = some l → l.mtx ≠ none → k.legal l = false → k.fires l = true

/-- The conditions of the assertions are the wrong way round. -/
lemma Call.fires_eq_legal {l : SharedLock M} (hm : l.mtx ≠ none) (k : Call) :
    k.fires l = k.legal l := by
  have hsome : l.mtx.isSome = true := Option.isSome_iff_ne_none.mpr hm
  cases k <;> simp [fires, asserts, acquireAsserts, legal, hsome]

lemma exists_not_legal (l : SharedLock M) : ∃ k : Call, k.legal l = false := by
  cases hl : l.owns with
  | false => exact ⟨.unlock, hl⟩
  | true  => exact ⟨.lock, by simp [Call.legal, hl]⟩

lemma legal_of_step_call {o : O} {k : Call} (hs : step s (.call o k) = some s') :
    ∃ l, s.objs o = some l ∧ l.mtx ≠ none ∧ k.legal l = true := by
  simp only [step] at hs
  cases ho : s.objs o <;> simp only [ho, reduceCtorEq] at hs
  rename_i l
  cases hm : l.mtx <;> simp only [hm, reduceCtorEq] at hs
  split_ifs at hs with hlegal <;> exact ⟨l, rfl, by simp [hm], hlegal⟩

/-- The assertions guard no object that has a mutex: every call that is made lets one fire, and
none fires at the calls that are not legal. -/
theorem not_guarded {ops : List (Op O M)} {o : O} {l : SharedLock M}
    (hrun : machine.run start ops = some s) (ho : s.objs o = some l) (hm : l.mtx ≠ none) :
    ¬ Guarded ops o ∧
      (∀ pre k u, pre ++ [.call o k] <+: ops → machine.run start pre = some u →
        ∃ l, u.objs o = some l ∧ k.fires l = true) ∧
      ∀ k : Call, k.legal l = false → k.fires l = false := by
  refine ⟨fun h => ?_, fun pre k u hpre hu => ?_, fun k hk => ?_⟩
  · obtain ⟨k, hk⟩ := exists_not_legal l
    have hfires := h.loud ops s l k (List.prefix_refl _) hrun ho hm hk
    rw [Call.fires_eq_legal hm, hk] at hfires
    exact absurd hfires (by decide)
  · obtain ⟨u', hu'⟩ := Machine.exists_run_of_prefix hrun hpre
    obtain ⟨u₁, hu₁, hs⟩ := Machine.run_concat.mp hu'
    obtain rfl : u₁ = u := Option.some.inj (hu₁.symm.trans hu)
    obtain ⟨l', hl', hm', hlegal⟩ := legal_of_step_call hs
    exact ⟨l', hl', by rw [Call.fires_eq_legal hm', hlegal]⟩
  · rw [Call.fires_eq_legal hm, hk]

/-- An object without the mutex calls `lock`: an assertion fires, and none would at `unlock`. -/
theorem lock_fires :
    ∃ s : State (Fin 1) Unit, machine.run start [.construct 0 (.defer ())] = some s ∧
      s.objs 0 = some ⟨some (), false⟩ ∧
      Call.lock.fires (⟨some (), false⟩ : SharedLock Unit) = true ∧
      Call.unlock.fires (⟨some (), false⟩ : SharedLock Unit) = false ∧
      ¬ Guarded [.construct 0 (.defer ()), .call (0 : Fin 1) .lock] 0 := by
  refine ⟨_, rfl, rfl, by decide, by decide, fun h => ?_⟩
  have hsilent := h.silent [.construct 0 (.defer ())] .lock _ ⟨some (), false⟩
    (List.prefix_refl _) rfl rfl
  exact absurd hsilent (by decide)

/-- An object adopts the mutex and unlocks it. -/
theorem not_guarded_adopt :
    ¬ Guarded [.construct 0 (.adopt true), .call (0 : Fin 1) .unlock] 0 ∧
      (∀ pre k u, pre ++ [.call 0 k] <+:
          [.construct 0 (.adopt true), .call (0 : Fin 1) .unlock] →
        machine.run start pre = some u → ∃ l, u.objs 0 = some l ∧ k.fires l = true) ∧
      ∀ k : Call, k.legal (⟨some true, false⟩ : SharedLock Bool) = false →
        k.fires (⟨some true, false⟩ : SharedLock Bool) = false :=
  not_guarded (s := _) rfl rfl (by decide)

end SharedLock

end Sync
