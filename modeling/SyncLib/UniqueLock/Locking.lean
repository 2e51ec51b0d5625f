import SyncLib.UniqueLock

/-!
# The flag of a `unique_lock`

One object from its construction to its destruction, with what it holds of the mutex beside the
flag that tells whether it owns it.
-/

namespace Sync

open Core

namespace UniqueLock

variable {P : Type*}

/-- The members that take or give back the mutex, with what the attempt on it returns. -/
inductive Call
  | lock
  | tryLock (ok : Bool)
  | tryLockFor (ok : Bool)
  | tryLockUntil (ok : Bool)
  | unlock
  deriving DecidableEq, Repr

/-- The object after the call: `lock` and `try_lock` do not assign `owns_`. -/
def Call.perform (self : UniqueLock P) : Call → UniqueLock P
  | .lock            => self
  | .tryLock _       => self
  | .tryLockFor ok   => { self with owns := ok }
  | .tryLockUntil ok => { self with owns := ok }
  | .unlock          => { self with owns := false }

/-- The mutex is held after the call. -/
def Call.holds : Call → Bool
  | .lock            => true
  | .tryLock ok      => ok
  | .tryLockFor ok   => ok
  | .tryLockUntil ok => ok
  | .unlock          => false

/-- Acquiring is for objects that do not hold the mutex, unlocking for those that do. -/
def Call.legal (holds : Bool) : Call → Bool
  | .unlock => holds
  | _       => !holds

/-- The mutex is held after the constructor. -/
def Ctor.holds : Ctor P → Bool
  | .default              => false
  | .locking _            => true
  | .defer _              => false
  | .tryToLock _ ok       => ok
  | .adopt _              => true
  | .timeoutDuration _ ok => ok
  | .timeoutTime _ ok     => ok

/-- An object that owns something has a pointer to it. -/
def Pointed (l : UniqueLock P) : Prop := l.owns = true → l.mtx ≠ none

/-- All constructors. An object that is moved from holds what its flag says. -/
inductive Origin (P : Type*)
  | ctor (c : Ctor P)
  | move (other : UniqueLock P) (pointed : Pointed other)

/-- An object, and whether it holds the mutex. -/
structure Held (P : Type*) where
  lock : UniqueLock P
  holds : Bool
  deriving DecidableEq, Repr

def Origin.make : Origin P → Held P
  | .ctor c       => ⟨c.make, c.holds⟩
  | .move other _ => ⟨(moveConstruct other).1, other.owns⟩

namespace Held

/-- The members dereference `mtx_`, so a call needs an object with a mutex. -/
def step (s : Held P) (k : Call) : Option (Held P) :=
  if s.lock.mtx.isSome && k.legal s.holds then some ⟨k.perform s.lock, k.holds⟩ else none

def machine : Machine (Held P) Call := ⟨step⟩

/-- The object still holds the mutex after its destructor. -/
def heldAfterDestroy (s : Held P) : Bool := s.holds && s.lock.destroy.isNone

/-- The flag tells whether the object holds the mutex, and the destructor lets go of it. -/
structure Law (s : Held P) : Prop where
  flag : s.lock.owns = true ↔ s.holds = true
  destroyed : s.heldAfterDestroy = false

end Held

/-- The call leaves the flag as the mutex is. -/
def Call.Flagged (k : Call) : Prop := k ≠ .lock ∧ k ≠ .tryLock true

instance : DecidablePred Call.Flagged := fun _ => inferInstanceAs (Decidable (_ ∧ _))

/-! ### The flag along the calls -/

namespace Held

variable {s s' : Held P} {k : Call}

lemma law_of_flag (hp : Pointed s.lock) (hflag : s.lock.owns = s.holds) : Law s := by
  refine ⟨by rw [hflag], ?_⟩
  unfold heldAfterDestroy UniqueLock.destroy
  cases hh : s.holds with
  | false => rfl
  | true =>
    rw [hflag, hh, if_pos rfl, Bool.true_and, Option.isNone_eq_false_iff,
      Option.isSome_iff_ne_none]
    exact hp (hflag.trans hh)

lemma law_make (o : Origin P) : Law o.make := by
  cases o with
  | ctor c =>
    apply law_of_flag
    · cases c <;> simp [Origin.make, Pointed, Ctor.make]
    · cases c <;> rfl
  | move other pointed => exact law_of_flag pointed rfl

lemma step_eq_some : s.step k = some s' ↔
    s.lock.mtx ≠ none ∧ k.legal s.holds = true ∧ ⟨k.perform s.lock, k.holds⟩ = s' := by
  simp only [step, Option.ite_none_right_eq_some, Bool.and_eq_true, Option.isSome_iff_ne_none,
    Option.some.injEq, and_assoc]

/-- The call keeps the law exactly when it assigns the flag or leaves the mutex as it was. -/
theorem law_step (h : Law s) (hs : machine.step s k = some s') : Law s' ↔ k.Flagged := by
  obtain ⟨hm, hlegal, rfl⟩ := step_eq_some.mp hs
  have hmtx : (k.perform s.lock).mtx = s.lock.mtx := by cases k <;> rfl
  have hlaw : Law ⟨k.perform s.lock, k.holds⟩ ↔ (k.perform s.lock).owns = k.holds := by
    constructor
    · intro h'
      exact Bool.eq_iff_iff.mpr h'.flag
    · intro heq
      exact law_of_flag (fun _ => by rw [hmtx]; exact hm) heq
  rw [hlaw]
  -- before an acquiring call the flag is clear
  have hclear : k ≠ .unlock → s.lock.owns = false := by
    intro hk
    have hfree : s.holds = false := by
      cases k <;> simp_all [Call.legal]
    simpa [hfree] using h.flag
  cases k with
  | lock => simp [Call.perform, Call.holds, Call.Flagged, hclear]
  | tryLock ok => cases ok <;> simp [Call.perform, Call.holds, Call.Flagged, hclear]
  | tryLockFor ok => simp [Call.perform, Call.holds, Call.Flagged]
  | tryLockUntil ok => simp [Call.perform, Call.holds, Call.Flagged]
  | unlock => simp [Call.perform, Call.holds, Call.Flagged]

/-- After the constructor and after every call the flag tells whether the mutex is held and the
destructor would let go of it, exactly when there is no call of `lock` and every `try_lock`
fails. -/
theorem law_iff_flagged {o : Origin P} {ks : List Call} (hrun : machine.run o.make ks = some s) :
    (∀ pre u, pre <+: ks → machine.run o.make pre = some u → Law u) ↔ ∀ k ∈ ks, k.Flagged :=
  (Machine.forall_prefix_iff_admits hrun (law_make o) fun _ _ _ hu hs => law_step hu hs).trans
    (Machine.admits_iff_forall_mem hrun)

/-- A deferred object calls `lock`: it holds the mutex, says that it does not, and its destructor
leaves it locked. -/
theorem locked_for_ever :
    ∃ s : Held Unit, machine.run (Origin.ctor (.defer ())).make [.lock] = some s ∧
      s.lock.owns = false ∧ s.holds = true ∧ s.heldAfterDestroy = true ∧ ¬ Law s :=
  ⟨_, rfl, rfl, rfl, rfl, fun h => absurd (h.flag.mpr rfl) (by decide)⟩

/-- An adopting object unlocks the mutex, fails to take it, and takes it with a timed attempt: the
law holds. -/
theorem law_iff_flagged_adopt :
    (∀ k ∈ [Call.unlock, .tryLock false, .tryLockFor true], k.Flagged) ∧
      ∀ pre u, pre <+: [.unlock, .tryLock false, .tryLockFor true] →
        machine.run (Origin.ctor (.adopt ())).make pre = some u → Law u :=
  ⟨by decide, (law_iff_flagged (s := _) rfl).mpr (by decide)⟩

end Held

end UniqueLock

end Sync
