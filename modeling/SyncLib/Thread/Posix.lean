import SyncLib.Core.Ledger
import SyncLib.Core.Machine

/-!
# `thread` on a POSIX platform

The class has no member but `handle_`, and tells by it whether there is a thread to join. `join`
goes through `sync_thread_join`, which resets the handle; `detach` goes through
`sync_thread_detach`, which does not, so a detached thread looks joinable ever after. The members
only copy handles and compare them with `SYNC_NULL_THREAD`, so a handle can carry the number of the
thread it was created for.
-/

namespace Sync

open Core

/-! ### The platform layer -/

variable {H : Type*}

/-- `SYNC_NULL_THREAD`. -/
def syncNullThread : Option H := none

def syncThreadIsNull (t : Option H) : Bool := t.isNone

/-- `sync_thread_create`, when `pthread_create` yields `h`. -/
def syncThreadCreate (h : H) : Option H := some h

/-- What `sync_thread_join` leaves in the handle. -/
def syncThreadJoin (_t : Option H) : Option H := syncNullThread

/-- What `sync_thread_detach` leaves in the handle. -/
def syncThreadDetach (t : Option H) : Option H := t

/-! ### Members -/

structure Thread (H : Type*) where
  handle : Option H := syncNullThread
  deriving DecidableEq, Repr

namespace Thread

def joinable (self : Thread H) : Bool := !syncThreadIsNull self.handle

/-- The constructor from a function. -/
def create (h : H) : Thread H := ⟨syncThreadCreate h⟩

/-- The new object and `other` after it. -/
def moveConstruct (other : Thread H) : Thread H × Thread H := (⟨other.handle⟩, ⟨syncNullThread⟩)

/-- The target and `other` after a move assignment, unless it calls `std::terminate`. -/
def moveAssign (self other : Thread H) : Option (Thread H × Thread H) :=
  if self.joinable then none else some (⟨other.handle⟩, ⟨syncNullThread⟩)

/-- The move assignment of an object to itself: `std::exchange` resets the handle before it is
assigned. -/
def moveAssignSelf (self : Thread H) : Option (Thread H) :=
  if self.joinable then none else some ⟨self.handle⟩

def swap (self other : Thread H) : Thread H × Thread H := (⟨other.handle⟩, ⟨self.handle⟩)

/-- The object after `join`, unless the assertion fails. -/
def join (self : Thread H) : Option (Thread H) :=
  if self.joinable then some ⟨syncThreadJoin self.handle⟩ else none

/-- The object after `detach`, unless the assertion fails. -/
def detach (self : Thread H) : Option (Thread H) :=
  if self.joinable then some ⟨syncThreadDetach self.handle⟩ else none

/-- The destructor returns: neither does its assertion fail, nor does it call `std::terminate`. -/
def destroy (self : Thread H) : Bool := !self.joinable

lemma joinable_iff {self : Thread H} : self.joinable = true ↔ ∃ h, self.handle = some h := by
  simp [joinable, syncThreadIsNull, Option.isSome_iff_exists]

lemma handle_of_not_joinable {self : Thread H} (h : self.joinable = false) :
    self.handle = none := by
  simpa [joinable, syncThreadIsNull] using h

end Thread

/-! ### Collections of objects -/

/-- An operation on objects named by `O`; `start` is the constructor from a function. -/
inductive ThreadOp (O : Type*)
  | construct (o : O)
  | start (o : O)
  | moveConstruct (o other : O)
  | moveAssign (o other : O)
  | swap (o other : O)
  | join (o : O)
  | detach (o : O)
  | destroy (o : O)
  deriving DecidableEq, Repr

def ThreadOp.detaches {O : Type*} : ThreadOp O → Bool
  | .detach _ => true
  | _         => false

/-- The live objects, the number of threads started so far, the threads given to `pthread_join` and
to `pthread_detach`, and whether an assertion failed or `std::terminate` was called. -/
structure Threads (O : Type*) where
  objs : O → Option (Thread ℕ)
  started : ℕ
  joined : List ℕ
  detached : List ℕ
  terminated : Bool

namespace Threads

variable {O : Type*}

/-- The thread that an object has a handle of and that was neither joined nor detached. -/
def responsibleFor (s : Threads O) (o : O) : Option ℕ :=
  ((s.objs o).bind Thread.handle).filter fun i => !(s.joined ++ s.detached).contains i

section

variable [DecidableEq O]

/-- A member function of one object returns, or the program ends. -/
def apply (s : Threads O) (o : O) (r : Option (Thread ℕ)) : Threads O :=
  match r with
  | some x => { s with objs := Function.update s.objs o (some x) }
  | none   => { s with terminated := true }

def step (s : Threads O) (a : ThreadOp O) : Option (Threads O) :=
  if s.terminated then none else
  match a with
  | .construct o =>
    match s.objs o with
    | none => some { s with objs := Function.update s.objs o (some {}) }
    | some _ => none
  | .start o =>
    match s.objs o with
    | none => some { s with
        objs := Function.update s.objs o (some (Thread.create s.started))
        started := s.started + 1 }
    | some _ => none
  | .moveConstruct o other =>
    match s.objs o, s.objs other with
    | none, some x =>
      let r := x.moveConstruct
      some { s with objs := Function.update (Function.update s.objs other (some r.2)) o (some r.1) }
    | _, _ => none
  | .moveAssign o other =>
    match s.objs o, s.objs other with
    | some x, some y =>
      if o = other then some (s.apply o x.moveAssignSelf)
      else
        match x.moveAssign y with
        | some r => some { s with
            objs := Function.update (Function.update s.objs o (some r.1)) other (some r.2) }
        | none => some { s with terminated := true }
    | _, _ => none
  | .swap o other =>
    match s.objs o, s.objs other with
    | some x, some y =>
      let r := x.swap y
      some { s with
        objs := Function.update (Function.update s.objs o (some r.1)) other (some r.2) }
    | _, _ => none
  | .join o =>
    match s.objs o with
    | some x => some { s.apply o x.join with joined := x.handle.toList ++ s.joined }
    | none => none
  | .detach o =>
    match s.objs o with
    | some x => some { s.apply o x.detach with detached := x.handle.toList ++ s.detached }
    | none => none
  | .destroy o =>
    match s.objs o with
    | some x =>
      if x.destroy then some { s with objs := Function.update s.objs o none }
      else some { s with terminated := true }
    | none => none

/-- The preconditions. An object may be destroyed when there is no thread left that it would have to
join or detach. -/
def respects (s : Threads O) : ThreadOp O → Bool
  | .moveAssign o _ => (s.objs o).all fun x => !x.joinable
  | .join o         => (s.objs o).any fun x => x.joinable
  | .detach o       => (s.objs o).any fun x => x.joinable
  | .destroy o      => (s.responsibleFor o).isNone
  | _               => true

/-- The sequences of operations that respect the preconditions. -/
def machine : Machine (Threads O) (ThreadOp O) := (⟨step⟩ : Machine _ _).restrict respects

end

/-- No objects. -/
def start : Threads O := ⟨fun _ => none, 0, [], [], false⟩

/-! ### Custody of the threads -/

/-- The threads as tokens: an object holds the one it has a handle of, and `join` or `detach` spends
it. -/
def ledger (s : Threads O) : Ledger O where
  issued := s.started
  holder := (fun x => x.bind Thread.handle) ∘ s.objs
  given := []
  spent := s.joined ++ s.detached

/-- What `joinable` means, and who handles which thread. -/
structure Law (s : Threads O) : Prop where
  joinable_iff : ∀ o x, s.objs o = some x →
    (x.joinable = true ↔ ∃ i < s.started, s.responsibleFor o = some i)
  handler : ∀ o o' i, s.responsibleFor o = some i → s.responsibleFor o' = some i → o = o'
  once : ∀ i, (s.joined ++ s.detached).count i ≤ 1
  running : s.terminated = false

/-- Every thread is with one object, or was joined or detached once. -/
structure Custody (s : Threads O) : Prop where
  balanced : (ledger s).Balanced
  running : s.terminated = false

variable {s s' : Threads O}

lemma responsibleFor_eq_some {o : O} {i : ℕ} :
    s.responsibleFor o = some i ↔ (ledger s).holder o = some i ∧ i ∉ s.joined ++ s.detached := by
  simp [responsibleFor, ledger, Option.filter_eq_some_iff]

lemma holder_of_objs {o : O} {x : Option (Thread ℕ)} (h : s.objs o = x) :
    (ledger s).holder o = x.bind Thread.handle := by
  simp [ledger, h]

lemma custody_start : Custody (start : Threads O) := by
  refine ⟨?_, rfl⟩
  constructor <;> simp [ledger, Threads.start]

namespace Custody

variable (h : Custody s)

include h

lemma responsibleFor_eq (o : O) : s.responsibleFor o = (ledger s).holder o := by
  ext i
  rw [responsibleFor_eq_some, and_iff_left_iff_imp]
  intro ho
  exact List.count_eq_zero.mp (h.balanced.held ho).2.2

lemma law : Law s := by
  refine ⟨fun o x ho => ?_, fun o o' i hi hi' => ?_, fun i => ?_, h.running⟩
  · rw [Thread.joinable_iff, h.responsibleFor_eq, holder_of_objs ho]
    constructor
    · rintro ⟨i, hi⟩
      have hold : (ledger s).holder o = some i := by rw [holder_of_objs ho]; exact hi
      exact ⟨i, h.balanced.held_lt o i hold, hi⟩
    · rintro ⟨i, -, hi⟩
      exact ⟨i, hi⟩
  · rw [h.responsibleFor_eq] at hi hi'
    exact h.balanced.eq_of_holder hi hi'
  · by_cases hmem : i ∈ s.joined ++ s.detached
    · rcases h.balanced.accounted i (h.balanced.gone_lt i (.inr hmem)) with hheld | hsettled
      · exact (Nat.le_of_eq hheld.2.2).trans Nat.one_pos.le
      · rcases hsettled.2 with ⟨hgiven, -⟩ | ⟨-, hcount⟩
        · cases hgiven
        · exact hcount.le
    · rw [List.count_eq_zero_of_not_mem hmem]
      exact Nat.zero_le 1

variable [DecidableEq O]

/-- An object without a thread is replaced by none, or by one without a thread. -/
lemma put {o : O} {x : Option (Thread ℕ)} (ho : (ledger s).holder o = none)
    (hx : x.bind Thread.handle = none) : Custody { s with objs := Function.update s.objs o x } := by
  refine ⟨?_, h.running⟩
  have hsame : (fun x => x.bind Thread.handle) ∘ Function.update s.objs o x =
      (ledger s).holder := by
    rw [Function.comp_update, hx]
    exact Function.update_eq_self_iff.mpr ho.symm
  have hb := h.balanced
  unfold ledger at hsame ⊢
  rw [hsame]
  exact hb

/-- A thread is started. -/
lemma start {o : O} (ho : s.objs o = none) :
    Custody { s with
      objs := Function.update s.objs o (some (Thread.create s.started))
      started := s.started + 1 } := by
  refine ⟨?_, h.running⟩
  have hb := h.balanced.issue (o := o) (by rw [holder_of_objs ho]; rfl)
  unfold ledger at hb ⊢
  rw [Function.comp_update]
  exact hb

/-- Two objects, one of which may not exist yet, exchange their handles. -/
lemma exchange {o o' : O} {x x' : Option (Thread ℕ)}
    (hx : x.bind Thread.handle = (ledger s).holder o')
    (hx' : x'.bind Thread.handle = (ledger s).holder o) :
    Custody { s with objs := Function.update (Function.update s.objs o x) o' x' } := by
  refine ⟨?_, h.running⟩
  have hb := h.balanced.exchange o o'
  unfold ledger at hb hx hx' ⊢
  rw [Function.comp_update, Function.comp_update, hx, hx']
  exact hb

/-- A thread is joined. -/
lemma join {o : O} {x : Thread ℕ} {i : ℕ} (ho : s.objs o = some x) (hi : x.handle = some i) :
    Custody { s with
      objs := Function.update s.objs o (some ⟨syncThreadJoin x.handle⟩)
      joined := i :: s.joined } := by
  refine ⟨?_, h.running⟩
  have hb := h.balanced.spend (o := o) (i := i) (by rw [holder_of_objs ho]; exact hi)
  unfold ledger at hb ⊢
  rw [Function.comp_update]
  exact hb

end Custody

lemma holder_of_not_joinable {o : O} {x : Thread ℕ} (ho : s.objs o = some x)
    (hx : x.joinable = false) : (ledger s).holder o = none := by
  rw [holder_of_objs ho]
  exact Thread.handle_of_not_joinable hx

variable [DecidableEq O] {a : ThreadOp O}

/-- Every operation but `detach` keeps the custody of the threads. -/
theorem Custody.step (h : Custody s) (ha : a.detaches = false)
    (hs : machine.step s a = some s') : Custody s' := by
  obtain ⟨hresp, hs⟩ := Machine.restrict_step_eq_some.mp hs
  change Threads.step s a = some s' at hs
  rw [Threads.step.eq_def, if_neg (by simp [h.running])] at hs
  cases a with
  | construct o =>
    cases ho : s.objs o <;> simp only [ho, Option.some.injEq, reduceCtorEq] at hs
    subst hs
    exact h.put (by rw [holder_of_objs ho]; rfl) rfl
  | start o =>
    cases ho : s.objs o <;> simp only [ho, Option.some.injEq, reduceCtorEq] at hs
    subst hs
    exact h.start ho
  | moveConstruct o other =>
    cases ho : s.objs o <;> cases hother : s.objs other <;>
      simp only [ho, hother, Option.some.injEq, reduceCtorEq] at hs
    subst hs
    apply h.exchange
    · rw [holder_of_objs ho]
      rfl
    · rw [holder_of_objs hother]
      rfl
  | moveAssign o other =>
    cases ho : s.objs o <;> cases hother : s.objs other <;>
      simp only [ho, hother, reduceCtorEq] at hs
    rename_i x y
    have hx : x.joinable = false := by simpa [respects, ho] using hresp
    have hnone := holder_of_not_joinable ho hx
    split_ifs at hs with hoo
    · simp only [Thread.moveAssignSelf, hx, Bool.false_eq_true, if_false, apply,
        Option.some.injEq] at hs
      subst hs
      exact h.put hnone (Thread.handle_of_not_joinable hx)
    · simp only [Thread.moveAssign, hx, Bool.false_eq_true, if_false, Option.some.injEq] at hs
      subst hs
      apply h.exchange
      · rw [holder_of_objs hother]
      · rw [hnone]
        rfl
  | swap o other =>
    cases ho : s.objs o <;> cases hother : s.objs other <;>
      simp only [ho, hother, Option.some.injEq, reduceCtorEq] at hs
    subst hs
    apply h.exchange
    · rw [holder_of_objs hother]
      rfl
    · rw [holder_of_objs ho]
      rfl
  | join o =>
    cases ho : s.objs o <;> simp only [ho, Option.some.injEq, reduceCtorEq] at hs
    rename_i x
    subst hs
    have hx : x.joinable = true := by simpa [respects, ho] using hresp
    obtain ⟨i, hi⟩ := Thread.joinable_iff.mp hx
    have hj := h.join ho hi
    simpa [Thread.join, hx, apply, hi] using hj
  | detach o => cases ha
  | destroy o =>
    cases ho : s.objs o <;> simp only [ho, reduceCtorEq] at hs
    rename_i x
    have hnone : (ledger s).holder o = none := by
      rw [← h.responsibleFor_eq]
      simpa [respects] using hresp
    have hx : x.joinable = false := by
      rw [holder_of_objs ho, Option.bind_some] at hnone
      simp [Thread.joinable, syncThreadIsNull, hnone]
    simp only [Thread.destroy, hx, Bool.not_false, if_true, Option.some.injEq] at hs
    subst hs
    exact h.put hnone rfl

/-- A detached thread still looks joinable. -/
lemma not_law_of_detach (h : Custody s) {o : O} (hs : machine.step s (.detach o) = some s') :
    ¬ Law s' := by
  obtain ⟨hresp, hs⟩ := Machine.restrict_step_eq_some.mp hs
  change Threads.step s (.detach o) = some s' at hs
  rw [Threads.step.eq_def, if_neg (by simp [h.running])] at hs
  cases ho : s.objs o <;> simp only [ho, Option.some.injEq, reduceCtorEq] at hs
  rename_i x
  subst hs
  have hx : x.joinable = true := by simpa [respects, ho] using hresp
  obtain ⟨i, hi⟩ := Thread.joinable_iff.mp hx
  intro hlaw
  have hiff := hlaw.joinable_iff o x (by simp [Thread.detach, hx, apply, syncThreadDetach])
  obtain ⟨j, -, hj⟩ := hiff.mp hx
  rw [responsibleFor_eq_some] at hj
  obtain ⟨hold, hmem⟩ := hj
  simp [ledger, Thread.detach, hx, apply, syncThreadDetach, hi] at hold hmem
  exact hmem.2.1 hold.symm

/-- In a sequence of operations that respects the preconditions the law holds all along exactly when
no operation is a `detach`. -/
theorem law_iff_no_detach {ops : List (ThreadOp O)} (hrun : machine.run start ops = some s) :
    (∀ pre u, pre <+: ops → machine.run start pre = some u → Law u) ↔
      ∀ a ∈ ops, a.detaches = false := by
  rw [← Machine.admits_iff_forall_mem hrun]
  refine Machine.forall_prefix_iff_admits_of_invariant (I := Custody) hrun custody_start
    (fun _ hu => hu.law) (fun _ _ _ hu ha hs => hu.step ha hs) fun u a u' hu ha hs => ?_
  cases a with
  | detach o => exact not_law_of_detach hu hs
  | _ => exact absurd rfl ha

/-- Two threads are started, exchanged, moved, joined and destroyed: the law holds. -/
lemma law_iff_no_detach_two :
    (∀ a ∈ [ThreadOp.start 0, .start 1, .swap 0 1, .moveConstruct 2 0, .join 1, .moveAssign 1 2,
        .join 1, .destroy 1, .destroy 0], a.detaches = false) ∧
      ∀ pre u, pre <+: [.start 0, .start 1, .swap 0 1, .moveConstruct 2 0, .join 1,
          .moveAssign 1 2, .join 1, .destroy 1, .destroy 0] →
        (machine (O := ℕ)).run Threads.start pre = some u → Law u := by
  obtain ⟨s, hs⟩ := Option.isSome_iff_exists.mp (show ((machine (O := ℕ)).run Threads.start
    [.start 0, .start 1, .swap 0 1, .moveConstruct 2 0, .join 1, .moveAssign 1 2, .join 1,
      .destroy 1, .destroy 0]).isSome = true by decide)
  have hno : ∀ a ∈ [ThreadOp.start 0, .start 1, .swap 0 1, .moveConstruct 2 0, .join 1,
      .moveAssign 1 2, .join 1, .destroy 1, .destroy 0], a.detaches = false := by
    decide
  exact ⟨hno, (law_iff_no_detach hs).mpr hno⟩

/-- A thread is started and detached; its object still has the handle, and destroying it ends the
program. -/
theorem not_law_detached : ∃ s s' : Threads ℕ,
    machine.run start [.start 0, .detach 0] = some s ∧ ¬ Law s ∧
      machine.step s (.destroy 0) = some s' ∧ s'.terminated = true ∧ ¬ Law s' := by
  refine ⟨_, _, rfl, fun h => ?_, rfl, rfl, fun h => ?_⟩
  · obtain ⟨i, -, hi⟩ := (h.joinable_iff 0 _ rfl).mp rfl
    have hnone : (none : Option ℕ) = some i := hi
    cases hnone
  · exact absurd h.running (by decide)

end Threads

end Sync
