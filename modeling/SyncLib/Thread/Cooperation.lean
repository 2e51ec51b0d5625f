import SyncLib.Core.Tally
import SyncLib.Thread.JThread

/-!
# `jthread` with the threads that it joins

The destructor of a `jthread` requests a stop, waits for its thread and destroys the members. The
function of a thread looks at its token from time to time, and returns when a stop was requested.
Between the request and the return of `pthread_join` anybody else may go on.
-/

namespace Sync

open Core

/-! ### Threads and their objects -/

/-- Where the function of a started thread is. -/
inductive Body
  | running
  | ended
  deriving DecidableEq, Repr

/-- The objects and stop states, the functions of the threads, and the objects whose destructor
waits for its thread. -/
structure Crew (O : Type*) where
  base : JThreads O
  body : ℕ → Body
  closing : O → Bool

/-- An operation on objects that returns at once, the two halves of a destructor that joins, or a
step of a started thread: it looks at its token, or returns for a reason of its own. -/
inductive CrewOp (O : Type*)
  | op (a : JThreadOp O)
  | beginDestroy (o : O)
  | endDestroy (o : O)
  | poll (i : ℕ)
  | finish (i : ℕ)
  deriving DecidableEq, Repr

/-- A thread looks at its token, or a destructor whose thread has ended returns. -/
def CrewOp.goesOn {O : Type*} : CrewOp O → Prop
  | .endDestroy _ | .poll _ => True
  | _                       => False

def JThreadOp.objects {O : Type*} : JThreadOp O → List O
  | .construct o | .create o | .join o | .requestStop o | .destroy o => [o]
  | .moveConstruct o other | .moveAssign o other | .swap o other     => [o, other]

namespace Crew

variable {O : Type*}

/-- `join` waits for the thread, the destructor of an object with a thread does not return at once,
and an object with a thread is not assigned to. -/
def returns (s : Crew O) : JThreadOp O → Bool
  | .join o                      => (s.base.threadOf o).any fun i => s.body i == .ended
  | .destroy o | .moveAssign o _ => (s.base.threadOf o).isNone
  | _                            => true

variable [DecidableEq O]

def step (s : Crew O) : CrewOp O → Option (Crew O)
  | .op a =>
    if (a.objects.all fun o => !s.closing o) && s.returns a then
      (s.base.step a).map fun base => { s with base }
    else none
  | .beginDestroy o =>
    match s.base.objs o with
    | some x =>
      if !s.closing o && x.joinable then some { s with
        base := { s.base with heap := x.requestStop s.base.heap }
        closing := Function.update s.closing o true }
      else none
    | none => none
  | .endDestroy o =>
    match s.base.objs o with
    | some x =>
      if s.closing o && (x.thread.handle.any fun i => s.body i == .ended) then some { s with
        base := (s.base.join o x false).destroyMembers o
        closing := Function.update s.closing o false }
      else none
    | none => none
  | .poll i =>
    if i < s.base.started ∧ s.body i = .running then
      if StopState.stopRequested (s.base.heap i).word then
        some { s with body := Function.update s.body i .ended }
      else some s
    else none
  | .finish i =>
    if i < s.base.started ∧ s.body i = .running then
      some { s with body := Function.update s.body i .ended }
    else none

def machine : Machine (Crew O) (CrewOp O) := ⟨step⟩

/-- No objects. -/
def start : Crew O := ⟨JThreads.start, fun _ => .running, fun _ => false⟩

end Crew

/-! ### A stop that was requested -/

/-- What is done with a state does not take back a stop. -/
def KeepsStop (f : Cell → Cell) : Prop :=
  ∀ c, StopState.stopRequested c.word = true → StopState.stopRequested (f c).word = true

lemma keepsStop_incrementTokenRef : KeepsStop Cell.incrementTokenRef := fun c h =>
  (StopState.flags_incrementTokenRef c.word).1.trans h

lemma keepsStop_decrementTokenRef : KeepsStop Cell.decrementTokenRef := fun c h =>
  (StopState.flags_decrementTokenRef c.word).1.trans h

lemma keepsStop_incrementSourceRef : KeepsStop Cell.incrementSourceRef := fun c h =>
  (StopState.flags_incrementSourceRef c.word).1.trans h

lemma keepsStop_requestStop : KeepsStop Cell.requestStop := fun c _ =>
  Cell.stopRequested_requestStop c

lemma Heap.stopRequested_call {f : Cell → Cell} (hf : KeepsStop f) {h : Heap} {i : ℕ}
    (hi : StopState.stopRequested (h i).word = true) (p : Option ℕ) :
    StopState.stopRequested (h.call p f i).word = true := by
  rw [Heap.call_apply]
  split_ifs
  · exact hf _ hi
  · exact hi

/-! ### What an operation leaves alone -/

namespace JThreads

variable {O : Type*}

/-- An operation changes the objects that it is called on, takes back no stop, and joins only in
`join`. -/
structure Frame (s : JThreads O) (a : JThreadOp O) (s' : JThreads O) : Prop where
  started_le : s.started ≤ s'.started
  objs : ∀ o, o ∉ a.objects → s'.objs o = s.objs o
  stop : ∀ i < s.started, StopState.stopRequested (s.heap i).word = true →
    StopState.stopRequested (s'.heap i).word = true
  joins : ∀ r ∈ s'.joins, r ∈ s.joins ∨ ∃ o, a = .join o ∧ s.threadOf o = some r.thread

variable {s s' : JThreads O} {a : JThreadOp O}

/-- The objects that are replaced are those of the operation. -/
lemma frame_of_objs {heap : Heap} {objs : O → Option JThread} {started : ℕ} {terminated : Bool}
    (hstarted : s.started ≤ started) (hobjs : ∀ o, o ∉ a.objects → objs o = s.objs o)
    (hstop : ∀ i < s.started, StopState.stopRequested (s.heap i).word = true →
      StopState.stopRequested (heap i).word = true) :
    Frame s a ⟨heap, objs, started, s.joins, terminated⟩ :=
  ⟨hstarted, hobjs, hstop, fun _ h => .inl h⟩

lemma threadOf_eq_some {o : O} {i : ℕ} :
    s.threadOf o = some i ↔ ∃ x, s.objs o = some x ∧ x.thread.handle = some i :=
  Option.bind_eq_some_iff

variable [DecidableEq O]

lemma frame_destroyMembers {o : O} : Frame s (.destroy o) (s.destroyMembers o) := by
  unfold destroyMembers
  cases ho : s.objs o with
  | none => exact ⟨le_rfl, fun _ _ => rfl, fun _ _ h => h, fun _ h => .inl h⟩
  | some x =>
    simp only
    split_ifs
    · refine ⟨le_rfl, fun o' ho' => ?_, fun i _ h => ?_, fun _ h => .inl h⟩
      · exact Function.update_of_ne (by simpa [JThreadOp.objects] using ho') ..
      · exact Heap.stopRequested_call keepsStop_incrementSourceRef h _
    · exact ⟨le_rfl, fun _ _ => rfl, fun _ _ h => h, fun _ h => .inl h⟩

lemma frame_join {o : O} {x : JThread} {explicit : Bool} (ho : s.objs o = some x) :
    Frame s (.join o) (s.join o x explicit) := by
  unfold join
  split
  · rename_i y i hy hi
    refine ⟨le_rfl, fun o' ho' => ?_, fun j _ h => ?_, fun r hr => ?_⟩
    · exact Function.update_of_ne (by simpa [JThreadOp.objects] using ho') ..
    · exact Heap.stopRequested_call keepsStop_decrementTokenRef h _
    · rcases List.mem_cons.mp hr with rfl | hr
      · exact .inr ⟨o, rfl, by rw [threadOf, ho]; exact hi⟩
      · exact .inl hr
  · exact ⟨le_rfl, fun _ _ => rfl, fun _ _ h => h, fun _ h => .inl h⟩

lemma frame_of_step (ha : ∀ o, a = .destroy o → s.threadOf o = none)
    (hs : JThreads.step s a = some s') : Frame s a s' := by
  rw [JThreads.step.eq_def] at hs
  split_ifs at hs
  cases a with
  | construct o =>
    cases ho : s.objs o <;> simp only [ho, Option.some.injEq, reduceCtorEq] at hs
    subst hs
    refine frame_of_objs le_rfl (fun o' ho' => ?_) fun _ _ h => h
    exact Function.update_of_ne (by simpa [JThreadOp.objects] using ho') ..
  | create o =>
    cases ho : s.objs o <;> simp only [ho, Option.some.injEq, reduceCtorEq] at hs
    subst hs
    refine frame_of_objs (Nat.le_succ _) (fun o' ho' => ?_) fun i hi h => ?_
    · exact Function.update_of_ne (by simpa [JThreadOp.objects] using ho') ..
    · -- the state of the new thread is another one
      apply Heap.stopRequested_call keepsStop_incrementTokenRef
      rwa [Function.update_of_ne hi.ne]
  | moveConstruct o other =>
    cases ho : s.objs o <;> cases hother : s.objs other <;>
      simp only [ho, hother, Option.some.injEq, reduceCtorEq] at hs
    subst hs
    refine frame_of_objs le_rfl (fun o' ho' => ?_) fun _ _ h => h
    simp only [JThreadOp.objects, List.mem_cons, List.not_mem_nil, or_false, not_or] at ho'
    rw [Function.update_of_ne ho'.1, Function.update_of_ne ho'.2]
  | moveAssign o other =>
    have hupdate : ∀ (x y : Option JThread) o', o' ∉ (JThreadOp.moveAssign o other).objects →
        Function.update (Function.update s.objs o x) other y o' = s.objs o' := by
      intro x y o' ho'
      simp only [JThreadOp.objects, List.mem_cons, List.not_mem_nil, or_false, not_or] at ho'
      rw [Function.update_of_ne ho'.2, Function.update_of_ne ho'.1]
    have hkept : ∀ p i, StopState.stopRequested (s.heap i).word = true →
        StopState.stopRequested (s.heap.call p Cell.incrementSourceRef i).word = true :=
      fun p i h => Heap.stopRequested_call keepsStop_incrementSourceRef h p
    cases ho : s.objs o <;> cases hother : s.objs other <;>
      simp only [ho, hother, reduceCtorEq] at hs
    rename_i x y
    split_ifs at hs
    · split at hs <;> cases hs
      · refine frame_of_objs le_rfl (fun o' ho' => ?_) fun i _ => hkept _ i
        refine Function.update_of_ne ?_ ..
        rintro rfl
        simp [JThreadOp.objects] at ho'
      · exact frame_of_objs le_rfl (fun _ _ => rfl) fun i _ => hkept _ i
    · split at hs <;> cases hs
      · exact frame_of_objs le_rfl (hupdate _ _) fun i _ => hkept _ i
      · exact frame_of_objs le_rfl (fun _ _ => rfl) fun i _ => hkept _ i
  | swap o other =>
    cases ho : s.objs o <;> cases hother : s.objs other <;>
      simp only [ho, hother, Option.some.injEq, reduceCtorEq] at hs
    subst hs
    refine frame_of_objs le_rfl (fun o' ho' => ?_) fun _ _ h => h
    simp only [JThreadOp.objects, List.mem_cons, List.not_mem_nil, or_false, not_or] at ho'
    rw [Function.update_of_ne ho'.2, Function.update_of_ne ho'.1]
  | join o =>
    cases ho : s.objs o <;> simp only [ho, Option.some.injEq, reduceCtorEq] at hs
    subst hs
    exact frame_join ho
  | requestStop o =>
    cases ho : s.objs o <;> simp only [ho, Option.some.injEq, reduceCtorEq] at hs
    subst hs
    refine frame_of_objs le_rfl (fun _ _ => rfl) fun i _ h => ?_
    exact Heap.stopRequested_call keepsStop_requestStop h _
  | destroy o =>
    cases ho : s.objs o <;> simp only [ho, Option.some.injEq, reduceCtorEq] at hs
    rename_i x
    subst hs
    have hnone := ha o rfl
    have hx : x.joinable = false := by
      rw [threadOf, ho] at hnone
      rw [← Bool.not_eq_true, JThread.joinable, Thread.joinable_iff]
      rintro ⟨i, hi⟩
      simp [hi] at hnone
    rw [destroy, if_neg (by simp [hx])]
    exact frame_destroyMembers

/-- What is left of an object by its destructor, once its thread has ended. -/
lemma destroyMembers_join {o : O} {x : JThread} {i : ℕ} (hi : x.thread.handle = some i) :
    (s.join o x false).destroyMembers o = { s with
      heap := stopSource.destroy (stopToken.destroy s.heap (some i)) x.stopSource
      objs := Function.update s.objs o none
      joins := ⟨i, false, StopState.stopRequested (s.heap i).word⟩ :: s.joins } := by
  have hjoin : x.join = some { x with thread := ⟨syncNullThread⟩ } := by
    simp [JThread.join, Thread.join, Thread.joinable, syncThreadIsNull, syncThreadJoin, hi]
  have hdestroy : (⟨syncNullThread⟩ : Thread ℕ).destroy = true := rfl
  simp only [join, hjoin, hi, destroyMembers, Function.update_self, hdestroy, if_true,
    Function.update_idem]

lemma Inv.destroyMembers_join (h : Inv s) {o : O} {x : JThread} {i : ℕ} (ho : s.objs o = some x)
    (hi : x.thread.handle = some i) (hstop : StopState.stopRequested (s.heap i).word = true) :
    Inv ((s.join o x false).destroyMembers o) := by
  have hjoined : Inv (s.join o x false) := h.join ho hi fun _ => hstop
  apply hjoined.destroyMembers (x := { x with thread := ⟨syncNullThread⟩ })
  · simp [JThreads.join, JThread.join, Thread.join, Thread.joinable, syncThreadIsNull,
      syncThreadJoin, hi]
  · rfl

end JThreads

/-! ### The invariant -/

namespace Crew

variable {O : Type*}

/-- Threads are joined when they have ended, and a destructor waits for a thread that was asked to
stop. -/
structure Inv (s : Crew O) : Prop where
  base : JThreads.Inv s.base
  joined : ∀ r ∈ s.base.joins, s.body r.thread = .ended
  closing : ∀ o, s.closing o = true → ∃ i, s.base.threadOf o = some i ∧
    StopState.stopRequested (s.base.heap i).word = true

namespace Inv

variable {s s' : Crew O}

lemma initial : Inv (start : Crew O) := by
  refine ⟨JThreads.Inv.initial, fun r hr => ?_, fun o ho => ?_⟩
  · cases hr
  · cases ho

/-- The thread of an object has been started. -/
lemma lt_of_threadOf (h : Inv s) {o : O} {i : ℕ} (hi : s.base.threadOf o = some i) :
    i < s.base.started := by
  rw [← JThreads.holder_threads] at hi
  exact h.base.custody.balanced.held_lt o i hi

/-- A thread ends. -/
lemma finish (h : Inv s) (i : ℕ) : Inv { s with body := Function.update s.body i .ended } := by
  refine ⟨h.base, fun r hr => ?_, h.closing⟩
  simp only
  by_cases hi : r.thread = i
  · rw [hi, Function.update_self]
  · rw [Function.update_of_ne hi]
    exact h.joined r hr

variable [DecidableEq O]

/-- An operation that returns at once. -/
lemma op (h : Inv s) {a : JThreadOp O} {base : JThreads O}
    (hopen : ∀ o ∈ a.objects, s.closing o = false) (hreturns : s.returns a = true)
    (hs : s.base.step a = some base) : Inv { s with base } := by
  have hframe : JThreads.Frame s.base a base := by
    refine JThreads.frame_of_step (fun o ho => ?_) hs
    subst ho
    simpa [returns] using hreturns
  refine ⟨?_, fun r hr => ?_, fun o ho => ?_⟩
  · have hoverwrites : s.base.overwrites a = false := by
      cases a with
      | moveAssign o other =>
        simp only [returns, JThreads.threadOf, Option.isNone_iff_eq_none] at hreturns
        cases ho : s.base.objs o with
        | none => simp [JThreads.overwrites, ho]
        | some x =>
          rw [ho, Option.bind_some] at hreturns
          simp [JThreads.overwrites, ho, JThread.joinable, Thread.joinable, syncThreadIsNull,
            hreturns]
      | _ => rfl
    have hresp : s.base.respects a = true := by
      cases a with
      | join o =>
        simp only [returns, Option.any_eq_true] at hreturns
        obtain ⟨i, hi, -⟩ := hreturns
        obtain ⟨x, hx, hhandle⟩ := JThreads.threadOf_eq_some.mp hi
        simp [JThreads.respects, hx, JThread.joinable, Thread.joinable, syncThreadIsNull, hhandle]
      | _ => rfl
    exact h.base.step hoverwrites (Machine.restrict_step_eq_some.mpr ⟨hresp, hs⟩)
  · rcases hframe.joins r hr with hr | ⟨o, rfl, hi⟩
    · exact h.joined r hr
    · simpa [returns, hi] using hreturns
  · obtain ⟨i, hi, hstop⟩ := h.closing o ho
    have hnot : o ∉ a.objects := fun hmem => by simp [hopen o hmem] at ho
    refine ⟨i, ?_, hframe.stop i (h.lt_of_threadOf hi) hstop⟩
    rw [JThreads.threadOf, hframe.objs o hnot]
    exact hi

/-- A destructor requests a stop, and begins to wait. -/
lemma beginDestroy (h : Inv s) {o : O} {x : JThread} (ho : s.base.objs o = some x)
    (hx : x.joinable = true) : Inv { s with
      base := { s.base with heap := x.requestStop s.base.heap }
      closing := Function.update s.closing o true } := by
  refine ⟨h.base.of_objs h.base.custody h.base.own, h.joined, fun o' ho' => ?_⟩
  by_cases hoo : o' = o
  · subst hoo
    obtain ⟨i, hi⟩ := Thread.joinable_iff.mp hx
    refine ⟨i, JThreads.threadOf_eq_some.mpr ⟨x, ho, hi⟩, ?_⟩
    simp only [JThread.requestStop, h.base.own o' x ho i hi, Heap.call_apply, if_true]
    exact Cell.stopRequested_requestStop _
  · simp only [Function.update_of_ne hoo] at ho'
    obtain ⟨i, hi, hstop⟩ := h.closing o' ho'
    exact ⟨i, hi, Heap.stopRequested_call keepsStop_requestStop hstop _⟩

/-- The thread has ended, and the destructor returns. -/
lemma endDestroy (h : Inv s) {o : O} {x : JThread} {i : ℕ} (hclosing : s.closing o = true)
    (ho : s.base.objs o = some x) (hi : x.thread.handle = some i) (hended : s.body i = .ended) :
    Inv { s with
      base := (s.base.join o x false).destroyMembers o
      closing := Function.update s.closing o false } := by
  have hstop : StopState.stopRequested (s.base.heap i).word = true := by
    obtain ⟨j, hj, hstop⟩ := h.closing o hclosing
    rw [JThreads.threadOf, ho, Option.bind_some, hi, Option.some.injEq] at hj
    rwa [hj]
  refine ⟨h.base.destroyMembers_join ho hi hstop, fun r hr => ?_, fun o' ho' => ?_⟩
  · rw [JThreads.destroyMembers_join hi] at hr
    rcases List.mem_cons.mp hr with rfl | hr
    · exact hended
    · exact h.joined r hr
  · have hoo : o' ≠ o := by
      rintro rfl
      simp at ho'
    simp only [Function.update_of_ne hoo] at ho'
    obtain ⟨j, hj, hstop⟩ := h.closing o' ho'
    rw [JThreads.destroyMembers_join hi]
    refine ⟨j, ?_, ?_⟩
    · simp only [JThreads.threadOf, Function.update_of_ne hoo]
      exact hj
    · apply Heap.stopRequested_call keepsStop_incrementSourceRef
      exact Heap.stopRequested_call keepsStop_decrementTokenRef hstop _

theorem step (h : Inv s) {a : CrewOp O} (hs : machine.step s a = some s') : Inv s' := by
  change s.step a = some s' at hs
  cases a with
  | op a =>
    simp only [Crew.step, Option.ite_none_right_eq_some, Bool.and_eq_true, List.all_eq_true,
      Bool.not_eq_true', Option.map_eq_some_iff] at hs
    obtain ⟨⟨hopen, hreturns⟩, base, hbase, rfl⟩ := hs
    exact h.op hopen hreturns hbase
  | beginDestroy o =>
    cases ho : s.base.objs o with
    | none => simp [Crew.step, ho] at hs
    | some x =>
      simp only [Crew.step, ho, Option.ite_none_right_eq_some, Bool.and_eq_true,
        Option.some.injEq] at hs
      obtain ⟨⟨-, hx⟩, rfl⟩ := hs
      exact h.beginDestroy ho hx
  | endDestroy o =>
    cases ho : s.base.objs o with
    | none => simp [Crew.step, ho] at hs
    | some x =>
      simp only [Crew.step, ho, Option.ite_none_right_eq_some, Bool.and_eq_true,
        Option.any_eq_true, beq_iff_eq, Option.some.injEq] at hs
      obtain ⟨⟨hclosing, i, hi, hended⟩, rfl⟩ := hs
      exact h.endDestroy hclosing ho hi hended
  | poll i =>
    simp only [Crew.step] at hs
    split_ifs at hs <;> cases hs
    · exact h.finish i
    · exact h
  | finish i =>
    simp only [Crew.step, Option.ite_none_right_eq_some, Option.some.injEq] at hs
    obtain ⟨-, rfl⟩ := hs
    exact h.finish i

end Inv

/-! ### Destructors return -/

/-- What is left to do for the destructor of an object. -/
def left (s : Crew O) (o : O) : ℕ :=
  if s.closing o then
    if (s.base.threadOf o).any fun i => s.body i == .running then 2 else 1
  else 0

variable [DecidableEq O]

/-- The destructor of `o` has returned in `s'`, or nothing has changed but a thread has ended. -/
inductive Closed (s s' : Crew O) : Prop
  | poll (hclosing : s'.closing = s.closing) (hobjs : s'.base.objs = s.base.objs)
  | endDestroy (o : O) (ho : s.closing o = true)
      (hclosing : s'.closing = Function.update s.closing o false)
      (hobjs : s'.base.objs = Function.update s.base.objs o none)

namespace Inv

variable {s : Crew O}

/-- A thread that was asked to stop ends when it looks at its token. -/
lemma exists_poll (h : Inv s) {o : O} {i : ℕ} (ho : s.closing o = true)
    (hi : s.base.threadOf o = some i) (hrunning : s.body i = .running) :
    ∃ s', machine.step s (.poll i) = some s' ∧ Closed s s' ∧ s'.left o < s.left o ∧
      ∀ o', s'.left o' ≤ s.left o' := by
  have hstop : StopState.stopRequested (s.base.heap i).word = true := by
    obtain ⟨j, hj, hstop⟩ := h.closing o ho
    rw [hi, Option.some.injEq] at hj
    rwa [hj]
  refine ⟨{ s with body := Function.update s.body i .ended }, ?_, .poll rfl rfl, ?_, fun o' => ?_⟩
  · simp [machine, Crew.step, h.lt_of_threadOf hi, hrunning, hstop]
  · simp only [left, ho, if_true]
    simp [hi, hrunning]
  · simp only [left]
    cases s.closing o' with
    | false => simp
    | true =>
      cases hj : s.base.threadOf o' with
      | none => simp
      | some j =>
        by_cases hji : j = i
        · subst hji
          simp [hrunning]
        · simp [Function.update_of_ne hji]

/-- A destructor whose thread has ended returns. -/
lemma exists_endDestroy {o : O} {i : ℕ} (ho : s.closing o = true)
    (hi : s.base.threadOf o = some i) (hended : s.body i = .ended) :
    ∃ s', machine.step s (.endDestroy o) = some s' ∧ Closed s s' ∧ s'.left o < s.left o ∧
      ∀ o', s'.left o' ≤ s.left o' := by
  obtain ⟨x, hx, hhandle⟩ := JThreads.threadOf_eq_some.mp hi
  have hobjs := congrArg JThreads.objs
    (JThreads.destroyMembers_join (s := s.base) (o := o) (x := x) hhandle)
  refine ⟨{ s with
    base := (s.base.join o x false).destroyMembers o
    closing := Function.update s.closing o false }, ?_, .endDestroy o ho rfl hobjs, ?_,
    fun o' => ?_⟩
  · simp [machine, Crew.step, hx, ho, hhandle, hended]
  · simp only [left, ho, Function.update_self, Bool.false_eq_true, if_false, if_true]
    split_ifs <;> simp
  · by_cases hoo : o' = o
    · subst hoo
      simp [left]
    · have hsame : ((s.base.join o x false).destroyMembers o).threadOf o' = s.base.threadOf o' := by
        simp only [JThreads.threadOf, hobjs, Function.update_of_ne hoo]
      simp only [left, Function.update_of_ne hoo, hsame]
      exact le_rfl

lemma progress [Fintype O] (h : Inv s) : (∀ o, s.closing o = false) ∨
    ∃ a s', CrewOp.goesOn a ∧ machine.step s a = some s' ∧ Closed s s' ∧
      ∑ o, s'.left o < ∑ o, s.left o := by
  by_cases hnone : ∀ o, s.closing o = false
  · exact .inl hnone
  · right
    obtain ⟨o, ho⟩ := not_forall.mp hnone
    rw [Bool.not_eq_false] at ho
    obtain ⟨i, hi, -⟩ := h.closing o ho
    cases hbody : s.body i with
    | running =>
      obtain ⟨s', hs, hclosed, hlt, hle⟩ := h.exists_poll ho hi hbody
      exact ⟨.poll i, s', trivial, hs, hclosed,
        Finset.sum_lt_sum (fun o _ => hle o) ⟨o, Finset.mem_univ o, hlt⟩⟩
    | ended =>
      obtain ⟨s', hs, hclosed, hlt, hle⟩ := exists_endDestroy ho hi hbody
      exact ⟨.endDestroy o, s', trivial, hs, hclosed,
        Finset.sum_lt_sum (fun o _ => hle o) ⟨o, Finset.mem_univ o, hlt⟩⟩

/-- The objects whose destructors have been called are gone, and the others are as they were. -/
def Leads (s u : Crew O) : Prop :=
  ∀ o, (u.closing o = true → s.closing o = true) ∧
    u.base.objs o = if s.closing o && !u.closing o then none else s.base.objs o

lemma leads_of_closed {u u' : Crew O} (h : Leads s u) (hclosed : Closed u u') : Leads s u' := by
  intro o
  obtain ⟨hclosing, hobjs⟩ := h o
  cases hclosed with
  | poll hclosing' hobjs' => rw [hclosing', hobjs']; exact ⟨hclosing, hobjs⟩
  | endDestroy o' ho' hclosing' hobjs' =>
    rw [hclosing', hobjs']
    by_cases hoo : o = o'
    · subst hoo
      simp [hclosing ho']
    · rw [Function.update_of_ne hoo, Function.update_of_ne hoo]
      exact ⟨hclosing, hobjs⟩

theorem exists_runs [Fintype O] (h : Inv s) :
    ∃ s', machine.Runs (fun _ a => CrewOp.goesOn a) s s' ∧ (∀ o, s'.closing o = false) ∧
      ∀ o, s'.base.objs o = if s.closing o then none else s.base.objs o := by
  have hprogress : ∀ u : Crew O, Inv u ∧ Leads s u → (∀ o, u.closing o = false) ∨
      ∃ a u', CrewOp.goesOn a ∧ machine.step u a = some u' ∧ (Inv u' ∧ Leads s u') ∧
        ∑ o, u'.left o < ∑ o, u.left o := by
    rintro u ⟨hu, hleads⟩
    rcases hu.progress with hdone | ⟨a, u', hgo, hs, hclosed, hlt⟩
    · exact .inl hdone
    · exact .inr ⟨a, u', hgo, hs, ⟨hu.step hs, leads_of_closed hleads hclosed⟩, hlt⟩
  obtain ⟨s', hruns, ⟨-, hleads⟩, hdone⟩ :=
    Machine.exists_runs_of_progress _ hprogress ⟨h, fun o => ⟨id, by simp⟩⟩
  refine ⟨s', hruns, hdone, fun o => ?_⟩
  rw [(hleads o).2, hdone o]
  simp

end Inv

/-! ### The law -/

/-- What the objects have to do with the functions of the threads. -/
structure Law (s : Crew O) : Prop where
  /-- No thread is abandoned or joined twice, and `std::terminate` is not called. -/
  threads : JThreads.Law s.base
  /-- A thread is joined when its function has ended. -/
  joined : ∀ r ∈ s.base.joins, s.body r.thread = .ended
  /-- A destructor waits for the thread of its object, which was asked to stop. -/
  asked : ∀ o, s.closing o = true → ∃ i < s.base.started, s.base.threadOf o = some i ∧
    StopState.stopRequested (s.base.heap i).word = true
  /-- When the objects are gone no function runs on. -/
  gone : (∀ o, s.base.objs o = none) → ∀ i < s.base.started, s.body i = .ended
  /-- Destructors return as soon as the threads look at their tokens, and nothing else is needed. -/
  finishes : ∃ s', machine.Runs (fun _ a => CrewOp.goesOn a) s s' ∧ (∀ o, s'.closing o = false) ∧
    ∀ o, s'.base.objs o = if s.closing o then none else s.base.objs o

/-- In every order of the operations on the objects, the halves of their destructors and the steps
of the threads, where no object with a thread is assigned to: a `jthread` outlives its thread, and
its destructor returns when the thread looks at its token. -/
theorem cooperation_law [Fintype O] {s : Crew O} (h : machine.Reachable start s) : Law s := by
  have hinv : Inv s := h.invariant Inv.initial fun _ _ _ hu _ hs => hu.step hs
  have hthreads := hinv.base.law
  refine ⟨hthreads, hinv.joined, fun o ho => ?_, fun hnone i hi => ?_, hinv.exists_runs⟩
  · obtain ⟨i, hi, hstop⟩ := hinv.closing o ho
    exact ⟨i, hinv.lt_of_threadOf hi, hi, hstop⟩
  · have hcount := hthreads.joined_once hnone i hi
    have hmem : i ∈ s.base.joined := List.count_pos_iff.mp (hcount ▸ Nat.one_pos)
    obtain ⟨r, hr, rfl⟩ := List.mem_map.mp hmem
    exact hinv.joined r hr

/-- Two threads are exchanged. The destructor of the first object waits for the thread of the second
one, which has not looked at its token yet, and the other thread has returned and was joined. -/
theorem cooperation_law_two : ∃ s : Crew (Fin 2), s.closing 0 = true ∧
    s.base.threadOf 0 = some 1 ∧ s.body 1 = .running ∧ s.body 0 = .ended ∧
      s.base.joined = [0] ∧ Law s := by
  obtain ⟨s, hs, hp⟩ := Machine.exists_reachable_of_run (M := machine) (s := (start : Crew (Fin 2)))
    [.op (.create 0), .op (.create 1), .op (.swap 0 1), .poll 0, .beginDestroy 0, .finish 0,
      .op (.join 1)]
    (fun s => s.closing 0 && s.base.threadOf 0 == some 1 && s.body 1 == .running &&
      s.body 0 == .ended && s.base.joined == [0]) (by decide +kernel)
  simp only [Bool.and_eq_true, beq_iff_eq, and_assoc] at hp
  exact ⟨s, hp.1, hp.2.1, hp.2.2.1, hp.2.2.2.1, hp.2.2.2.2, cooperation_law hs⟩

end Crew

end Sync
