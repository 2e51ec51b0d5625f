import SyncLib.StopToken.Counting
import SyncLib.Thread.Posix

/-!
# `jthread`

A `jthread` is a `stop_source` and a `thread`. The destructor requests a stop and joins. The moves
are memberwise, so the assignment to an object that has a thread ends in the assignment of `thread`,
which terminates the program. The thread and the stop state of one construction have one number.
-/

namespace Sync

open Core

/-! ### Members -/

structure JThread where
  stopSource : Option ℕ := none
  thread : Thread ℕ := {}
  deriving DecidableEq, Repr

namespace JThread

def joinable (self : JThread) : Bool := self.thread.joinable

/-- The constructor from a function, which passes a token of the new state to the thread. -/
def create (heap : Heap) (i : ℕ) : Heap × JThread :=
  let heap := Function.update heap i Cell.new
  let (heap, _token) := stopToken.copyConstruct heap (some i)
  (heap, ⟨some i, Thread.create i⟩)

def moveConstruct (other : JThread) : JThread × JThread :=
  let s := HandleClass.moveConstruct other.stopSource
  let t := other.thread.moveConstruct
  (⟨s.1, t.1⟩, ⟨s.2, t.2⟩)

/-- The move assignment between two objects; the stop sources come first. -/
def moveAssign (heap : Heap) (self other : JThread) : Heap × Option (JThread × JThread) :=
  let (heap, s) := Sync.stopSource.moveAssign heap self.stopSource other.stopSource
  (heap, (self.thread.moveAssign other.thread).map fun t => (⟨s.1, t.1⟩, ⟨s.2, t.2⟩))

/-- The move assignment of an object to itself. -/
def moveAssignSelf (heap : Heap) (self : JThread) : Heap × Option JThread :=
  let (heap, s) := Sync.stopSource.moveAssignSelf heap self.stopSource
  (heap, self.thread.moveAssignSelf.map fun t => ⟨s, t⟩)

def swap (self other : JThread) : JThread × JThread :=
  let t := self.thread.swap other.thread
  let s := HandleClass.swap self.stopSource other.stopSource
  (⟨s.1, t.1⟩, ⟨s.2, t.2⟩)

def requestStop (heap : Heap) (self : JThread) : Heap := heap.call self.stopSource Cell.requestStop

/-- The object after `join`, unless the assertion fails. -/
def join (self : JThread) : Option JThread :=
  self.thread.join.map fun t => { self with thread := t }

/-- The object that has a thread has its stop state. -/
def Own (self : JThread) : Prop := ∀ i, self.thread.handle = some i → self.stopSource = some i

end JThread

lemma Cell.stopRequested_requestStop (c : Cell) :
    StopState.stopRequested c.requestStop.word = true := by
  rw [Cell.requestStop]
  split_ifs with h
  · exact h
  · exact StopState.stopRequested_unlock_requestedAndLocked c.word

/-! ### Collections of objects -/

/-- An operation on objects named by `O`; `create` is the constructor from a function. -/
inductive JThreadOp (O : Type*)
  | construct (o : O)
  | create (o : O)
  | moveConstruct (o other : O)
  | moveAssign (o other : O)
  | swap (o other : O)
  | join (o : O)
  | requestStop (o : O)
  | destroy (o : O)
  deriving DecidableEq, Repr

/-- Which thread was joined, whether by `join()` or by a destructor, and whether a stop had been
requested on its state. -/
structure Join where
  thread : ℕ
  explicit : Bool
  requested : Bool
  deriving DecidableEq, Repr

/-- The stop states, the live objects, the number of threads started so far, the threads joined so
far, and whether an assertion failed or `std::terminate` was called. -/
structure JThreads (O : Type*) where
  heap : Heap
  objs : O → Option JThread
  started : ℕ
  joins : List Join
  terminated : Bool

namespace JThreads

variable {O : Type*}

/-- The members `thread_` of the objects. -/
def threads (s : JThreads O) : Threads O where
  objs := Option.map JThread.thread ∘ s.objs
  started := s.started
  joined := s.joins.map Join.thread
  detached := []
  terminated := s.terminated

/-- An assignment to an object that has a thread. -/
def overwrites (s : JThreads O) : JThreadOp O → Bool
  | .moveAssign o _ => (s.objs o).any JThread.joinable
  | _               => false

/-- No objects. -/
def start : JThreads O := ⟨fun _ => Cell.new, fun _ => none, 0, [], false⟩

section

variable [DecidableEq O]

/-- `join` of `o`. When `pthread_join` returns, the thread has destroyed its token. -/
def join (s : JThreads O) (o : O) (x : JThread) (explicit : Bool) : JThreads O :=
  match x.join, x.thread.handle with
  | some y, some i => { s with
      heap := stopToken.destroy s.heap (some i)
      objs := Function.update s.objs o (some y)
      joins := ⟨i, explicit, StopState.stopRequested (s.heap i).word⟩ :: s.joins }
  | _, _ => { s with terminated := true }

/-- The destructors of the members of `o`. -/
def destroyMembers (s : JThreads O) (o : O) : JThreads O :=
  match s.objs o with
  | some x =>
    if x.thread.destroy then { s with
      heap := stopSource.destroy s.heap x.stopSource
      objs := Function.update s.objs o none }
    else { s with terminated := true }
  | none => s

def destroy (s : JThreads O) (o : O) (x : JThread) : JThreads O :=
  if x.joinable then
    let s := { s with heap := x.requestStop s.heap }
    (s.join o x false).destroyMembers o
  else s.destroyMembers o

def step (s : JThreads O) (a : JThreadOp O) : Option (JThreads O) :=
  if s.terminated then none else
  match a with
  | .construct o =>
    match s.objs o with
    | none => some { s with objs := Function.update s.objs o (some {}) }
    | some _ => none
  | .create o =>
    match s.objs o with
    | none =>
      let (heap, x) := JThread.create s.heap s.started
      some { s with heap, objs := Function.update s.objs o (some x), started := s.started + 1 }
    | some _ => none
  | .moveConstruct o other =>
    match s.objs o, s.objs other with
    | none, some x =>
      let r := x.moveConstruct
      some { s with objs := Function.update (Function.update s.objs other (some r.2)) o (some r.1) }
    | _, _ => none
  | .moveAssign o other =>
    match s.objs o, s.objs other with
    | some x, some y =>
      if o = other then
        let (heap, r) := x.moveAssignSelf s.heap
        match r with
        | some z => some { s with heap, objs := Function.update s.objs o (some z) }
        | none => some { s with heap, terminated := true }
      else
        let (heap, r) := x.moveAssign s.heap y
        match r with
        | some r => some { s with
            heap
            objs := Function.update (Function.update s.objs o (some r.1)) other (some r.2) }
        | none => some { s with heap, terminated := true }
    | _, _ => none
  | .swap o other =>
    match s.objs o, s.objs other with
    | some x, some y =>
      let r := x.swap y
      some { s with
        objs := Function.update (Function.update s.objs o (some r.1)) other (some r.2) }
    | _, _ => none
  | .join o =>
    match s.objs o with
    | some x => some (s.join o x true)
    | none => none
  | .requestStop o =>
    match s.objs o with
    | some x => some { s with heap := x.requestStop s.heap }
    | none => none
  | .destroy o =>
    match s.objs o with
    | some x => some (s.destroy o x)
    | none => none

/-- The precondition of `join`. -/
def respects (s : JThreads O) : JThreadOp O → Bool
  | .join o => (s.objs o).any JThread.joinable
  | _       => true

/-- The sequences of operations that join only what is joinable. -/
def machine : Machine (JThreads O) (JThreadOp O) := (⟨step⟩ : Machine _ _).restrict respects

end

/-! ### Custody of the threads -/

def joined (s : JThreads O) : List ℕ := s.joins.map Join.thread

/-- The thread that an object has. -/
def threadOf (s : JThreads O) (o : O) : Option ℕ := (s.objs o).bind fun x => x.thread.handle

/-- No thread is abandoned or joined twice, and those joined by a destructor were asked to stop. -/
structure Law (s : JThreads O) : Prop where
  custody : ∀ i < s.started,
    (∃! o, s.threadOf o = some i) ∧ s.joined.count i = 0 ∨
      (∀ o, s.threadOf o ≠ some i) ∧ s.joined.count i = 1
  joined_once : (∀ o, s.objs o = none) → ∀ i < s.started, s.joined.count i = 1
  requested : ∀ r ∈ s.joins, r.explicit = false → r.requested = true
  running : s.terminated = false

def AllOwn (objs : O → Option JThread) : Prop := ∀ o x, objs o = some x → x.Own

structure Inv (s : JThreads O) : Prop where
  custody : Threads.Custody s.threads
  own : AllOwn s.objs
  requested : ∀ r ∈ s.joins, r.explicit = false → r.requested = true

variable {s s' : JThreads O}

lemma holder_threads (o : O) : (Threads.ledger s.threads).holder o = s.threadOf o := by
  simp only [Threads.ledger, threads, threadOf, Function.comp_apply]
  cases s.objs o <;> rfl

lemma holder_of_objs {o : O} {x : Option JThread} (h : s.objs o = x) :
    (Threads.ledger s.threads).holder o = x.bind fun x => x.thread.handle := by
  rw [holder_threads, threadOf, h]

namespace Inv

lemma initial : Inv (start : JThreads O) := by
  refine ⟨?_, fun o x h => ?_, fun r h => ?_⟩
  · exact Threads.custody_start
  · cases h
  · cases h

lemma law (h : Inv s) : Law s := by
  have hcustody : ∀ i < s.started,
      (∃! o, s.threadOf o = some i) ∧ s.joined.count i = 0 ∨
        (∀ o, s.threadOf o ≠ some i) ∧ s.joined.count i = 1 := by
    intro i hi
    simp only [← holder_threads]
    have hspent : (Threads.ledger s.threads).spent = s.joined := List.append_nil _
    rw [← hspent]
    rcases h.custody.balanced.accounted i hi with hheld | ⟨hnone, hgone⟩
    · exact .inl ⟨hheld.1, hheld.2.2⟩
    · rcases hgone with ⟨hgiven, -⟩ | ⟨-, hcount⟩
      · cases hgiven
      · exact .inr ⟨hnone, hcount⟩
  refine ⟨hcustody, fun hnone i hi => ?_, h.requested, h.custody.running⟩
  rcases hcustody i hi with ⟨⟨o, ho, -⟩, -⟩ | ⟨-, hcount⟩
  · simp [threadOf, hnone o] at ho
  · exact hcount

/-- The objects change, and what they have of threads. -/
lemma of_objs (h : Inv s) {heap : Heap} {objs : O → Option JThread} {started : ℕ}
    (hcustody : Threads.Custody
      { s.threads with objs := Option.map JThread.thread ∘ objs, started })
    (hown : AllOwn objs) : Inv { s with heap, objs, started } :=
  ⟨hcustody, hown, h.requested⟩

end Inv

lemma AllOwn.update [DecidableEq O] {objs : O → Option JThread} (h : AllOwn objs) {o : O}
    {x : Option JThread} (hx : ∀ y, x = some y → y.Own) : AllOwn (Function.update objs o x) := by
  intro o'
  by_cases ho : o' = o
  · subst ho
    rw [Function.update_self]
    exact hx
  · rw [Function.update_of_ne ho]
    exact h o'

namespace Inv

variable [DecidableEq O]

lemma construct (h : Inv s) {o : O} (ho : s.objs o = none) :
    Inv { s with objs := Function.update s.objs o (some {}) } := by
  apply h.of_objs
  · rw [Function.comp_update]
    exact h.custody.put (by rw [holder_of_objs ho]; rfl) rfl
  · apply h.own.update
    rintro y ⟨⟩ i hi
    cases hi

lemma create (h : Inv s) {o : O} (ho : s.objs o = none) (heap : Heap) :
    Inv { s with
      heap
      objs := Function.update s.objs o (some ⟨some s.started, Thread.create s.started⟩)
      started := s.started + 1 } := by
  apply h.of_objs
  · rw [Function.comp_update]
    exact h.custody.start (by simp [threads, ho])
  · apply h.own.update
    rintro y ⟨⟩ i hi
    exact hi

/-- Two objects, one of which may not exist yet, exchange their threads. -/
lemma exchange (h : Inv s) {o o' : O} {x x' : Option JThread} (heap : Heap)
    (hx : x.bind (fun x => x.thread.handle) = s.threadOf o')
    (hx' : x'.bind (fun x => x.thread.handle) = s.threadOf o)
    (hown : ∀ y, x = some y → y.Own) (hown' : ∀ y, x' = some y → y.Own) :
    Inv { s with heap, objs := Function.update (Function.update s.objs o x) o' x' } := by
  apply h.of_objs
  · rw [Function.comp_update, Function.comp_update]
    apply h.custody.exchange
    · rw [Option.bind_map, holder_threads]
      exact hx
    · rw [Option.bind_map, holder_threads]
      exact hx'
  · exact (h.own.update hown).update hown'

/-- A thread is joined, by a destructor only after a stop was requested. -/
lemma join (h : Inv s) {o : O} {x : JThread} {i : ℕ} {explicit : Bool} (ho : s.objs o = some x)
    (hi : x.thread.handle = some i)
    (hstop : explicit = false → StopState.stopRequested (s.heap i).word = true) :
    Inv (s.join o x explicit) := by
  have hx : x.thread.joinable = true := Thread.joinable_iff.mpr ⟨i, hi⟩
  simp only [JThreads.join, JThread.join, Thread.join, hx, hi, if_true, Option.map_some]
  refine ⟨?_, ?_, ?_⟩
  · unfold threads
    rw [Function.comp_update]
    have hj := h.custody.join (o := o) (x := x.thread) (by simp [threads, ho]) hi
    rw [hi] at hj
    exact hj
  · apply h.own.update
    rintro y ⟨⟩ j hj
    cases hj
  · intro r hr
    rcases List.mem_cons.mp hr with rfl | hr
    · exact hstop
    · exact h.requested r hr

lemma destroyMembers (h : Inv s) {o : O} {x : JThread} (ho : s.objs o = some x)
    (hx : x.joinable = false) : Inv (s.destroyMembers o) := by
  have hdestroy : x.thread.destroy = true := by
    rw [Thread.destroy, Bool.not_eq_true']
    exact hx
  simp only [JThreads.destroyMembers, ho, hdestroy, if_true]
  apply h.of_objs
  · rw [Function.comp_update]
    apply h.custody.put _ rfl
    rw [holder_of_objs ho]
    exact Thread.handle_of_not_joinable hx
  · apply h.own.update
    rintro y ⟨⟩

lemma destroy (h : Inv s) {o : O} {x : JThread} (ho : s.objs o = some x) :
    Inv (s.destroy o x) := by
  rw [JThreads.destroy]
  split_ifs with hx
  · obtain ⟨i, hi⟩ := Thread.joinable_iff.mp hx
    have hown := h.own o x ho i hi
    have hasked : Inv { s with heap := x.requestStop s.heap } := h.of_objs h.custody h.own
    have hjoined : Inv (({ s with heap := x.requestStop s.heap } : JThreads O).join o x false) := by
      apply hasked.join ho hi
      intro _
      simp only [JThread.requestStop, hown, Heap.call_apply, if_true]
      exact Cell.stopRequested_requestStop _
    apply hjoined.destroyMembers (x := ⟨x.stopSource, ⟨syncThreadJoin x.thread.handle⟩⟩)
    · have hjoinable : x.thread.joinable = true := hx
      simp [JThreads.join, JThread.join, Thread.join, hjoinable, hi]
    · rfl
  · rw [Bool.not_eq_true] at hx
    exact h.destroyMembers ho hx

end Inv

variable [DecidableEq O] {a : JThreadOp O}

/-- Every operation keeps the invariant that does not assign to an object with a thread. -/
theorem Inv.step (h : Inv s) (ha : s.overwrites a = false) (hs : machine.step s a = some s') :
    Inv s' := by
  obtain ⟨hresp, hs⟩ := Machine.restrict_step_eq_some.mp hs
  change JThreads.step s a = some s' at hs
  have hrunning : s.terminated = false := h.custody.running
  rw [JThreads.step.eq_def, if_neg (by simp [hrunning])] at hs
  cases a with
  | construct o =>
    cases ho : s.objs o <;> simp only [ho, Option.some.injEq, reduceCtorEq] at hs
    subst hs
    exact h.construct ho
  | create o =>
    cases ho : s.objs o <;> simp only [ho, Option.some.injEq, reduceCtorEq] at hs
    subst hs
    exact h.create ho _
  | moveConstruct o other =>
    cases ho : s.objs o <;> cases hother : s.objs other <;>
      simp only [ho, hother, Option.some.injEq, reduceCtorEq] at hs
    subst hs
    apply h.exchange
    · rw [threadOf, ho]
      rfl
    · rw [threadOf, hother]
      rfl
    · rintro y ⟨⟩ i hi
      cases hi
    · rintro y ⟨⟩
      exact h.own other _ hother
  | moveAssign o other =>
    cases ho : s.objs o <;> cases hother : s.objs other <;>
      simp only [ho, hother, reduceCtorEq] at hs
    rename_i x y
    have hx : x.thread.joinable = false := by
      simpa [overwrites, ho, JThread.joinable] using ha
    have hnone := Thread.handle_of_not_joinable hx
    split_ifs at hs with hoo
    · simp only [JThread.moveAssignSelf, Thread.moveAssignSelf, hx, Bool.false_eq_true, if_false,
        Option.map_some, Option.some.injEq] at hs
      subst hs
      have hsame : Function.update s.objs o (some x) = s.objs :=
        Function.update_eq_self_iff.mpr ho.symm
      apply h.of_objs
      · change Threads.Custody { s.threads with
          objs := Option.map JThread.thread ∘ Function.update s.objs o (some x) }
        rw [hsame]
        exact h.custody
      · change AllOwn (Function.update s.objs o (some x))
        rw [hsame]
        exact h.own
    · simp only [JThread.moveAssign, Thread.moveAssign, hx, Bool.false_eq_true, if_false,
        Option.map_some, Option.some.injEq] at hs
      subst hs
      apply h.exchange
      · rw [threadOf, hother]
        rfl
      · rw [threadOf, ho]
        exact hnone.symm
      · rintro z ⟨⟩
        exact h.own other _ hother
      · rintro z ⟨⟩ i hi
        cases hi
  | swap o other =>
    cases ho : s.objs o <;> cases hother : s.objs other <;>
      simp only [ho, hother, Option.some.injEq, reduceCtorEq] at hs
    subst hs
    apply h.exchange
    · rw [threadOf, hother]
      rfl
    · rw [threadOf, ho]
      rfl
    · rintro z ⟨⟩
      exact h.own other _ hother
    · rintro z ⟨⟩
      exact h.own o _ ho
  | join o =>
    cases ho : s.objs o <;> simp only [ho, Option.some.injEq, reduceCtorEq] at hs
    rename_i x
    subst hs
    have hx : x.thread.joinable = true := by
      simpa [respects, ho, JThread.joinable] using hresp
    obtain ⟨i, hi⟩ := Thread.joinable_iff.mp hx
    apply h.join ho hi
    intro hexplicit
    cases hexplicit
  | requestStop o =>
    cases ho : s.objs o <;> simp only [ho, Option.some.injEq, reduceCtorEq] at hs
    subst hs
    exact h.of_objs h.custody h.own
  | destroy o =>
    cases ho : s.objs o <;> simp only [ho, Option.some.injEq, reduceCtorEq] at hs
    subst hs
    exact h.destroy ho

/-- The assignment to an object with a thread terminates. -/
lemma not_law_of_overwrites (ha : s.overwrites a = true) (hs : machine.step s a = some s') :
    ¬ Law s' := by
  obtain ⟨-, hs⟩ := Machine.restrict_step_eq_some.mp hs
  change JThreads.step s a = some s' at hs
  rw [JThreads.step.eq_def] at hs
  cases a with
  | moveAssign o other =>
    cases ho : s.objs o <;> cases hother : s.objs other <;>
      simp only [ho, hother, ite_self, reduceCtorEq] at hs
    rename_i x y
    have hx : x.thread.joinable = true := by simpa [overwrites, ho, JThread.joinable] using ha
    simp only [JThread.moveAssignSelf, Thread.moveAssignSelf, JThread.moveAssign,
      Thread.moveAssign, hx, if_true, Option.map_none] at hs
    intro hlaw
    split_ifs at hs
    · cases hs
      cases hlaw.running
    · cases hs
      cases hlaw.running
  | _ => cases ha

/-- In a sequence of operations that joins only what is joinable the law holds all along exactly
when no move assignment has a target with a thread. -/
theorem law_iff_no_overwrite {ops : List (JThreadOp O)} (hrun : machine.run start ops = some s) :
    (∀ pre u, pre <+: ops → machine.run start pre = some u → Law u) ↔
      machine.Admits (fun u a => u.overwrites a = false) start ops := by
  apply Machine.forall_prefix_iff_admits_of_invariant (I := Inv) hrun Inv.initial
  · intro u hu
    exact hu.law
  · intro u a u' hu ha hs
    exact hu.step ha hs
  · intro u a u' _ ha hs
    exact not_law_of_overwrites (Bool.not_eq_false _ ▸ ha) hs

/-- Two threads are exchanged, moved and joined, one of them by a destructor, and an object without
a thread is assigned to: the law holds. -/
lemma law_iff_no_overwrite_two :
    (machine (O := ℕ)).Admits (fun u a => u.overwrites a = false) JThreads.start
        [.create 0, .create 1, .swap 0 1, .moveConstruct 2 0, .construct 3, .moveAssign 3 2,
          .requestStop 1, .join 1, .destroy 3, .destroy 1] ∧
      ∀ pre u, pre <+: [.create 0, .create 1, .swap 0 1, .moveConstruct 2 0, .construct 3,
          .moveAssign 3 2, .requestStop 1, .join 1, .destroy 3, .destroy 1] →
        (machine (O := ℕ)).run JThreads.start pre = some u → Law u := by
  obtain ⟨s, hs⟩ := Option.isSome_iff_exists.mp (show ((machine (O := ℕ)).runWhile
    (fun u a => u.overwrites a = false) JThreads.start [.create 0, .create 1, .swap 0 1,
      .moveConstruct 2 0, .construct 3, .moveAssign 3 2, .requestStop 1, .join 1, .destroy 3,
      .destroy 1]).isSome = true by decide)
  obtain ⟨hrun, hadmits⟩ := Machine.run_of_runWhile hs
  exact ⟨hadmits, (law_iff_no_overwrite hrun).mpr hadmits⟩

/-- A running `jthread` is overwritten: the program ends, and nothing was joined. -/
theorem not_law_overwritten : ∃ s : JThreads ℕ,
    machine.run start [.create 0, .create 1, .moveAssign 0 1] = some s ∧ s.terminated = true ∧
      s.joins = [] ∧ ¬ Law s := by
  refine ⟨_, rfl, rfl, rfl, fun h => ?_⟩
  cases h.running

end JThreads

end Sync
