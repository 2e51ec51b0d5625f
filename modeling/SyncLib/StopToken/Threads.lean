import SyncLib.Core.IntrusiveList
import SyncLib.Core.Machine
import SyncLib.StopToken.Life
import SyncLib.StopToken.Word

/-!
# Threads that use one `_stop_state`

Any number of threads construct and destroy stop callbacks and request a stop. Every operation on
`state_`, every section under the lock, and every start and end of a callback is a step. A
callback is arbitrary code: while it runs, its thread may do again whatever a thread may do, and
the methods that wait for it to return are the frames of that thread.
-/

namespace Sync

namespace StopState

open Core

variable {T N : Type*}

/-! ### Memory -/

/-- The local variable `is_removed_` of a `request_stop`: its thread, and the number of methods
under it that wait for a callback. -/
abbrev Local (T : Type*) := T × ℕ

/-- The fields of the `_stop_state`, those of the callbacks, and the local variables
`is_removed_`. -/
structure Memory (T N : Type*) where
  word : Word
  links : Links N
  threadId : Option T
  isRemoved : N → Option (Local T)
  finished : N → Bool
  flags : Local T → Bool

/-- A `stop_callback` object. A live one has a `stop_state_` if it is registered. -/
inductive Obj (T : Type*)
  | raw
  | constructing (t : T)
  | live (registered : Bool)
  | destroying (t : T)
  | dead
  deriving DecidableEq, Repr

/-! ### Places -/

/-- In `try_request_stop_andlock`. -/
inductive RequestPc
  | load
  | cas (past : Word)
  deriving DecidableEq, Repr

/-- In `request_stop`, after the compare-exchange that set the flag. -/
inductive StopPc (N : Type*)
  /-- With the lock, before the condition of the loop; `first` before `thread_id_` is set. -/
  | pop (first : Bool)
  /-- With the lock, `cb` taken off the list, and whether it was the last one. -/
  | unlock (cb : N) (empty : Bool)
  | start (cb : N) (empty : Bool)
  /-- After the return of `cb`. -/
  | mark (cb : N) (empty : Bool)
  | load
  | cas (past : Word)
  /-- With the lock, before the last `unlock`. -/
  | last
  /-- Before `return true` after the last callback. -/
  | done
  deriving DecidableEq, Repr

/-- In `try_push_callback`. -/
inductive PushPc
  | load
  | cas (past : Word)
  | link
  | unlock
  | start
  deriving DecidableEq, Repr

/-- In `erase_callback`. -/
inductive ErasePc
  | load
  | cas (past : Word)
  | unlink
  | unlockDecrement
  | unlock
  | check
  | wait
  | decrement
  deriving DecidableEq, Repr

/-- In a method of `_stop_state`. -/
inductive Pc (N : Type*)
  | request (p : RequestPc)
  | stop (p : StopPc N)
  | push (cb : N) (copy : Bool) (p : PushPc)
  | erase (cb : N) (p : ErasePc)
  deriving DecidableEq, Repr

/-- A method that waits for a callback to return. -/
inductive Frame (N : Type*)
  | stop (cb : N) (empty : Bool)
  | push (cb : N)
  deriving DecidableEq, Repr

/-- A thread is in a method, or in user code; under that are the methods that run callbacks. -/
structure Control (N : Type*) where
  op : Option (Pc N) := none
  frames : List (Frame N) := []
  deriving DecidableEq, Repr

lemma Control.eq_of_op {c : Control N} {op : Option (Pc N)} (h : c.op = op) :
    c = ⟨op, c.frames⟩ := by
  rw [← h]

/-- The operations of the sources and tokens of other threads. -/
inductive RefOp
  | incrementToken
  | decrementToken
  | incrementSource
  | decrementSource
  deriving DecidableEq, Repr

def RefOp.apply : RefOp → Word → Word
  | .incrementToken, w  => incrementTokenRef w
  | .decrementToken, w  => (decrementTokenRef w).1
  | .incrementSource, w => incrementSourceRef w
  | .decrementSource, w => (decrementSourceRef w).1

/-- What user code does next, or the next step of a method; `ok` is false where a weak
compare-exchange fails without a reason. -/
inductive Move (N : Type*)
  | requestStop
  | construct (cb : N) (copy : Bool)
  | destroy (cb : N)
  | leave
  | count (r : RefOp)
  | proceed (ok : Bool)
  deriving DecidableEq, Repr

/-! ### Steps of a thread -/

/-- The memory, the objects, the thread and the event of a step. -/
structure Outcome (T N : Type*) where
  mem : Memory T N
  objs : N → Obj T
  control : Control N
  event : Option (Event T N) := none

/-- The tests of `try_request_stop_andlock` on a word just read; `none` where it gives up. -/
def RequestPc.test (w : Word) : Option RequestPc :=
  if stopRequested w then none else if isLocked w then some .load else some (.cas w)

/-- The test of `lock` on a word just read, in `request_stop`. -/
def StopPc.test (w : Word) : StopPc N := if isLocked w then .load else .cas w

/-- The test of `lock` on a word just read, in `erase_callback`. -/
def ErasePc.test (w : Word) : ErasePc := if isLocked w then .load else .cas w

variable [DecidableEq N] [DecidableEq T]

section

variable (t : T) (mem : Memory T N) (objs : N → Obj T) (frames : List (Frame N))

def requestStep (ok : Bool) : RequestPc → Outcome T N
  | .load => ⟨mem, objs, ⟨(RequestPc.test mem.word).map .request, frames⟩, none⟩
  | .cas past =>
    if ok ∧ mem.word = past then
      ⟨{ mem with word := requestedAndLocked past }, objs, ⟨some (.stop (.pop true)), frames⟩,
        some (.requested t)⟩
    else ⟨mem, objs, ⟨(RequestPc.test mem.word).map .request, frames⟩, none⟩

def stopStep (ok : Bool) : StopPc N → Outcome T N
  | .pop first =>
    let mem := if first then { mem with threadId := some t } else mem
    match mem.links.pop with
    | none => ⟨mem, objs, ⟨some (.stop .last), frames⟩, none⟩
    | some (cb, links) =>
      ⟨{ mem with links }, objs, ⟨some (.stop (.unlock cb links.head.isNone)), frames⟩,
        some (.popped cb links.head)⟩
  | .unlock cb empty =>
    ⟨{ mem with word := unlock mem.word }, objs, ⟨some (.stop (.start cb empty)), frames⟩, none⟩
  | .start cb empty =>
    let removed : Local T := (t, frames.length)
    ⟨{ mem with
        flags := Function.update mem.flags removed false
        isRemoved := Function.update mem.isRemoved cb (some removed) },
      objs, ⟨none, .stop cb empty :: frames⟩, some (.started cb t)⟩
  | .mark cb empty =>
    let op := if empty then .done else .load
    if mem.flags (t, frames.length) then ⟨mem, objs, ⟨some (.stop op), frames⟩, none⟩
    else
      ⟨{ mem with
          isRemoved := Function.update mem.isRemoved cb none
          finished := Function.update mem.finished cb true },
        objs, ⟨some (.stop op), frames⟩, some (.marked cb)⟩
  | .load => ⟨mem, objs, ⟨some (.stop (.test mem.word)), frames⟩, none⟩
  | .cas past =>
    if ok ∧ mem.word = past then
      ⟨{ mem with word := locked past }, objs, ⟨some (.stop (.pop false)), frames⟩, none⟩
    else ⟨mem, objs, ⟨some (.stop (.test mem.word)), frames⟩, none⟩
  | .last =>
    ⟨{ mem with word := unlock mem.word }, objs, ⟨none, frames⟩, some (.stopped t)⟩
  | .done => ⟨mem, objs, ⟨none, frames⟩, some (.stopped t)⟩

def pushStep (ok : Bool) (cb : N) (copy : Bool) : PushPc → Outcome T N
  | .load =>
    let past := mem.word
    if stopRequested past then ⟨mem, objs, ⟨some (.push cb copy .start), frames⟩, none⟩
    else if !stopPossible past then
      ⟨mem, Function.update objs cb (.live false), ⟨none, frames⟩, some (.refused cb)⟩
    else if isLocked past then ⟨mem, objs, ⟨some (.push cb copy .load), frames⟩, none⟩
    else ⟨mem, objs, ⟨some (.push cb copy (.cas past)), frames⟩, none⟩
  | .cas past =>
    if ok ∧ mem.word = past then
      ⟨{ mem with word := locked past }, objs, ⟨some (.push cb copy .link), frames⟩, none⟩
    else ⟨mem, objs, ⟨some (.push cb copy .load), frames⟩, none⟩
  | .link =>
    ⟨{ mem with links := mem.links.push cb }, objs, ⟨some (.push cb copy .unlock), frames⟩,
      some (.linked cb)⟩
  | .unlock =>
    let word := if copy then unlockAndIncrementTokenRef mem.word else unlock mem.word
    ⟨{ mem with word }, Function.update objs cb (.live true), ⟨none, frames⟩,
      some (.registered cb)⟩
  | .start => ⟨mem, objs, ⟨none, .push cb :: frames⟩, some (.entered cb)⟩

def eraseStep (ok : Bool) (cb : N) : ErasePc → Outcome T N
  | .load => ⟨mem, objs, ⟨some (.erase cb (.test mem.word)), frames⟩, none⟩
  | .cas past =>
    if ok ∧ mem.word = past then
      ⟨{ mem with word := locked past }, objs, ⟨some (.erase cb .unlink), frames⟩, none⟩
    else ⟨mem, objs, ⟨some (.erase cb (.test mem.word)), frames⟩, none⟩
  | .unlink =>
    match mem.links.prev cb with
    | some s =>
      ⟨{ mem with links := mem.links.unlink cb s }, objs,
        ⟨some (.erase cb .unlockDecrement), frames⟩, some (.unlinked cb)⟩
    | none => ⟨mem, objs, ⟨some (.erase cb .unlock), frames⟩, none⟩
  | .unlockDecrement =>
    ⟨{ mem with word := (unlockAndDecrementTokenRef mem.word).1 },
      Function.update objs cb .dead, ⟨none, frames⟩, some (.erased cb t)⟩
  | .unlock =>
    ⟨{ mem with word := unlock mem.word }, objs, ⟨some (.erase cb .check), frames⟩, none⟩
  | .check =>
    if mem.threadId = some t then
      match mem.isRemoved cb with
      | some removed =>
        ⟨{ mem with flags := Function.update mem.flags removed true }, objs,
          ⟨some (.erase cb .decrement), frames⟩, some (.removed cb)⟩
      | none => ⟨mem, objs, ⟨some (.erase cb .decrement), frames⟩, none⟩
    else ⟨mem, objs, ⟨some (.erase cb .wait), frames⟩, none⟩
  | .wait =>
    let p := if mem.finished cb then .decrement else .wait
    ⟨mem, objs, ⟨some (.erase cb p), frames⟩, none⟩
  | .decrement =>
    ⟨{ mem with word := (decrementTokenRef mem.word).1 },
      Function.update objs cb .dead, ⟨none, frames⟩, some (.erased cb t)⟩

/-- User code begins a method or returns from a callback. -/
def userStep : Move N → Option (Outcome T N)
  | .requestStop => some ⟨mem, objs, ⟨some (.request .load), frames⟩, none⟩
  | .construct cb copy =>
    match objs cb with
    | .raw => some ⟨mem, Function.update objs cb (.constructing t),
        ⟨some (.push cb copy .load), frames⟩, none⟩
    | _ => none
  | .destroy cb =>
    match objs cb with
    | .live true => some ⟨mem, Function.update objs cb (.destroying t),
        ⟨some (.erase cb .load), frames⟩, none⟩
    | .live false => some ⟨mem, Function.update objs cb .dead, ⟨none, frames⟩, none⟩
    | _ => none
  | .leave =>
    match frames with
    | [] => none
    | .stop cb empty :: frames =>
      some ⟨mem, objs, ⟨some (.stop (.mark cb empty)), frames⟩, some (.finished cb t)⟩
    | .push cb :: frames =>
      some ⟨mem, Function.update objs cb (.live false), ⟨none, frames⟩, some (.left cb)⟩
  | .count r => some ⟨{ mem with word := r.apply mem.word }, objs, ⟨none, frames⟩, none⟩
  | .proceed _ => none

/-- One step of thread `t`. -/
def threadStep (op : Option (Pc N)) (m : Move N) : Option (Outcome T N) :=
  match op, m with
  | none, m => userStep t mem objs frames m
  | some (.request p), .proceed ok => some (requestStep t mem objs frames ok p)
  | some (.stop p), .proceed ok => some (stopStep t mem objs frames ok p)
  | some (.push cb copy p), .proceed ok => some (pushStep mem objs frames ok cb copy p)
  | some (.erase cb p), .proceed ok => some (eraseStep t mem objs frames ok cb p)
  | _, _ => none

end

/-- A step is one of user code or of a method. -/
lemma threadStep_cases {t : T} {mem : Memory T N} {objs : N → Obj T} {frames : List (Frame N)}
    {op : Option (Pc N)} {m : Move N} {o : Outcome T N}
    (h : threadStep t mem objs frames op m = some o) :
    (op = none ∧ userStep t mem objs frames m = some o) ∨ ∃ ok, m = .proceed ok ∧
      ((∃ p, op = some (.request p) ∧ o = requestStep t mem objs frames ok p) ∨
        (∃ p, op = some (.stop p) ∧ o = stopStep t mem objs frames ok p) ∨
        (∃ n copy p, op = some (.push n copy p) ∧ o = pushStep mem objs frames ok n copy p) ∨
        ∃ n p, op = some (.erase n p) ∧ o = eraseStep t mem objs frames ok n p) := by
  cases op with
  | none => exact .inl ⟨rfl, h⟩
  | some pc =>
    right
    cases m with
    | proceed ok =>
      refine ⟨ok, rfl, ?_⟩
      cases pc with
      | request p => exact .inl ⟨p, rfl, (Option.some.inj h).symm⟩
      | stop p => exact .inr (.inl ⟨p, rfl, (Option.some.inj h).symm⟩)
      | push n copy p => exact .inr (.inr (.inl ⟨n, copy, p, rfl, (Option.some.inj h).symm⟩))
      | erase n p => exact .inr (.inr (.inr ⟨n, p, rfl, (Option.some.inj h).symm⟩))
    | _ => cases pc <;> cases h

/-! ### The machine -/

/-- The memory, the callback objects, the threads, and the events so far, the newest first. -/
structure State (T N : Type*) where
  mem : Memory T N
  objs : N → Obj T
  control : T → Control N
  log : List (Event T N)

/-- The state after a step of thread `t`. -/
def State.after (s : State T N) (t : T) (o : Outcome T N) : State T N :=
  ⟨o.mem, o.objs, Function.update s.control t o.control, o.event.toList ++ s.log⟩

def machine : Machine (State T N) (T × Move N) where
  step s a :=
    (threadStep a.1 s.mem s.objs (s.control a.1).frames (s.control a.1).op a.2).map (s.after a.1)

/-- A new `_stop_state` with its first source, all threads in user code. -/
def State.start : State T N where
  mem := ⟨initial, .empty, none, fun _ => none, fun _ => false, fun _ => false⟩
  objs := fun _ => .raw
  control := fun _ => {}
  log := []

end StopState

end Sync
