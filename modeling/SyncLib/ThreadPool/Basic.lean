import Mathlib.Data.List.FinRange
import Mathlib.Data.Fintype.Basic
import SyncLib.Core.Tally
import SyncLib.Core.Machine
import SyncLib.Queue.SimpleBlocking

/-!
# The thread pools

A pool is a family of queues, with worker threads that take work objects out of them and threads
that post work objects into them. `Design` is what the two classes differ in: the queues that a post
tries before it falls back to a `push`, and the queues that a worker tries before it blocks in
`pop`. The operations of a queue are those of `simple_blocking_queue`, one step each, and a `pop`
waits until its predicate holds.
-/

namespace Sync

open Core

namespace ThreadPool

open Queue.SimpleBlocking (Contents)

/-! ### What moves -/

/-- A callable that was posted, with the number of its post, so that no two of them are equal. -/
structure Work (α : Type*) where
  number : ℕ
  proc : α
  deriving DecidableEq, Repr

/-- Where a thread is in `post_work` or `post_task`: outside, or with a work object that it offers
to the queues in `rest` by `try_push` and gives to `last` by `push` when all of them fail. -/
inductive Poster (κ α : Type*)
  | idle
  | posting (work : Work α) (rest : List κ) (last : κ)

/-- Where a worker is in its loop: on its way through the queues in `rest`, in `pop` where none is
left, in a work object, or out of the loop. -/
inductive Worker (κ α : Type*)
  | taking (rest : List κ)
  | running (work : Work α)
  | exited

/-- Where the destructor is: not called, in the `join` of a worker, or over. -/
inductive Owner
  | alive
  | joining (i : ℕ)
  | destroyed
  deriving DecidableEq, Repr

/-- The queues `κ` of a pool with `n` workers. A post draws the queues it tries from the counter
`ξ`. -/
structure Design (n : ℕ) (κ ξ : Type*) where
  counter : ξ
  draw : ξ → ξ × List κ × κ
  scan : Fin n → List κ
  home : Fin n → κ

/-- The members of a pool and its threads, with the work objects that were posted, those that were
placed, in which queue, and those that were executed. -/
structure State (P : Type*) (n : ℕ) (κ ξ α : Type*) where
  queues : κ → Contents (Work α)
  counter : ξ
  poster : P → Poster κ α
  worker : Fin n → Worker κ α
  owner : Owner
  posted : List (Work α)
  placed : List (κ × Work α)
  executed : List (Work α)

/-- A call of `post_work` or `post_task`, the next attempt of a poster or of a worker, where `free`
is whether the queue's mutex was free, the execution of a work object, the call of the destructor,
and a `join` that returns. -/
inductive Act (P : Type*) (n : ℕ) (α : Type*)
  | post (p : P) (proc : α)
  | push (p : P) (free : Bool)
  | pop (i : Fin n) (free : Bool)
  | run (i : Fin n)
  | destroy
  | join

variable {P κ ξ α : Type*} {n : ℕ} [DecidableEq P] [DecidableEq κ]

namespace State

/-- A work object goes into a queue, and its post returns. -/
def place (s : State P n κ ξ α) (p : P) (k : κ) (w : Work α) : State P n κ ξ α :=
  { s with
    queues := Function.update s.queues k ((s.queues k).emplace w)
    poster := Function.update s.poster p .idle
    placed := s.placed ++ [(k, w)] }

/-- A worker looks into a queue; `next` is where it goes when it finds nothing. -/
def take (s : State P n κ ξ α) (i : Fin n) (k : κ) (next : Worker κ α) : State P n κ ξ α :=
  match (s.queues k).take with
  | (some w, q) =>
    { s with
      queues := Function.update s.queues k q
      worker := Function.update s.worker i (.running w) }
  | (none, _)   => { s with worker := Function.update s.worker i next }

end State

namespace Design

variable (D : Design n κ ξ)

/-- The constructor: all workers begin their loops. -/
def start : State P n κ ξ α where
  queues _ := .empty
  counter := D.counter
  poster _ := .idle
  worker i := .taking (D.scan i)
  owner := .alive
  posted := []
  placed := []
  executed := []

/-- One step of a poster, of a worker, or of the destructor. -/
def step (s : State P n κ ξ α) : Act P n α → Option (State P n κ ξ α)
  | .post p proc =>
    match s.poster p with
    | .idle =>
      let work : Work α := ⟨s.posted.length, proc⟩
      let r := D.draw s.counter
      some { s with
        counter := r.1
        poster := Function.update s.poster p (.posting work r.2.1 r.2.2)
        posted := s.posted ++ [work] }
    | .posting _ _ _ => none
  | .push p free =>
    match s.poster p with
    | .idle                        => none
    | .posting work [] last        => some (s.place p last work)
    | .posting work (k :: rest) last =>
      if free then some (s.place p k work)
      else some { s with poster := Function.update s.poster p (.posting work rest last) }
  | .pop i free =>
    match s.worker i with
    | .taking []          =>
      if (s.queues (D.home i)).ready then some (s.take i (D.home i) .exited) else none
    | .taking (k :: rest) =>
      if free then some (s.take i k (.taking rest))
      else some { s with worker := Function.update s.worker i (.taking rest) }
    | _                   => none
  | .run i =>
    match s.worker i with
    | .running work =>
      some { s with
        worker := Function.update s.worker i (.taking (D.scan i))
        executed := s.executed ++ [work] }
    | _             => none
  | .destroy =>
    match s.owner with
    | .alive => some { s with owner := .joining 0 }
    | _      => none
  | .join =>
    match s.owner with
    | .joining i =>
      if h : i < n then
        match s.worker ⟨i, h⟩ with
        | .exited => some { s with owner := .joining (i + 1) }
        | _       => none
      else some { s with owner := .destroyed }
    | _          => none

/-- All threads around one pool. -/
def machine : Machine (State P n κ ξ α) (Act P n α) := ⟨D.step⟩

end Design

/-! ### The steps -/

/-- The steps of the threads, one constructor for each branch. -/
inductive Step (D : Design n κ ξ) (s : State P n κ ξ α) : Act P n α → State P n κ ξ α → Prop
  | post {p : P} {proc : α} (hp : s.poster p = .idle) :
      Step D s (.post p proc) { s with
        counter := (D.draw s.counter).1
        poster := Function.update s.poster p
          (.posting ⟨s.posted.length, proc⟩ (D.draw s.counter).2.1 (D.draw s.counter).2.2)
        posted := s.posted ++ [⟨s.posted.length, proc⟩] }
  | place {p : P} {free : Bool} {work : Work α} {rest : List κ} {last : κ} (k : κ)
      (hp : s.poster p = .posting work rest last) : Step D s (.push p free) (s.place p k work)
  | refuse {p : P} {free : Bool} {work : Work α} {rest : List κ} {k last : κ}
      (hp : s.poster p = .posting work (k :: rest) last) :
      Step D s (.push p free)
        { s with poster := Function.update s.poster p (.posting work rest last) }
  | take {i : Fin n} {free : Bool} {rest : List κ} {work : Work α} {q : List (Work α)} (k : κ)
      (hw : s.worker i = .taking rest) (hq : (s.queues k).queue = work :: q) :
      Step D s (.pop i free) { s with
        queues := Function.update s.queues k { s.queues k with queue := q }
        worker := Function.update s.worker i (.running work) }
  | skip {i : Fin n} {free : Bool} {k : κ} {rest : List κ}
      (hw : s.worker i = .taking (k :: rest)) :
      Step D s (.pop i free) { s with worker := Function.update s.worker i (.taking rest) }
  | leave {i : Fin n} {free : Bool} (hw : s.worker i = .taking [])
      (hone : (s.queues (D.home i)).one = true) :
      Step D s (.pop i free) { s with worker := Function.update s.worker i .exited }
  | run {i : Fin n} {work : Work α} (hw : s.worker i = .running work) :
      Step D s (.run i) { s with
        worker := Function.update s.worker i (.taking (D.scan i))
        executed := s.executed ++ [work] }
  | destroy (ho : s.owner = .alive) : Step D s .destroy { s with owner := .joining 0 }
  | join {i : ℕ} (ho : s.owner = .joining i) (hi : i < n) (hw : s.worker ⟨i, hi⟩ = .exited) :
      Step D s .join { s with owner := .joining (i + 1) }
  | destroyed {i : ℕ} (ho : s.owner = .joining i) (hi : ¬ i < n) :
      Step D s .join { s with owner := .destroyed }

variable {D : Design n κ ξ} {s s' : State P n κ ξ α}

lemma step_take {i : Fin n} {free : Bool} {k : κ} {rest : List κ} {next : Worker κ α}
    (hw : s.worker i = .taking rest)
    (hnext : Step D s (.pop i free) { s with worker := Function.update s.worker i next } ∨
      (s.queues k).queue ≠ []) : Step D s (.pop i free) (s.take i k next) := by
  unfold State.take Contents.take
  cases hq : (s.queues k).queue with
  | nil => exact hnext.resolve_right fun h => h hq
  | cons work q => exact .take k hw hq

/-- Every step of a pool is one of these. -/
theorem step_of_machine {a : Act P n α} (hs : D.machine.step s a = some s') : Step D s a s' := by
  change D.step s a = some s' at hs
  unfold Design.step at hs
  cases a with
  | post p proc =>
    dsimp only at hs
    split at hs
    · rename_i hp
      cases hs
      exact .post hp
    · cases hs
  | push p free =>
    dsimp only at hs
    split at hs
    · cases hs
    · rename_i hp
      cases hs
      exact .place _ hp
    · rename_i hp
      split_ifs at hs
      · cases hs
        exact .place _ hp
      · cases hs
        exact .refuse hp
  | pop i free =>
    dsimp only at hs
    split at hs
    · rename_i hw
      split_ifs at hs with hready
      cases hs
      refine step_take hw ?_
      cases hq : (s.queues (D.home i)).queue with
      | nil =>
        left
        exact .leave hw (by simpa [Contents.ready, hq] using hready)
      | cons work q => exact .inr (by simp)
    · rename_i hw
      split_ifs at hs
      · cases hs
        exact step_take hw (.inl (.skip hw))
      · cases hs
        exact .skip hw
    · cases hs
  | run i =>
    dsimp only at hs
    split at hs
    · rename_i hw
      cases hs
      exact .run hw
    · cases hs
  | destroy =>
    dsimp only at hs
    split at hs
    · rename_i ho
      cases hs
      exact .destroy ho
    · cases hs
  | join =>
    dsimp only at hs
    split at hs
    · rename_i ho
      split_ifs at hs with hi
      · split at hs
        · rename_i hw
          cases hs
          exact .join ho hi hw
        · cases hs
      · cases hs
        exact .destroyed ho hi
    · cases hs

/-! ### The two classes -/

/-- `simple_thread_pool`: one queue, in which everybody blocks. -/
def simple (n : ℕ) : Design n Unit Unit where
  counter := ()
  draw _ := ((), [], ())
  scan _ := []
  home _ := ()

/-- `LOOP_K`. -/
def loopK : UInt32 := 2

section

variable (count : UInt32) (hc : 0 < count)

include hc in
lemma slot_lt (x : UInt32) : (x % count).toNat < count.toNat := by
  rw [UInt32.toNat_mod]
  exact Nat.mod_lt _ (UInt32.lt_iff_toNat_lt.mp hc)

/-- `queues_[x % count_]`. -/
def slot (x : UInt32) : Fin count.toNat := ⟨(x % count).toNat, slot_lt count hc x⟩

/-- The queues that a loop over `n < bound` visits when it starts at `i`. -/
def slots (i bound : UInt32) : List (Fin count.toNat) :=
  (List.range bound.toNat).map fun n => slot count hc (i + .ofNat n)

/-- `work_stealing_thread_pool`: a queue for each worker. A worker tries all queues, its own one
first, and a post tries them `LOOP_K` times over, each post from the next queue on. -/
def workStealing : Design count.toNat (Fin count.toNat) UInt32 where
  counter := 0
  draw i := (i + 1, slots count hc i (count * loopK), slot count hc i)
  scan i := slots count hc (.ofNat i) count
  home i := i

end

end ThreadPool

end Sync
