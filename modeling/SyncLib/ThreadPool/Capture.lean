import SyncLib.ThreadPool.Conservation

/-!
# What a posted callable is run on

`post_work` puts references to the arguments into the work object, `post_task` of the work-stealing
pool copies of their values. The variables of the callers are locations in a store, and anybody may
write to them at any time: a work object with references is run on what is there when a worker gets
to it.
-/

namespace Sync

open Core

namespace ThreadPool

/-! ### Closures -/

/-- How a posting function packs the arguments: with `std::forward_as_tuple` or `std::bind`. -/
inductive Packing
  | forwardAsTuple
  | bind
  deriving DecidableEq, Repr

inductive PostFunction
  | postWork
  | postTask
  deriving DecidableEq, Repr

/-- The functions of `simple_thread_pool`. -/
def simplePacking : PostFunction → Packing
  | .postWork => .forwardAsTuple
  | .postTask => .forwardAsTuple

/-- The functions of `work_stealing_thread_pool`. -/
def workStealingPacking : PostFunction → Packing
  | .postWork => .forwardAsTuple
  | .postTask => .bind

/-- The arguments in a work object. -/
inductive Captured (L V : Type*)
  | references (args : List L)
  | copies (values : List V)
  deriving DecidableEq, Repr

/-- The callable in a work object, with its arguments. -/
structure Closure (F L V : Type*) where
  f : F
  args : Captured L V
  deriving DecidableEq, Repr

/-- A call of a posting function, with a callable and lvalues. -/
structure Request (F L : Type*) where
  function : PostFunction
  f : F
  args : List L
  deriving DecidableEq, Repr

/-- A call of a posted callable by a worker, with the number of its post. -/
structure Call (F V : Type*) where
  number : ℕ
  f : F
  values : List V
  deriving DecidableEq, Repr

section

variable {F L V : Type*}

def Packing.capture (store : L → V) (args : List L) : Packing → Captured L V
  | .forwardAsTuple => .references args
  | .bind           => .copies (args.map store)

/-- What the callable is run on. -/
def Captured.values (store : L → V) : Captured L V → List V
  | .references args => args.map store
  | .copies values   => values

/-- The work object of a post. -/
def Request.close (pack : PostFunction → Packing) (store : L → V) (r : Request F L) :
    Closure F L V :=
  ⟨r.f, (pack r.function).capture store r.args⟩

/-- A work object with references is run on the values of now, one with copies on those of its
post. -/
lemma values_close {pack : PostFunction → Packing} {store store' : L → V} {r : Request F L} :
    (r.close pack store).args.values store' = r.args.map store ↔
      pack r.function = .bind ∨ ∀ l ∈ r.args, store' l = store l := by
  cases hpack : pack r.function <;>
    simp [Request.close, Packing.capture, Captured.values, hpack]

end

/-! ### The pool and the variables -/

/-- A pool, the values of the variables, and the calls that the workers have made. -/
structure Scene (P : Type*) (n : ℕ) (κ ξ F L V : Type*) where
  pool : State P n κ ξ (Closure F L V)
  store : L → V
  calls : List (Call F V)

/-- A step of the pool, or a write to a variable. -/
inductive Event (P : Type*) (n : ℕ) (F L V : Type*)
  | pool (a : Act P n (Request F L))
  | write (l : L) (v : V)

/-- An action that posts what `f` makes of the callable. -/
def Act.map {P : Type*} {n : ℕ} {α β : Type*} (f : α → β) : Act P n α → Act P n β
  | .post p proc => .post p (f proc)
  | .push p free => .push p free
  | .pop i free  => .pop i free
  | .run i       => .run i
  | .destroy     => .destroy
  | .join        => .join

section

variable {P κ ξ F L V : Type*} {n : ℕ}

/-- The call that a worker makes in this step. -/
def Scene.calling (s : Scene P n κ ξ F L V) {α : Type*} : Act P n α → List (Call F V)
  | .run i =>
    match s.pool.worker i with
    | .running work => [⟨work.number, work.proc.f, work.proc.args.values s.store⟩]
    | _             => []
  | _      => []

variable [DecidableEq P] [DecidableEq κ]

lemma posted_of_step {D : Design n κ ξ} {a : Act P n (Closure F L V)}
    {s s' : State P n κ ξ (Closure F L V)} (hs : Step D s a s') : s.posted <+: s'.posted := by
  cases hs with
  | post hp => exact List.prefix_append _ _
  | _ => exact List.prefix_refl _

variable [DecidableEq L]

namespace Scene

/-- One step of the pool or of a writer. -/
def step (D : Design n κ ξ) (pack : PostFunction → Packing) (s : Scene P n κ ξ F L V) :
    Event P n F L V → Option (Scene P n κ ξ F L V)
  | .write l v => some { s with store := Function.update s.store l v }
  | .pool a    =>
    (D.step s.pool (a.map (Request.close pack s.store))).map fun pool =>
      { s with pool := pool, calls := s.calls ++ s.calling a }

/-- A pool in which the posting functions pack the arguments as `pack` says. -/
def machine (D : Design n κ ξ) (pack : PostFunction → Packing) :
    Machine (Scene P n κ ξ F L V) (Event P n F L V) :=
  ⟨step D pack⟩

def start (D : Design n κ ξ) (store : L → V) : Scene P n κ ξ F L V := ⟨D.start, store, []⟩

variable {D : Design n κ ξ} {pack : PostFunction → Packing} {s s' : Scene P n κ ξ F L V}
  {e : Event P n F L V} {es : List (Event P n F L V)} {store : L → V}

lemma step_pool {a : Act P n (Request F L)} (hs : (machine D pack).step s (.pool a) = some s') :
    D.machine.step s.pool (a.map (Request.close pack s.store)) = some s'.pool ∧
      s'.store = s.store ∧ s'.calls = s.calls ++ s.calling a := by
  obtain ⟨pool, hpool, rfl⟩ := Option.map_eq_some_iff.mp hs
  exact ⟨hpool, rfl, rfl⟩

/-- The variables do not matter to the pool. -/
lemma reachable_pool (h : (machine D pack).Reachable (start D store) s) :
    D.machine.Reachable D.start s.pool := by
  induction h with
  | refl => exact .refl
  | @tail s₁ s₂ e _ _ hs ih =>
    cases e with
    | pool a => exact ih.tail trivial (step_pool hs).1
    | write l v =>
      cases hs
      exact ih

/-! ### What a run keeps -/

/-- The last value that the events write to a variable. -/
def lastWrite (l : L) : List (Event P n F L V) → Option V
  | []                   => none
  | .pool _ :: es        => lastWrite l es
  | .write l' v :: es => (lastWrite l es).or (if l' = l then some v else none)

/-- A variable has the last value that was written to it. -/
theorem store_run (h : (machine D pack).run s es = some s') (l : L) :
    s'.store l = (lastWrite l es).getD (s.store l) := by
  induction es generalizing s with
  | nil =>
    cases h
    rfl
  | cons e es ih =>
    rw [Machine.run_cons, Option.bind_eq_some_iff] at h
    obtain ⟨s₁, hs, h⟩ := h
    rw [ih h]
    cases e with
    | pool a => rw [(step_pool hs).2.1, lastWrite]
    | write l' v =>
      cases hs
      by_cases hl : l' = l
      · subst hl
        cases hlast : lastWrite l' es <;> simp [lastWrite, hlast]
      · cases hlast : lastWrite l es <;> simp [lastWrite, hlast, hl, Ne.symm hl]

/-- What was posted stays posted. -/
lemma posted_run (h : (machine D pack).run s es = some s') : s.pool.posted <+: s'.pool.posted := by
  induction es generalizing s with
  | nil =>
    cases h
    exact List.prefix_refl _
  | cons e es ih =>
    rw [Machine.run_cons, Option.bind_eq_some_iff] at h
    obtain ⟨s₁, hs, h⟩ := h
    refine List.IsPrefix.trans ?_ (ih h)
    cases e with
    | pool a => exact posted_of_step (step_of_machine (step_pool hs).1)
    | write l v =>
      cases hs
      exact List.prefix_refl _

/-- A post puts its work object at the end of the list. -/
lemma posted_post {p : P} {r : Request F L}
    (hs : (machine D pack).step s (.pool (.post p r)) = some s') :
    s'.pool.posted = s.pool.posted ++ [⟨s.pool.posted.length, r.close pack s.store⟩] := by
  have hstep := step_of_machine (step_pool hs).1
  generalize hpool : s'.pool = t at hstep
  cases hstep with
  | post hp => rfl

end Scene

/-! ### Executions -/

/-- A run in which a worker is about to execute the work object of a post, and its next step. -/
structure Execution (P : Type*) (D : Design n κ ξ) (pack : PostFunction → Packing)
    (store : L → V) (F : Type*) [DecidableEq P] where
  before : List (Event P n F L V)
  p : P
  request : Request F L
  between : List (Event P n F L V)
  i : Fin n
  work : Work (Closure F L V)
  posting : Scene P n κ ξ F L V
  running : Scene P n κ ξ F L V
  after : Scene P n κ ξ F L V
  before_run : (Scene.machine D pack).run (.start D store) before = some posting
  between_run : (Scene.machine D pack).run posting (.pool (.post p request) :: between)
    = some running
  worker_eq : running.pool.worker i = .running work
  number_eq : work.number = posting.pool.posted.length
  step_eq : (Scene.machine D pack).step running (.pool (.run i)) = some after

namespace Execution

variable {D : Design n κ ξ} {pack : PostFunction → Packing} {store : L → V}
  (x : Execution P D pack store F)

/-- The values of the arguments when they were posted. -/
def postedValues : List V := x.request.args.map x.posting.store

/-- The callable is run, and on the values of its arguments when they were posted. -/
def RunsAsPosted : Prop :=
  x.after.calls = x.running.calls ++ [⟨x.work.number, x.request.f, x.postedValues⟩]

/-- An argument that was written to before the callable is run has got the value back that it was
posted with. -/
def Restored : Prop :=
  ∀ l ∈ x.request.args, ∀ v, Scene.lastWrite l x.between = some v → v = x.posting.store l

/-- The worker runs the callable on what its work object holds. -/
lemma calls_eq : x.after.calls = x.running.calls ++
    [⟨x.work.number, x.work.proc.f, x.work.proc.args.values x.running.store⟩] := by
  rw [(Scene.step_pool x.step_eq).2.2, Scene.calling, x.worker_eq]

/-- A variable at the time of the call. -/
lemma store_eq (l : L) :
    x.running.store l = (Scene.lastWrite l x.between).getD (x.posting.store l) :=
  Scene.store_run x.between_run l

lemma restored_iff :
    x.Restored ↔ ∀ l ∈ x.request.args, x.running.store l = x.posting.store l := by
  refine forall₂_congr fun l _ => ?_
  rw [x.store_eq l]
  cases Scene.lastWrite l x.between <;> simp

variable [Fintype P] [Fintype κ]

/-- A worker gets what was posted. -/
lemma proc_eq : x.work.proc = x.request.close pack x.posting.store := by
  classical
  obtain ⟨s₁, hpost, hbetween⟩ := Option.bind_eq_some_iff.mp x.between_run
  have hreachable :=
    Machine.reachable_of_run (Machine.reachable_of_run .refl x.before_run) x.between_run
  have hconserved := Conserved.of_runs (Scene.reachable_pool hreachable)
  have hposted : (⟨x.posting.pool.posted.length, x.request.close pack x.posting.store⟩ :
      Work (Closure F L V)) ∈ x.running.pool.posted := by
    apply (Scene.posted_run hbetween).subset
    rw [Scene.posted_post hpost]
    exact List.mem_append_right _ (List.mem_singleton_self _)
  have hnodup : (x.running.pool.posted.map Work.number).Nodup := by
    rw [hconserved.numbers]
    exact List.nodup_range
  have hwork := List.inj_on_of_nodup_map hnodup (hconserved.mem_posted x.worker_eq) hposted
    x.number_eq
  rw [hwork]

/-- Any pool, callable, arguments, schedule and writes: the callable is run on the values that were
posted exactly when these were copied, or are the values of the arguments again. -/
theorem runsAsPosted_iff :
    x.RunsAsPosted ↔ pack x.request.function = .bind ∨ x.Restored := by
  rw [RunsAsPosted, x.calls_eq, List.append_right_inj, x.proc_eq, x.restored_iff]
  simp only [List.cons.injEq, Call.mk.injEq, and_true, true_and]
  exact (and_iff_right rfl).trans values_close

end Execution

/-- For every callable, arguments, schedule and writes: `post_work` of both pools has the callable
run on the values that were posted exactly when what was written to the arguments was undone, and
`post_task` of the work-stealing pool always. -/
theorem post_runsAsPosted [Fintype P] (store : L → V) :
    (∀ (count : UInt32) (hc : 0 < count)
      (x : Execution P (workStealing count hc) workStealingPacking store F),
        x.request.function = .postWork → (x.RunsAsPosted ↔ x.Restored)) ∧
    (∀ (n : ℕ) (x : Execution P (simple n) simplePacking store F),
        x.request.function = .postWork → (x.RunsAsPosted ↔ x.Restored)) ∧
    ∀ (count : UInt32) (hc : 0 < count)
      (x : Execution P (workStealing count hc) workStealingPacking store F),
        x.request.function = .postTask → x.RunsAsPosted := by
  refine ⟨fun _ _ x hx => ?_, fun _ x hx => ?_, fun _ _ x hx => ?_⟩
  · rw [x.runsAsPosted_iff, hx]
    simp [workStealingPacking]
  · rw [x.runsAsPosted_iff, hx]
    simp [simplePacking]
  · rw [x.runsAsPosted_iff, hx]
    exact .inl rfl

/-- One variable, which is `0` when it is posted and `7` when the callable is run. -/
def overwritten (fn : PostFunction) : Execution (Fin 1)
    (workStealing 1 (by decide)) workStealingPacking (fun _ : Unit => 0) Unit where
  before := []
  p := 0
  request := ⟨fn, (), [()]⟩
  between := [.pool (.push 0 true), .write () 7, .pool (.pop ⟨0, by decide⟩ true)]
  i := ⟨0, by decide⟩
  work := ⟨0, Request.close workStealingPacking (fun _ => 0) ⟨fn, (), [()]⟩⟩
  posting := .start _ _
  running := _
  after := _
  before_run := rfl
  between_run := rfl
  worker_eq := rfl
  number_eq := rfl
  step_eq := rfl

theorem post_runsAsPosted_one : (overwritten .postTask).RunsAsPosted ∧
    ((overwritten .postWork).RunsAsPosted ↔ (overwritten .postWork).Restored) :=
  ⟨(post_runsAsPosted fun _ => 0).2.2 1 (by decide) _ rfl,
    (post_runsAsPosted fun _ => 0).1 1 (by decide) _ rfl⟩

/-- The callable is run on `7`. -/
theorem overwritten_not_runsAsPosted : ¬ (overwritten .postWork).RunsAsPosted := by
  change ([⟨0, (), [7]⟩] : List (Call Unit ℕ)) ≠ [⟨0, (), [0]⟩]
  decide

end

end ThreadPool

end Sync
