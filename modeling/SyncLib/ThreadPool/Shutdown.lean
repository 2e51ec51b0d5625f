import SyncLib.ThreadPool.Conservation

/-!
# The destructors

A worker leaves its loop when `pop` returns nothing, which it does only after `done`. The
destructors join the workers without calling `done` on any queue, so a pool that is idle never gets
out of its destructor (`never_shutdownSafe`), whatever was posted to it before.
-/

namespace Sync

open Core

namespace ThreadPool

open Queue.SimpleBlocking (Contents)

variable {P κ ξ α : Type*} {n : ℕ}

/-! ### What a destructor should do -/

/-- The pool is destroyed when no post is under way, and nobody posts to it afterwards. -/
def InLifetime (s : State P n κ ξ α) : Act P n α → Prop
  | .post _ _ => s.owner = .alive
  | .destroy  => ∀ p, s.poster p = .idle
  | _         => True

section

variable [DecidableEq P] [DecidableEq κ] (D : Design n κ ξ)

/-- The destructor joins a worker that is in `pop` at an empty queue without the flag, and no thread
can take a step any more. -/
def Deadlocked (s : State P n κ ξ α) : Prop :=
  (∃ i : Fin n, s.owner = .joining i ∧ s.worker i = .taking [] ∧
    s.queues (D.home i) = .empty) ∧ ∀ a, InLifetime s a → D.machine.step s a = none

/-- When everything posted was executed the destructor is not in a deadlock. -/
def ShutdownSafe (P : Type*) [DecidableEq P] (procs : List α) : Prop :=
  ∀ s : State P n κ ξ α, D.machine.Runs InLifetime D.start s → s.posted.map Work.proc = procs →
    (∀ work ∈ s.posted, work ∈ s.executed) → ¬ Deadlocked D s

end

/-! ### Idle pools -/

/-- All posts have returned, all queues are empty, and all workers are in `pop`. -/
structure Quiet (s : State P n κ ξ α) : Prop where
  poster : ∀ p, s.poster p = .idle
  worker : ∀ i, s.worker i = .taking []
  queues : ∀ k, s.queues k = .empty

variable {D : Design n κ ξ} {s s' : State P n κ ξ α}

/-- No flag is set, no worker has left, and the destructor has not got past the first one. -/
structure Undone (s : State P n κ ξ α) : Prop where
  one : ∀ k, (s.queues k).one = false
  worker : ∀ i, s.worker i ≠ .exited
  owner : s.owner = .alive ∨ s.owner = .joining 0

lemma Undone.start : Undone (D.start : State P n κ ξ α) := by
  refine ⟨fun _ => rfl, fun i => ?_, .inl rfl⟩
  simp [Design.start]

section

variable [DecidableEq P] [DecidableEq κ]

theorem Undone.step {a : Act P n α} (h : Undone s) (hn : 0 < n) (hs : Step D s a s') :
    Undone s' := by
  obtain ⟨hone, hworker, howner⟩ := h
  have hupdate : ∀ {i : Fin n} {x : Worker κ α}, x ≠ .exited →
      ∀ j, Function.update s.worker i x j ≠ .exited := by
    intro i x hx j
    by_cases hj : j = i
    · subst hj
      rwa [Function.update_self]
    · rw [Function.update_of_ne hj]
      exact hworker j
  cases hs with
  | post hp => exact ⟨hone, hworker, howner⟩
  | @place p free work rest last k hp =>
    refine ⟨fun j => ?_, hworker, howner⟩
    show (Function.update s.queues k ((s.queues k).emplace work) j).one = false
    by_cases hj : j = k
    · subst hj
      rw [Function.update_self]
      exact hone j
    · rw [Function.update_of_ne hj]
      exact hone j
  | refuse hp => exact ⟨hone, hworker, howner⟩
  | @take i free rest work q k hw hq =>
    refine ⟨fun j => ?_, hupdate (by simp), howner⟩
    by_cases hj : j = k
    · subst hj
      simp only [Function.update_self]
      exact hone j
    · simp only [Function.update_of_ne hj]
      exact hone j
  | skip hw => exact ⟨hone, hupdate (by simp), howner⟩
  | leave hw h₁ => simp [hone] at h₁
  | run hw => exact ⟨hone, hupdate (by simp), howner⟩
  | destroy ho => exact ⟨hone, hworker, .inr rfl⟩
  | join ho hi hw => exact absurd hw (hworker _)
  | @destroyed i ho hi =>
    rcases howner with h | h
    · rw [h] at ho
      cases ho
    · rw [h] at ho
      cases ho
      exact absurd hn hi

lemma undone_of_runs {ok : State P n κ ξ α → Act P n α → Prop} (hn : 0 < n)
    (h : D.machine.Runs ok D.start s) : Undone s :=
  h.invariant Undone.start fun _ _ _ hu _ hs => hu.step hn (step_of_machine hs)

/-- An idle pool in its destructor is in a deadlock. -/
theorem Quiet.deadlocked (h : Quiet s) (hn : 0 < n) (ho : s.owner = .joining 0) :
    Deadlocked D s := by
  refine ⟨⟨⟨0, hn⟩, ho, h.worker _, h.queues _⟩, fun a ha => ?_⟩
  rw [Option.eq_none_iff_forall_ne_some]
  intro s' hs
  cases step_of_machine hs with
  | post hp =>
    rw [show s.owner = .alive from ha] at ho
    cases ho
  | place k hp => simp [h.poster] at hp
  | refuse hp => simp [h.poster] at hp
  | take k hw hq => simp [h.queues, Contents.empty] at hq
  | skip hw => simp [h.worker] at hw
  | leave hw hone => simp [h.queues, Contents.empty] at hone
  | run hw => simp [h.worker] at hw
  | destroy ho' =>
    rw [ho'] at ho
    cases ho
  | join ho' hi hw => simp [h.worker] at hw
  | destroyed ho' hi =>
    rw [ho'] at ho
    cases ho
    exact hi hn

end

/-! ### Every pool comes to rest -/

/-- What a queue, a poster and a worker have still to do before the pool is idle, when no worker
tries more than `m` queues before it blocks. -/
def queueWork (m : ℕ) (q : Contents (Work α)) : ℕ := (m + 2) * q.queue.length

def Poster.work (m : ℕ) : Poster κ α → ℕ
  | .idle          => 0
  | .posting _ _ _ => m + 3

def Worker.work (m : ℕ) : Worker κ α → ℕ
  | .taking rest => rest.length
  | .running _   => m + 1
  | .exited      => 0

section

variable [Fintype P] [Fintype κ]

def work (m : ℕ) (s : State P n κ ξ α) : ℕ :=
  tally (queueWork m) s.queues + tally (Poster.work m) s.poster + tally (Worker.work m) s.worker

variable [DecidableEq P] [DecidableEq κ] {m : ℕ}

/-- A step that brings the pool closer to rest, without a new post or a step of the destructor. -/
def Calms (D : Design n κ ξ) (m : ℕ) (s s' : State P n κ ξ α) : Prop :=
  (∃ a, InLifetime s a ∧ D.machine.step s a = some s') ∧ s'.posted = s.posted ∧
    s'.owner = s.owner ∧ work m s' < work m s

lemma calms_place {p : P} (hp : s.poster p ≠ .idle) : ∃ s', Calms D m s s' := by
  cases hpost : s.poster p with
  | idle => exact absurd hpost hp
  | posting w rest last =>
    have hstep : ∃ k, D.machine.step s (.push p true) = some (s.place p k w) := by
      cases rest with
      | nil => exact ⟨last, by simp [Design.machine, Design.step, hpost]⟩
      | cons k rest => exact ⟨k, by simp [Design.machine, Design.step, hpost]⟩
    obtain ⟨k, hk⟩ := hstep
    refine ⟨s.place p k w, ⟨.push p true, trivial, hk⟩, rfl, rfl, ?_⟩
    have hposter := tally_update (Poster.work m) s.poster p .idle
    have hqueue := tally_update (queueWork m) s.queues k ((s.queues k).emplace w)
    simp only [hpost, Poster.work] at hposter
    simp only [queueWork, Contents.emplace, List.length_append, List.length_singleton,
      Nat.mul_add, Nat.mul_one] at hqueue
    simp only [work, State.place, Contents.emplace]
    omega

lemma calms_run {i : Fin n} {w : Work α} (hw : s.worker i = .running w)
    (hm : (D.scan i).length ≤ m) : ∃ s', Calms D m s s' := by
  have hstep : D.machine.step s (.run i) = some { s with
      worker := Function.update s.worker i (.taking (D.scan i))
      executed := s.executed ++ [w] } := by
    simp [Design.machine, Design.step, hw]
  refine ⟨_, ⟨.run i, trivial, hstep⟩, rfl, rfl, ?_⟩
  have hworker := tally_update (Worker.work m) s.worker i (.taking (D.scan i))
  simp only [hw, Worker.work] at hworker
  simp only [work]
  omega

lemma calms_skip {i : Fin n} {k : κ} {rest : List κ} (hw : s.worker i = .taking (k :: rest)) :
    ∃ s', Calms D m s s' := by
  have hstep : D.machine.step s (.pop i false) =
      some { s with worker := Function.update s.worker i (.taking rest) } := by
    simp [Design.machine, Design.step, hw]
  refine ⟨_, ⟨.pop i false, trivial, hstep⟩, rfl, rfl, ?_⟩
  have hworker := tally_update (Worker.work m) s.worker i (.taking rest)
  simp only [hw, Worker.work, List.length_cons] at hworker
  simp only [work]
  omega

lemma calms_pop {i : Fin n} (hw : s.worker i = .taking [])
    (hq : (s.queues (D.home i)).queue ≠ []) : ∃ s', Calms D m s s' := by
  obtain ⟨w, q, hcons⟩ := List.exists_cons_of_ne_nil hq
  have hstep : D.machine.step s (.pop i true) = some { s with
      queues := Function.update s.queues (D.home i) ⟨q, (s.queues (D.home i)).one⟩
      worker := Function.update s.worker i (.running w) } := by
    simp [Design.machine, Design.step, hw, Contents.ready, hcons, State.take, Contents.take]
  refine ⟨_, ⟨.pop i true, trivial, hstep⟩, rfl, rfl, ?_⟩
  have hworker := tally_update (Worker.work m) s.worker i (.running w)
  have hqueue := tally_update (queueWork m) s.queues (D.home i)
    ⟨q, (s.queues (D.home i)).one⟩
  simp only [hw, Worker.work, List.length_nil] at hworker
  simp only [queueWork, hcons, List.length_cons, Nat.mul_add, Nat.mul_one] at hqueue
  simp only [work]
  omega

/-- A pool whose queues are all served is idle, or can get closer to it. -/
lemma quiet_or_calms (hserved : ∀ k, ∃ i, D.home i = k) (hm : ∀ i, (D.scan i).length ≤ m)
    (h : Undone s) : Quiet s ∨ ∃ s', Calms D m s s' := by
  by_cases hp : ∀ p, s.poster p = .idle
  · by_cases hw : ∀ i, s.worker i = .taking []
    · by_cases hq : ∀ k, (s.queues k).queue = []
      · refine .inl ⟨hp, hw, fun k => ?_⟩
        have hone := h.one k
        have hnil := hq k
        cases hk : s.queues k
        simp_all [Contents.empty]
      · obtain ⟨k, hk⟩ := not_forall.mp hq
        obtain ⟨i, rfl⟩ := hserved k
        exact .inr (calms_pop (hw i) hk)
    · obtain ⟨i, hi⟩ := not_forall.mp hw
      right
      cases hwi : s.worker i with
      | taking rest =>
        cases rest with
        | nil => exact absurd hwi hi
        | cons k rest => exact calms_skip hwi
      | running w => exact calms_run hwi (hm i)
      | exited => exact absurd hwi (h.worker i)
  · obtain ⟨p, hp⟩ := not_forall.mp hp
    exact .inr (calms_place hp)

/-- Every pool gets to rest without a new post. -/
theorem exists_quiet (hn : 0 < n) (hserved : ∀ k, ∃ i, D.home i = k) (h : Undone s) :
    ∃ s', D.machine.Runs InLifetime s s' ∧ Quiet s' ∧ Undone s' ∧ s'.posted = s.posted ∧
      s'.owner = s.owner := by
  have hm : ∀ i, (D.scan i).length ≤ ∑ j, (D.scan j).length := fun i =>
    Finset.single_le_sum (f := fun j => (D.scan j).length) (fun _ _ => Nat.zero_le _)
      (Finset.mem_univ i)
  have hprogress : ∀ u : State P n κ ξ α,
      Undone u ∧ u.posted = s.posted ∧ u.owner = s.owner → Quiet u ∨
        ∃ a u', InLifetime u a ∧ D.machine.step u a = some u' ∧
          (Undone u' ∧ u'.posted = s.posted ∧ u'.owner = s.owner) ∧
          work (∑ j, (D.scan j).length) u' < work (∑ j, (D.scan j).length) u := by
    rintro u ⟨hu, hposted, howner⟩
    rcases quiet_or_calms hserved hm hu with hq | ⟨u', ⟨a, ha, hstep⟩, hp, ho, hlt⟩
    · exact .inl hq
    · have hu' := hu.step hn (step_of_machine hstep)
      exact .inr ⟨a, u', ha, hstep, ⟨hu', hp.trans hposted, ho.trans howner⟩, hlt⟩
  obtain ⟨s', hruns, ⟨hundone, hposted, howner⟩, hquiet⟩ :=
    Machine.exists_runs_of_progress _ hprogress ⟨h, rfl, rfl⟩
  exact ⟨s', hruns, hquiet, hundone, hposted, howner⟩

/-- From every state that is not past its destructor a deadlock can be reached without a new post,
and what was posted is executed first. -/
theorem exists_deadlocked (hn : 0 < n) (hserved : ∀ k, ∃ i, D.home i = k) (h : Undone s) :
    ∃ s', D.machine.Runs InLifetime s s' ∧ Quiet s' ∧ s'.posted = s.posted ∧ Deadlocked D s' := by
  obtain ⟨u, hruns, hquiet, hundone, hposted, -⟩ := exists_quiet hn hserved h
  rcases hundone.owner with halive | hjoining
  · have hstep : D.machine.step u .destroy = some { u with owner := .joining 0 } := by
      simp [Design.machine, Design.step, halive]
    have hquiet' : Quiet { u with owner := .joining 0 } :=
      ⟨hquiet.poster, hquiet.worker, hquiet.queues⟩
    have hok : InLifetime u .destroy := hquiet.poster
    exact ⟨_, hruns.tail hok hstep, hquiet', hposted, hquiet'.deadlocked hn rfl⟩
  · exact ⟨u, hruns, hquiet, hposted, hquiet.deadlocked hn hjoining⟩

/-- Any work objects can have been posted to an idle pool. -/
lemma exists_quiet_posted (hn : 0 < n) (hserved : ∀ k, ∃ i, D.home i = k) (p : P)
    (procs : List α) :
    ∃ s : State P n κ ξ α, D.machine.Runs InLifetime D.start s ∧ Quiet s ∧
      s.owner = .alive ∧ s.posted.map Work.proc = procs := by
  induction procs using List.reverseRecOn with
  | nil =>
    obtain ⟨s, hruns, hquiet, -, hposted, howner⟩ :=
      exists_quiet hn hserved (Undone.start (D := D) (P := P) (α := α))
    exact ⟨s, hruns, hquiet, howner, by rw [hposted]; rfl⟩
  | append_singleton procs proc ih =>
    obtain ⟨s, hruns, hquiet, howner, hprocs⟩ := ih
    have hstep : D.machine.step s (.post p proc) = some { s with
        counter := (D.draw s.counter).1
        poster := Function.update s.poster p
          (.posting ⟨s.posted.length, proc⟩ (D.draw s.counter).2.1 (D.draw s.counter).2.2)
        posted := s.posted ++ [⟨s.posted.length, proc⟩] } := by
      simp [Design.machine, Design.step, hquiet.poster p]
    have hok : InLifetime s (.post p proc) := howner
    have hruns' := hruns.tail hok hstep
    obtain ⟨s', hruns'', hquiet', -, hposted', howner'⟩ :=
      exists_quiet hn hserved (undone_of_runs hn hruns')
    refine ⟨s', hruns'.trans hruns'', hquiet', howner'.trans howner, ?_⟩
    rw [hposted', List.map_append, hprocs]
    rfl

end

/-- In an idle pool everything posted was executed. -/
lemma Quiet.executed [Fintype P] [Fintype κ] [DecidableEq α] (h : Quiet s) (hc : Conserved s) :
    ∀ w ∈ s.posted, w ∈ s.executed := by
  intro w hw
  have hqueue : tally (inQueue w) s.queues = 0 := tally_eq_zero_iff.mpr fun k => by
    rw [h.queues]
    rfl
  have hposter : tally (Poster.holds w) s.poster = 0 := tally_eq_zero_iff.mpr fun p => by
    rw [h.poster]
    rfl
  have hworker : tally (Worker.holds w) s.worker = 0 := tally_eq_zero_iff.mpr fun i => by
    rw [h.worker]
    rfl
  have hpos := List.count_pos_iff.mpr hw
  rw [hc.stored w, hqueue, hposter, hworker, Nat.zero_add] at hpos
  exact List.count_pos_iff.mp (by simpa using hpos)

/-- Whatever was posted, the destructor can end in a deadlock. -/
theorem not_shutdownSafe [Fintype P] [Fintype κ] [DecidableEq P] [DecidableEq κ] [DecidableEq α]
    (hn : 0 < n) (hserved : ∀ k, ∃ i, D.home i = k) (p : P) (procs : List α) :
    ¬ ShutdownSafe D P procs := by
  obtain ⟨s, hruns, -, -, hprocs⟩ := exists_quiet_posted hn hserved p procs
  obtain ⟨s', hruns', hquiet, hposted, hdead⟩ :=
    exists_deadlocked hn hserved (undone_of_runs hn hruns)
  have hall := hruns.trans hruns'
  intro hsafe
  exact hsafe s' hall (by rw [hposted, hprocs]) (hquiet.executed (Conserved.of_runs hall)) hdead

/-! ### The two classes -/

/-- A pool with one worker, to which nothing is posted: the destructor joins the worker, and the
worker is in `pop`. -/
theorem simple_not_shutdownSafe_one : ¬ ShutdownSafe (simple 1) Unit ([] : List Unit) := by
  intro hsafe
  let s : State Unit 1 Unit Unit Unit := { (simple 1).start with owner := .joining 0 }
  have hok : InLifetime ((simple 1).start : State Unit 1 Unit Unit Unit) .destroy := fun _ => rfl
  have hruns : (simple 1).machine.Runs InLifetime (simple 1).start s := .tail .refl hok rfl
  have hquiet : Quiet s := ⟨fun _ => rfl, fun _ => rfl, fun _ => rfl⟩
  exact hsafe s hruns rfl (fun _ hw => by cases hw) (hquiet.deadlocked Nat.one_pos rfl)

/-- For no number of workers and no posts is a pool safe: the destructor can find all workers in
`pop`, and there they stay. -/
theorem never_shutdownSafe [DecidableEq P] [Fintype P] [Nonempty P] [DecidableEq α]
    (procs : List α) :
    (∀ n, 0 < n → ¬ ShutdownSafe (simple n) P procs) ∧
      ∀ (count : UInt32) (hc : 0 < count), ¬ ShutdownSafe (workStealing count hc) P procs := by
  have p : P := Classical.arbitrary P
  refine ⟨fun n hn => not_shutdownSafe hn (fun _ => ⟨⟨0, hn⟩, rfl⟩) p procs, fun count hc => ?_⟩
  exact not_shutdownSafe (UInt32.lt_iff_toNat_lt.mp hc) (fun k => ⟨k, rfl⟩) p procs

/-- A pool of three workers that has executed two work objects. -/
theorem never_shutdownSafe_two : ¬ ShutdownSafe (workStealing 3 (by decide)) Unit [7, 8] :=
  (never_shutdownSafe [7, 8]).2 3 (by decide)

end ThreadPool

end Sync
