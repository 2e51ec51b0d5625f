import Mathlib.Algebra.BigOperators.Group.Multiset.Basic
import Mathlib.Algebra.Order.Group.Multiset
import SyncLib.ThreadPool.Basic

/-!
# No work is lost or duplicated

Every work object is with its poster, in a queue, with a worker, or executed, and in one of these
places only. The proof counts one work object at a time, over all posters, queues and workers.
-/

namespace Sync

open Core

namespace ThreadPool

open Queue.SimpleBlocking (Contents)

variable {P κ ξ α : Type*} {n : ℕ}

/-- The work object that a poster has not placed yet. -/
def Poster.held : Poster κ α → List (Work α)
  | .idle             => []
  | .posting work _ _ => [work]

/-- The work object that a worker has taken and not executed yet. -/
def Worker.held : Worker κ α → List (Work α)
  | .running work => [work]
  | _             => []

/-! ### One work object -/

section

variable [DecidableEq α] (w : Work α)

def inQueue (q : Contents (Work α)) : ℕ := q.queue.count w

def Poster.holds (p : Poster κ α) : ℕ := p.held.count w

def Worker.holds (x : Worker κ α) : ℕ := x.held.count w

lemma inQueue_emplace (q : Contents (Work α)) (work : Work α) :
    inQueue w (q.emplace work) = inQueue w q + [work].count w :=
  List.count_append

lemma inQueue_of_cons {q : Contents (Work α)} {work : Work α} {rest : List (Work α)}
    (h : q.queue = work :: rest) :
    inQueue w q = [work].count w + inQueue w ⟨rest, q.one⟩ := by
  rw [inQueue, h, ← List.singleton_append, List.count_append]
  rfl

end

variable [Fintype P] [Fintype κ] [DecidableEq α]

/-- How often each work object is anywhere, and how often it was placed. -/
structure Conserved (s : State P n κ ξ α) : Prop where
  numbers : s.posted.map Work.number = List.range s.posted.length
  stored : ∀ w, s.posted.count w = tally (inQueue w) s.queues + tally (Poster.holds w) s.poster +
    tally (Worker.holds w) s.worker + s.executed.count w
  placed : ∀ w, s.posted.count w =
    (s.placed.map Prod.snd).count w + tally (Poster.holds w) s.poster

namespace Conserved

variable {s s' : State P n κ ξ α}

lemma start {D : Design n κ ξ} : Conserved (D.start : State P n κ ξ α) := by
  have hzero : ∀ w : Work α, tally (Poster.holds w) (fun _ : P => (.idle : Poster κ α)) = 0 :=
    fun w => tally_eq_zero_iff.mpr fun _ => rfl
  refine ⟨rfl, fun w => ?_, fun w => ?_⟩
  · have hqueue : tally (inQueue w) (fun _ : κ => .empty) = 0 :=
      tally_eq_zero_iff.mpr fun _ => rfl
    have hworker : tally (Worker.holds w) (fun i => .taking (D.scan i)) = 0 :=
      tally_eq_zero_iff.mpr fun _ => rfl
    simp [Design.start, hzero, hqueue, hworker]
  · simp [Design.start, hzero]

/-- A worker keeps what it has. -/
lemma worker (h : Conserved s) {i : Fin n} {x : Worker κ α} (hx : x.held = (s.worker i).held) :
    Conserved { s with worker := Function.update s.worker i x } := by
  refine ⟨h.numbers, fun w => ?_, h.placed⟩
  have hu := tally_update (Worker.holds w) s.worker i x
  simp only [Worker.holds, hx] at hu
  show _ = _ + tally (Worker.holds w) (Function.update s.worker i x) + _
  rw [Nat.add_right_cancel hu]
  exact h.stored w

/-- A work object is executed. -/
lemma run (h : Conserved s) {i : Fin n} {work : Work α} (hw : s.worker i = .running work)
    (rest : List κ) :
    Conserved { s with
      worker := Function.update s.worker i (.taking rest)
      executed := s.executed ++ [work] } := by
  refine ⟨h.numbers, fun w => ?_, h.placed⟩
  have hu := tally_update (Worker.holds w) s.worker i (.taking rest)
  have hw' := h.stored w
  simp only [hw, Worker.holds, Worker.held, List.count_nil] at hu
  simp only [List.count_append]
  omega

/-- A work object goes from a queue to a worker. -/
lemma take [DecidableEq κ] (h : Conserved s) {i : Fin n} {k : κ} {rest : List κ} {work : Work α}
    {q : List (Work α)} (hw : s.worker i = .taking rest) (hq : (s.queues k).queue = work :: q) :
    Conserved { s with
      queues := Function.update s.queues k { s.queues k with queue := q }
      worker := Function.update s.worker i (.running work) } := by
  refine ⟨h.numbers, fun w => ?_, h.placed⟩
  have hqueue := tally_update (inQueue w) s.queues k ⟨q, (s.queues k).one⟩
  have hu := tally_update (Worker.holds w) s.worker i (.running work)
  have hw' := h.stored w
  rw [inQueue_of_cons w hq] at hqueue
  simp only [hw, Worker.holds, Worker.held, List.count_nil] at hu
  dsimp only
  omega

variable [DecidableEq P]

/-- A work object that is posted is with its poster. -/
lemma post (h : Conserved s) {p : P} (hp : s.poster p = .idle) (proc : α) (counter : ξ)
    (rest : List κ) (last : κ) :
    Conserved { s with
      counter := counter
      poster := Function.update s.poster p (.posting ⟨s.posted.length, proc⟩ rest last)
      posted := s.posted ++ [⟨s.posted.length, proc⟩] } := by
  obtain ⟨hnumbers, hstored, hplaced⟩ := h
  have hupd := fun w => tally_update (Poster.holds w) s.poster p
    (.posting ⟨s.posted.length, proc⟩ rest last)
  simp only [hp, Poster.holds, Poster.held, List.count_nil] at hupd
  refine ⟨by simp [List.range_succ, hnumbers], fun w => ?_, fun w => ?_⟩
  · have hw := hstored w
    have hu := hupd w
    simp only [List.count_append]
    omega
  · have hw := hplaced w
    have hu := hupd w
    simp only [List.count_append]
    omega

/-- A poster keeps what it has. -/
lemma poster (h : Conserved s) {p : P} {x : Poster κ α} (hx : x.held = (s.poster p).held) :
    Conserved { s with poster := Function.update s.poster p x } := by
  have hsame : ∀ w, tally (Poster.holds w) (Function.update s.poster p x)
      = tally (Poster.holds w) s.poster := by
    intro w
    have hu := tally_update (Poster.holds w) s.poster p x
    simp only [Poster.holds, hx] at hu
    exact Nat.add_right_cancel hu
  refine ⟨h.numbers, fun w => ?_, fun w => ?_⟩
  · rw [hsame]
    exact h.stored w
  · rw [hsame]
    exact h.placed w

variable [DecidableEq κ]

/-- A work object goes from its poster into a queue. -/
lemma place (h : Conserved s) {p : P} {work : Work α} {rest : List κ} {last : κ}
    (hp : s.poster p = .posting work rest last) (k : κ) : Conserved (s.place p k work) := by
  have hupd := fun w => tally_update (Poster.holds w) s.poster p .idle
  simp only [hp, Poster.holds, Poster.held, List.count_nil] at hupd
  refine ⟨h.numbers, fun w => ?_, fun w => ?_⟩
  · have hq := tally_update (inQueue w) s.queues k ((s.queues k).emplace work)
    have hw := h.stored w
    have hu := hupd w
    rw [inQueue_emplace] at hq
    simp only [State.place]
    omega
  · have hw := h.placed w
    have hu := hupd w
    simp only [State.place, List.map_append, List.map_cons, List.map_nil, List.count_append]
    omega

theorem step {D : Design n κ ξ} {a : Act P n α} (h : Conserved s) (hs : Step D s a s') :
    Conserved s' := by
  cases hs with
  | post hp => exact h.post hp _ _ _ _
  | place k hp => exact h.place hp k
  | refuse hp => exact h.poster (by rw [hp]; rfl)
  | take k hw hq => exact h.take hw hq
  | skip hw => exact h.worker (by rw [hw]; rfl)
  | leave hw hone => exact h.worker (by rw [hw]; rfl)
  | run hw => exact h.run hw _
  | destroy ho => exact ⟨h.numbers, h.stored, h.placed⟩
  | join ho hi hw => exact ⟨h.numbers, h.stored, h.placed⟩
  | destroyed ho hi => exact ⟨h.numbers, h.stored, h.placed⟩

theorem of_runs {D : Design n κ ξ} {ok : State P n κ ξ α → Act P n α → Prop}
    (h : D.machine.Runs ok D.start s) : Conserved s :=
  h.invariant start fun _ _ _ hu _ hs => hu.step (step_of_machine hs)

end Conserved

/-! ### All work objects -/

section

variable {s : State P n κ ξ α}

lemma Conserved.nodup (h : Conserved s) : s.posted.Nodup := by
  apply List.Nodup.of_map Work.number
  rw [h.numbers]
  exact List.nodup_range

/-- What a worker has taken was posted. -/
lemma Conserved.mem_posted (h : Conserved s) {i : Fin n} {work : Work α}
    (hw : s.worker i = .running work) : work ∈ s.posted := by
  have hone : Worker.holds work (s.worker i) = 1 := by simp [hw, Worker.holds, Worker.held]
  have hle := le_tally (Worker.holds work) s.worker i
  have hstored := h.stored work
  exact List.count_pos_iff.mp (by omega)

/-- Every work object that was posted is in one place, it was placed once when its post has
returned, and it is executed at most once. -/
structure Law (s : State P n κ ξ α) : Prop where
  distinct : s.posted.Nodup
  conserved : (s.posted : Multiset (Work α)) =
    (∑ k, ((s.queues k).queue : Multiset (Work α))) +
      (∑ p, ((s.poster p).held : Multiset (Work α))) +
      (∑ i, ((s.worker i).held : Multiset (Work α))) + (s.executed : Multiset (Work α))
  placed_once : ∀ work ∈ s.posted, (∀ p, work ∉ (s.poster p).held) →
    (s.placed.map Prod.snd).count work = 1
  not_placed : ∀ work p, work ∈ (s.poster p).held → work ∉ s.placed.map Prod.snd
  executed_once : s.executed.Nodup

lemma tally_eq_count {ι π : Type*} [Fintype ι] (w : Work α) (held : π → List (Work α))
    (f : ι → π) :
    tally (fun p => (held p).count w) f
      = (∑ t, (held (f t) : Multiset (Work α))).count w := by
  rw [Multiset.count_sum']
  exact Finset.sum_congr rfl fun t _ => (Multiset.coe_count w (held (f t))).symm

theorem Conserved.law (h : Conserved s) : Law s := by
  have hone : ∀ w, s.posted.count w ≤ 1 := List.nodup_iff_count_le_one.mp h.nodup
  refine ⟨h.nodup, ?_, fun w hw hnone => ?_, fun w p hp hmem => ?_, ?_⟩
  · ext w
    simp only [Multiset.count_add, ← tally_eq_count w Poster.held, Multiset.coe_count,
      ← tally_eq_count w Worker.held, ← tally_eq_count w Contents.queue]
    exact h.stored w
  · have hzero : tally (Poster.holds w) s.poster = 0 :=
      tally_eq_zero_iff.mpr fun p => List.count_eq_zero_of_not_mem (hnone p)
    have hplaced := h.placed w
    have hpos := List.count_pos_iff.mpr hw
    have hle := hone w
    omega
  · have hpos := List.count_pos_iff.mpr hmem
    have hheld : 0 < Poster.holds w (s.poster p) := List.count_pos_iff.mpr hp
    have hle := le_tally (Poster.holds w) s.poster p
    have hplaced := h.placed w
    have hle' := hone w
    omega
  · rw [List.nodup_iff_count_le_one]
    intro w
    have hstored := h.stored w
    have hle := hone w
    omega

end

/-- In every run of a work-stealing pool every work object that was posted is queued, held or
executed, and only one of these. -/
theorem work_stealing_conserves [DecidableEq P] {count : UInt32} (hc : 0 < count)
    {s : State P count.toNat (Fin count.toNat) UInt32 α}
    (h : (workStealing count hc).machine.Reachable (workStealing count hc).start s) : Law s :=
  (Conserved.of_runs h).law

/-- Two posts to a pool of two workers. The first worker finds its own queue locked, and executes
what is in the other one. -/
theorem work_stealing_conserves_two : ∃ s : State (Fin 2) 2 (Fin 2) UInt32 ℕ,
    s.posted = [⟨0, 7⟩, ⟨1, 8⟩] ∧ s.executed = [⟨1, 8⟩] ∧ Law s := by
  obtain ⟨s, hs, hp⟩ := Machine.exists_reachable_of_run
    (M := (workStealing 2 (by decide)).machine)
    (s := ((workStealing 2 (by decide)).start : State (Fin 2) 2 (Fin 2) UInt32 ℕ))
    ([.post 0 7, .post 1 8, .push 1 true, .push 0 true, .pop 0 false, .pop 0 true, .run 0] :
      List (Act (Fin 2) 2 ℕ))
    (fun s => s.posted == [⟨0, 7⟩, ⟨1, 8⟩] && s.executed == [⟨1, 8⟩]) (by decide +kernel)
  simp only [Bool.and_eq_true, beq_iff_eq] at hp
  exact ⟨s, hp.1, hp.2, work_stealing_conserves (by decide) hs⟩

end ThreadPool

end Sync
