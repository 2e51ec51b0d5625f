import Mathlib.Data.Fintype.Basic
import SyncLib.Core.Machine

/-!
# `os::flex_barrier`

`sync_barrier_wait` lets all threads of a phase go at once and returns `true` to one of them, which
then runs the completion function. The next phase cannot end before that thread has come back, so
the completions do not overlap; but nothing keeps the other threads from returning before it.
-/

namespace Sync

open Core

namespace OsFlexBarrier

/-! ### The threads -/

/-- Where a thread is: outside, in `sync_barrier_wait`, released from it with what it returns, in
the completion function, or behind it. -/
inductive Place
  | outside
  | waiting
  | released (phase : ℕ) (serial : Bool)
  | completing (phase : ℕ)
  | completed (phase : ℕ)
  deriving DecidableEq, Repr

/-- What happens to the completion function and to the calls of `wait`. -/
inductive Event (n : ℕ)
  | began (phase : ℕ)
  | finished (phase : ℕ)
  | returned (t : Fin n) (phase : ℕ)
  deriving DecidableEq, Repr

/-- The number of phases that have ended, and what has happened so far, the last event first. -/
structure State (n : ℕ) where
  place : Fin n → Place
  phase : ℕ
  log : List (Event n)

/-- A call of `wait`, where `serial` is the thread to which `sync_barrier_wait` returns `true` if
this is the last call of its phase, the begin and the end of `compl_()`, or a return from `wait`. -/
inductive Move (n : ℕ)
  | wait (serial : Fin n)
  | complete
  | finish
  | leave
  deriving DecidableEq, Repr

structure Act (n : ℕ) where
  tid : Fin n
  move : Move n
  deriving DecidableEq, Repr

variable {n : ℕ}

namespace State

def goTo (s : State n) (t : Fin n) (p : Place) : State n :=
  { s with place := Function.update s.place t p }

def note (s : State n) (e : Event n) : State n := { s with log := e :: s.log }

/-- The barrier lets all threads go. -/
def release (s : State n) (serial : Fin n) : State n :=
  { s with place := fun u => .released (s.phase + 1) (u = serial), phase := s.phase + 1 }

end State

/-- One step of a thread in `wait`. -/
def step (s : State n) (a : Act n) : Option (State n) :=
  match a.move, s.place a.tid with
  | .wait serial, .outside =>
    if ∀ u, u ≠ a.tid → s.place u = .waiting then some (s.release serial)
    else some (s.goTo a.tid .waiting)
  | .complete, .released k true => some ((s.goTo a.tid (.completing k)).note (.began k))
  | .finish, .completing k      => some ((s.goTo a.tid (.completed k)).note (.finished k))
  | .leave, .released k false  => some ((s.goTo a.tid .outside).note (.returned a.tid k))
  | .leave, .completed k       => some ((s.goTo a.tid .outside).note (.returned a.tid k))
  | _, _                        => none

/-- `n` threads around a barrier for `n` threads. -/
def machine : Machine (State n) (Act n) := ⟨step⟩

def start : State n := ⟨fun _ => .outside, 0, []⟩

/-! ### The steps -/

/-- The thread that runs the completion function has not finished it. -/
def Place.pending : Place → Bool
  | .released _ serial => serial
  | .completing _      => true
  | _                  => false

/-- `sync_barrier_wait` has returned `true`. -/
def Place.serial : Place → Bool
  | .completed _ => true
  | p            => p.pending

/-- The phase from which a thread has not returned yet. -/
def Place.phase : Place → Option ℕ
  | .released k _ | .completing k | .completed k => some k
  | _                                            => none

/-- The steps of a thread, one constructor for each kind. -/
inductive Step (s : State n) (t : Fin n) : Move n → State n → Prop
  | enter {serial : Fin n} (hp : s.place t = .outside) :
      Step s t (.wait serial) (s.goTo t .waiting)
  | release {serial : Fin n} (hp : s.place t = .outside)
      (hall : ∀ u, u ≠ t → s.place u = .waiting) : Step s t (.wait serial) (s.release serial)
  | complete {k : ℕ} (hp : s.place t = .released k true) :
      Step s t .complete ((s.goTo t (.completing k)).note (.began k))
  | finish {k : ℕ} (hp : s.place t = .completing k) :
      Step s t .finish ((s.goTo t (.completed k)).note (.finished k))
  | leave {k : ℕ} (hp : (s.place t).phase = some k) (hdone : (s.place t).pending = false) :
      Step s t .leave ((s.goTo t .outside).note (.returned t k))

lemma step_of_machine {s s' : State n} {a : Act n} (hs : machine.step s a = some s') :
    Step s a.tid a.move s' := by
  obtain ⟨t, m⟩ := a
  change step s ⟨t, m⟩ = some s' at hs
  unfold step at hs
  dsimp only at hs
  split at hs
  · rename_i hp
    split_ifs at hs with hall <;> cases hs
    · exact .release hp hall
    · exact .enter hp
  · cases hs
    exact .complete ‹_›
  · cases hs
    exact .finish ‹_›
  · rename_i hp
    cases hs
    exact .leave (by rw [hp]; rfl) (by rw [hp]; rfl)
  · rename_i hp
    cases hs
    exact .leave (by rw [hp]; rfl) (by rw [hp]; rfl)
  · cases hs

/-! ### The completions -/

/-- The event is about the completion function. -/
def Event.isCompletion : Event n → Bool
  | .returned _ _ => false
  | _             => true

def completions (log : List (Event n)) : List (Event n) := log.filter Event.isCompletion

/-- The completions of the first `m` phases, one after the other. -/
def turns : ℕ → List (Event n)
  | 0     => []
  | m + 1 => .finished (m + 1) :: .began (m + 1) :: turns m

lemma count_turns {m k : ℕ} :
    (turns m : List (Event n)).count (.began k) = (if 0 < k ∧ k ≤ m then 1 else 0) ∧
      (turns m : List (Event n)).count (.finished k) = if 0 < k ∧ k ≤ m then 1 else 0 := by
  induction m with
  | zero =>
    have hnone : ¬ (0 < k ∧ k ≤ 0) := by omega
    simp only [turns, List.count_nil, if_neg hnone, and_self]
  | succ m ih =>
    simp only [turns, List.count_cons, ih, beq_iff_eq, Event.began.injEq, Event.finished.injEq,
      reduceCtorEq, if_false]
    constructor <;> split_ifs <;> omega

lemma began_mem_turns {m k : ℕ} : Event.began k ∈ (turns m : List (Event n)) ↔ 0 < k ∧ k ≤ m := by
  rw [← List.count_pos_iff, count_turns.1]
  split_ifs with h <;> simp [h]

lemma finished_mem_turns {m k : ℕ} :
    Event.finished k ∈ (turns m : List (Event n)) ↔ 0 < k ∧ k ≤ m := by
  rw [← List.count_pos_iff, count_turns.2]
  split_ifs with h <;> simp [h]

/-- Before a completion that begins others have ended. -/
lemma eq_turns_of_suffix {m j : ℕ} {rest : List (Event n)} (h : .began j :: rest <:+ turns m) :
    ∃ i, rest = turns i := by
  induction m with
  | zero => simp [turns] at h
  | succ m ih =>
    simp only [turns, List.suffix_cons_iff, List.cons.injEq, reduceCtorEq, false_and,
      false_or] at h
    rcases h with ⟨-, rfl⟩ | h
    · exact ⟨m, rfl⟩
    · exact ih h

/-! ### The phases -/

/-- Whether the completion function of the last phase is over, or still ahead of its thread or
begun. -/
inductive Stage (s : State n) : Prop
  | busy (u : Fin n) (m : ℕ) (hm : s.phase = m + 1)
      (hothers : ∀ v, v ≠ u → (s.place v).serial = false)
      (hu : s.place u = .released s.phase true ∧ completions s.log = turns m ∨
        s.place u = .completing s.phase ∧ completions s.log = .began s.phase :: turns m)
  | ended (hdone : ∀ u, (s.place u).pending = false) (hlog : completions s.log = turns s.phase)

/-- A thread that has not returned yet is in the last phase. -/
structure Inv (s : State n) : Prop where
  phases : ∀ t k, (s.place t).phase = some k → k = s.phase ∧ 0 < k
  stage : Stage s

variable {s s' : State n} {t : Fin n} {p : Place} {m : Move n}

@[simp] lemma goTo_self : (s.goTo t p).place t = p := Function.update_self ..

lemma goTo_of_ne {u : Fin n} (h : u ≠ t) : (s.goTo t p).place u = s.place u :=
  Function.update_of_ne h ..

lemma pending_of_serial (h : p.serial = false) : p.pending = false := by
  cases p <;> simp_all [Place.serial]

/-- What holds of all places holds after one of them has changed. -/
lemma forall_goTo {q : Place → Prop} (hp : q p) (h : ∀ v, v ≠ t → q (s.place v)) (v : Fin n) :
    q ((s.goTo t p).place v) := by
  by_cases hv : v = t
  · subst hv
    rwa [goTo_self]
  · rw [goTo_of_ne hv]
    exact h v hv

namespace Stage

/-- The thread that is about to run the completion function, or runs it, is the only one. -/
lemma of_pending (h : Stage s) (hp : (s.place t).pending = true) :
    ∃ m, s.phase = m + 1 ∧ (∀ v, v ≠ t → (s.place v).serial = false) ∧
      (s.place t = .released s.phase true ∧ completions s.log = turns m ∨
        s.place t = .completing s.phase ∧ completions s.log = .began s.phase :: turns m) := by
  cases h with
  | busy u m hm hothers hu =>
    by_cases htu : t = u
    · subst htu
      exact ⟨m, hm, hothers, hu⟩
    · rw [pending_of_serial (hothers t htu)] at hp
      cases hp
  | ended hdone hlog =>
    rw [hdone t] at hp
    cases hp

/-- A thread that has nothing to do with the completion function goes on. -/
lemma goTo (h : Stage s) (hdone : (s.place t).pending = false) (hp : p.serial = false) :
    Stage (s.goTo t p) := by
  cases h with
  | busy u m hm hothers hu =>
    have hut : u ≠ t := by
      rintro rfl
      rcases hu with ⟨hu, -⟩ | ⟨hu, -⟩ <;> rw [hu] at hdone <;> cases hdone
    refine .busy u m hm (fun v hv => ?_) ?_
    · by_cases hvt : v = t
      · subst hvt
        rwa [goTo_self]
      · rw [goTo_of_ne hvt]
        exact hothers v hv
    · rw [goTo_of_ne hut]
      exact hu
  | ended hnone hlog =>
    exact .ended (forall_goTo (q := fun x => x.pending = false) (pending_of_serial hp)
      fun v _ => hnone v) hlog

/-- A return is not about the completion function. -/
lemma returned (h : Stage s) {k : ℕ} : Stage (s.note (.returned t k)) := by
  cases h with
  | busy u m hm hothers hu => exact .busy u m hm hothers hu
  | ended hdone hlog => exact .ended hdone hlog

/-- The last thread arrives. -/
lemma release (h : Stage s) (hp : s.place t = .outside)
    (hall : ∀ u, u ≠ t → s.place u = .waiting) (u : Fin n) : Stage (s.release u) := by
  cases h with
  | busy v m hm hothers hv =>
    by_cases hvt : v = t
    · subst hvt
      rcases hv with ⟨hv, -⟩ | ⟨hv, -⟩ <;> rw [hp] at hv <;> cases hv
    · rcases hv with ⟨hv, -⟩ | ⟨hv, -⟩ <;> rw [hall v hvt] at hv <;> cases hv
  | ended hdone hlog =>
    refine .busy u s.phase rfl (fun v hv => ?_) (.inl ⟨?_, hlog⟩)
    · simp [State.release, Place.serial, Place.pending, hv]
    · simp [State.release]

end Stage

namespace Inv

lemma start : Inv (OsFlexBarrier.start : State n) :=
  ⟨fun _ _ h => (by cases h), .ended (fun _ => rfl) rfl⟩

/-- A thread that moves stays in its phase. -/
lemma phases_goTo (h : Inv s) (hp : ∀ k, p.phase = some k → k = s.phase ∧ 0 < k) (u : Fin n) :
    ∀ k, ((s.goTo t p).place u).phase = some k → k = s.phase ∧ 0 < k :=
  forall_goTo (q := fun x => ∀ k, x.phase = some k → k = s.phase ∧ 0 < k) hp
    (fun v _ => h.phases v) u

theorem step (h : Inv s) (hs : Step s t m s') : Inv s' := by
  cases hs with
  | enter hp =>
    refine ⟨h.phases_goTo fun _ hk => (by cases hk), h.stage.goTo ?_ rfl⟩
    rw [hp]
    rfl
  | release hp hall =>
    refine ⟨fun u k hk => ?_, h.stage.release hp hall _⟩
    cases hk
    exact ⟨rfl, s.phase.succ_pos⟩
  | @complete k hp =>
    obtain ⟨rfl, hpos⟩ := h.phases t k (by rw [hp]; rfl)
    obtain ⟨m, hm, hothers, hu⟩ := h.stage.of_pending (by rw [hp]; rfl)
    rw [hp] at hu
    obtain ⟨-, hlog⟩ := hu.resolve_right fun hu => by cases hu.1
    refine ⟨h.phases_goTo fun j hj => ?_, .busy t m hm (fun v hv => ?_) (.inr ⟨goTo_self, ?_⟩)⟩
    · cases hj
      exact ⟨rfl, hpos⟩
    · exact (congrArg _ (goTo_of_ne hv)).trans (hothers v hv)
    · exact congrArg (.began s.phase :: ·) hlog
  | @finish k hp =>
    obtain ⟨rfl, hpos⟩ := h.phases t k (by rw [hp]; rfl)
    obtain ⟨m, hm, hothers, hu⟩ := h.stage.of_pending (by rw [hp]; rfl)
    rw [hp] at hu
    obtain ⟨-, hlog⟩ := hu.resolve_left fun hu => by cases hu.1
    refine ⟨h.phases_goTo fun j hj => ?_, .ended (forall_goTo (q := fun x => x.pending = false)
      rfl fun v hv => pending_of_serial (hothers v hv)) ?_⟩
    · cases hj
      exact ⟨rfl, hpos⟩
    · calc completions (.finished s.phase :: s.log)
          = .finished s.phase :: completions s.log := rfl
        _ = .finished s.phase :: .began s.phase :: turns m := by rw [hlog]
        _ = turns s.phase := by rw [hm, turns]
  | @leave k hp hdone =>
    refine ⟨h.phases_goTo fun _ hk => (by cases hk), ?_⟩
    exact (h.stage.goTo hdone rfl).returned

end Inv

/-! ### The law -/

/-- The completion function runs once for each phase that all threads have left, and one run of it
after the other. -/
structure Serialized (s : State n) : Prop where
  at_most_once : ∀ k, s.log.count (.began k) ≤ 1
  once : ∀ k, 0 < k → k ≤ s.phase → (∀ t, (s.place t).phase ≠ some k) →
    s.log.count (.began k) = 1 ∧ s.log.count (.finished k) = 1
  apart : ∀ j k rest, .began j :: rest <:+ s.log → .began k ∈ rest → .finished k ∈ rest

/-- When a thread returns the completion function of its phase has ended. -/
def FinishedFirst (log : List (Event n)) : Prop :=
  ∀ t k rest, .returned t k :: rest <:+ log → .finished k ∈ rest

structure Law (s : State n) : Prop extends Serialized s where
  finished_first : FinishedFirst s.log

lemma count_completions (e : Event n) (he : e.isCompletion = true) (log : List (Event n)) :
    (completions log).count e = log.count e :=
  List.count_filter he

lemma mem_completions {e : Event n} (he : e.isCompletion = true) {log : List (Event n)} :
    e ∈ completions log ↔ e ∈ log := by
  simp [completions, List.mem_filter, he]

lemma Stage.completions_eq (h : Stage s) :
    ∃ m, completions s.log = turns m ∨ completions s.log = .began (m + 1) :: turns m := by
  cases h with
  | busy u m hm hothers hu =>
    rcases hu with ⟨-, hlog⟩ | ⟨-, hlog⟩
    · exact ⟨m, .inl hlog⟩
    · exact ⟨m, .inr (hm ▸ hlog)⟩
  | ended hdone hlog => exact ⟨s.phase, .inl hlog⟩

/-- Nobody is in a phase whose completion function is not over but the thread that runs it. -/
lemma Inv.finished_iff (h : Inv s) (hpos : 0 < s.phase) :
    .finished s.phase ∈ s.log ↔ ∀ u, (s.place u).pending = false := by
  rw [← mem_completions rfl]
  cases h.stage with
  | busy u m hm hothers hu =>
    refine iff_of_false (fun hmem => ?_) fun hdone => ?_
    · have hturns : Event.finished s.phase ∈ (turns m : List (Event n)) := by
        rcases hu with ⟨-, hlog⟩ | ⟨-, hlog⟩
        · rwa [hlog] at hmem
        · rw [hlog] at hmem
          exact (List.mem_cons.mp hmem).resolve_left (by simp)
      have hle := (finished_mem_turns.mp hturns).2
      omega
    · have hu' := hdone u
      rcases hu with ⟨hu, -⟩ | ⟨hu, -⟩ <;> rw [hu] at hu' <;> cases hu'
  | ended hdone hlog =>
    rw [hlog]
    exact iff_of_true (finished_mem_turns.mpr ⟨hpos, le_rfl⟩) hdone

theorem Inv.serialized (h : Inv s) : Serialized s := by
  refine ⟨fun k => ?_, fun k hk hle hleft => ?_, fun j k rest hsuf hk => ?_⟩
  · obtain ⟨m, hlog | hlog⟩ := h.stage.completions_eq <;>
      rw [← count_completions _ rfl, hlog]
    · rw [count_turns.1]
      split_ifs <;> omega
    · simp only [List.count_cons, count_turns.1, beq_iff_eq, Event.began.injEq]
      split_ifs <;> omega
  · rw [← count_completions (.began k) rfl, ← count_completions (.finished k) rfl]
    cases h.stage with
    | busy u m hm hothers hu =>
      have hu' : (s.place u).phase = some s.phase := by
        rcases hu with ⟨hu, -⟩ | ⟨hu, -⟩ <;> rw [hu] <;> rfl
      have hne : k ≠ s.phase := fun heq => hleft u (heq ▸ hu')
      have hlt : k ≤ m := by omega
      have hlast : m + 1 ≠ k := by omega
      rcases hu with ⟨-, hlog⟩ | ⟨-, hlog⟩
      · simp [hlog, count_turns, hk, hlt]
      · simp [hlog, count_turns, hk, hlt, hm, hlast]
    | ended hdone hlog => simp [hlog, count_turns, hk, hle]
  · rw [← mem_completions rfl] at hk ⊢
    have hsuf' : .began j :: completions rest <:+ completions s.log :=
      hsuf.filter Event.isCompletion
    have hrest : ∃ i, completions rest = turns i := by
      obtain ⟨m, hlog | hlog⟩ := h.stage.completions_eq
      · exact eq_turns_of_suffix (hlog ▸ hsuf')
      · rw [hlog, List.suffix_cons_iff] at hsuf'
        rcases hsuf' with heq | hsuf'
        · exact ⟨m, (List.cons.inj heq).2⟩
        · exact eq_turns_of_suffix hsuf'
    obtain ⟨i, hi⟩ := hrest
    rw [hi] at hk ⊢
    exact finished_mem_turns.mpr (began_mem_turns.mp hk)

/-! ### Returns -/

/-- A thread returns only when nobody has the completion function ahead of it, or runs it. -/
def Patient (s : State n) (a : Act n) : Prop :=
  a.move = .leave → ∀ u, (s.place u).pending = false

instance (s : State n) (a : Act n) : Decidable (Patient s a) :=
  inferInstanceAs (Decidable (_ → _))

lemma finishedFirst_completion {e : Event n} (he : e.isCompletion = true) {log : List (Event n)} :
    FinishedFirst (e :: log) ↔ FinishedFirst log := by
  constructor
  · intro h t k rest hsuf
    exact h t k rest (hsuf.trans (List.suffix_cons e log))
  · intro h t k rest hsuf
    rcases List.suffix_cons_iff.mp hsuf with heq | hsuf
    · cases heq
      cases he
    · exact h t k rest hsuf

lemma finishedFirst_returned {k : ℕ} {log : List (Event n)} :
    FinishedFirst (.returned t k :: log) ↔ FinishedFirst log ∧ .finished k ∈ log := by
  constructor
  · intro h
    refine ⟨fun u j rest hsuf => ?_, h t k log (List.suffix_refl _)⟩
    exact h u j rest (hsuf.trans (List.suffix_cons _ log))
  · rintro ⟨h, hmem⟩ u j rest hsuf
    rcases List.suffix_cons_iff.mp hsuf with heq | hsuf
    · cases heq
      exact hmem
    · exact h u j rest hsuf

/-- What a step means for the order of the events. -/
theorem Inv.finishedFirst_iff (h : Inv s) (hs : Step s t m s') :
    FinishedFirst s'.log ↔ FinishedFirst s.log ∧ Patient s ⟨t, m⟩ := by
  have hother : m ≠ .leave → Patient s ⟨t, m⟩ := fun hm heq => absurd heq hm
  cases hs with
  | enter hp => exact (and_iff_left (hother (by simp))).symm
  | release hp hall => exact (and_iff_left (hother (by simp))).symm
  | complete hp =>
    exact (finishedFirst_completion rfl).trans (and_iff_left (hother (by simp))).symm
  | finish hp =>
    exact (finishedFirst_completion rfl).trans (and_iff_left (hother (by simp))).symm
  | leave hp hdone =>
    obtain ⟨rfl, hpos⟩ := h.phases t _ hp
    refine finishedFirst_returned.trans (and_congr_right fun _ => ?_)
    exact (h.finished_iff hpos).trans ⟨fun hnone _ => hnone, fun hok => hok rfl⟩

/-- In every run the law holds all along exactly when no thread returns too early. -/
theorem law_iff_patient {as : List (Act n)} (hrun : machine.run start as = some s) :
    (∀ pre u, pre <+: as → machine.run start pre = some u → Law u) ↔
      machine.Admits Patient start as := by
  refine Machine.forall_prefix_iff_admits_of_invariant
    (I := fun u => Inv u ∧ FinishedFirst u.log) hrun ⟨.start, fun _ _ _ h => ?_⟩ ?_ ?_ ?_
  · simp [start] at h
  · rintro u ⟨hinv, hfirst⟩
    exact ⟨hinv.serialized, hfirst⟩
  · rintro u a u' ⟨hinv, hfirst⟩ hok hs
    have hstep := step_of_machine hs
    exact ⟨hinv.step hstep, (hinv.finishedFirst_iff hstep).mpr ⟨hfirst, hok⟩⟩
  · rintro u a u' ⟨hinv, hfirst⟩ hok hs hlaw
    exact hok ((hinv.finishedFirst_iff (step_of_machine hs)).mp hlaw.finished_first).2

theorem serialized_of_reachable (h : machine.Reachable start s) : Serialized s := by
  have hinv : Inv s := h.invariant .start fun _ _ _ hu _ hs => hu.step (step_of_machine hs)
  exact hinv.serialized

/-! ### One thread and several -/

lemma pending_of_leave (h : Step s t .leave s') : (s.place t).pending = false := by
  cases h with
  | leave hp hdone => exact hdone

/-- A thread that is by itself runs the completion function before it returns. -/
lemma law_of_one {s : State 1} (h : machine.Reachable start s) : Law s := by
  have hinv : Inv s ∧ FinishedFirst s.log := by
    refine h.invariant (I := fun u => Inv u ∧ FinishedFirst u.log)
      ⟨.start, fun _ _ _ h => by simp [start] at h⟩ fun u a u' hu _ hs => ?_
    have hstep := step_of_machine hs
    refine ⟨hu.1.step hstep, (hu.1.finishedFirst_iff hstep).mpr ⟨hu.2, fun hm v => ?_⟩⟩
    obtain rfl : v = a.tid := Subsingleton.elim _ _
    exact pending_of_leave (hm ▸ hstep)
  exact ⟨hinv.1.serialized, hinv.2⟩

/-- The first `m` threads are in `sync_barrier_wait`. -/
def gathering (n m : ℕ) : State n := ⟨fun u => if u.val < m then .waiting else .outside, 0, []⟩

lemma gathering_succ {m : ℕ} (hm : m < n) :
    (gathering n m).goTo ⟨m, hm⟩ .waiting = gathering n (m + 1) := by
  have hplace : Function.update (gathering n m).place ⟨m, hm⟩ .waiting
      = (gathering n (m + 1)).place := by
    funext u
    by_cases hu : u = ⟨m, hm⟩
    · subst hu
      simp [gathering]
    · have hne : u.val ≠ m := fun heq => hu (Fin.ext heq)
      rw [Function.update_of_ne hu]
      simp only [gathering, Nat.lt_succ_iff_lt_or_eq, hne, or_false]
  exact congrArg (fun f => (⟨f, 0, []⟩ : State n)) hplace

lemma gathering_reachable {m : ℕ} (hm : m < n) : machine.Reachable start (gathering n m) := by
  induction m with
  | zero =>
    have hstart : gathering n 0 = start := by simp [gathering, start]
    exact hstart ▸ .refl
  | succ m ih =>
    have hlt : m < n := Nat.lt_of_succ_lt hm
    refine (ih hlt).tail (a := ⟨⟨m, hlt⟩, .wait ⟨m, hlt⟩⟩) trivial ?_
    rw [← gathering_succ hlt]
    -- the thread after this one is still outside
    have hout : ¬ ∀ u : Fin n, u ≠ ⟨m, hlt⟩ → (gathering n m).place u = .waiting := by
      intro hall
      have hnext := hall ⟨m + 1, hm⟩ (by simp)
      simp [gathering] at hnext
    have hself : (gathering n m).place ⟨m, hlt⟩ = .outside := by simp [gathering]
    simp only [machine, step, hself, if_neg hout]

/-- With two threads or more one can return before the completion function has begun. -/
lemma exists_early_return (hn : 2 ≤ n) :
    ∃ s : State n, machine.Reachable start s ∧ ¬ FinishedFirst s.log := by
  have hlast : n - 1 < n := by omega
  have hall : ∀ u : Fin n, u ≠ ⟨n - 1, hlast⟩ → (gathering n (n - 1)).place u = .waiting := by
    intro u hu
    have hlt : u.val < n - 1 := by
      have hne : u.val ≠ n - 1 := fun heq => hu (Fin.ext heq)
      omega
    simp [gathering, hlt]
  have hself : (gathering n (n - 1)).place ⟨n - 1, hlast⟩ = .outside := by simp [gathering]
  have hrelease : machine.Reachable start ((gathering n (n - 1)).release ⟨0, by omega⟩) := by
    refine (gathering_reachable hlast).tail (a := ⟨⟨n - 1, hlast⟩, .wait ⟨0, by omega⟩⟩)
      trivial ?_
    simp only [machine, step, hself, if_pos hall]
  refine ⟨_, hrelease.tail (a := ⟨⟨1, hn⟩, .leave⟩) trivial rfl, fun hfirst => ?_⟩
  have hmem := hfirst ⟨1, hn⟩ 1 [] (List.suffix_refl _)
  cases hmem

/-- Any number of threads, phases and interleavings: the completion function runs once a phase and
never twice at a time; it is over before a thread returns in the runs in which every thread is
patient, and in all runs only if there is one thread. -/
theorem osFlexBarrier_law {n : ℕ} (hn : 0 < n) :
    (∀ s : State n, machine.Reachable start s → Serialized s) ∧
    (∀ (as : List (Act n)) (s : State n), machine.run start as = some s →
      ((∀ pre u, pre <+: as → machine.run start pre = some u → Law u) ↔
        machine.Admits Patient start as)) ∧
    ((∀ s : State n, machine.Reachable start s → Law s) ↔ n = 1) := by
  refine ⟨fun s h => serialized_of_reachable h, fun as s h => law_iff_patient h, ?_⟩
  constructor
  · intro h
    by_contra hne
    obtain ⟨s, hs, hearly⟩ := exists_early_return (show 2 ≤ n by omega)
    exact hearly (h s hs).finished_first
  · rintro rfl s h
    exact law_of_one h

/-- Two threads; the one to which `sync_barrier_wait` returns `false` is back at once. -/
def hasty : List (Act 2) := [⟨0, .wait 0⟩, ⟨1, .wait 0⟩, ⟨1, .leave⟩]

lemma hasty_run : ∃ s : State 2, machine.Reachable start s ∧ s.log = [.returned 1 1] := by
  obtain ⟨s, hs, hp⟩ := Machine.exists_reachable_of_run (M := machine) (s := start) hasty
    (fun s => s.log == [.returned 1 1]) (by decide)
  exact ⟨s, hs, beq_iff_eq.mp hp⟩

theorem osFlexBarrier_law_two : (∃ s : State 2, s.log = [.returned 1 1] ∧ Serialized s) ∧
    ¬ ∀ s : State 2, machine.Reachable start s → Law s := by
  obtain ⟨hserialized, -, hiff⟩ := osFlexBarrier_law (n := 2) (by decide)
  obtain ⟨s, hs, hlog⟩ := hasty_run
  exact ⟨⟨s, hlog, hserialized s hs⟩, fun h => absurd (hiff.mp h) (by decide)⟩

/-- A thread has returned from the first phase and the completion function has not begun. -/
theorem hasty_not_law : ∃ s : State 2, machine.Reachable start s ∧ ¬ Law s := by
  obtain ⟨s, hs, hlog⟩ := hasty_run
  refine ⟨s, hs, fun h => ?_⟩
  have hmem := h.finished_first 1 1 [] (hlog ▸ List.suffix_refl _)
  cases hmem

end OsFlexBarrier

end Sync
