import Mathlib.Logic.Function.Basic
import Mathlib.Tactic.Common

/-!
# The life of a callback

What `_stop_state` promises about the callbacks, as a law about the events of a run, and an
abstract model that keeps it: every callback is in one of the stages of its life, and an event
takes it from one stage to the next. The model knows nothing of locks, lists and flags.
-/

namespace Sync

namespace StopState

/-! ### Events -/

/-- What happens to callback `n`, or on thread `t`. -/
inductive Event (T N : Type*)
  /-- The compare-exchange of `request_stop` that sets the flag. -/
  | requested (t : T)
  /-- `try_push_callback` put it into the list. -/
  | linked (n : N)
  /-- Its constructor is complete, and it is registered. -/
  | registered (n : N)
  /-- Its constructor is complete, without more. -/
  | refused (n : N)
  /-- Its execution starts in its constructor. -/
  | entered (n : N)
  /-- Its execution in its constructor ends, and the constructor is complete. -/
  | left (n : N)
  /-- `request_stop` took it off the list and repaired the new head. -/
  | popped (n : N) (head : Option N)
  /-- Its execution by `request_stop` starts. -/
  | started (n : N) (t : T)
  /-- Its execution by `request_stop` ends. -/
  | finished (n : N) (t : T)
  /-- `request_stop` set its flag `callback_finished_executing_`. -/
  | marked (n : N)
  /-- `erase_callback` took it out of the list. -/
  | unlinked (n : N)
  /-- `erase_callback` told `request_stop`, which runs it, that it is gone. -/
  | removed (n : N)
  /-- `erase_callback` returned. -/
  | erased (n : N) (t : T)
  /-- The `request_stop` that set the flag returned. -/
  | stopped (t : T)
  deriving DecidableEq, Repr

variable {T N : Type*}

/-- The callback that an event is about. -/
def Event.node : Event T N → Option N
  | .linked n | .registered n | .refused n | .entered n | .left n | .popped n _ | .started n _
  | .finished n _ | .marked n | .unlinked n | .removed n | .erased n _ => some n
  | .requested _ | .stopped _ => none

/-- The callbacks whose fields `request_stop` touches. -/
def Event.accesses : Event T N → List N
  | .popped n head => n :: head.toList
  | .started n _   => [n]
  | .marked n      => [n]
  | _              => []

variable [DecidableEq N]

/-- How often an execution of `n` started. -/
def executions (n : N) : List (Event T N) → ℕ
  | []               => 0
  | .entered m :: l   => executions n l + if m = n then 1 else 0
  | .started m _ :: l => executions n l + if m = n then 1 else 0
  | _ :: l            => executions n l

/-- How often an execution of `n` ended. -/
def completions (n : N) : List (Event T N) → ℕ
  | []                => 0
  | .left m :: l       => completions n l + if m = n then 1 else 0
  | .finished m _ :: l => completions n l + if m = n then 1 else 0
  | _ :: l             => completions n l

/-- The law of the events of a run, the newest first. -/
structure Law (log : List (Event T N)) : Prop where
  /-- No callback is executed twice. -/
  once : ∀ n, executions n log ≤ 1
  /-- A constructor that did not execute its callback was complete before the stop. -/
  early : ∀ n l, .registered n :: l <:+ log ∨ .refused n :: l <:+ log → ∀ t, .requested t ∉ l
  inline : ∀ n l, .left n :: l <:+ log → .entered n ∈ l
  /-- When `request_stop` returns, it has executed whatever was registered and not unlinked. -/
  all : ∀ t l, .stopped t :: l <:+ log → ∀ n, .registered n ∈ l → .unlinked n ∉ l →
    .finished n t ∈ l ∧ executions n l = 1 ∧ completions n l = 1
  /-- `request_stop` touches no callback after the return of its `erase_callback`. -/
  untouched : ∀ e l, e :: l <:+ log → ∀ n ∈ e.accesses, ∀ t, .erased n t ∉ l
  /-- An `erase_callback` on another thread returns only when the callback is not executing. -/
  quiet : ∀ n t l, .erased n t :: l <:+ log → .requested t ∉ l →
    completions n l = executions n l

/-! ### Stages -/

/-- The stages of a callback. -/
inductive Stage
  | fresh
  /-- In the list, its constructor not complete. -/
  | linking
  | linked
  | unlinked
  /-- Unlinked, and `erase_callback` has returned. -/
  | dropped
  | popped
  | running
  /-- Running, and erased on the thread that runs it. -/
  | removed
  | ran
  | marked
  /-- Executed, and `erase_callback` has returned. -/
  | gone
  /-- Executing in its constructor. -/
  | entered
  | left
  | refused
  deriving DecidableEq, Repr

namespace Stage

def executions : Stage → ℕ
  | running | removed | ran | marked | gone | entered | left => 1
  | _ => 0

def completions : Stage → ℕ
  | ran | marked | gone | left => 1
  | _ => 0

def isRegistered : Stage → Bool
  | linked | unlinked | dropped | popped | running | removed | ran | marked | gone => true
  | _ => false

/-- `erase_callback` may have returned. -/
def mayBeErased : Stage → Bool
  | dropped | removed | gone => true
  | _ => false

def isUnlinked : Stage → Bool
  | unlinked | dropped => true
  | _ => false

/-- Executed by `request_stop`. -/
def isDone : Stage → Bool
  | ran | marked | gone => true
  | _ => false

/-- In the list. -/
def isListed : Stage → Bool
  | linking | linked => true
  | _ => false

lemma isListed_iff {st : Stage} : st.isListed = true ↔ st = linking ∨ st = linked := by
  cases st <;> simp [isListed]

/-- In the hands of `request_stop`. -/
def isCurrent : Stage → Bool
  | popped | running | removed | ran => true
  | _ => false

end Stage

/-! ### The abstract model -/

/-- The stage of every callback, and the thread that requested the stop. -/
structure Life (T N : Type*) where
  stage : N → Stage
  winner : Option T

namespace Life

def start : Life T N := ⟨fun _ => .fresh, none⟩

def set (L : Life T N) (n : N) (st : Stage) : Life T N :=
  { L with stage := Function.update L.stage n st }

@[simp] lemma set_winner (L : Life T N) (n : N) (st : Stage) :
    (L.set n st).winner = L.winner := rfl

@[simp] lemma set_stage (L : Life T N) (n : N) (st : Stage) : (L.set n st).stage n = st :=
  Function.update_self ..

@[simp] lemma set_stage_of_ne (L : Life T N) {n m : N} (st : Stage) (h : m ≠ n) :
    (L.set n st).stage m = L.stage m :=
  Function.update_of_ne h ..

@[simp] lemma set_self (L : Life T N) (n : N) : L.set n (L.stage n) = L := by
  simp [set]

/-- The list is empty. -/
def NoneListed (L : Life T N) : Prop := ∀ n, (L.stage n).isListed = false

/-- The events that may happen, and where they lead. -/
inductive Step (L : Life T N) : Event T N → Life T N → Prop
  | requested (t : T) (hw : L.winner = none) : Step L (.requested t) { L with winner := some t }
  | linked (n : N) (hn : L.stage n = .fresh) (hw : L.winner = none) :
      Step L (.linked n) (L.set n .linking)
  | registered (n : N) (hn : L.stage n = .linking) (hw : L.winner = none) :
      Step L (.registered n) (L.set n .linked)
  | refused (n : N) (hn : L.stage n = .fresh) (hw : L.winner = none) :
      Step L (.refused n) (L.set n .refused)
  | entered (n : N) (hn : L.stage n = .fresh) :
      Step L (.entered n) (L.set n .entered)
  | left (n : N) (hn : L.stage n = .entered) :
      Step L (.left n) (L.set n .left)
  | popped (n : N) (head : Option N) (hn : (L.stage n).isListed = true)
      (hh : ∀ m ∈ head, (L.stage m).isListed = true) :
      Step L (.popped n head) (L.set n .popped)
  | started (n : N) (t : T) (hn : L.stage n = .popped) :
      Step L (.started n t) (L.set n .running)
  | finished (n : N) (t : T) (hn : L.stage n = .running) (hw : L.winner = some t) :
      Step L (.finished n t) (L.set n .ran)
  | finishedRemoved (n : N) (t : T) (hn : L.stage n = .removed) (hw : L.winner = some t) :
      Step L (.finished n t) (L.set n .gone)
  | marked (n : N) (hn : L.stage n = .ran) :
      Step L (.marked n) (L.set n .marked)
  | unlinked (n : N) (hn : L.stage n = .linked) :
      Step L (.unlinked n) (L.set n .unlinked)
  | removed (n : N) (hn : L.stage n = .running) :
      Step L (.removed n) (L.set n .removed)
  | erasedUnlinked (n : N) (t : T) (hn : L.stage n = .unlinked) :
      Step L (.erased n t) (L.set n .dropped)
  | erasedMarked (n : N) (t : T) (hn : L.stage n = .marked) :
      Step L (.erased n t) (L.set n .gone)
  | erasedRemoved (n : N) (t : T) (hn : L.stage n = .removed) (hw : L.winner = some t) :
      Step L (.erased n t) L
  | stopped (t : T) (hw : L.winner = some t)
      (hl : L.NoneListed) (hn : ∀ n, (L.stage n).isCurrent = false) : Step L (.stopped t) L

/-- An event leads to one state only. -/
lemma Step.unique {L L₁ L₂ : Life T N} {e : Event T N} (h₁ : L.Step e L₁) (h₂ : L.Step e L₂) :
    L₁ = L₂ := by
  cases h₁ <;> cases h₂ <;> first
    | rfl
    | simp_all

lemma Step.linked_of_unlinked {L L' : Life T N} {n : N} (h : L.Step (.unlinked n) L') :
    L.stage n = .linked := by
  cases h with
  | unlinked _ hn => exact hn

/-- The events of a run of the abstract model, the newest first, and its last state. -/
inductive Runs : List (Event T N) → Life T N → Prop
  | nil : Runs [] start
  | cons {log : List (Event T N)} {L L' : Life T N} {e : Event T N} (h : Runs log L)
      (hs : L.Step e L') : Runs (e :: log) L'

lemma Runs.unique {log : List (Event T N)} {L L' : Life T N} (h : Runs log L)
    (h' : Runs log L') : L = L' := by
  induction h generalizing L' with
  | nil =>
    cases h'
    rfl
  | cons _ hs ih =>
    cases h' with
    | cons h' hs' =>
      obtain rfl := ih h'
      exact hs.unique hs'

lemma Runs.tail {log : List (Event T N)} {L L' : Life T N} {e : Event T N}
    (h : Runs (e :: log) L') (h' : Runs log L) : L.Step e L' := by
  cases h with
  | cons h hs =>
    obtain rfl := h.unique h'
    exact hs

/-! ### The model keeps the law -/

/-- What the stage of a callback says about the events. -/
structure Facts (w : Option T) (n : N) (st : Stage) (log : List (Event T N)) : Prop where
  executions_eq : executions n log = st.executions
  completions_eq : completions n log = st.completions
  registered : .registered n ∈ log → st.isRegistered = true
  erased : ∀ t, .erased n t ∈ log → st.mayBeErased = true
  unlinked : st.isUnlinked = true → .unlinked n ∈ log
  entered : st = .entered → .entered n ∈ log
  finished : st.isDone = true → ∃ t, w = some t ∧ .finished n t ∈ log

/-- An event about something else does not matter. -/
lemma Facts.cons {w : Option T} {n : N} {st : Stage} {log : List (Event T N)} {e : Event T N}
    (h : Facts w n st log) (he : e.node ≠ some n) : Facts w n st (e :: log) := by
  constructor
  · rw [← h.executions_eq]
    cases e <;> simp_all [executions, Event.node]
  · rw [← h.completions_eq]
    cases e <;> simp_all [completions, Event.node]
  · intro hr
    refine h.registered ((List.mem_cons.mp hr).resolve_left ?_)
    rintro rfl
    exact he rfl
  · intro t hr
    refine h.erased t ((List.mem_cons.mp hr).resolve_left ?_)
    rintro rfl
    exact he rfl
  · exact fun hu => List.mem_cons_of_mem _ (h.unlinked hu)
  · exact fun hu => List.mem_cons_of_mem _ (h.entered hu)
  · intro hd
    obtain ⟨t, hw, ht⟩ := h.finished hd
    exact ⟨t, hw, List.mem_cons_of_mem _ ht⟩

/-- The model and the events agree. -/
structure Agrees (L : Life T N) (log : List (Event T N)) : Prop where
  winner_iff : ∀ t, .requested t ∈ log ↔ L.winner = some t
  facts : ∀ n, Facts L.winner n (L.stage n) log

namespace Agrees

variable {L L' : Life T N} {log : List (Event T N)} {e : Event T N}

lemma initial : Agrees (start : Life T N) [] := by
  constructor
  · simp [start]
  · intro n
    constructor <;> simp [executions, completions, start, Stage.executions, Stage.completions,
      Stage.isUnlinked, Stage.isDone]

/-- An event about `n` takes it to stage `st`. -/
lemma set (h : Agrees L log) {n : N} {st : Stage} (he : e.node = some n)
    (hn : Facts L.winner n st (e :: log)) : Agrees (L.set n st) (e :: log) := by
  constructor
  · intro t
    refine (List.mem_cons.trans (or_iff_right ?_)).trans (h.winner_iff t)
    rintro rfl
    simp [Event.node] at he
  · intro m
    by_cases hm : m = n
    · subst hm
      simpa [Life.set] using hn
    · have hne : e.node ≠ some m := by simpa [he] using Ne.symm hm
      simpa [Life.set, hm] using (h.facts m).cons hne

theorem step (h : Agrees L log) (hs : L.Step e L') : Agrees L' (e :: log) := by
  cases hs with
  | requested t hw =>
    constructor
    · intro u
      rw [List.mem_cons, h.winner_iff u, hw]
      simp [eq_comm]
    · intro n
      have hf := (h.facts n).cons (e := .requested t) (by simp [Event.node])
      refine ⟨hf.executions_eq, hf.completions_eq, hf.registered, hf.erased, hf.unlinked,
        hf.entered, fun hd => ?_⟩
      obtain ⟨u, hu, -⟩ := hf.finished hd
      simp [hw] at hu
  | stopped t hw hl hn =>
    refine ⟨fun u => ?_, fun n => (h.facts n).cons (by simp [Event.node])⟩
    rw [← h.winner_iff u]
    simp
  | erasedRemoved n t hn hw =>
    have hf := h.facts n
    refine ⟨fun u => ?_, fun m => ?_⟩
    · rw [← h.winner_iff u]
      simp
    · by_cases hm : m = n
      · subst hm
        rw [hn] at hf ⊢
        obtain ⟨hexec, hcompl, hreg, herased, hunlinked, hentered, hfinished⟩ := hf
        constructor <;> simp_all [executions, completions, Stage.isRegistered, Stage.mayBeErased,
          Stage.isUnlinked, Stage.isDone]
      · exact (h.facts m).cons (by simpa [Event.node] using Ne.symm hm)
  | popped n head hn hh =>
    have hf := h.facts n
    obtain ⟨hexec, hcompl, hreg, herased, hunlinked, hentered, hfinished⟩ := hf
    refine h.set rfl ?_
    rcases Stage.isListed_iff.mp hn with hn | hn <;>
      constructor <;> simp_all [executions, completions, Stage.executions, Stage.completions,
        Stage.isRegistered, Stage.mayBeErased, Stage.isUnlinked, Stage.isDone]
  | linked n hn hw | registered n hn hw | refused n hn hw | entered n hn | left n hn
  | started n t hn | finished n t hn hw | finishedRemoved n t hn hw
  | marked n hn | unlinked n hn | removed n hn | erasedUnlinked n t hn | erasedMarked n t hn =>
    have hf := h.facts n
    rw [hn] at hf
    obtain ⟨hexec, hcompl, hreg, herased, hunlinked, hentered, hfinished⟩ := hf
    refine h.set rfl ?_
    constructor <;> simp_all [executions, completions, Stage.executions, Stage.completions,
      Stage.isRegistered, Stage.mayBeErased, Stage.isUnlinked, Stage.isDone]

lemma not_erased (h : Agrees L log) {n : N} {t : T} (hn : (L.stage n).mayBeErased = false) :
    .erased n t ∉ log := by
  intro hmem
  have := (h.facts n).erased t hmem
  simp [hn] at this

lemma not_erased_of_listed (h : Agrees L log) {n : N} {t : T}
    (hn : (L.stage n).isListed = true) : .erased n t ∉ log := by
  refine h.not_erased ?_
  rcases Stage.isListed_iff.mp hn with hn | hn <;> rw [hn] <;> rfl

lemma not_requested (h : Agrees L log) (hw : L.winner = none) (t : T) : .requested t ∉ log := by
  rw [h.winner_iff, hw]
  simp

/-- An event that may happen obeys the law. -/
theorem law_step (h : Agrees L log) (hlaw : Law log) (hs : L.Step e L') : Law (e :: log) := by
  constructor
  · intro n
    rw [((h.step hs).facts n).executions_eq]
    cases L'.stage n <;> simp [Stage.executions]
  · intro n l hsuff t
    have hcases : (.registered n :: l = e :: log ∨ .refused n :: l = e :: log) ∨
        (.registered n :: l <:+ log ∨ .refused n :: l <:+ log) := by
      rw [List.suffix_cons_iff, List.suffix_cons_iff] at hsuff
      tauto
    rcases hcases with (heq | heq) | htail
    · cases heq
      cases hs with
      | registered _ hn hw => exact h.not_requested hw t
    · cases heq
      cases hs with
      | refused _ hn hw => exact h.not_requested hw t
    · exact hlaw.early n l htail t
  · intro n l hsuff
    rcases List.suffix_cons_iff.mp hsuff with heq | htail
    · cases heq
      cases hs with
      | left _ hn => exact (h.facts n).entered hn
    · exact hlaw.inline n l htail
  · intro t l hsuff
    rcases List.suffix_cons_iff.mp hsuff with heq | htail
    · cases heq
      cases hs with
      | stopped _ hw hl hn =>
        intro n hreg hunl
        have hf := h.facts n
        have hregistered := hf.registered hreg
        have hlinked := mt hf.unlinked hunl
        have hlisted := hl n
        have hcurrent := hn n
        -- what is registered and neither unlinked, listed nor current is over
        have hstage : L.stage n = .marked ∨ L.stage n = .gone := by
          cases hst : L.stage n <;> simp_all [Stage.isRegistered, Stage.isUnlinked,
            Stage.isListed, Stage.isCurrent]
        obtain ⟨u, hu, hfin⟩ := hf.finished (by rcases hstage with h | h <;> simp [h, Stage.isDone])
        obtain rfl : t = u := Option.some.inj (hw.symm.trans hu)
        refine ⟨hfin, ?_, ?_⟩
        · rw [hf.executions_eq]
          rcases hstage with h | h <;> simp [h, Stage.executions]
        · rw [hf.completions_eq]
          rcases hstage with h | h <;> simp [h, Stage.completions]
    · exact hlaw.all t l htail
  · intro e' l hsuff n hn t
    rcases List.suffix_cons_iff.mp hsuff with heq | htail
    · cases heq
      cases hs with
      | popped m head hm hh =>
        rcases List.mem_cons.mp hn with rfl | hn
        · exact h.not_erased_of_listed hm
        · exact h.not_erased_of_listed (hh n (by simpa using hn))
      | started m u hm =>
        obtain rfl := List.mem_singleton.mp hn
        exact h.not_erased (by simp [hm, Stage.mayBeErased])
      | marked m hm =>
        obtain rfl := List.mem_singleton.mp hn
        exact h.not_erased (by simp [hm, Stage.mayBeErased])
      | _ => simp [Event.accesses] at hn
    · exact hlaw.untouched e' l htail n hn t
  · intro n t l hsuff
    rcases List.suffix_cons_iff.mp hsuff with heq | htail
    · cases heq
      have hf := h.facts n
      intro hother
      rw [hf.executions_eq, hf.completions_eq]
      cases hs with
      | erasedUnlinked _ _ hn => rw [hn]; rfl
      | erasedMarked _ _ hn => rw [hn]; rfl
      | erasedRemoved _ _ hn hw => exact absurd ((h.winner_iff t).mpr hw) hother
    · exact hlaw.quiet n t l htail

end Agrees

lemma law_nil : Law ([] : List (Event T N)) := by
  constructor <;> simp [executions]

/-- Every run of the model obeys the law. -/
theorem Runs.law {log : List (Event T N)} {L : Life T N} (h : Runs log L) :
    Agrees L log ∧ Law log := by
  induction h with
  | nil => exact ⟨Agrees.initial, law_nil⟩
  | cons _ hs ih => exact ⟨ih.1.step hs, ih.1.law_step ih.2 hs⟩

end Life

end StopState

end Sync
