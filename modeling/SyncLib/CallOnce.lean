import SyncLib.Core.Monitor

/-!
# `once_flag` and `call_once`

The flag is set before the function runs, so it tells a later caller that the function was
started, not that it is over: at most one function ever runs, but a caller that loses the
compare-exchange while the function runs returns before its end (`early_return`).
-/

namespace Sync

open Core

namespace CallOnce

/-! ### The threads -/

inductive Place
  | idle
  /-- After the compare-exchange that set the flag, before the function. -/
  | won
  /-- In the function. -/
  | running
  deriving DecidableEq, Repr

/-- A call, up to its compare-exchange, the next step of a call, or the function throws. -/
inductive Move
  | callOnce
  | proceed
  | throw
  deriving DecidableEq, Repr

inductive Event (T : Type*)
  | started (t : T)
  | finished (t : T)
  | threw (t : T)
  | returned (t : T)
  deriving DecidableEq, Repr

/-- `flag_`, with the events so far, the newest first. -/
structure Shared (T : Type*) where
  flag : Bool
  log : List (Event T)

/-- `compare_exchange_strong(called, true)` with `called` false: the new flag, and the result. -/
def compareExchange (flag : Bool) : Bool × Bool := if flag then (true, false) else (true, true)

variable {T : Type*}

/-- One step of a thread. The compare-exchange that fails is the last step of its call, and so
is the end of the function. -/
def next (t : T) (s : Shared T) : Place → Move → Option (Shared T × Place × Signal Empty)
  | .idle, .callOnce =>
    let r := compareExchange s.flag
    if r.2 then some ({ s with flag := r.1 }, .won, .none)
    else some ({ flag := r.1, log := .returned t :: s.log }, .idle, .none)
  | .won, .proceed => some ({ s with log := .started t :: s.log }, .running, .none)
  | .running, .proceed =>
    some ({ s with log := .returned t :: .finished t :: s.log }, .idle, .none)
  | .running, .throw => some ({ s with log := .threw t :: s.log }, .idle, .none)
  | _, _ => none

/-- All threads around one flag. -/
def monitor : Monitor T (Shared T) Place Empty Move where
  next := next
  asleepOn _ := none
  wake p := p

/-- `once_flag() = default`, all threads outside `call_once`. -/
def start : Config T (Shared T) Place := ⟨⟨false, []⟩, fun _ => .idle⟩

/-- The steps of the threads, one constructor for each branch. -/
inductive Step [DecidableEq T] (s : Config T (Shared T) Place) :
    T → Move → Config T (Shared T) Place → Prop
  | win {t : T} (hp : s.pc t = .idle) (hf : s.shared.flag = false) :
      Step s t .callOnce ⟨⟨true, s.shared.log⟩, Function.update s.pc t .won⟩
  | lose {t : T} (hp : s.pc t = .idle) (hf : s.shared.flag = true) :
      Step s t .callOnce ⟨⟨true, .returned t :: s.shared.log⟩, Function.update s.pc t .idle⟩
  | begin {t : T} (hp : s.pc t = .won) :
      Step s t .proceed
        ⟨⟨s.shared.flag, .started t :: s.shared.log⟩, Function.update s.pc t .running⟩
  | finish {t : T} (hp : s.pc t = .running) :
      Step s t .proceed
        ⟨⟨s.shared.flag, .returned t :: .finished t :: s.shared.log⟩,
          Function.update s.pc t .idle⟩
  | throw {t : T} (hp : s.pc t = .running) :
      Step s t .throw
        ⟨⟨s.shared.flag, .threw t :: s.shared.log⟩, Function.update s.pc t .idle⟩

section

variable [Fintype T] [DecidableEq T] {s s' : Config T (Shared T) Place} {a : Act T Move}

/-- Every step of the interleaving is one of these. -/
theorem step_of_machine (hs : monitor.machine.step s a = some s') :
    Step s a.tid a.move s' := by
  obtain ⟨t, m, w⟩ := a
  obtain ⟨sh, p, sig, hn, hd⟩ := Monitor.step_eq_some.mp hs
  change next t s.shared (s.pc t) m = some (sh, p, sig) at hn
  cases sig with
  | one c => exact c.elim
  | all c => exact c.elim
  | none =>
    obtain ⟨-, rfl⟩ := Monitor.deliver_none.mp hd
    cases hp : s.pc t <;> cases m <;> simp only [hp, next, reduceCtorEq] at hn
    case idle.callOnce =>
      cases hf : s.shared.flag <;>
        simp only [hf, compareExchange, Bool.false_eq_true, if_true, if_false, Option.some.injEq,
          Prod.mk.injEq] at hn <;>
        obtain ⟨rfl, rfl, -⟩ := hn
      · exact .win hp hf
      · exact .lose hp hf
    all_goals
      simp only [Option.some.injEq, Prod.mk.injEq] at hn
      obtain ⟨rfl, rfl, -⟩ := hn
    · exact .begin hp
    · exact .finish hp
    · exact .throw hp

end

/-! ### The functions that ran -/

def starts : List (Event T) → ℕ
  | []              => 0
  | .started _ :: l => starts l + 1
  | _ :: l          => starts l

def finishes : List (Event T) → ℕ
  | []               => 0
  | .finished _ :: l => finishes l + 1
  | _ :: l           => finishes l

/-- No function was started after another, and whenever a call returned, one function had been
started and was over. -/
def OnceLaw : List (Event T) → Prop
  | []               => True
  | .started _ :: l  => starts l = 0 ∧ OnceLaw l
  | .returned _ :: l => starts l = 1 ∧ finishes l = 1 ∧ OnceLaw l
  | _ :: l           => OnceLaw l

/-- Nobody is between its compare-exchange and the end of its function. -/
def Quiet (s : Config T (Shared T) Place) : Prop :=
  ∀ t, s.pc t ≠ .won ∧ s.pc t ≠ .running

/-- A compare-exchange finds nobody between its own and the end of its function. -/
def CallsWhenQuiet (s : Config T (Shared T) Place) (a : Act T Move) : Prop :=
  a.move = .callOnce → Quiet s

/-- The place of a thread that set the flag and has not started its function. -/
def Place.toStart : Place → ℕ
  | .won => 1
  | _    => 0

/-- The place of a thread in its function. -/
def Place.toFinish : Place → ℕ
  | .running => 1
  | _        => 0

/-- The flag stands for the one call that won, which starts one function. -/
structure Won [Fintype T] (s : Config T (Shared T) Place) : Prop where
  flag : starts s.shared.log + tally Place.toStart s.pc = s.shared.flag.toNat
  finish : finishes s.shared.log + tally Place.toFinish s.pc = starts s.shared.log

section

variable [Fintype T]

lemma Won.start : Won (start : Config T (Shared T) Place) := by
  constructor <;> simp [CallOnce.start, starts, finishes, tally_eq_zero_iff, Place.toStart,
    Place.toFinish]

/-- Once the flag is set, one function is over exactly when the place of nobody is in between. -/
lemma Won.quiet_iff {s : Config T (Shared T) Place} (h : Won s) (hf : s.shared.flag = true) :
    Quiet s ↔ starts s.shared.log = 1 ∧ finishes s.shared.log = 1 := by
  have hflag := h.flag
  have hfinish := h.finish
  rw [hf, Bool.toNat_true] at hflag
  constructor
  · intro hq
    have h₁ : tally Place.toStart s.pc = 0 := tally_eq_zero_iff.mpr fun t => by
      cases hp : s.pc t <;> simp_all [Quiet, Place.toStart]
    have h₂ : tally Place.toFinish s.pc = 0 := tally_eq_zero_iff.mpr fun t => by
      cases hp : s.pc t <;> simp_all [Quiet, Place.toFinish]
    omega
  · rintro ⟨h₁, h₂⟩ t
    have hstart := le_tally Place.toStart s.pc t
    have hrun := le_tally Place.toFinish s.pc t
    constructor <;> intro hp <;> simp only [hp, Place.toStart, Place.toFinish] at hstart hrun <;>
      omega

variable [DecidableEq T] {s s' : Config T (Shared T) Place} {a : Act T Move}

lemma Won.step (h : Won s) (hs : monitor.machine.step s a = some s') (ht : a.move ≠ .throw) :
    Won s' := by
  have hstep := step_of_machine hs
  obtain ⟨t, m, w⟩ := a
  simp only at hstep ht
  have hflag := h.flag
  have hfinish := h.finish
  have hstart := tally_update Place.toStart s.pc t
  have hrun := tally_update Place.toFinish s.pc t
  cases hstep with
  | win hp hf =>
    specialize hstart .won
    specialize hrun .won
    simp only [hp, hf, Place.toStart, Place.toFinish, Bool.toNat_false] at hstart hrun hflag
    constructor
    · simp only [Bool.toNat_true]; omega
    · simp only; omega
  | lose hp hf =>
    specialize hstart .idle
    specialize hrun .idle
    simp only [hp, hf, Place.toStart, Place.toFinish] at hstart hrun hflag
    constructor <;> simp only [starts, finishes] <;> omega
  | begin hp =>
    specialize hstart .running
    specialize hrun .running
    simp only [hp, Place.toStart, Place.toFinish] at hstart hrun
    constructor <;> simp only [starts, finishes] <;> omega
  | finish hp =>
    specialize hstart .idle
    specialize hrun .idle
    simp only [hp, Place.toStart, Place.toFinish] at hstart hrun
    constructor <;> simp only [starts, finishes] <;> omega
  | throw hp => exact absurd rfl ht

/-- The law is kept by every step but a compare-exchange that loses before the function is
over. -/
lemma onceLaw_step (h : Won s) (hs : monitor.machine.step s a = some s') (ht : a.move ≠ .throw) :
    OnceLaw s'.shared.log ↔ OnceLaw s.shared.log ∧ CallsWhenQuiet s a := by
  have hstep := step_of_machine hs
  obtain ⟨t, m, w⟩ := a
  simp only at hstep ht
  have hflag := h.flag
  have hfinish := h.finish
  have hstart := le_tally Place.toStart s.pc t
  have hrun := le_tally Place.toFinish s.pc t
  have hle := Bool.toNat_le s.shared.flag
  cases hstep with
  | win hp hf =>
    -- while the flag is clear nobody has won
    rw [hf, Bool.toNat_false] at hflag
    have hquiet : Quiet s := by
      intro u
      have hu := le_tally Place.toStart s.pc u
      have hu' := le_tally Place.toFinish s.pc u
      constructor <;> intro hp <;> simp only [hp, Place.toStart, Place.toFinish] at hu hu' <;>
        omega
    simp [CallsWhenQuiet, hquiet]
  | lose hp hf =>
    have hok : CallsWhenQuiet s ⟨t, .callOnce, w⟩ ↔ Quiet s := ⟨fun h => h rfl, fun h _ => h⟩
    rw [OnceLaw, hok, h.quiet_iff hf]
    tauto
  | begin hp =>
    simp only [hp, Place.toStart] at hstart
    simp only [OnceLaw, CallsWhenQuiet, reduceCtorEq, false_imp_iff, and_true,
      and_iff_right_iff_imp]
    omega
  | finish hp =>
    simp only [hp, Place.toFinish] at hrun
    simp only [OnceLaw, starts, finishes, CallsWhenQuiet, reduceCtorEq, false_imp_iff, and_true]
    have h₁ : starts s.shared.log = 1 := by omega
    have h₂ : finishes s.shared.log + 1 = 1 := by omega
    simp [h₁, h₂]
  | throw hp => exact absurd rfl ht

variable {acts : List (Act T Move)}

lemma won_of_run (hrun : monitor.machine.run start acts = some s)
    (ht : ∀ a ∈ acts, a.move ≠ .throw) : Won s := by
  induction acts using List.reverseRecOn generalizing s with
  | nil => cases hrun; exact Won.start
  | append_singleton acts a ih =>
    obtain ⟨s₁, hrun₁, hs⟩ := Machine.run_concat.mp hrun
    exact (ih hrun₁ fun b hb => ht b (by simp [hb])).step hs (ht a (by simp))

/-- In every run without exceptions one function at most is started, and every call returns
after its end, exactly when no compare-exchange is executed between the winner's and the end of
the winner's function. -/
theorem onceLaw_iff (hrun : monitor.machine.run start acts = some s)
    (ht : ∀ a ∈ acts, a.move ≠ .throw) :
    OnceLaw s.shared.log ↔ monitor.machine.Admits CallsWhenQuiet start acts := by
  induction acts using List.reverseRecOn generalizing s with
  | nil =>
    cases hrun
    exact ⟨fun _ => Machine.admits_nil, fun _ => trivial⟩
  | append_singleton acts a ih =>
    obtain ⟨s₁, hrun₁, hs⟩ := Machine.run_concat.mp hrun
    have ht₁ : ∀ b ∈ acts, b.move ≠ .throw := fun b hb => ht b (by simp [hb])
    rw [onceLaw_step (won_of_run hrun₁ ht₁) hs (ht a (by simp)), ih hrun₁ ht₁,
      Machine.admits_concat]
    simp [hrun₁]

end

/-- The second caller returns while the function of the first one has not even started. -/
theorem early_return :
    ∃ s, (monitor (T := Fin 2)).machine.run start
        [⟨0, .callOnce, none⟩, ⟨1, .callOnce, none⟩] = some s ∧
      Event.returned 1 ∈ s.shared.log ∧ ¬ OnceLaw s.shared.log := by
  refine ⟨_, rfl, List.mem_cons_self, fun h => ?_⟩
  exact absurd h.1 (by decide)

/-- Two callers one after the other. -/
theorem onceLaw_iff_two :
    ∃ s, (monitor (T := Fin 2)).machine.run start
        [⟨0, .callOnce, none⟩, ⟨0, .proceed, none⟩, ⟨0, .proceed, none⟩, ⟨1, .callOnce, none⟩]
        = some s ∧
      (OnceLaw s.shared.log ↔ (monitor (T := Fin 2)).machine.Admits CallsWhenQuiet start
        [⟨0, .callOnce, none⟩, ⟨0, .proceed, none⟩, ⟨0, .proceed, none⟩,
          ⟨1, .callOnce, none⟩]) :=
  ⟨_, rfl, onceLaw_iff rfl (by decide)⟩

/-! ### Calls one after the other -/

/-- The flag after a call by `t` that nobody else interferes with, and what it adds to the log.
`throws` tells how the function ends if it runs; `call_once` does not catch an exception. -/
def call (t : T) (throws : Bool) (s : Shared T) : Shared T :=
  let r := compareExchange s.flag
  if r.2 then
    ⟨r.1, (if throws then [.threw t] else [.returned t, .finished t]) ++ .started t :: s.log⟩
  else ⟨r.1, .returned t :: s.log⟩

/-- After the calls of `cs`, each with its thread and how its function ends. -/
def afterCalls (cs : List (T × Bool)) : Shared T :=
  cs.foldl (fun s c => call c.1 c.2 s) ⟨false, []⟩

/-- The call that comes after `pre` runs its function. -/
def RunsFunction (pre : List (T × Bool)) (c : T × Bool) : Prop :=
  starts (afterCalls (pre ++ [c])).log = starts (afterCalls pre).log + 1

/-- Functions are run by the calls up to the first whose function returns, and one that throws
leaves the flag as it was. -/
structure RetryLaw (cs : List (T × Bool)) : Prop where
  runs : ∀ pre c, pre ++ [c] <+: cs → (RunsFunction pre c ↔ ∀ d ∈ pre, d.2 = true)
  flag : ∀ pre c, pre ++ [c] <+: cs → RunsFunction pre c → c.2 = true →
    (afterCalls (pre ++ [c])).flag = (afterCalls pre).flag

@[simp] lemma call_flag (t : T) (throws : Bool) (s : Shared T) :
    (call t throws s).flag = true := by
  cases hf : s.flag <;> simp [call, compareExchange, hf]

lemma starts_call (t : T) (throws : Bool) (s : Shared T) :
    starts (call t throws s).log = starts s.log + (!s.flag).toNat := by
  cases hf : s.flag <;> cases throws <;> simp [call, compareExchange, hf, starts]

lemma afterCalls_concat (pre : List (T × Bool)) (c : T × Bool) :
    afterCalls (pre ++ [c]) = call c.1 c.2 (afterCalls pre) := by
  simp [afterCalls]

/-- The first call sets the flag, however its function ends. -/
lemma afterCalls_flag (cs : List (T × Bool)) : (afterCalls cs).flag = true ↔ cs ≠ [] := by
  induction cs using List.reverseRecOn with
  | nil => simp [afterCalls]
  | append_singleton cs c _ => simp [afterCalls_concat]

/-- Only the first call runs its function. -/
lemma runsFunction_iff {pre : List (T × Bool)} {c : T × Bool} : RunsFunction pre c ↔ pre = [] := by
  rw [RunsFunction, afterCalls_concat, starts_call]
  have hflag := afterCalls_flag pre
  cases hf : (afterCalls pre).flag <;> simp_all

/-- The law holds exactly when there is no call or the function of the first one returns. -/
theorem retryLaw_iff (cs : List (T × Bool)) : RetryLaw cs ↔ ∀ c ∈ cs.head?, c.2 = false := by
  cases cs with
  | nil =>
    refine iff_of_true ⟨fun pre c hpre => ?_, fun pre c hpre => ?_⟩ (by simp) <;>
      simp at hpre
  | cons c₀ cs =>
    simp only [List.head?_cons, Option.mem_some_iff, forall_eq']
    constructor
    · intro h
      by_contra hthrows
      have hfirst : [] ++ [c₀] <+: c₀ :: cs := ⟨cs, rfl⟩
      have hflag := h.flag [] c₀ hfirst (runsFunction_iff.mpr rfl) (by simpa using hthrows)
      simp [afterCalls] at hflag
    · intro hret
      -- after the first call nothing runs any more, and it is the one that returned
      constructor
      · intro pre c hpre
        rw [runsFunction_iff]
        cases pre with
        | nil => simp
        | cons d pre =>
          obtain rfl : d = c₀ := (List.cons_prefix_cons.mp hpre).1
          simp [hret]
      · intro pre c hpre hruns hc
        rw [runsFunction_iff] at hruns
        subst hruns
        obtain rfl : c = c₀ := (List.cons_prefix_cons.mp hpre).1
        simp [hret] at hc

/-- The moves of a call that finds the flag clear or set. -/
def callMoves (flag throws : Bool) : List Move :=
  if flag then [.callOnce] else [.callOnce, .proceed, if throws then .throw else .proceed]

/-- A call that nobody interferes with is what its thread does step by step. -/
theorem run_call [Fintype T] [DecidableEq T] (t : T) (throws : Bool) (s : Shared T) :
    monitor.machine.run ⟨s, fun _ => .idle⟩
        ((callMoves s.flag throws).map fun m => (⟨t, m, none⟩ : Act T Move)) =
      some ⟨call t throws s, fun _ => .idle⟩ := by
  cases hf : s.flag with
  | true =>
    simp [callMoves, Machine.run_cons, Monitor.machine, Monitor.deliver, monitor, next, call,
      compareExchange, hf]
  | false =>
    cases throws <;>
      simp [callMoves, Machine.run_cons, Monitor.machine, Monitor.deliver, monitor, next, call,
        compareExchange, hf]

/-- The threads can make the calls one after the other. -/
theorem reachable_afterCalls [Fintype T] [DecidableEq T] (cs : List (T × Bool)) :
    monitor.machine.Reachable start ⟨afterCalls cs, fun _ => .idle⟩ := by
  induction cs using List.reverseRecOn with
  | nil => exact .refl
  | append_singleton cs c ih =>
    rw [afterCalls_concat]
    exact Machine.reachable_of_run ih (run_call c.1 c.2 (afterCalls cs))

/-- The function of the first call throws, and the one of the second call never runs. -/
theorem never_retried :
    ¬ RunsFunction [((), true)] ((), false) ∧ ¬ RetryLaw [((), true), ((), false)] := by
  have hnot : ¬ RunsFunction [((), true)] ((), false) := by
    unfold RunsFunction
    decide
  refine ⟨hnot, fun h => hnot ?_⟩
  exact (h.runs [((), true)] ((), false) (List.prefix_refl _)).mpr (by decide)

end CallOnce

end Sync
