import SyncLib.Barrier.Counting

/-!
# `flex_barrier`

The last arrival of a phase calls the completion function and may replace `threads_`, but it
leaves `count_` at `0`: the class agrees with `barrier`, and keeps the law of its phases, exactly
as long as no phase ends.
-/

namespace Sync

open Core

namespace BarrierClass

variable {T : Type*}

def Move.isCall : Move → Bool
  | .arriveAndWait | .arriveAndDrop => true
  | _                               => false

/-- The calls of the two methods in a schedule. -/
def callsIn (acts : List (Act T Move)) : ℕ := acts.countP fun a => a.move.isCall

lemma callsIn_concat (acts : List (Act T Move)) (a : Act T Move) :
    callsIn (acts ++ [a]) = callsIn acts + if a.move.isCall then 1 else 0 := by
  simp [callsIn, List.countP_append, List.countP_cons]

/-- The call that follows the first `m` calls of a schedule. -/
lemma exists_prefix_calls (acts : List (Act T Move)) {m : ℕ} (h : m < callsIn acts) :
    ∃ pre a, pre ++ [a] <+: acts ∧ callsIn pre = m ∧ a.move.isCall = true := by
  induction acts using List.reverseRecOn with
  | nil => simp [callsIn] at h
  | append_singleton acts a ih =>
    by_cases hm : m < callsIn acts
    · obtain ⟨pre, b, hpre, hcalls, hb⟩ := ih hm
      exact ⟨pre, b, hpre.trans (List.prefix_append _ _), hcalls, hb⟩
    · rw [callsIn_concat] at h
      split_ifs at h with ha
      · exact ⟨acts, a, List.prefix_refl _, by omega, ha⟩
      · omega

end BarrierClass

namespace FlexBarrier

open BarrierClass

lemma arriveAndWait_last {compl : ℕ → ℤ} {b b' : FlexBarrier} :
    b.arriveAndWait compl = (b', true) ↔
      b.count = 1 ∧ b' = { b with count := 0 }.complete compl := by
  simp only [arriveAndWait, sub_eq_zero]
  split_ifs with h <;> simp [h, eq_comm]

lemma arriveAndWait_notLast {compl : ℕ → ℤ} {b b' : FlexBarrier} :
    b.arriveAndWait compl = (b', false) ↔
      b.count ≠ 1 ∧ b' = { b with count := b.count - 1 } := by
  simp only [arriveAndWait, sub_eq_zero]
  split_ifs with h <;> simp [h, eq_comm]

lemma arriveAndDrop_last {compl : ℕ → ℤ} {b b' : FlexBarrier} :
    b.arriveAndDrop compl = (b', true) ↔
      b.count = 1 ∧ b' = { b with count := 0 }.complete compl := by
  simp only [arriveAndDrop, sub_eq_zero]
  split_ifs with h <;> simp [h, eq_comm]

lemma arriveAndDrop_notLast {compl : ℕ → ℤ} {b b' : FlexBarrier} :
    b.arriveAndDrop compl = (b', false) ↔
      b.count ≠ 1 ∧ b' = { b with count := b.count - 1, threads := b.threads - 1 } := by
  simp only [arriveAndDrop, sub_eq_zero]
  split_ifs with h <;> simp [h, eq_comm]

/-! ### Against `barrier` -/

section Refinement

variable {T : Type*}

/-- The state of `barrier` as a state of `flex_barrier` before any completion. -/
def ofBarrier (s : Config T (Shared Barrier T) Place) : Config T (Shared FlexBarrier T) Place :=
  ⟨⟨⟨s.shared.bar.count, s.shared.bar.threads, 0⟩, s.shared.phase, s.shared.log⟩, s.pc⟩

/-- The blocked waiters whose predicate is true. -/
def releasable {β : Type*} (C : BarrierClass β) (s : Config T (Shared β T) Place) : Set T :=
  {t | (∃ k, s.pc t = .asleep k ∨ s.pc t = .woken k) ∧ C.released s.shared.bar = true}

variable [Fintype T] [DecidableEq T]

/-- After the same calls the two classes have equal counters and release the same waiters. -/
def Agree (acts : List (Act T Move)) : Prop :=
  ∃ s s', barrier.monitor.machine.run (start (Barrier.new (Fintype.card T))) acts = some s ∧
    (flexBarrier defaultCompletion).monitor.machine.run (start (new (Fintype.card T))) acts
      = some s' ∧
    s'.shared.bar.count = s.shared.bar.count ∧ s'.shared.bar.threads = s.shared.bar.threads ∧
    releasable (flexBarrier defaultCompletion) s' = releasable barrier s

/-- A step that does not end a phase is the same in both classes. -/
lemma step_ofBarrier {s s' : Config T (Shared Barrier T) Place} {a : Act T Move}
    (hs : barrier.monitor.machine.step s a = some s')
    (hc : a.move.isCall = true → s.shared.bar.count ≠ 1) :
    (flexBarrier defaultCompletion).monitor.machine.step (ofBarrier s) a
      = some (ofBarrier s') := by
  obtain ⟨hw, hstep⟩ := (step_iff barrier).mp hs
  refine (step_iff _).mpr ⟨hw, ?_⟩
  generalize a.move = m at hstep hc
  cases hstep with
  | arriveLast hp hb => exact absurd (Barrier.arriveAndWait_last.mp hb).1 (hc rfl)
  | dropLast hp hb => exact absurd (Barrier.arriveAndDrop_last.mp hb).1 (hc rfl)
  | arrivePass hp hb hr =>
    obtain ⟨hcount, rfl⟩ := Barrier.arriveAndWait_notLast.mp hb
    refine .arrivePass hp (arriveAndWait_notLast.mpr ⟨hcount, rfl⟩) ?_
    exact hr
  | arriveSleep hp hb hr =>
    obtain ⟨hcount, rfl⟩ := Barrier.arriveAndWait_notLast.mp hb
    refine .arriveSleep hp (arriveAndWait_notLast.mpr ⟨hcount, rfl⟩) ?_
    exact hr
  | drop hp hb =>
    obtain ⟨hcount, rfl⟩ := Barrier.arriveAndDrop_notLast.mp hb
    exact .drop hp (arriveAndDrop_notLast.mpr ⟨hcount, rfl⟩)
  | wakeUp hp => exact .wakeUp hp
  | resume hp hr => exact .resume hp hr
  | sleepAgain hp hr => exact .sleepAgain hp hr
  | notifyAll hp => exact .notifyAll hp
  | dropNotify hp => exact .dropNotify hp

/-- Each call that does not end a phase takes one off `count_`; nothing else changes it. -/
lemma count_of_step {s s' : Config T (Shared Barrier T) Place} {a : Act T Move}
    (hs : barrier.monitor.machine.step s a = some s')
    (hc : a.move.isCall = true → s.shared.bar.count ≠ 1) :
    s'.shared.bar.count = s.shared.bar.count - if a.move.isCall then 1 else 0 := by
  obtain ⟨-, hstep⟩ := (step_iff barrier).mp hs
  generalize a.move = m at hstep hc ⊢
  cases hstep with
  | arriveLast hp hb => exact absurd (Barrier.arriveAndWait_last.mp hb).1 (hc rfl)
  | dropLast hp hb => exact absurd (Barrier.arriveAndDrop_last.mp hb).1 (hc rfl)
  | arrivePass hp hb hr => rw [(Barrier.arriveAndWait_notLast.mp hb).2]; rfl
  | arriveSleep hp hb hr => rw [(Barrier.arriveAndWait_notLast.mp hb).2]; rfl
  | drop hp hb => rw [(Barrier.arriveAndDrop_notLast.mp hb).2]; rfl
  | _ => simp [Move.isCall]

/-- Before the last call of the first phase the two classes run in step. -/
lemma run_ofBarrier {acts : List (Act T Move)} {s : Config T (Shared Barrier T) Place}
    (hrun : barrier.monitor.machine.run (start (Barrier.new (Fintype.card T))) acts = some s)
    (hc : callsIn acts < Fintype.card T) :
    s.shared.bar.count = Fintype.card T - callsIn acts ∧
      (flexBarrier defaultCompletion).monitor.machine.run (start (new (Fintype.card T))) acts
        = some (ofBarrier s) := by
  induction acts using List.reverseRecOn generalizing s with
  | nil =>
    cases hrun
    exact ⟨by simp [callsIn, start, Barrier.new], rfl⟩
  | append_singleton acts a ih =>
    obtain ⟨s₁, hrun₁, hs⟩ := Machine.run_concat.mp hrun
    rw [callsIn_concat] at hc ⊢
    obtain ⟨hcount, hflex⟩ := ih hrun₁ (by omega)
    have hne : a.move.isCall = true → s₁.shared.bar.count ≠ 1 := by
      intro ha
      simp only [ha, if_true] at hc
      omega
    refine ⟨?_, Machine.run_concat.mpr ⟨_, hflex, step_ofBarrier hs hne⟩⟩
    rw [count_of_step hs hne, hcount]
    push_cast
    omega

/-- The last call of a phase leaves the two classes with different counters. -/
lemma not_agree_of_last {acts : List (Act T Move)} {a : Act T Move}
    (hc : callsIn acts + 1 = Fintype.card T) (ha : a.move.isCall = true) :
    ¬ Agree (acts ++ [a]) := by
  rintro ⟨s, s', hrun, hrun', hcount, hthreads, -⟩
  obtain ⟨s₁, hrun₁, hs⟩ := Machine.run_concat.mp hrun
  obtain ⟨s₁', hrun₁', hs'⟩ := Machine.run_concat.mp hrun'
  obtain ⟨hone, hflex⟩ := run_ofBarrier hrun₁ (by omega)
  obtain rfl : ofBarrier s₁ = s₁' := Option.some.inj (hflex.symm.trans hrun₁')
  have hone : s₁.shared.bar.count = 1 := by omega
  have hinv := Barrier.Counts.of_reachable (Machine.reachable_of_run .refl hrun₁)
  have hpos : s₁.pc a.tid = .idle → 0 < s₁.shared.bar.threads := by
    intro hp
    have hle := le_tally Place.member s₁.pc a.tid
    have := hinv.threads_eq
    simp only [hp, Place.member] at hle
    omega
  obtain ⟨-, hstep⟩ := (step_iff barrier).mp hs
  obtain ⟨-, hstep'⟩ := (step_iff _).mp hs'
  generalize a.move = m at ha hstep hstep'
  cases hstep with
  | arriveLast hp hb =>
    obtain ⟨-, rfl⟩ := Barrier.arriveAndWait_last.mp hb
    cases hstep' with
    | arriveLast _ hb' =>
      obtain ⟨-, rfl⟩ := arriveAndWait_last.mp hb'
      exact (hpos hp).ne hcount
    | arrivePass _ hb' _ => exact (arriveAndWait_notLast.mp hb').1 hone
    | arriveSleep _ hb' _ => exact (arriveAndWait_notLast.mp hb').1 hone
  | dropLast hp hb =>
    obtain ⟨-, rfl⟩ := Barrier.arriveAndDrop_last.mp hb
    cases hstep' with
    | dropLast _ hb' =>
      obtain ⟨-, rfl⟩ := arriveAndDrop_last.mp hb'
      simp only [complete, defaultCompletion, ofBarrier, ne_eq, not_true_eq_false, if_false]
        at hthreads
      omega
    | drop _ hb' => exact (arriveAndDrop_notLast.mp hb').1 hone
  | arrivePass hp hb hr => exact (Barrier.arriveAndWait_notLast.mp hb).1 hone
  | arriveSleep hp hb hr => exact (Barrier.arriveAndWait_notLast.mp hb).1 hone
  | drop hp hb => exact (Barrier.arriveAndDrop_notLast.mp hb).1 hone
  | _ => simp [Move.isCall] at ha

/-- `flex_barrier` with the default completion function agrees with `barrier` after each call
of a schedule exactly when the schedule has too few calls to end a phase. -/
theorem agree_iff_callsIn_lt [Nonempty T] {acts : List (Act T Move)}
    {s : Config T (Shared Barrier T) Place}
    (hrun : barrier.monitor.machine.run (start (Barrier.new (Fintype.card T))) acts = some s) :
    (∀ pre, pre <+: acts → Agree pre) ↔ callsIn acts < Fintype.card T := by
  constructor
  · intro hagree
    by_contra hc
    have hpos : 0 < Fintype.card T := Fintype.card_pos
    obtain ⟨pre, a, hpre, hcalls, ha⟩ :=
      exists_prefix_calls acts (m := Fintype.card T - 1) (by omega)
    exact not_agree_of_last (by omega) ha (hagree _ hpre)
  · intro hc pre hpre
    obtain ⟨s₁, hrun₁⟩ := Machine.exists_run_of_prefix hrun hpre
    have hle : callsIn pre ≤ callsIn acts := hpre.sublist.countP_le
    obtain ⟨-, hflex⟩ := run_ofBarrier hrun₁ (by omega)
    exact ⟨s₁, _, hrun₁, hflex, rfl, rfl, rfl⟩

/-- One participant and one call of `arrive_and_wait`: `barrier` is ready for the next phase,
`flex_barrier` is not. -/
theorem not_agree_one :
    (barrier.monitor.machine.run (start (Barrier.new (Fintype.card (Fin 1))))
      [⟨(0 : Fin 1), .arriveAndWait, none⟩]).isSome = true ∧
      ¬ Agree [⟨(0 : Fin 1), .arriveAndWait, none⟩] := by
  refine ⟨by decide, fun ⟨s, s', hrun, hrun', hcount, _, _⟩ => ?_⟩
  cases hrun
  cases hrun'
  exact absurd hcount (by decide)

/-- Two of three participants arrive, and the first one wakes up and tests the counters. -/
def twoOfThree : List (Act (Fin 3) Move) :=
  [⟨0, .arriveAndWait, none⟩, ⟨1, .arriveAndWait, none⟩, ⟨0, .wakeUp, none⟩, ⟨0, .proceed, none⟩]

/-- The classes agree until the third one arrives. -/
theorem agree_iff_callsIn_lt_three :
    (∀ pre, pre <+: twoOfThree → Agree pre) ∧
      ¬ ∀ pre, pre <+: twoOfThree ++ [⟨2, .arriveAndWait, none⟩] → Agree pre := by
  refine ⟨(agree_iff_callsIn_lt (s := _) rfl).mpr (by decide), fun h => ?_⟩
  exact absurd ((agree_iff_callsIn_lt (s := _) rfl).mp h) (by decide)

end Refinement

/-! ### The law of the phases -/

section Law

/-- The arrivals that phase `k` needs: the last completion result other than `-1`, `n` before
the first. -/
def needed (n : ℤ) (compl : ℕ → ℤ) : ℕ → ℤ
  | 0     => n
  | k + 1 => if compl k = -1 then needed n compl k else compl k

/-- The completed phases, and the arrivals in the current one, after `A` arrivals, when phase `k`
is over after `need k` arrivals. -/
def phaseAfter (need : ℕ → ℤ) : ℕ → ℕ × ℤ
  | 0     => (0, 0)
  | A + 1 =>
    let (k, m) := phaseAfter need A
    if m + 1 = need k then (k + 1, 0) else (k, m + 1)

lemma needed_pos {n : ℤ} {compl : ℕ → ℤ} (hn : 0 < n) (hc : ∀ k, compl k = -1 ∨ 0 < compl k)
    (k : ℕ) : 0 < needed n compl k := by
  induction k with
  | zero => exact hn
  | succ k ih =>
    simp only [needed]
    split_ifs with h
    · exact ih
    · exact (hc k).resolve_left h

lemma phaseAfter_of_lt {need : ℕ → ℤ} {A : ℕ} (h : A < need 0) :
    phaseAfter need A = (0, (A : ℤ)) := by
  induction A with
  | zero => rfl
  | succ A ih =>
    push_cast at h
    simp only [phaseAfter, ih (by omega)]
    rw [if_neg (by omega)]
    push_cast
    rfl

lemma phaseAfter_of_eq {need : ℕ → ℤ} {A : ℕ} (h : (A : ℤ) + 1 = need 0) :
    phaseAfter need (A + 1) = (1, 0) := by
  simp only [phaseAfter, phaseAfter_of_lt (show (A : ℤ) < need 0 by omega)]
  rw [if_pos h]

variable {T : Type*}

/-- The law of the phases in a state after `A` arrivals: one call of the completion function for
each completed phase, no return from a phase before that call, and the counters set for the
phase that begins. -/
structure PhaseLaw (n : ℤ) (compl : ℕ → ℤ) (A : ℕ) (s : Config T (Shared FlexBarrier T) Place) :
    Prop where
  calls : s.shared.bar.calls = (phaseAfter (needed n compl) A).1
  phase : s.shared.phase = (phaseAfter (needed n compl) A).1
  returns : ∀ t k, .returned t k ∈ s.shared.log → k < s.shared.bar.calls
  counters : (phaseAfter (needed n compl) A).2 = 0 →
    s.shared.bar.count = needed n compl (phaseAfter (needed n compl) A).1 ∧
      s.shared.bar.threads = needed n compl (phaseAfter (needed n compl) A).1

/-- The states of the first phase, after `A` arrivals. -/
structure FirstPhase (n : ℤ) (A : ℕ) (s : Config T (Shared FlexBarrier T) Place) : Prop where
  calls : s.shared.bar.calls = 0
  phase : s.shared.phase = 0
  threads : s.shared.bar.threads = n
  count : s.shared.bar.count = n - A
  returns : ∀ t k, .returned t k ∉ s.shared.log
  places : ∀ t, s.pc t = .idle ∨ (0 < A ∧ (s.pc t = .asleep 0 ∨ s.pc t = .woken 0))

namespace FirstPhase

variable {n : ℤ} {A : ℕ} {compl : ℕ → ℤ} {s s' : Config T (Shared FlexBarrier T) Place}

lemma phaseLaw (h : FirstPhase n A s) (hA : A < n) : PhaseLaw n compl A s := by
  have hafter : phaseAfter (needed n compl) A = (0, (A : ℤ)) := phaseAfter_of_lt hA
  refine ⟨?_, ?_, fun t k hk => absurd hk (h.returns t k), fun h0 => ?_⟩
  · rw [hafter, h.calls]
  · rw [hafter, h.phase]
  · simp only [hafter] at h0 ⊢
    exact ⟨by rw [h.count, h0]; simp [needed], h.threads⟩

variable [DecidableEq T]

lemma move (h : FirstPhase n A s) {t : T} {p : Place}
    (hp : p = .idle ∨ (0 < A ∧ (p = .asleep 0 ∨ p = .woken 0))) :
    FirstPhase n A ⟨s.shared, Function.update s.pc t p⟩ := by
  refine ⟨h.calls, h.phase, h.threads, h.count, h.returns, ?_⟩
  exact (Function.forall_update_iff s.pc
    (p := fun _ q => q = .idle ∨ (0 < A ∧ (q = .asleep 0 ∨ q = .woken 0)))).mpr
    ⟨hp, fun u _ => h.places u⟩

/-- A step without a drop keeps the first phase, unless it is its last arrival. -/
lemma step [Fintype T] {a : Act T Move} (h : FirstPhase n A s)
    (hs : (flexBarrier compl).monitor.machine.step s a = some s')
    (hd : a.move ≠ .arriveAndDrop) (hA : a.move.isCall = true → (A : ℤ) + 1 < n) :
    FirstPhase n (A + if a.move.isCall then 1 else 0) s' := by
  obtain ⟨-, hstep⟩ := (step_iff _).mp hs
  generalize a.tid = t, a.move = m at hstep hd hA ⊢
  have hcount := h.count
  have hplace := h.places t
  cases hstep with
  | arriveLast hp hb =>
    have := (arriveAndWait_last.mp hb).1
    have := hA rfl
    omega
  | arrivePass hp hb hr =>
    obtain ⟨-, rfl⟩ := arriveAndWait_notLast.mp hb
    have := h.threads
    simp only [flexBarrier, released_eq_true] at hr
    omega
  | arriveSleep hp hb hr =>
    obtain ⟨-, rfl⟩ := arriveAndWait_notLast.mp hb
    refine ⟨h.calls, h.phase, h.threads, ?_, by simpa using h.returns, ?_⟩
    · simp only [Move.isCall, if_true]
      push_cast
      omega
    · refine (Function.forall_update_iff s.pc (p := fun _ q => q = .idle ∨
        (0 < _ ∧ (q = .asleep 0 ∨ q = .woken 0)))).mpr ⟨?_, fun u _ => ?_⟩
      · simp [Move.isCall, h.phase]
      · exact (h.places u).imp id fun hu => ⟨by omega, hu.2⟩
  | dropLast hp hb => exact absurd rfl hd
  | drop hp hb => exact absurd rfl hd
  | @wakeUp k hp =>
    simp only [hp, reduceCtorEq, Place.asleep.injEq, or_false, false_or] at hplace
    exact h.move (.inr ⟨hplace.1, .inr (by rw [hplace.2])⟩)
  | @resume k hp hr =>
    -- the counters differ as soon as somebody has arrived
    simp only [hp, reduceCtorEq, Place.woken.injEq, false_or] at hplace
    have := h.threads
    simp only [flexBarrier, released_eq_true] at hr
    omega
  | @sleepAgain k hp hr =>
    simp only [hp, reduceCtorEq, Place.woken.injEq, false_or] at hplace
    exact h.move (.inr ⟨hplace.1, .inl (by rw [hplace.2])⟩)
  | notifyAll hp => simp [hp] at hplace
  | dropNotify hp => simp [hp] at hplace

end FirstPhase

variable [Fintype T] [DecidableEq T] {n : ℤ} {compl : ℕ → ℤ}

lemma run_firstPhase {acts : List (Act T Move)} {s : Config T (Shared FlexBarrier T) Place}
    (hrun : (flexBarrier compl).monitor.machine.run (start (new n)) acts = some s)
    (hd : ∀ a ∈ acts, a.move ≠ .arriveAndDrop) (hc : callsIn acts < n) :
    FirstPhase n (callsIn acts) s := by
  induction acts using List.reverseRecOn generalizing s with
  | nil =>
    cases hrun
    exact ⟨rfl, rfl, rfl, by simp [start, new, callsIn], by simp [start], fun _ => .inl rfl⟩
  | append_singleton acts a ih =>
    obtain ⟨s₁, hrun₁, hs⟩ := Machine.run_concat.mp hrun
    rw [callsIn_concat] at hc ⊢
    have hfirst := ih hrun₁ (fun b hb => hd b (by simp [hb])) (by push_cast at hc; omega)
    refine hfirst.step hs (hd a (by simp)) fun ha => ?_
    simp only [ha, if_true] at hc
    push_cast at hc
    exact hc

/-- Without drops, the law of the phases holds all along a run exactly when the run has too few
arrivals to end the first phase. -/
theorem phaseLaw_iff_callsIn_lt (hn : 1 ≤ n) (hcompl : ∀ k, compl k = -1 ∨ 0 < compl k)
    {acts : List (Act T Move)} {s : Config T (Shared FlexBarrier T) Place}
    (hrun : (flexBarrier compl).monitor.machine.run (start (new n)) acts = some s)
    (hd : ∀ a ∈ acts, a.move ≠ .arriveAndDrop) :
    (∀ pre u, pre <+: acts →
        (flexBarrier compl).monitor.machine.run (start (new n)) pre = some u →
        PhaseLaw n compl (callsIn pre) u) ↔
      callsIn acts < n := by
  constructor
  · intro hlaw
    by_contra hc
    obtain ⟨m, rfl⟩ : ∃ m : ℕ, n = m + 1 := ⟨(n - 1).toNat, by omega⟩
    obtain ⟨pre, a, hpre, hcalls, ha⟩ := exists_prefix_calls acts (m := m) (by omega)
    obtain ⟨u, hrunu⟩ := Machine.exists_run_of_prefix hrun hpre
    have hmem : ∀ b ∈ pre ++ [a], b.move ≠ .arriveAndDrop := fun b hb => hd b (hpre.subset hb)
    obtain ⟨u₁, hrun₁, hs⟩ := Machine.run_concat.mp hrunu
    have hfirst := run_firstPhase hrun₁ (fun b hb => hmem b (by simp [hb])) (by omega)
    have hone : u₁.shared.bar.count = 1 := by
      have := hfirst.count
      omega
    -- the arrival that ends the phase leaves `count_` at zero
    have hzero : u.shared.bar.count = 0 := by
      obtain ⟨-, hstep⟩ := (step_iff _).mp hs
      have hmove := hmem a (by simp)
      generalize a.move = v at ha hmove hstep
      cases hstep with
      | arriveLast hp hb => rw [(arriveAndWait_last.mp hb).2]; rfl
      | arrivePass hp hb hr => exact absurd hone (arriveAndWait_notLast.mp hb).1
      | arriveSleep hp hb hr => exact absurd hone (arriveAndWait_notLast.mp hb).1
      | dropLast hp hb => exact absurd rfl hmove
      | drop hp hb => exact absurd rfl hmove
      | _ => simp [Move.isCall] at ha
    have hafter : phaseAfter (needed (m + 1) compl) (callsIn (pre ++ [a])) = (1, 0) := by
      rw [callsIn_concat, if_pos ha, hcalls]
      exact phaseAfter_of_eq rfl
    have hcount := ((hlaw _ u hpre hrunu).counters (by rw [hafter])).1
    rw [hafter, hzero] at hcount
    exact (needed_pos (by omega) hcompl 1).ne hcount
  · intro hc pre u hpre hrunu
    have hle : callsIn pre ≤ callsIn acts := hpre.sublist.countP_le
    exact (run_firstPhase hrunu (fun b hb => hd b (hpre.subset hb)) (by omega)).phaseLaw
      (by omega)

/-- One participant and one phase: `count_` is left at `0`. -/
theorem not_phaseLaw_one :
    ∃ s, (flexBarrier defaultCompletion).monitor.machine.run (start (new 1))
        [⟨(0 : Fin 1), .arriveAndWait, none⟩] = some s ∧
      ¬ PhaseLaw 1 defaultCompletion 1 s := by
  refine ⟨_, rfl, fun h => ?_⟩
  exact absurd (h.counters (by decide)).1 (by decide)

/-- Where the completion function asks for two arrivals: the law holds until the third participant
arrives. -/
theorem phaseLaw_iff_callsIn_lt_three :
    (∀ pre u, pre <+: twoOfThree →
        (flexBarrier fun _ => 2).monitor.machine.run (start (new 3)) pre = some u →
        PhaseLaw 3 (fun _ => 2) (callsIn pre) u) ∧
      ¬ ∀ pre u, pre <+: twoOfThree ++ [⟨2, .arriveAndWait, none⟩] →
        (flexBarrier fun _ => 2).monitor.machine.run (start (new 3)) pre = some u →
        PhaseLaw 3 (fun _ => 2) (callsIn pre) u := by
  have hcompl : ∀ k : ℕ, (fun _ => 2 : ℕ → ℤ) k = -1 ∨ 0 < (fun _ => 2 : ℕ → ℤ) k :=
    fun _ => .inr (show (0 : ℤ) < 2 by decide)
  refine ⟨(phaseLaw_iff_callsIn_lt (by decide) hcompl (s := _) rfl (by decide)).mpr (by decide),
    fun h => ?_⟩
  exact absurd ((phaseLaw_iff_callsIn_lt (by decide) hcompl (s := _) rfl (by decide)).mp h)
    (by decide)

end Law

end FlexBarrier

end Sync
