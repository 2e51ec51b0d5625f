import Mathlib.Data.List.Infix
import SyncLib.Latch.Waiters

/-!
# What a `latch` counts

`count_down` takes one from the counter whatever its argument is, so the counter agrees with the
amounts as long as they are all `1`. Then a call that waits returns when the amounts have reached
the number the latch was made for, and not before.
-/

namespace Sync

namespace Latch

open Core

variable {T : Type*}

/-- Calls returned only when the amounts counted down had reached `n`. -/
def ReturnsLaw (n : ℤ) : List (Event T) → Prop
  | []               => True
  | .returned _ :: l => total l = n ∧ ReturnsLaw n l
  | _ :: l           => ReturnsLaw n l

/-- Along a run of a latch for `n` the counter is what the amounts leave of it, the latch is open
exactly from where they have reached `n`, and no call returns before. -/
structure AccountingLaw [Fintype T] [DecidableEq T] (n : ℤ) (acts : List (Act T Move)) : Prop where
  count : ∀ pre u, pre <+: acts → monitor.machine.run (start n) pre = some u →
    u.shared.count = n - total u.shared.log
  ready : ∀ pre u, pre <+: acts → monitor.machine.run (start n) pre = some u →
    (isReady u.shared.count = true ↔ total u.shared.log = n)
  stays : ∀ pre u s, pre <+: acts → monitor.machine.run (start n) pre = some u →
    monitor.machine.run (start n) acts = some s → isReady u.shared.count = true →
    isReady s.shared.count = true
  returns : ∀ pre u, pre <+: acts → monitor.machine.run (start n) pre = some u →
    ReturnsLaw n u.shared.log

/-! ### Amounts -/

/-- Every amount so far is `1`. -/
def Units (log : List (Event T)) : Prop := ∀ t k, .counted t k ∈ log → k = 1

lemma Units.positive {log : List (Event T)} (h : Units log) : Positive log :=
  fun t k hk => (h t k hk).ge

/-- The calls stand for as much as they count down exactly when every amount is `1`. -/
lemma total_eq_calls_iff {log : List (Event T)} (hpos : Positive log) :
    total log = calls log ↔ Units log := by
  induction log with
  | nil => simp [total, calls, Units]
  | cons e log ih =>
    have hlog : Positive log := fun t k hk => hpos t k (List.mem_cons_of_mem _ hk)
    have hle := calls_le_total hlog
    cases e with
    | counted t k =>
      have hk := hpos t k List.mem_cons_self
      have hunits : Units (.counted t k :: log) ↔ k = 1 ∧ Units log := by
        simp only [Units, List.mem_cons, Event.counted.injEq]
        constructor
        · intro h
          exact ⟨h t k (.inl ⟨rfl, rfl⟩), fun u j hj => h u j (.inr hj)⟩
        · rintro ⟨rfl, h⟩ u j (⟨-, rfl⟩ | hj)
          · rfl
          · exact h u j hj
      rw [hunits, ← ih hlog]
      simp only [total, calls, List.countP_cons_of_pos] at hle ⊢
      push_cast
      omega
    | returned t =>
      have hunits : Units (.returned t :: log) ↔ Units log := by
        simp [Units]
      rw [hunits, ← ih hlog]
      simp [total, calls]

lemma total_le_of_suffix {l l' : List (Event T)} (hpos : Positive l') (h : l <:+ l') :
    total l ≤ total l' := by
  obtain ⟨d, rfl⟩ := h
  induction d with
  | nil => exact le_rfl
  | cons e d ih =>
    have hle := ih fun t k hk => hpos t k (List.mem_cons_of_mem _ hk)
    cases e with
    | counted t k =>
      have hk : 1 ≤ k := hpos t k List.mem_cons_self
      simp only [List.cons_append, total]
      omega
    | returned t => exact hle

variable {n : ℤ} {s s' : Config T (Shared T) Place}

namespace Counted

variable (h : Counted n s) (hunits : Units s.shared.log)

include h hunits

/-- While every amount is `1` the counter is what the amounts leave of it. -/
lemma count_eq_total : s.shared.count = n - total s.shared.log := by
  rw [(total_eq_calls_iff hunits.positive).mpr hunits]
  exact h.count_eq

lemma ready_iff_total : isReady s.shared.count = true ↔ total s.shared.log = n := by
  rw [isReady_eq_true, h.count_eq_total hunits, sub_eq_zero, eq_comm]

end Counted

/-! ### Runs -/

variable [DecidableEq T] [Fintype T] {a : Act T Move}

/-- A step adds the amount of its call, and nothing else that counts. -/
lemma log_of_step (hs : monitor.machine.step s a = some s') :
    s.shared.log <:+ s'.shared.log ∧
      (Units s'.shared.log ↔ Units s.shared.log ∧ ∀ k, a.move = .countDown k → k = 1) := by
  have hstep := step_of_machine hs
  obtain ⟨t, m, w⟩ := a
  simp only at hstep ⊢
  cases hstep with
  | arriveNotify hp hc => exact ⟨List.suffix_cons _ _, by simp [Units, or_imp]⟩
  | arrive hp hc => exact ⟨List.suffix_cons _ _, by simp [Units, or_imp]⟩
  | countDown hp =>
    refine ⟨List.suffix_cons _ _, ?_⟩
    simp [Units, or_imp, forall_and, and_comm]
  | waitReady hp hc => exact ⟨List.suffix_cons _ _, by simp [Units]⟩
  | notifyAll hp => exact ⟨List.suffix_cons _ _, by simp [Units]⟩
  | pass hp hc => exact ⟨List.suffix_cons _ _, by simp [Units]⟩
  | wait hp hc => exact ⟨List.suffix_rfl, by simp⟩
  | lock hp ho => exact ⟨List.suffix_rfl, by simp⟩
  | fail hp hc => exact ⟨List.suffix_rfl, by simp⟩
  | sleep hp => exact ⟨List.suffix_rfl, by simp⟩
  | wakeUp hp => exact ⟨List.suffix_rfl, by simp⟩

lemma log_suffix_of_reachable (h : monitor.machine.Reachable s s') :
    s.shared.log <:+ s'.shared.log :=
  h.invariant (I := fun u => s.shared.log <:+ u.shared.log) List.suffix_rfl
    fun _ _ _ hu _ hs => hu.trans (log_of_step hs).1

variable {acts : List (Act T Move)}

lemma units_iff (hrun : monitor.machine.run (start n) acts = some s) :
    Units s.shared.log ↔ ∀ a ∈ acts, ∀ k, a.move = .countDown k → k = 1 := by
  induction acts using List.reverseRecOn generalizing s with
  | nil =>
    cases hrun
    simp [start, Units]
  | append_singleton acts a ih =>
    obtain ⟨s₁, hrun₁, hs⟩ := Machine.run_concat.mp hrun
    rw [(log_of_step hs).2, ih hrun₁]
    simp [or_imp, forall_and]

lemma counted_of_run (hrun : monitor.machine.run (start n) acts = some s) : Counted n s :=
  Counted.of_reachable (Machine.reachable_of_run .refl hrun)

/-- A call that waits returns when it finds the counter at `0`: with the amounts all `1` nobody
gets to `notify_all`, where a call returns without a test. -/
lemma returnsLaw_of_units (hrun : monitor.machine.run (start n) acts = some s)
    (hunits : Units s.shared.log) (hle : total s.shared.log ≤ n) : ReturnsLaw n s.shared.log := by
  induction acts using List.reverseRecOn generalizing s with
  | nil => cases hrun; trivial
  | append_singleton acts a ih =>
    obtain ⟨s₁, hrun₁, hs⟩ := Machine.run_concat.mp hrun
    obtain ⟨hsuffix, hlog⟩ := log_of_step hs
    have hunits₁ := (hlog.mp hunits).1
    have hle₁ := (total_le_of_suffix hunits.positive hsuffix).trans hle
    have hlaw := ih hrun₁ hunits₁ hle₁
    have hready := (counted_of_run hrun₁).ready_iff_total hunits₁
    have hstep := step_of_machine hs
    obtain ⟨t, m, w⟩ := a
    simp only at hstep
    cases hstep with
    | arriveNotify hp hc => exact hlaw
    | arrive hp hc => exact hlaw
    | countDown hp => exact hlaw
    | waitReady hp hc => exact ⟨hready.mp ((isReady_eq_true _).mpr hc), hlaw⟩
    | wait hp hc => exact hlaw
    | notifyAll hp =>
      have hreach := Machine.reachable_of_run .refl hrun₁
      exact absurd hp (not_notifying hreach hunits₁.positive hle₁ _)
    | lock hp ho => exact hlaw
    | pass hp hc => exact ⟨hready.mp ((isReady_eq_true _).mpr hc), hlaw⟩
    | fail hp hc => exact hlaw
    | sleep hp => exact hlaw
    | wakeUp hp => exact hlaw

/-- While the amounts are positive and sum to at most `n`, the counter, the latch and the calls
that wait agree with them exactly when `count_down` is only called with `1`. -/
theorem accountingLaw_iff (hrun : monitor.machine.run (start n) acts = some s)
    (hpos : Positive s.shared.log) (hle : total s.shared.log ≤ n) :
    AccountingLaw n acts ↔ ∀ a ∈ acts, ∀ k, a.move = .countDown k → k = 1 := by
  rw [← units_iff hrun]
  constructor
  · intro h
    have hcount := h.count acts s (List.prefix_refl _) hrun
    rw [(counted_of_run hrun).count_eq, sub_right_inj] at hcount
    exact (total_eq_calls_iff hpos).mp hcount.symm
  · intro hunits
    have hpre : ∀ pre u, pre <+: acts → monitor.machine.run (start n) pre = some u →
        Units u.shared.log ∧ total u.shared.log ≤ total s.shared.log := by
      rintro pre u hpre hu
      have hsuffix : u.shared.log <:+ s.shared.log := by
        obtain ⟨rest, rfl⟩ := hpre
        rw [Machine.run_append, hu, Option.bind_some] at hrun
        exact log_suffix_of_reachable (Machine.reachable_of_run .refl hrun)
      exact ⟨fun t k hk => hunits t k (hsuffix.subset hk), total_le_of_suffix hpos hsuffix⟩
    constructor
    · intro pre u hp hu
      exact (counted_of_run hu).count_eq_total (hpre pre u hp hu).1
    · intro pre u hp hu
      exact (counted_of_run hu).ready_iff_total (hpre pre u hp hu).1
    · intro pre u s₁ hp hu hs₁ hready
      obtain rfl : s₁ = s := Option.some.inj (hs₁.symm.trans hrun)
      rw [(counted_of_run hu).ready_iff_total (hpre pre u hp hu).1] at hready
      rw [(counted_of_run hrun).ready_iff_total hunits]
      -- the amounts cannot go beyond `n`
      exact le_antisymm hle (hready ▸ (hpre pre u hp hu).2)
    · intro pre u hp hu
      exact returnsLaw_of_units hu (hpre pre u hp hu).1 ((hpre pre u hp hu).2.trans hle)

/-- A latch for two, and one call that counts two down: the latch does not open. -/
theorem bulk_counts_one :
    ∃ s, (monitor (T := Fin 1)).machine.run (start 2) [⟨0, .countDown 2, none⟩] = some s ∧
      total s.shared.log = 2 ∧ s.shared.count = 1 ∧ isReady s.shared.count = false ∧
      ¬ AccountingLaw (T := Fin 1) 2 [⟨0, .countDown 2, none⟩] := by
  refine ⟨_, rfl, rfl, rfl, rfl, fun h => ?_⟩
  exact absurd (h.count _ _ (List.prefix_refl _) rfl) (by decide)

/-- Two threads count down one each, and the second one waits for it: the law holds. -/
theorem accountingLaw_iff_two :
    AccountingLaw (T := Fin 2) 2
      [⟨0, .countDown 1, none⟩, ⟨1, .countDownAndWait, none⟩, ⟨1, .proceed, none⟩,
        ⟨1, .proceed, none⟩] := by
  refine (accountingLaw_iff (s := _) rfl ?_ (by decide)).mpr ?_
  · intro t k hk
    change Event.counted t k ∈ [.returned 1, .counted 1 1, .counted 0 1] at hk
    simp only [List.mem_cons, reduceCtorEq, Event.counted.injEq, List.not_mem_nil, false_or,
      or_false] at hk
    rcases hk with ⟨-, rfl⟩ | ⟨-, rfl⟩ <;> exact le_rfl
  · simp

end Latch

end Sync
