import SyncLib.Barrier.Reuse
import SyncLib.Core.Settling
import SyncLib.Core.Simulation

/-!
# Getting out of a `barrier`

Where threads arrive to wait only when the completed phases are drained, the participants can always
leave the barrier: the waiters of completed phases by themselves, those of the current phase when
the participants that are still idle arrive, each once.
-/

namespace Sync

namespace Barrier

open Core BarrierClass

variable {T : Type*}

/-! ### Without arrivals -/

/-- Outside, or asleep until phase `K` ends. -/
def Quiet (K : ℕ) : Place → Prop
  | .idle | .gone => True
  | .asleep k     => k = K
  | _             => False

/-- Before a notification, which no other step leads to. -/
def notifies : Place → ℕ
  | .notifying _ | .dropping _ => 1
  | _                          => 0

/-- Before a test of the predicate. -/
def tests : Place → ℕ
  | .woken _ => 1
  | _        => 0

/-- Outside of the barrier. -/
def Outside (p : Place) : Prop := p = .idle ∨ p = .gone

/-- A thread that is not quiet goes on. -/
lemma exists_proceed (t : T) (sh : Shared Barrier T) {q : Place}
    (h : ¬ (notifies q = 0 ∧ tests q = 0)) : ∃ sh' p sig,
    barrier.next t sh q .proceed = some (sh', p, sig) ∧
      (notifies p < notifies q ∨ notifies p = notifies q ∧ tests p < tests q ∧ sig = .none) := by
  cases q with
  | idle | gone | asleep => exact absurd ⟨rfl, rfl⟩ h
  | notifying | dropping => exact ⟨_, _, _, rfl, .inl Nat.zero_lt_one⟩
  | woken k =>
    rw [BarrierClass.next, waitLoop]
    split_ifs <;> exact ⟨_, _, _, rfl, .inr ⟨rfl, Nat.zero_lt_one, rfl⟩⟩

variable {s s' : Config T (Shared Barrier T) Place}

/-- A thread that is idle arrives, or one that is in a call goes on. -/
def GoesOn (s : Config T (Shared Barrier T) Place) (a : Act T Move) : Prop :=
  ArrivesDrained s a ∧ (a.move = .arriveAndWait ∨ a.move = .proceed)

def idles : Place → ℕ
  | .idle => 1
  | _     => 0

lemma goesOn_of_proceed {a : Act T Move} (h : a.move = .proceed) : GoesOn s a := by
  refine ⟨fun harrive => ?_, .inr h⟩
  rw [h] at harrive
  cases harrive

lemma drained_of_quiet (hquiet : ∀ t, Quiet s.shared.phase (s.pc t)) : Drained s := by
  intro t k ht
  have hq := hquiet t
  rcases ht with ht | ht <;> rw [ht] at hq
  · exact hq.ge
  · exact hq.elim

section

variable {t : T} {p : Place} {pc : T → Place} [DecidableEq T]

/-- The thread that moves waits for no other phase than before. -/
lemma waitsIn_update_le (h : ∀ k, p.waitsIn k ≤ (pc t).waitsIn k) (u : T) (k : ℕ) :
    (Function.update pc t p u).waitsIn k ≤ (pc u).waitsIn k := by
  by_cases hu : u = t
  · rw [hu, Function.update_self]
    exact h k
  · rw [Function.update_of_ne hu]

end

variable [Fintype T]

/-- What is kept until the threads are quiet: nobody comes to wait who has not waited in `s₀`. -/
structure Settling (s₀ s : Config T (Shared Barrier T) Place) : Prop where
  counts : Counts s
  safe : Safe s
  phase : s.shared.phase = s₀.shared.phase
  waits : ∀ t k, (s.pc t).waitsIn k ≤ (s₀.pc t).waitsIn k

lemma Settling.quiet {s₀ : Config T (Shared Barrier T) Place} (h : Settling s₀ s)
    (hsettled : ∀ t, notifies (s.pc t) = 0 ∧ tests (s.pc t) = 0) (t : T) :
    Quiet s.shared.phase (s.pc t) := by
  have ht := hsettled t
  have hagrees := h.counts.agrees t
  cases hp : s.pc t with
  | idle | gone => trivial
  | asleep k =>
    rw [hp] at hagrees
    by_contra hne
    -- a completed phase would still have to be notified
    obtain ⟨u, j, hu⟩ := h.safe.notifier t k hp (lt_of_le_of_ne hagrees.1 hne)
    have hu' := (hsettled u).1
    rcases hu with hu | hu <;>
    · rw [hu] at hu'
      cases hu'
  | woken | notifying | dropping =>
    rw [hp] at ht
    simp [notifies, tests] at ht

/-- While a thread sleeps, some other one is idle. -/
lemma exists_idle (hc : Counts s) (hsafe : Safe s) (hquiet : ∀ t, Quiet s.shared.phase (s.pc t))
    (hout : ¬ ∀ t, Outside (s.pc t)) : ∃ t, s.pc t = .idle := by
  by_contra hidle
  apply hsafe.not_allAsleep hc
  obtain ⟨t, ht⟩ := not_forall.mp hout
  refine ⟨⟨t, fun hgone => ht (.inr hgone)⟩, fun u hu => ?_⟩
  have hq := hquiet u
  cases hp : s.pc u with
  | idle => exact absurd ⟨u, hp⟩ hidle
  | gone => exact absurd hp hu
  | asleep k => exact ⟨k, rfl⟩
  | woken | notifying | dropping =>
    rw [hp] at hq
    exact hq.elim

variable [DecidableEq T]

/-- A step that is not a call leaves the phase alone and makes nobody wait for another one. -/
lemma waitsIn_of_proceed {a : Act T Move} (ha : a.move = .proceed)
    (hs : barrier.monitor.machine.step s a = some s') :
    s'.shared.phase = s.shared.phase ∧ ∀ t k, (s'.pc t).waitsIn k ≤ (s.pc t).waitsIn k := by
  have hstep := ((step_iff barrier).mp hs).2
  obtain ⟨t, m, w⟩ := a
  simp only at ha hstep
  subst ha
  cases hstep with
  | resume => exact ⟨rfl, waitsIn_update_le fun _ => Nat.zero_le _⟩
  | sleepAgain hp => exact ⟨rfl, waitsIn_update_le fun k => by rw [hp]; rfl⟩
  | notifyAll | dropNotify =>
    refine ⟨rfl, fun u k => ?_⟩
    rw [Place.waitsIn_wake]
    exact waitsIn_update_le (fun _ => Nat.zero_le _) u k

lemma Settling.step {s₀ : Config T (Shared Barrier T) Place} (h : Settling s₀ s) {a : Act T Move}
    (ha : a.move = .proceed) (hs : barrier.monitor.machine.step s a = some s') :
    Settling s₀ s' := by
  obtain ⟨hphase, hwaits⟩ := waitsIn_of_proceed ha hs
  refine ⟨h.counts.step hs, h.safe.step h.counts (fun harrive => ?_) hs, hphase.trans h.phase,
    fun t k => (hwaits t k).trans (h.waits t k)⟩
  rw [ha] at harrive
  cases harrive

/-- The notifications are given and the predicates tested, until everybody is quiet. -/
theorem exists_runs_quiet (hc : Counts s) (hsafe : Safe s) : ∃ s',
    barrier.monitor.machine.Runs (fun _ a => a.move = .proceed) s s' ∧ Settling s s' ∧
      ∀ t, Quiet s'.shared.phase (s'.pc t) := by
  have hstart : Settling s s := ⟨hc, hsafe, rfl, fun _ _ => le_rfl⟩
  have hwake : ∀ p : Place, notifies ((barrier.monitor (T := T)).wake p) = notifies p := by
    intro p
    cases p <;> rfl
  have hbound : ∀ p : Place, tests p ≤ 1 := by
    intro p
    cases p <;> simp [tests]
  have hstep : ∀ u : Config T (Shared Barrier T) Place, Settling s u →
      (∀ t, notifies (u.pc t) = 0 ∧ tests (u.pc t) = 0) ∨ ∃ t m sh p sig, m = Move.proceed ∧
        barrier.monitor.next t u.shared (u.pc t) m = some (sh, p, sig) ∧
        (notifies p < notifies (u.pc t) ∨
          notifies p = notifies (u.pc t) ∧ tests p < tests (u.pc t) ∧ sig = .none) := by
    intro u _
    by_cases hsettled : ∀ t, notifies (u.pc t) = 0 ∧ tests (u.pc t) = 0
    · exact .inl hsettled
    · obtain ⟨t, ht⟩ := not_forall.mp hsettled
      obtain ⟨sh, p, sig, hgo⟩ := exists_proceed t u.shared ht
      exact .inr ⟨t, .proceed, sh, p, sig, rfl, hgo⟩
  obtain ⟨s', hruns, hs', hsettled⟩ := Monitor.exists_runs_of_phase hwake hbound
    (fun _ _ _ hu ha hs => hu.step ha hs) hstep hstart
  exact ⟨s', hruns, hs', hs'.quiet hsettled⟩

/-! ### With arrivals -/

/-- The last thread arrives, and everybody leaves. -/
lemma exists_runs_of_last (hc : Counts s) (hsafe : Safe s)
    (hquiet : ∀ t, Quiet s.shared.phase (s.pc t)) {t : T} {b : Barrier} (hp : s.pc t = .idle)
    (hb : s.shared.bar.arriveAndWait = (b, true)) :
    ∃ s', barrier.monitor.machine.Runs GoesOn s s' ∧ (∀ t, Outside (s'.pc t)) ∧
      s'.shared.phase = s.shared.phase + 1 := by
  have hs := (step_iff barrier (a := ⟨t, .arriveAndWait, none⟩)).mpr ⟨rfl, .arriveLast hp hb⟩
  have hok : ArrivesDrained s ⟨t, .arriveAndWait, none⟩ := fun _ _ => drained_of_quiet hquiet
  obtain ⟨s', hruns, hs', hquiet'⟩ := exists_runs_quiet (hc.step hs) (hsafe.step hc hok hs)
  refine ⟨s', (Machine.Runs.refl.tail ⟨hok, .inl rfl⟩ hs).trans
    (hruns.mono fun _ _ => goesOn_of_proceed), fun u => ?_, hs'.phase⟩
  have hq := hquiet' u
  -- who was asleep waited for the phase that is over now
  have hnone : (Function.update s.pc t (.notifying s.shared.phase) u).waitsIn
      (s.shared.phase + 1) = 0 := by
    by_cases hu : u = t
    · rw [hu, Function.update_self]
      rfl
    · rw [Function.update_of_ne hu]
      have hq' := hquiet u
      cases hpu : s.pc u with
      | idle | gone | notifying | dropping => rfl
      | asleep k =>
        rw [hpu] at hq'
        exact if_neg (by rw [show k = _ from hq']; omega)
      | woken k =>
        rw [hpu] at hq'
        exact hq'.elim
  have hwaits := (hs'.waits u (s.shared.phase + 1)).trans hnone.le
  cases hpu : s'.pc u with
  | idle => exact .inl rfl
  | gone => exact .inr rfl
  | asleep k =>
    rw [hpu] at hq hwaits
    rw [show k = s.shared.phase + 1 from hq.trans hs'.phase] at hwaits
    simp [Place.waitsIn] at hwaits
  | woken | notifying | dropping =>
    rw [hpu] at hq
    exact hq.elim

/-- Idle threads arrive as long as somebody sleeps. -/
theorem exists_runs_outside (hc : Counts s) (hsafe : Safe s)
    (hquiet : ∀ t, Quiet s.shared.phase (s.pc t)) :
    ∃ s', barrier.monitor.machine.Runs GoesOn s s' ∧ (∀ t, Outside (s'.pc t)) ∧
      s'.shared.phase ≤ s.shared.phase + 1 := by
  induction hn : tally idles s.pc generalizing s with
  | zero =>
    by_cases hout : ∀ t, Outside (s.pc t)
    · exact ⟨s, .refl, hout, Nat.le_succ _⟩
    · obtain ⟨t, ht⟩ := exists_idle hc hsafe hquiet hout
      have hzero := tally_eq_zero_iff.mp hn t
      rw [ht] at hzero
      cases hzero
  | succ n ih =>
    by_cases hout : ∀ t, Outside (s.pc t)
    · exact ⟨s, .refl, hout, Nat.le_succ _⟩
    obtain ⟨t, hp⟩ := exists_idle hc hsafe hquiet hout
    rcases hb : s.shared.bar.arriveAndWait with ⟨b, last⟩
    cases last with
    | true =>
      obtain ⟨s', hruns, hout', hphase⟩ := exists_runs_of_last hc hsafe hquiet hp hb
      exact ⟨s', hruns, hout', hphase.le⟩
    | false =>
      have hrange := hc.range
      obtain ⟨-, hbar⟩ := arriveAndWait_notLast.mp hb
      have hr : barrier.released b = false := by
        rw [hbar]
        simp only [barrier, released_eq_false]
        omega
      have hs := (step_iff barrier (a := ⟨t, .arriveAndWait, none⟩)).mpr
        ⟨rfl, .arriveSleep hp hb hr⟩
      have hok : ArrivesDrained s ⟨t, .arriveAndWait, none⟩ := fun _ _ => drained_of_quiet hquiet
      have hless := tally_update idles s.pc t (.asleep s.shared.phase)
      simp only [hp, idles] at hless
      obtain ⟨s', hruns, hout', hphase⟩ := ih (hc.step hs) (hsafe.step hc hok hs)
        (Code.forall_update (P := fun _ => Quiet s.shared.phase) rfl fun u _ => hquiet u)
        (by simp only; omega)
      exact ⟨s', (Machine.Runs.refl.tail ⟨hok, .inl rfl⟩ hs).trans hruns, hout', hphase⟩

/-! ### The law -/

/-- Wherever a run has got to in which threads arrive to wait only when the completed phases are
drained: the calls that are under way can all return. It takes one phase at most, and nobody has to
drop. -/
theorem progress_of_drained {s : Config T (Shared Barrier T) Place}
    (h : barrier.monitor.machine.Runs ArrivesDrained (start (new (Fintype.card T))) s) :
    ∃ s', barrier.monitor.machine.Runs GoesOn s s' ∧ (∀ t, Outside (s'.pc t)) ∧
      s'.shared.phase ≤ s.shared.phase + 1 := by
  have hinv : Counts s ∧ Safe s := by
    refine h.invariant (I := fun u => Counts u ∧ Safe u) ⟨Counts.initial, ?_⟩ ?_
    · constructor <;> simp [start]
    · exact fun u a u' hu hok hs => ⟨hu.1.step hs, hu.2.step hu.1 hok hs⟩
  obtain ⟨s₁, hruns, hs₁, hquiet⟩ := exists_runs_quiet hinv.1 hinv.2
  obtain ⟨s', hruns', hout, hphase⟩ := exists_runs_outside hs₁.counts hs₁.safe hquiet
  rw [hs₁.phase] at hphase
  exact ⟨s', (hruns.mono fun _ _ => goesOn_of_proceed).trans hruns', hout, hphase⟩

/-- One of three participants waits, one has dropped, and one is still to arrive. -/
theorem progress_of_drained_three : ∃ s : Config (Fin 3) (Shared Barrier (Fin 3)) Place,
    s.pc 0 = .asleep 0 ∧ s.pc 1 = .gone ∧ s.pc 2 = .idle ∧
      ∃ s', barrier.monitor.machine.Runs GoesOn s s' ∧ (∀ t, Outside (s'.pc t)) ∧
        s'.shared.phase ≤ s.shared.phase + 1 := by
  have h₀ : ArrivesDrained (start (new (Fintype.card (Fin 3))))
      ⟨(0 : Fin 3), .arriveAndWait, none⟩ :=
    fun _ _ t k h => by simp [start] at h
  have h₁ := Machine.Runs.tail (M := barrier.monitor.machine) .refl h₀ rfl
  have h₂ := Machine.Runs.tail (a := ⟨1, .arriveAndDrop, none⟩) h₁
    (fun harrive => by cases harrive) rfl
  exact ⟨_, rfl, rfl, rfl, progress_of_drained h₂⟩

end Barrier

end Sync
