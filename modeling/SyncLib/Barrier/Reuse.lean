import SyncLib.Barrier.Counting

/-!
# Using a `barrier` again

Waiting threads test `count_ == threads_` and not the number of their phase. A thread that
arrives in the next phase before they have tested makes the predicate false for them, and they
sleep on although their phase is complete (`stranded_waiter`). When no thread arrives to wait
before the waiters of the completed phases are gone, nobody is stranded.
-/

namespace Sync

namespace Barrier

open Core BarrierClass

variable {T : Type*}

/-- No thread is asleep in a call of a completed phase while the predicate is false. -/
def Releasable (s : Config T (Shared Barrier T) Place) : Prop :=
  ∀ t k, s.pc t = .asleep k → k < s.shared.phase → s.shared.bar.released = true

/-- The participants that have not dropped are all asleep, and there is one. -/
def AllAsleep (s : Config T (Shared Barrier T) Place) : Prop :=
  (∃ t, s.pc t ≠ .gone) ∧ ∀ t, s.pc t ≠ .gone → ∃ k, s.pc t = .asleep k

/-- No thread waits in a call of a completed phase. -/
def Drained (s : Config T (Shared Barrier T) Place) : Prop :=
  ∀ t k, s.pc t = .asleep k ∨ s.pc t = .woken k → s.shared.phase ≤ k

/-- The phase that a thread waits in. -/
def waitingIn : Place → Option ℕ
  | .asleep k | .woken k => some k
  | _                    => none

lemma waitingIn_eq {p : Place} {k : ℕ} :
    waitingIn p = some k ↔ p = .asleep k ∨ p = .woken k := by
  cases p <;> simp [waitingIn]

instance [Fintype T] (s : Config T (Shared Barrier T) Place) : Decidable (Drained s) :=
  decidable_of_iff (∀ t, ∀ k ∈ waitingIn (s.pc t), s.shared.phase ≤ k)
    (forall₂_congr fun _ _ => imp_congr_left waitingIn_eq)

/-- A thread that arrives to wait, and is not the last to arrive, finds the completed phases
drained. -/
def ArrivesDrained (s : Config T (Shared Barrier T) Place) (a : Act T Move) : Prop :=
  a.move = .arriveAndWait → s.shared.bar.count ≠ 1 → Drained s

instance [Fintype T] (s : Config T (Shared Barrier T) Place) (a : Act T Move) :
    Decidable (ArrivesDrained s a) :=
  inferInstanceAs (Decidable (_ → _ → _))

/-- The waiters of completed phases find the predicate true, and while one of them is asleep
the notification is still to come. -/
structure Safe (s : Config T (Shared Barrier T) Place) : Prop where
  released : ∀ t k, s.pc t = .asleep k ∨ s.pc t = .woken k → k < s.shared.phase →
    s.shared.bar.count = s.shared.bar.threads
  notifier : ∀ t k, s.pc t = .asleep k → k < s.shared.phase →
    ∃ u j, s.pc u = .notifying j ∨ s.pc u = .dropping j

namespace Safe

variable {s : Config T (Shared Barrier T) Place}

/-- After a notification nobody is asleep. -/
lemma wake (h : ∀ t k, s.pc t = .asleep k ∨ s.pc t = .woken k → k < s.shared.phase →
    s.shared.bar.count = s.shared.bar.threads) :
    Safe ⟨s.shared, fun u => (s.pc u).wake⟩ := by
  constructor
  · intro u k hu hk
    refine h u k ?_ hk
    cases hq : s.pc u <;> simp_all [Place.wake]
  · intro u k hu _
    cases hq : s.pc u <;> simp_all [Place.wake]

lemma not_allAsleep [Fintype T] (h : Safe s) (hc : Counts s) : ¬ AllAsleep s := by
  rintro ⟨⟨t, ht⟩, hall⟩
  by_cases hstale : ∃ u k, s.pc u = .asleep k ∧ k < s.shared.phase
  · obtain ⟨u, k, hu, hk⟩ := hstale
    obtain ⟨v, j, hv⟩ := h.notifier u k hu hk
    have hgone : s.pc v ≠ .gone := by
      rcases hv with hv | hv <;> simp [hv]
    obtain ⟨i, hi⟩ := hall v hgone
    rcases hv with hv | hv <;> simp [hv] at hi
  · -- everybody waits in the current phase, so nobody is left to arrive in it
    have hpend : tally (Place.pending s.shared.phase) s.pc = 0 := by
      refine tally_eq_zero_iff.mpr fun u => ?_
      by_cases hu : s.pc u = .gone
      · simp [hu, Place.pending]
      · obtain ⟨k, hk⟩ := hall u hu
        have hagree := hc.agrees u
        rw [hk] at hagree
        have : k = s.shared.phase :=
          le_antisymm hagree.1 (not_lt.mp fun hlt => hstale ⟨u, k, hk, hlt⟩)
        simp [hk, this, Place.pending]
    have hzero : s.shared.bar.threads = 0 := hc.live (by rw [hc.count_eq, hpend]; rfl)
    have hmem := hc.threads_eq
    have hle := le_tally Place.member s.pc t
    obtain ⟨k, hk⟩ := hall t ht
    simp only [hk, Place.member] at hle
    omega

variable [DecidableEq T]

/-- `t` moves to `p`, and the counters are equal where a completed phase has waiters. -/
lemma move (h : Safe s) {t : T} {p : Place} {b : Barrier} {log : List (Event T)}
    (hb : ∀ u k, s.pc u = .asleep k ∨ s.pc u = .woken k → k < s.shared.phase →
      b.count = b.threads)
    (hp : ∀ k, p = .asleep k ∨ p = .woken k → k < s.shared.phase → b.count = b.threads)
    (ht : ∀ j, s.pc t ≠ .notifying j ∧ s.pc t ≠ .dropping j)
    (hn : ∀ k, p = .asleep k → k < s.shared.phase →
      ∃ u j, s.pc u = .notifying j ∨ s.pc u = .dropping j) :
    Safe ⟨⟨b, s.shared.phase, log⟩, Function.update s.pc t p⟩ := by
  constructor
  · intro u k hu hk
    by_cases hut : u = t
    · subst hut
      simp only [Function.update_self] at hu
      exact hp k hu hk
    · simp only [Function.update_of_ne hut] at hu
      exact hb u k hu hk
  · intro u k hu hk
    have hex : ∃ v j, s.pc v = .notifying j ∨ s.pc v = .dropping j := by
      by_cases hut : u = t
      · subst hut
        simp only [Function.update_self] at hu
        exact hn k hu hk
      · simp only [Function.update_of_ne hut] at hu
        exact h.notifier u k hu hk
    obtain ⟨v, j, hv⟩ := hex
    refine ⟨v, j, ?_⟩
    have hvt : v ≠ t := by
      rintro rfl
      rcases hv with hv | hv
      · exact (ht j).1 hv
      · exact (ht j).2 hv
    simpa only [Function.update_of_ne hvt] using hv

/-- The last arrival leaves the counters equal and its own notification outstanding. -/
lemma last {t : T} {p : Place} {b : Barrier} {K : ℕ} {log : List (Event T)}
    {pc : T → Place} (hb : b.count = b.threads) (hp : ∃ j, p = .notifying j ∨ p = .dropping j) :
    Safe ⟨⟨b, K, log⟩, Function.update pc t p⟩ := by
  constructor
  · exact fun _ _ _ _ => hb
  · intro u k _ _
    obtain ⟨j, hj⟩ := hp
    exact ⟨t, j, by simpa only [Function.update_self] using hj⟩

/-- A step keeps `Safe` if it arrives only when the completed phases are drained. -/
theorem step [Fintype T] {s' : Config T (Shared Barrier T) Place} {a : Act T Move} (h : Safe s)
    (hc : Counts s) (hok : ArrivesDrained s a)
    (hs : barrier.monitor.machine.step s a = some s') : Safe s' := by
  have hstep := ((step_iff barrier).mp hs).2
  obtain ⟨t, m, w⟩ := a
  simp only at hstep
  have hrange := hc.range
  cases hstep with
  | arriveLast hp hb =>
    obtain ⟨-, rfl⟩ := arriveAndWait_last.mp hb
    exact last rfl ⟨_, .inl rfl⟩
  | arrivePass hp hb hr =>
    obtain ⟨hc, rfl⟩ := arriveAndWait_notLast.mp hb
    simp only [barrier, released_eq_true] at hr
    omega
  | arriveSleep hp hb hr =>
    obtain ⟨hcount, rfl⟩ := arriveAndWait_notLast.mp hb
    have hdrained : Drained s := hok rfl hcount
    refine h.move (fun u k hu hk => absurd hk (hdrained u k hu).not_gt) ?_ (by simp [hp]) ?_
    · intro k hk hlt
      simp only [Place.asleep.injEq, reduceCtorEq, or_false] at hk
      omega
    · intro k hk hlt
      simp only [Place.asleep.injEq] at hk
      omega
  | dropLast hp hb =>
    obtain ⟨-, rfl⟩ := arriveAndDrop_last.mp hb
    exact last rfl ⟨_, .inr rfl⟩
  | drop hp hb =>
    obtain ⟨-, rfl⟩ := arriveAndDrop_notLast.mp hb
    refine h.move (fun u k hu hk => ?_) (by simp) (by simp [hp]) (by simp)
    simp only [h.released u k hu hk]
  | @wakeUp k hp =>
    refine h.move h.released ?_ (by simp [hp]) (by simp)
    intro j hj hlt
    simp only [reduceCtorEq, Place.woken.injEq, false_or] at hj
    exact h.released t j (.inl (hj ▸ hp)) hlt
  | resume hp hr =>
    exact h.move h.released (by simp) (by simp [hp]) (by simp)
  | @sleepAgain k hp hr =>
    simp only [barrier, released_eq_false] at hr
    refine h.move h.released ?_ (by simp [hp]) ?_
    · intro j hj hlt
      simp only [Place.asleep.injEq, reduceCtorEq, or_false] at hj
      exact h.released t j (.inr (hj ▸ hp)) hlt
    · -- the predicate was false, so the phase of the sleeper is not complete
      intro j hj hlt
      simp only [Place.asleep.injEq] at hj
      exact absurd (h.released t j (.inr (hj ▸ hp)) hlt) hr
  | notifyAll hp =>
    refine wake (s := ⟨_, Function.update s.pc t .idle⟩) fun u k hu hk => ?_
    by_cases hut : u = t
    · simp [hut] at hu
    · simp only [Function.update_of_ne hut] at hu
      exact h.released u k hu hk
  | dropNotify hp =>
    refine wake (s := ⟨_, Function.update s.pc t .gone⟩) fun u k hu hk => ?_
    by_cases hut : u = t
    · simp [hut] at hu
    · simp only [Function.update_of_ne hut] at hu
      exact h.released u k hu hk

end Safe

section

variable [Fintype T] [DecidableEq T]

/-- If threads arrive to wait only when the completed phases are drained, or as the last of
their phase, every waiter of a completed phase can be released and the remaining participants
are never all asleep. -/
theorem releasable_of_drained {s : Config T (Shared Barrier T) Place}
    (h : barrier.monitor.machine.Runs ArrivesDrained (start (new (Fintype.card T))) s) :
    Releasable s ∧ ¬ AllAsleep s := by
  have hinv : Counts s ∧ Safe s := by
    refine h.invariant (I := fun u => Counts u ∧ Safe u) ⟨Counts.initial, ?_⟩ ?_
    · constructor <;> simp [start]
    · exact fun u a u' hu hok hs => ⟨hu.1.step hs, hu.2.step hu.1 hok hs⟩
  refine ⟨fun t k ht hk => ?_, hinv.2.not_allAsleep hinv.1⟩
  simpa using hinv.2.released t k (.inl ht) hk

end

/-- Two participants: the second one ends phase `0` and is back for phase `1` before the first
one has tested the predicate. The first one sleeps on, its predicate is false, and everybody is
asleep. -/
theorem stranded_waiter :
    ∃ s, (barrier.monitor (T := Fin 2)).machine.Reachable (start (new (Fintype.card (Fin 2)))) s ∧
      ¬ Releasable s ∧ AllAsleep s := by
  obtain ⟨s, hs, hp⟩ := Machine.exists_reachable_of_run
    (M := (barrier.monitor (T := Fin 2)).machine) (s := start (new (Fintype.card (Fin 2))))
    [⟨0, .arriveAndWait, none⟩, ⟨1, .arriveAndWait, none⟩, ⟨1, .proceed, none⟩,
      ⟨1, .arriveAndWait, none⟩, ⟨0, .proceed, none⟩]
    (fun s => s.pc 0 == .asleep 0 && s.pc 1 == .asleep 1 && s.shared.phase == 1 &&
      !s.shared.bar.released) (by decide)
  simp only [Bool.and_eq_true, beq_iff_eq, Bool.not_eq_eq_eq_not, Bool.not_true] at hp
  obtain ⟨⟨⟨h₀, h₁⟩, hphase⟩, hrel⟩ := hp
  refine ⟨s, hs, fun h => ?_, ⟨0, by simp [h₀]⟩, ?_⟩
  · have := h 0 0 h₀ (by omega)
    simp [hrel] at this
  · intro t _
    match t with
    | 0 => exact ⟨0, h₀⟩
    | 1 => exact ⟨1, h₁⟩

/-- Two participants wait for one phase, and for a second one as soon as both are out of the first.
The one that has waited first sleeps in the second phase, which is complete. -/
theorem releasable_of_drained_two :
    ∃ s : Config (Fin 2) (Shared Barrier (Fin 2)) Place, s.shared.phase = 2 ∧
      s.pc 0 = .asleep 1 ∧ Releasable s ∧ ¬ AllAsleep s := by
  have hrun : ((barrier.monitor (T := Fin 2)).machine.runWhile ArrivesDrained
      (start (new (Fintype.card (Fin 2))))
      [⟨0, .arriveAndWait, none⟩, ⟨1, .arriveAndWait, none⟩, ⟨1, .proceed, none⟩,
        ⟨0, .proceed, none⟩, ⟨0, .arriveAndWait, none⟩, ⟨1, .arriveAndWait, none⟩]).any
      (fun s => s.shared.phase == 2 && s.pc 0 == .asleep 1) = true := by
    decide
  obtain ⟨s, hs, hp⟩ := Machine.exists_runs_of_runWhile _ _ hrun
  simp only [Bool.and_eq_true, beq_iff_eq] at hp
  exact ⟨s, hp.1, hp.2, releasable_of_drained hs⟩

end Barrier

end Sync
