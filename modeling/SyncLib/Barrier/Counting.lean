import SyncLib.Barrier.Basic
import Mathlib.Tactic.Ring

/-!
# What the counters of `barrier` count

`threads_` is the number of participants that have not dropped, `count_` the number of those
that have not arrived in the current phase. Hence a phase ends only when all of its participants
have arrived or dropped, and no call returns before the end of its phase.
-/

namespace Sync

open Core

namespace BarrierClass

variable {T : Type*}

/-! ### Weights of places -/

namespace Place

/-- The participants that have not dropped. -/
def member : Place → ℕ
  | .dropping _ | .gone => 0
  | _                   => 1

/-- The participants that wait for the end of phase `k`. -/
def waitsIn (k : ℕ) : Place → ℕ
  | .asleep j | .woken j => if j = k then 1 else 0
  | _                    => 0

/-- The participants that are still to arrive in phase `k`. -/
def pending (k : ℕ) : Place → ℕ
  | .asleep j | .woken j => if j = k then 0 else 1
  | .dropping _ | .gone  => 0
  | _                    => 1

@[simp] lemma member_wake (p : Place) : p.wake.member = p.member := by cases p <;> rfl

@[simp] lemma waitsIn_wake (k : ℕ) (p : Place) : p.wake.waitsIn k = p.waitsIn k := by
  cases p <;> rfl

@[simp] lemma pending_wake (k : ℕ) (p : Place) : p.wake.pending k = p.pending k := by
  cases p <;> rfl

lemma waitsIn_add_pending (k : ℕ) (p : Place) : p.waitsIn k + p.pending k = p.member := by
  cases p <;> simp only [waitsIn, pending, member] <;> split_ifs <;> rfl

end Place

/-! ### Places and events -/

/-- What the place of `t` says about the events, `K` phases being complete. -/
def Place.Agrees (t : T) (K : ℕ) (log : List (Event T)) : Place → Prop
  | .idle                => True
  | .asleep k | .woken k => k ≤ K ∧ .arrived t k ∈ log
  | .notifying k         => k < K ∧ .arrived t k ∈ log
  | .dropping k          => k < K ∧ .dropped t k ∈ log
  | .gone                => ∃ k ≤ K, .dropped t k ∈ log

lemma Place.Agrees.mono {t : T} {K K' : ℕ} {log log' : List (Event T)} {p : Place}
    (h : p.Agrees t K log) (hK : K ≤ K') (hlog : log ⊆ log') : p.Agrees t K' log' := by
  cases p with
  | idle => trivial
  | asleep k => exact ⟨h.1.trans hK, hlog h.2⟩
  | woken k => exact ⟨h.1.trans hK, hlog h.2⟩
  | notifying k => exact ⟨h.1.trans_le hK, hlog h.2⟩
  | dropping k => exact ⟨h.1.trans_le hK, hlog h.2⟩
  | gone =>
    obtain ⟨k, hk, hmem⟩ := h
    exact ⟨k, hk.trans hK, hlog hmem⟩

@[simp] lemma Place.agrees_wake {t : T} {K : ℕ} {log : List (Event T)} {p : Place} :
    p.wake.Agrees t K log ↔ p.Agrees t K log := by
  cases p <;> rfl

/-- Every participant that had not dropped before phase `k` has arrived or dropped in it. -/
def Complete (k : ℕ) (log : List (Event T)) : Prop :=
  ∀ u, (∃ j < k, .dropped u j ∈ log) ∨ .arrived u k ∈ log ∨ .dropped u k ∈ log

lemma Complete.mono {k : ℕ} {log log' : List (Event T)} (h : Complete k log)
    (hlog : log ⊆ log') : Complete k log' := by
  intro u
  rcases h u with ⟨j, hj, hmem⟩ | hmem | hmem
  · exact .inl ⟨j, hj, hlog hmem⟩
  · exact .inr (.inl (hlog hmem))
  · exact .inr (.inr (hlog hmem))

/-- No call of a phase has returned before the phase was complete. -/
def NoEarlyReturn (log : List (Event T)) : Prop :=
  ∀ post pre t k, log = post ++ .returned t k :: pre → Complete k pre

lemma noEarlyReturn_cons {e : Event T} {log : List (Event T)} :
    NoEarlyReturn (e :: log) ↔
      (∀ t k, e = .returned t k → Complete k log) ∧ NoEarlyReturn log := by
  constructor
  · intro h
    refine ⟨fun t k he => h [] log t k (by rw [he]; rfl), fun post pre t k hlog => ?_⟩
    exact h (e :: post) pre t k (by rw [hlog]; rfl)
  · rintro ⟨he, hlog⟩ post pre t k h
    cases post with
    | nil =>
      simp only [List.nil_append, List.cons.injEq] at h
      exact h.2 ▸ he t k h.1
    | cons e' post =>
      simp only [List.cons_append, List.cons.injEq] at h
      exact hlog post pre t k h.2

/-! ### Counting events -/

/-- The number of `arrive_and_drop` calls. -/
def drops : List (Event T) → ℕ
  | []                  => 0
  | .dropped _ _ :: log => drops log + 1
  | _ :: log            => drops log

/-- The number of `arrive_and_wait` calls made in phase `k`. -/
def arrivals (k : ℕ) : List (Event T) → ℕ
  | []                  => 0
  | .arrived _ j :: log => arrivals k log + if j = k then 1 else 0
  | _ :: log            => arrivals k log

/-- No arrival is recorded for a phase that is still to come. -/
def Past (K : ℕ) (log : List (Event T)) : Prop := ∀ t k, .arrived t k ∈ log → k < K

lemma Past.cons {K : ℕ} {e : Event T} {log : List (Event T)} (h : Past K log)
    (he : ∀ t k, e = .arrived t k → k < K) : Past K (e :: log) := by
  intro t k hk
  rcases List.mem_cons.mp hk with hk | hk
  · exact he t k hk.symm
  · exact h t k hk

lemma Past.arrivals_eq_zero {K : ℕ} {log : List (Event T)} (h : Past K log) :
    arrivals K log = 0 := by
  induction log with
  | nil => rfl
  | cons e log ih =>
    have ih := ih fun t k hmem => h t k (List.mem_cons_of_mem e hmem)
    cases e with
    | arrived t k =>
      have hk : k < K := h t k List.mem_cons_self
      simp only [arrivals, ih, hk.ne, if_false]
    | dropped t k => exact ih
    | returned t k => exact ih

end BarrierClass

/-! ### The invariant of `barrier` -/

namespace Barrier

open BarrierClass

variable {T : Type*} [Fintype T]

/-- The counters, the places of the participants and the events fit together. -/
structure Counts (s : Config T (Shared Barrier T) Place) : Prop where
  threads_eq : s.shared.bar.threads = tally Place.member s.pc
  count_eq : s.shared.bar.count = tally (Place.pending s.shared.phase) s.pc
  arrivals_eq : tally (Place.waitsIn s.shared.phase) s.pc = arrivals s.shared.phase s.shared.log
  drops_eq : tally Place.member s.pc + drops s.shared.log = Fintype.card T
  past : Past (s.shared.phase + 1) s.shared.log
  agrees : ∀ t, (s.pc t).Agrees t s.shared.phase s.shared.log
  complete : ∀ k < s.shared.phase, Complete k s.shared.log
  noEarly : NoEarlyReturn s.shared.log
  live : s.shared.bar.count = 0 → s.shared.bar.threads = 0

namespace Counts

variable {s : Config T (Shared Barrier T) Place}

lemma initial : Counts (BarrierClass.start (new (Fintype.card T)) : Config T _ _) where
  threads_eq := by simp [BarrierClass.start, new, tally, Place.member]
  count_eq := by simp [BarrierClass.start, new, tally, Place.pending]
  arrivals_eq := by simp [BarrierClass.start, tally, Place.waitsIn, arrivals]
  drops_eq := by simp [BarrierClass.start, tally, Place.member, drops]
  past := by simp [BarrierClass.start, Past]
  agrees _ := trivial
  complete := by simp [BarrierClass.start]
  noEarly post pre t k h := by simp [BarrierClass.start] at h
  live := by simp [BarrierClass.start, new]

/-- What waits in the current phase and what is still to arrive are the members. -/
lemma waits_add_pending (h : Counts s) :
    s.shared.bar.threads - s.shared.bar.count = arrivals s.shared.phase s.shared.log := by
  have hadd := tally_add (Place.waitsIn s.shared.phase) (Place.pending s.shared.phase) s.pc
  simp only [Place.waitsIn_add_pending] at hadd
  have h₁ := h.threads_eq
  have h₂ := h.count_eq
  have h₃ := h.arrivals_eq
  change tally Place.member s.pc = _ at hadd
  omega

/-- The counters stay between `0` and the number of participants. -/
lemma range (h : Counts s) :
    0 ≤ s.shared.bar.count ∧ s.shared.bar.count ≤ s.shared.bar.threads ∧
      s.shared.bar.threads ≤ Fintype.card T := by
  have h₁ := h.threads_eq
  have h₂ := h.count_eq
  have h₃ := h.drops_eq
  have h₄ := h.waits_add_pending
  omega

/-- A call may return once its phase is complete. -/
lemma returned (h : Counts s) {t : T} {k : ℕ} (hk : Complete k s.shared.log) :
    Counts ⟨{ s.shared with log := .returned t k :: s.shared.log }, s.pc⟩ := by
  refine ⟨h.threads_eq, h.count_eq, h.arrivals_eq, h.drops_eq, ?_, ?_, ?_, ?_, h.live⟩
  · exact fun u j hj => h.past u j (by simpa using hj)
  · exact fun u => (h.agrees u).mono le_rfl (List.subset_cons_self _ _)
  · exact fun j hj => (h.complete j hj).mono (List.subset_cons_self _ _)
  · refine noEarlyReturn_cons.mpr ⟨fun u j he => ?_, h.noEarly⟩
    obtain ⟨rfl, rfl⟩ := Event.returned.inj he
    exact hk

/-- A notification changes no count. -/
lemma wake (h : Counts s) : Counts ⟨s.shared, fun u => (s.pc u).wake⟩ where
  threads_eq := h.threads_eq.trans (by rw [tally_congr fun u => (Place.member_wake (s.pc u))])
  count_eq := h.count_eq.trans (by rw [tally_congr fun u => (Place.pending_wake _ (s.pc u))])
  arrivals_eq := by rw [tally_congr fun u => (Place.waitsIn_wake _ (s.pc u))]; exact h.arrivals_eq
  drops_eq := by rw [tally_congr fun u => (Place.member_wake (s.pc u))]; exact h.drops_eq
  past := h.past
  agrees u := Place.agrees_wake.mpr (h.agrees u)
  complete := h.complete
  noEarly := h.noEarly
  live := h.live

/-- Nobody waits in the current phase while the counters are equal. -/
lemma lt_of_released (h : Counts s) {t : T} {k : ℕ} (hp : s.pc t = .woken k)
    (hr : s.shared.bar.count = s.shared.bar.threads) : k < s.shared.phase := by
  have hagree := h.agrees t
  rw [hp] at hagree
  have hwait := le_tally (Place.waitsIn s.shared.phase) s.pc t
  have hadd := h.waits_add_pending
  have harr := h.arrivals_eq
  rw [hp] at hwait
  refine lt_of_le_of_ne hagree.1 fun hk => ?_
  simp only [hk, Place.waitsIn, if_true] at hwait
  omega

variable [DecidableEq T]

/-- The last arrival makes the phase complete: nobody else is still to arrive in it. -/
lemma completes (h : Counts s) {t : T} (hp : s.pc t = .idle) (hc : s.shared.bar.count = 1)
    {e : Event T} (he : e = .arrived t s.shared.phase ∨ e = .dropped t s.shared.phase) :
    Complete s.shared.phase (e :: s.shared.log) := by
  intro u
  by_cases hu : u = t
  · subst hu
    rcases he with rfl | rfl
    · exact .inr (.inl List.mem_cons_self)
    · exact .inr (.inr List.mem_cons_self)
  · have hle : tally (Place.pending s.shared.phase) s.pc ≤ 1 := by
      have := h.count_eq
      omega
    have h0 := eq_zero_of_tally_le_one hle (by simp [hp, Place.pending]) hu
    have hagree := h.agrees u
    cases hq : s.pc u with
    | idle => simp [hq, Place.pending] at h0
    | notifying k => simp [hq, Place.pending] at h0
    | asleep k =>
      simp only [hq, Place.pending, ite_eq_left_iff, one_ne_zero, imp_false, not_not] at h0
      simp only [hq, Place.Agrees, h0] at hagree
      exact .inr (.inl (List.mem_cons_of_mem _ hagree.2))
    | woken k =>
      simp only [hq, Place.pending, ite_eq_left_iff, one_ne_zero, imp_false, not_not] at h0
      simp only [hq, Place.Agrees, h0] at hagree
      exact .inr (.inl (List.mem_cons_of_mem _ hagree.2))
    | dropping k =>
      simp only [hq, Place.Agrees] at hagree
      exact .inl ⟨k, hagree.1, List.mem_cons_of_mem _ hagree.2⟩
    | gone =>
      simp only [hq, Place.Agrees] at hagree
      obtain ⟨k, hk, hmem⟩ := hagree
      rcases hk.lt_or_eq with hk | rfl
      · exact .inl ⟨k, hk, List.mem_cons_of_mem _ hmem⟩
      · exact .inr (.inr (List.mem_cons_of_mem _ hmem))

/-- Before the first arrival of a new phase nobody waits in it. -/
lemma turn (h : Counts s) {t : T} {p : Place}
    (hp : p.pending (s.shared.phase + 1) = p.member) :
    tally (Place.pending (s.shared.phase + 1)) (Function.update s.pc t p)
        = tally Place.member (Function.update s.pc t p) ∧
      tally (Place.waitsIn (s.shared.phase + 1)) (Function.update s.pc t p) = 0 := by
  have hpend : ∀ u, (Function.update s.pc t p u).pending (s.shared.phase + 1)
      = (Function.update s.pc t p u).member := by
    rw [Function.forall_update_iff s.pc
      (p := fun _ q => Place.pending (s.shared.phase + 1) q = q.member)]
    refine ⟨hp, fun u _ => ?_⟩
    have hagree := h.agrees u
    cases hq : s.pc u with
    | asleep k =>
      simp only [hq, Place.Agrees] at hagree
      simp only [Place.pending, Place.member, ite_eq_right_iff]
      omega
    | woken k =>
      simp only [hq, Place.Agrees] at hagree
      simp only [Place.pending, Place.member, ite_eq_right_iff]
      omega
    | idle => rfl
    | notifying k => rfl
    | dropping k => rfl
    | gone => rfl
  refine ⟨tally_congr hpend, tally_eq_zero_iff.mpr fun u => ?_⟩
  have := Place.waitsIn_add_pending (s.shared.phase + 1) (Function.update s.pc t p u)
  have := hpend u
  omega

/-- The places agree with the events after a step that moves `t` to `p`. -/
lemma agrees_update (h : Counts s) {t : T} {p : Place} {K : ℕ} {log : List (Event T)}
    (hK : s.shared.phase ≤ K) (hlog : s.shared.log ⊆ log) (hp : p.Agrees t K log) (u : T) :
    (Function.update s.pc t p u).Agrees u K log := by
  revert u
  rw [Function.forall_update_iff s.pc (p := fun u q => Place.Agrees u K log q)]
  exact ⟨hp, fun u _ => (h.agrees u).mono hK hlog⟩

/-- A participant may move between places that count the same. -/
lemma move (h : Counts s) {t : T} {p : Place} (hm : p.member = (s.pc t).member)
    (hp : p.pending s.shared.phase = (s.pc t).pending s.shared.phase)
    (ha : p.Agrees t s.shared.phase s.shared.log) :
    Counts ⟨s.shared, Function.update s.pc t p⟩ := by
  have hmem := tally_update Place.member s.pc t p
  have hpend := tally_update (Place.pending s.shared.phase) s.pc t p
  have hwait := tally_update (Place.waitsIn s.shared.phase) s.pc t p
  have hsum := Place.waitsIn_add_pending s.shared.phase p
  have hsum' := Place.waitsIn_add_pending s.shared.phase (s.pc t)
  have hthreads := h.threads_eq
  have hcount := h.count_eq
  have harr := h.arrivals_eq
  have hdrops := h.drops_eq
  refine ⟨?_, ?_, ?_, ?_, h.past, ?_, h.complete, h.noEarly, h.live⟩
  · simp only; omega
  · simp only; omega
  · simp only; omega
  · simp only; omega
  · exact h.agrees_update le_rfl (List.Subset.refl _) ha

section

variable {t : T} {p : Place} {e : Event T} {threads : ℤ}

/-- The last participant of a phase arrives, or drops. -/
lemma last (h : Counts s) (hp : s.pc t = .idle) (hc : s.shared.bar.count = 1)
    (he : e = .arrived t s.shared.phase ∨ e = .dropped t s.shared.phase)
    (hpend : p.pending (s.shared.phase + 1) = p.member)
    (hagree : p.Agrees t (s.shared.phase + 1) (e :: s.shared.log))
    (hthreads : threads + 1 = s.shared.bar.threads + p.member)
    (hdrops : drops (e :: s.shared.log) + p.member = drops s.shared.log + 1) :
    Counts ⟨⟨⟨threads, threads⟩, s.shared.phase + 1, e :: s.shared.log⟩,
      Function.update s.pc t p⟩ := by
  obtain ⟨hpending, hwait⟩ := h.turn (t := t) hpend
  have hmem := tally_update Place.member s.pc t p
  have hidle : Place.member (s.pc t) = 1 := by rw [hp]; rfl
  have hthreads' := h.threads_eq
  have hdrops' := h.drops_eq
  have hpast : Past (s.shared.phase + 1) (e :: s.shared.log) := by
    refine h.past.cons fun u k heq => ?_
    rcases he with rfl | rfl <;> cases heq
    exact Nat.lt_succ_self _
  refine ⟨?_, ?_, ?_, ?_, fun u k hk => (hpast u k hk).trans (Nat.lt_succ_self _), ?_, ?_, ?_, id⟩
  · simp only; omega
  · simp only [hpending]; omega
  · simp only [hwait, hpast.arrivals_eq_zero]
  · simp only; omega
  · exact h.agrees_update (Nat.le_succ _) (List.subset_cons_self _ _) hagree
  · intro k hk
    rcases Nat.lt_succ_iff_lt_or_eq.mp hk with hk | rfl
    · exact (h.complete k hk).mono (List.subset_cons_self _ _)
    · exact h.completes hp hc he
  · refine noEarlyReturn_cons.mpr ⟨fun u k heq => ?_, h.noEarly⟩
    rcases he with rfl | rfl <;> cases heq

/-- Another participant of a phase arrives, or drops. -/
lemma notLast (h : Counts s) (hp : s.pc t = .idle) (hc : s.shared.bar.count ≠ 1)
    (he : e = .arrived t s.shared.phase ∨ e = .dropped t s.shared.phase)
    (hpend : p.pending s.shared.phase = 0)
    (hagree : p.Agrees t s.shared.phase (e :: s.shared.log))
    (hthreads : threads + 1 = s.shared.bar.threads + p.member)
    (harr : arrivals s.shared.phase (e :: s.shared.log)
      = arrivals s.shared.phase s.shared.log + p.member)
    (hdrops : drops (e :: s.shared.log) + p.member = drops s.shared.log + 1) :
    Counts ⟨⟨⟨s.shared.bar.count - 1, threads⟩, s.shared.phase, e :: s.shared.log⟩,
      Function.update s.pc t p⟩ := by
  have hmem := tally_update Place.member s.pc t p
  have hpending := tally_update (Place.pending s.shared.phase) s.pc t p
  have hwait := tally_update (Place.waitsIn s.shared.phase) s.pc t p
  have hsum := Place.waitsIn_add_pending s.shared.phase p
  have hthreads' := h.threads_eq
  have hcount := h.count_eq
  have harr' := h.arrivals_eq
  have hdrops' := h.drops_eq
  have hmember : Place.member .idle = 1 := rfl
  have hpends : Place.pending s.shared.phase .idle = 1 := rfl
  have hwaits : Place.waitsIn s.shared.phase .idle = 0 := rfl
  rw [hp] at hmem hpending hwait
  refine ⟨?_, ?_, ?_, ?_, h.past.cons fun u k heq => ?_, ?_, ?_, ?_, ?_⟩
  · simp only; omega
  · simp only; omega
  · simp only; omega
  · simp only; omega
  · rcases he with rfl | rfl <;> cases heq
    exact Nat.lt_succ_self _
  · exact h.agrees_update le_rfl (List.subset_cons_self _ _) hagree
  · exact fun k hk => (h.complete k hk).mono (List.subset_cons_self _ _)
  · refine noEarlyReturn_cons.mpr ⟨fun u k heq => ?_, h.noEarly⟩
    rcases he with rfl | rfl <;> cases heq
  · simp only; omega

end

/-- A step keeps the invariant. -/
theorem step {s' : Config T (Shared Barrier T) Place} {a : Act T Move} (h : Counts s)
    (hs : barrier.monitor.machine.step s a = some s') : Counts s' := by
  have hstep := ((step_iff barrier).mp hs).2
  obtain ⟨t, m, w⟩ := a
  simp only at hstep
  cases hstep with
  | arriveLast hp hb =>
    obtain ⟨hc, rfl⟩ := Barrier.arriveAndWait_last.mp hb
    exact h.last hp hc (.inl rfl) rfl ⟨Nat.lt_succ_self _, List.mem_cons_self⟩
      (by simp [Place.member]) rfl
  | arrivePass hp hb hr =>
    -- the counters differ, since the caller has not arrived yet
    obtain ⟨hc, rfl⟩ := Barrier.arriveAndWait_notLast.mp hb
    have hrange := h.range
    simp only [barrier, released_eq_true] at hr
    omega
  | arriveSleep hp hb hr =>
    obtain ⟨hc, rfl⟩ := Barrier.arriveAndWait_notLast.mp hb
    exact h.notLast hp hc (.inl rfl) (by simp [Place.pending]) ⟨le_rfl, List.mem_cons_self⟩
      (by simp [Place.member]) (by simp [arrivals, Place.member]) rfl
  | dropLast hp hb =>
    obtain ⟨hc, rfl⟩ := Barrier.arriveAndDrop_last.mp hb
    exact h.last hp hc (.inr rfl) rfl ⟨Nat.lt_succ_self _, List.mem_cons_self⟩
      (by simp [Place.member]) rfl
  | drop hp hb =>
    obtain ⟨hc, rfl⟩ := Barrier.arriveAndDrop_notLast.mp hb
    exact h.notLast hp hc (.inr rfl) rfl ⟨_, le_rfl, List.mem_cons_self⟩
      (by simp [Place.member]) rfl rfl
  | @wakeUp k hp =>
    have hagree := h.agrees t
    rw [hp] at hagree
    exact h.move (by rw [hp]; rfl) (by rw [hp]; rfl) hagree
  | @resume k hp hr =>
    have hk := h.lt_of_released hp (by simpa [barrier] using hr)
    refine (h.returned (h.complete k hk)).move (by rw [hp]; rfl) ?_ trivial
    simp only [hp, Place.pending, if_neg hk.ne]
  | @sleepAgain k hp hr =>
    have hagree := h.agrees t
    rw [hp] at hagree
    exact h.move (by rw [hp]; rfl) (by rw [hp]; rfl) hagree
  | @notifyAll k hp =>
    have hagree := h.agrees t
    rw [hp] at hagree
    have hret := h.returned (t := t) (h.complete k hagree.1)
    exact (hret.move (t := t) (p := .idle) (by rw [hp]; rfl) (by rw [hp]; rfl) trivial).wake
  | @dropNotify k hp =>
    have hagree := h.agrees t
    rw [hp] at hagree
    exact (h.move (t := t) (p := .gone) (by rw [hp]; rfl) (by rw [hp]; rfl)
      ⟨k, hagree.1.le, hagree.2⟩).wake

/-- A run keeps the invariant. -/
theorem of_reachable
    (h : barrier.monitor.machine.Reachable (start (new (Fintype.card T))) s) : Counts s :=
  h.invariant Counts.initial fun _ _ _ hu _ hs => hu.step hs

end Counts

/-- In every reachable state `threads_` is the number of participants less the drops,
`threads_ - count_` is the number of arrivals of the current phase, and no call of a phase has
returned before every participant that had not dropped arrived or dropped in that phase. -/
theorem counters_and_returns [DecidableEq T] {s : Config T (Shared Barrier T) Place}
    (h : barrier.monitor.machine.Reachable (start (new (Fintype.card T))) s) :
    s.shared.bar.threads = Fintype.card T - drops s.shared.log ∧
      s.shared.bar.threads - s.shared.bar.count = arrivals s.shared.phase s.shared.log ∧
      NoEarlyReturn s.shared.log := by
  have hc := Counts.of_reachable h
  refine ⟨?_, hc.waits_add_pending, hc.noEarly⟩
  have h₁ := hc.threads_eq
  have h₂ := hc.drops_eq
  omega

/-- The second of two participants drops and ends the phase in which the first one waits. -/
theorem counters_and_returns_two :
    ∃ s, (barrier.monitor (T := Fin 2)).machine.run (start (new (Fintype.card (Fin 2))))
        [⟨0, .arriveAndWait, none⟩, ⟨1, .arriveAndDrop, none⟩, ⟨1, .proceed, none⟩,
          ⟨0, .proceed, none⟩] = some s ∧
      s.shared.bar.threads = Fintype.card (Fin 2) - drops s.shared.log ∧
      s.shared.bar.threads - s.shared.bar.count = arrivals s.shared.phase s.shared.log ∧
      NoEarlyReturn s.shared.log := by
  obtain ⟨s, hs⟩ := Option.isSome_iff_exists.mp
    (show ((barrier.monitor (T := Fin 2)).machine.run (start (new (Fintype.card (Fin 2))))
      [⟨0, .arriveAndWait, none⟩, ⟨1, .arriveAndDrop, none⟩, ⟨1, .proceed, none⟩,
        ⟨0, .proceed, none⟩]).isSome = true by decide)
  exact ⟨s, hs, counters_and_returns (Machine.reachable_of_run .refl hs)⟩

end Barrier

end Sync
