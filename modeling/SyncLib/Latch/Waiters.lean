import SyncLib.Latch.Basic

/-!
# Waiting for a `latch`

`count_down` never notifies, and `count_down_and_wait` does so only when the counter was `0`
before it, which is one count-down too late: while no more is counted down than the latch was
made for, nobody is ever notified. A thread that sleeps when the latch opens sleeps on
(`open_latch_stranded`).
-/

namespace Sync

namespace Latch

open Core

variable {T : Type*}

/-- The latch is open, a thread is asleep, and no other thread has a notification to deliver. -/
def Stranded (s : Config T (Shared T) Place) : Prop :=
  s.shared.count = 0 ∧ ∃ t, s.pc t = .asleep ∧ ∀ u, u ≠ t → s.pc u ≠ .notifying

/-- No thread is asleep, or has failed its test and is about to sleep. -/
def Unwatched (s : Config T (Shared T) Place) : Prop :=
  ∀ t, s.pc t ≠ .asleep ∧ s.pc t ≠ .blocking

def Move.countsDown : Move → Bool
  | .countDownAndWait | .countDown _ => true
  | _                                => false

/-- A count-down that opens the latch finds no thread asleep or about to sleep. -/
def OpensUnwatched (s : Config T (Shared T) Place) (a : Act T Move) : Prop :=
  a.move.countsDown = true → s.shared.count = 1 → Unwatched s

lemma Unwatched.update [DecidableEq T] {s : Config T (Shared T) Place} {t : T} {p : Place}
    {c : Shared T} (h : Unwatched s) (hp : p ≠ .asleep ∧ p ≠ .blocking) :
    Unwatched ⟨c, Function.update s.pc t p⟩ :=
  (Function.forall_update_iff s.pc (p := fun _ q => q ≠ .asleep ∧ q ≠ .blocking)).mpr
    ⟨hp, fun u _ => h u⟩

section

variable [DecidableEq T] [Fintype T] {s s' : Config T (Shared T) Place} {a : Act T Move}

/-- While the latch is open nobody is asleep or about to sleep. -/
lemma unwatched_step (h : s.shared.count = 0 → Unwatched s) (hok : OpensUnwatched s a)
    (hs : monitor.machine.step s a = some s') : s'.shared.count = 0 → Unwatched s' := by
  have hstep := step_of_machine hs
  obtain ⟨t, m, w⟩ := a
  simp only at hstep
  intro h0
  cases hstep with
  | arriveNotify hp hc => simp [hc] at h0
  | arrive hp hc => exact (hok rfl (by simpa [sub_eq_zero] using h0)).update (by simp)
  | countDown hp => exact (hok rfl (by simpa [sub_eq_zero] using h0)).update (by simp)
  | waitReady hp hc => exact (h hc).update (by simp)
  | wait hp hc => exact absurd h0 hc
  | notifyAll hp =>
    intro u
    have hu := (h h0).update (c := s.shared) (t := t) (p := .idle) (by simp) u
    cases hq : Function.update s.pc t .idle u <;> simp_all [Place.wake]
  | lock hp ho => exact (h h0).update (by simp)
  | pass hp hc => exact (h hc).update (by simp)
  | fail hp hc => exact absurd h0 hc
  | sleep hp => exact absurd hp (h h0 t).2
  | wakeUp hp => exact absurd hp (h h0 t).1

/-- If no count-down opens the latch while a thread is asleep or about to sleep, no waiter is
ever stranded. -/
theorem not_stranded_of_opensUnwatched {n : ℤ}
    (h : monitor.machine.Runs OpensUnwatched (start n) s) : ¬ Stranded s := by
  have hinv : s.shared.count = 0 → Unwatched s :=
    h.invariant (I := fun u => u.shared.count = 0 → Unwatched u)
      (fun _ _ => by simp [start]) fun _ _ _ hu hok hs => unwatched_step hu hok hs
  rintro ⟨h0, t, ht, -⟩
  exact (hinv h0 t).1 ht

end

/-- The total amount counted down. -/
def total : List (Event T) → ℤ
  | []                => 0
  | .counted _ n :: l => total l + n
  | _ :: l            => total l

/-- A latch for one count-down: the first thread waits, the second one counts down once, its calls
are over, and the first thread is stranded. -/
theorem open_latch_stranded :
    ∃ s, (monitor (T := Fin 2)).machine.Reachable (start 1) s ∧ total s.shared.log = 1 ∧
      s.pc 1 = .idle ∧ Stranded s := by
  obtain ⟨s, hs, hp⟩ := Machine.exists_reachable_of_run
    (M := (monitor (T := Fin 2)).machine) (s := start 1)
    [⟨0, .wait, none⟩, ⟨0, .proceed, none⟩, ⟨0, .proceed, none⟩, ⟨0, .proceed, none⟩,
      ⟨1, .countDownAndWait, none⟩, ⟨1, .proceed, none⟩, ⟨1, .proceed, none⟩]
    (fun s => s.shared.count == 0 && total s.shared.log == 1 && s.pc 0 == .asleep &&
      s.pc 1 == .idle) (by decide)
  simp only [Bool.and_eq_true, beq_iff_eq] at hp
  obtain ⟨⟨⟨hcount, htotal⟩, h₀⟩, h₁⟩ := hp
  refine ⟨s, hs, htotal, h₁, hcount, 0, h₀, fun u hu => ?_⟩
  match u with
  | 0 => exact absurd rfl hu
  | 1 => simp [h₁]

/-- The second thread counts down before the first one calls `wait`. -/
theorem not_stranded_of_opensUnwatched_two :
    ∃ s : Config (Fin 2) (Shared (Fin 2)) Place, s.shared.count = 0 ∧ ¬ Stranded s := by
  have h₀ : OpensUnwatched (start 1) ⟨(1 : Fin 2), .countDown 1, none⟩ :=
    fun _ _ t => by simp [start]
  have h₁ := Machine.Runs.tail (M := monitor.machine) .refl h₀ rfl
  have h₂ := Machine.Runs.tail (a := ⟨(0 : Fin 2), .wait, none⟩) h₁
    (fun h _ => absurd h (by decide)) rfl
  exact ⟨_, rfl, not_stranded_of_opensUnwatched h₂⟩

/-! ### Nobody is notified -/

/-- The calls that have counted down, and the amounts they stand for. -/
def calls (log : List (Event T)) : ℕ :=
  log.countP fun | .counted _ _ => true | _ => false

/-- Every call so far counted down at least one. -/
def Positive (log : List (Event T)) : Prop := ∀ t n, .counted t n ∈ log → 1 ≤ n

lemma calls_le_total {log : List (Event T)} (h : Positive log) : (calls log : ℤ) ≤ total log := by
  induction log with
  | nil => simp [calls, total]
  | cons e log ih =>
    have hlog := ih fun t n hn => h t n (List.mem_cons_of_mem _ hn)
    cases e with
    | counted t n =>
      have := h t n List.mem_cons_self
      simp only [calls, total, List.countP_cons_of_pos] at hlog ⊢
      push_cast
      omega
    | returned t => simpa [calls, total] using hlog

/-- The counter is `n` less the number of calls, whatever they were asked to count down, and a
thread notifies only if it has counted down a counter of `0`. -/
structure Counted (n : ℤ) (s : Config T (Shared T) Place) : Prop where
  count_eq : s.shared.count = n - calls s.shared.log
  late : ∀ t, s.pc t = .notifying → n < calls s.shared.log

namespace Counted

variable [DecidableEq T] {n : ℤ} {s s' : Config T (Shared T) Place} {a : Act T Move}

lemma late_update {t : T} {p : Place} {c : Shared T} (h : Counted n s)
    (hle : calls s.shared.log ≤ calls c.log) (hp : p = .notifying → n < calls c.log) (u : T)
    (hu : Function.update s.pc t p u = .notifying) : n < calls c.log := by
  by_cases hut : u = t
  · subst hut
    rw [Function.update_self] at hu
    exact hp hu
  · rw [Function.update_of_ne hut] at hu
    have := h.late u hu
    omega

variable [Fintype T]

lemma step (h : Counted n s) (hs : monitor.machine.step s a = some s') : Counted n s' := by
  have hstep := step_of_machine hs
  obtain ⟨t, m, w⟩ := a
  simp only at hstep
  have hcount := h.count_eq
  cases hstep with
  | arriveNotify hp hc =>
    refine ⟨?_, h.late_update ?_ fun _ => ?_⟩ <;>
      simp only [calls, List.countP_cons_of_pos] at hcount ⊢ <;> push_cast <;> omega
  | arrive hp hc =>
    refine ⟨?_, h.late_update ?_ (by simp)⟩ <;>
      simp only [calls, List.countP_cons_of_pos] at hcount ⊢ <;> push_cast <;> omega
  | countDown hp =>
    refine ⟨?_, h.late_update ?_ (by simp)⟩ <;>
      simp only [calls, List.countP_cons_of_pos] at hcount ⊢ <;> push_cast <;> omega
  | waitReady hp hc => exact ⟨hcount, h.late_update le_rfl (by simp)⟩
  | wait hp hc => exact ⟨hcount, h.late_update le_rfl (by simp)⟩
  | notifyAll hp =>
    refine ⟨hcount, fun u hu => ?_⟩
    refine h.late_update (c := s.shared) (t := t) (p := .idle) le_rfl (by simp) u ?_
    cases hq : Function.update s.pc t .idle u <;> simp_all [Place.wake]
  | lock hp ho => exact ⟨hcount, h.late_update le_rfl (by simp)⟩
  | pass hp hc => exact ⟨hcount, h.late_update le_rfl (by simp)⟩
  | fail hp hc => exact ⟨hcount, h.late_update le_rfl (by simp)⟩
  | sleep hp => exact ⟨hcount, h.late_update le_rfl (by simp)⟩
  | wakeUp hp => exact ⟨hcount, h.late_update le_rfl (by simp)⟩

theorem of_reachable (h : monitor.machine.Reachable (start n) s) : Counted n s :=
  h.invariant (I := Counted n) ⟨by simp [start, calls], by simp [start]⟩
    fun _ _ _ hu _ hs => hu.step hs

end Counted

variable [DecidableEq T] [Fintype T] {n : ℤ} {s : Config T (Shared T) Place}

/-- While the amounts are positive and sum to at most `n`, no thread has a notification to
deliver. -/
theorem not_notifying (h : monitor.machine.Reachable (start n) s) (hpos : Positive s.shared.log)
    (hle : total s.shared.log ≤ n) (t : T) : s.pc t ≠ .notifying := by
  intro ht
  have hlate := (Counted.of_reachable h).late t ht
  have hcalls := calls_le_total hpos
  omega

/-- Hence whoever is asleep when the latch is open is stranded. -/
theorem stranded_of_asleep (h : monitor.machine.Reachable (start n) s)
    (hpos : Positive s.shared.log) (hle : total s.shared.log ≤ n) {t : T}
    (ht : s.pc t = .asleep) (h0 : s.shared.count = 0) : Stranded s :=
  ⟨h0, t, ht, fun u _ => not_notifying h hpos hle u⟩

end Latch

end Sync
