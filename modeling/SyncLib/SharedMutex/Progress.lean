import SyncLib.Core.Settling
import SyncLib.SharedMutex.Waiters

/-!
# Who gets a `shared_mutex_base`

A thread that holds nothing calls, and a thread that holds gives back. Then everybody who is in a
call gets what it waits for as soon as the holders leave, without another call, a spurious wake-up
or a timeout. A writer that waits at `gate2_` is the next to get in, whatever the other threads
call.
-/

namespace Sync

open Core

namespace SharedMutex

/-! ### Threads that call with empty hands -/

/-- The methods that acquire. -/
def Move.acquires : Move → Bool
  | .lock | .tryLock | .lockShared | .tryLockShared | .tryLockUntil | .tryLockSharedUntil => true
  | _                                                                                    => false

/-- A thread that holds the mutex, shared or exclusively, gives it back before it asks for more. -/
def FreeHanded {w : ℕ} {T : Type*} (s : Config T (Word w) Thread) (a : Act T Move) : Prop :=
  a.move.acquires = true → (s.pc a.tid).exclusive = false ∧ (s.pc a.tid).shared = 0

instance {w : ℕ} {T : Type*} (s : Config T (Word w) Thread) (a : Act T Move) :
    Decidable (FreeHanded s a) :=
  inferInstanceAs (Decidable (_ → _ ∧ _))

/-- The holders give back what they hold, and a thread that was woken goes on in time. -/
def Move.goesOn : Move → Prop
  | .unlock | .unlockShared | .proceed false => True
  | _                                       => False

/-- The thread holds nothing while it is in a call, and never holds the mutex twice. -/
structure Thread.Tidy (th : Thread) : Prop where
  inside : th.place ≠ .outside → th.exclusive = false ∧ th.shared = 0
  single : th.shared ≤ 1

namespace Thread

lemma tidy_default : Tidy {} := ⟨fun h => absurd rfl h, Nat.zero_le _⟩

lemma Tidy.wake {th : Thread} (h : th.Tidy) : th.wake.Tidy := by
  refine ⟨fun hp => ?_, by rw [shared_wake]; exact h.single⟩
  rw [exclusive_wake, shared_wake]
  refine h.inside fun hout => hp ?_
  rw [Thread.wake, hout]
  exact hout

@[simp] lemma draining_wake (th : Thread) : th.wake.place.draining = th.place.draining := by
  cases hp : th.place <;> simp [Thread.wake, hp, Place.draining]

lemma entered_wake {th : Thread} : th.wake.Entered ↔ th.Entered := by
  rw [Entered, Entered, exclusive_wake, draining_wake]

/-- What the thread has still to do: to get past `gate1_` and `gate2_`, and to give back. -/
def phase (th : Thread) : ℕ :=
  (match th.place with
  | .outside             => 0
  | .asleep x | .woken x => if x.gate = .gate1 then 3 else 2) + th.exclusive.toNat + th.shared

/-- The thread has to look at the word. -/
def rank (th : Thread) : ℕ :=
  match th.place with
  | .woken _ => 1
  | _        => 0

lemma phase_wake (th : Thread) : th.wake.phase = th.phase := by
  cases hp : th.place <;> simp [Thread.wake, hp, phase]

lemma rank_le_one (th : Thread) : th.rank ≤ 1 := by
  cases hp : th.place <;> simp [rank, hp]

end Thread

namespace Effect

variable {n count count' : ℕ} {flag flag' : Bool} {th th' : Thread} {sig : Signal Gate}

/-- A thread with empty hands takes the mutex once, and only when its call ends. -/
lemma tidy (h : Effect n flag count th flag' count' th' sig) (he : th.exclusive = false)
    (hs : th.shared = 0) : th'.Tidy := by
  cases h with
  | giveUp hd => exact ⟨fun _ => ⟨he, hs⟩, hs.trans_le (Nat.zero_le _)⟩
  | block x hd hx h => exact ⟨fun _ => ⟨he, hs⟩, hs.trans_le (Nat.zero_le _)⟩
  | acquire hd hf hc => exact ⟨fun h => absurd rfl h, hs.trans_le (Nat.zero_le _)⟩
  | drain x hd hx hf hc => exact ⟨fun _ => ⟨he, hs⟩, hs.trans_le (Nat.zero_le _)⟩
  | drained hd hc => exact ⟨fun h => absurd rfl h, hs.trans_le (Nat.zero_le _)⟩
  | drainOn x hd hx hc => exact ⟨fun _ => ⟨he, hs⟩, hs.trans_le (Nat.zero_le _)⟩
  | withdraw hd => exact ⟨fun _ => ⟨he, hs⟩, hs.trans_le (Nat.zero_le _)⟩
  | release hp he' => simp [he] at he'
  | share hd hf hc =>
    refine ⟨fun h => absurd rfl h, ?_⟩
    simp [Thread.acquireShared, hs]
  | unshare hp hs' => exact absurd hs hs'.ne'
  | wakeUp x hp => exact ⟨fun _ => ⟨he, hs⟩, hs.trans_le (Nat.zero_le _)⟩

/-- A woken thread gets further, or sleeps again. -/
lemma phase_or_rank (h : Effect n flag count th flag' count' th' sig) {x : Wait}
    (hp : th.place = .woken x) (he : th.exclusive = false) :
    th'.phase < th.phase ∨ th'.phase = th.phase ∧ th'.rank < th.rank ∧ sig = .none := by
  have hgate1 : th.place.draining = false → x.gate = .gate1 := by
    rw [hp]
    cases hx : x.gate <;> simp [Place.draining, hx]
  have hgate2 : th.place.draining = true → x.gate = .gate2 := by
    rw [hp]
    cases hx : x.gate <;> simp [Place.draining, hx]
  cases h with
  | giveUp hd =>
    left
    simp [Thread.phase, Thread.leave, hp, hgate1 hd]
  | block y hd hy h =>
    right
    simp [Thread.phase, Thread.rank, Thread.wait, hp, hgate1 hd, hy]
  | acquire hd hf hc =>
    left
    simp [Thread.phase, Thread.acquire, hp, he, hgate1 hd]
  | drain y hd hy hf hc =>
    left
    simp [Thread.phase, Thread.wait, hp, hgate1 hd, hy]
  | drained hd hc =>
    left
    simp [Thread.phase, Thread.acquire, hp, he, hgate2 hd]
  | drainOn y hd hy hc =>
    right
    simp [Thread.phase, Thread.rank, Thread.wait, hp, hgate2 hd, hy]
  | withdraw hd =>
    left
    simp [Thread.phase, Thread.leave, hp, hgate2 hd]
  | release hp' he' => simp [hp] at hp'
  | share hd hf hc =>
    left
    simp only [Thread.phase, Thread.acquireShared, hp, hgate1 hd]
    simp
    omega
  | unshare hp' hs => simp [hp] at hp'
  | wakeUp y hp' => simp [hp] at hp'

/-- Behind the flag nobody else enters. -/
lemma not_entered (h : Effect n true count th flag' count' th' sig) (hne : ¬ th.Entered) :
    ¬ th'.Entered := by
  have he : th.exclusive = false := by simpa using fun he => hne (.inl he)
  have hd' : th.place.draining = false := by simpa using fun hd => hne (.inr hd)
  cases h with
  | block x hd hx h => simp [Thread.Entered, Thread.wait, he, Place.draining, hx]
  | acquire hd hf hc => cases hf
  | drain x hd hx hf hc => cases hf
  | drained hd hc => simp [hd'] at hd
  | drainOn x hd hx hc => simp [hd'] at hd
  | withdraw hd => simp [hd'] at hd
  | release hp he' => simp [he] at he'
  | share hd hf hc => cases hf
  | wakeUp x hp =>
    rw [hp] at hd'
    simpa [Thread.Entered, he, Place.draining] using hd'
  | _ => simp_all [Thread.Entered, Thread.leave, Place.draining]

end Effect

/-! ### In time -/

/-- The thread holds the mutex in a way in which it did not before. -/
def Thread.Served (th th' : Thread) : Prop :=
  th'.exclusive = true ∨ th'.shared = th.shared + 1

section

variable {w : ℕ} {state : Word w} {th : Thread}

lemma served_drain {x : Wait} (h : (drain x state th).2.1.place = .outside) :
    th.Served (drain x state th).2.1 := by
  unfold drain at h ⊢
  split_ifs at h ⊢
  · cases h
  · exact .inl rfl

lemma served_enter {x y : Wait} (h : (enter x y state th).2.1.place = .outside) :
    th.Served (enter x y state th).2.1 := by
  unfold enter at h ⊢
  split_ifs at h ⊢
  · cases h
  · exact served_drain h

lemma served_enterShared {x : Wait} (h : (enterShared x state th).2.1.place = .outside) :
    th.Served (enterShared x state th).2.1 := by
  unfold enterShared at h ⊢
  split_ifs at h ⊢
  · cases h
  · exact .inr rfl

/-- A wait whose time is not over ends with the mutex. -/
lemma served_resume {x : Wait} (h : (resume false x state th).2.1.place = .outside) :
    th.Served (resume false x state th).2.1 := by
  cases x with
  | lockGate1 => exact served_enter h
  | lockGate2 => exact served_drain h
  | lockShared => exact served_enterShared h
  | tryLockUntilGate1 =>
    simp only [resume, tryLockUntilGate1, Bool.false_eq_true, if_false] at h ⊢
    split_ifs at h ⊢
    · exact served_drain h
    · cases h
  | tryLockUntilGate2 =>
    simp only [resume, tryLockUntilGate2, Bool.false_eq_true, if_false] at h ⊢
    split_ifs at h ⊢
    · exact .inl rfl
    · cases h
  | tryLockSharedUntil =>
    simp only [resume, tryLockSharedUntilGate1, Bool.false_eq_true, if_false] at h ⊢
    split_ifs at h ⊢
    · exact .inr rfl
    · cases h

end

/-! ### The invariant -/

variable {w : ℕ} {T : Type*} [Fintype T]

/-- The word, the sleepers and the threads are in order, and there are fewer threads than readers
that the word can count. -/
structure Settles (s : Config T (Word w) Thread) (flag : Bool) : Prop where
  inv : Inv s flag
  awaits : Awaits s flag
  tidy : ∀ t, (s.pc t).Tidy
  card_lt : Fintype.card T < (nReaders : Word w).toNat

namespace Settles

variable {s s' : Config T (Word w) Thread} {flag : Bool}

lemma holders_lt (h : Settles s flag) : holders s < (nReaders : Word w).toNat := by
  have hle : tally Thread.shared s.pc ≤ Fintype.card T * 1 :=
    tally_le_card_mul fun t => (h.tidy t).single
  rw [Nat.mul_one] at hle
  exact hle.trans_lt h.card_lt

/-! ### Somebody can go on -/

/-- Where nobody is woken and nobody holds the mutex, nobody is in a call. -/
lemma outside (h : Settles s flag) (hwoken : ∀ t x, (s.pc t).place ≠ .woken x)
    (hexclusive : ∀ t, (s.pc t).exclusive = false) (hshared : ∀ t, (s.pc t).shared = 0) (t : T) :
    s.pc t = {} := by
  have hholders : holders s = 0 := tally_eq_zero_iff.mpr hshared
  have hgate2 : ∀ u, (s.pc u).asleepOn ≠ some .gate2 := by
    intro u hu
    have hpos := h.awaits.gate2 u hu
    omega
  have hgate1 : ∀ u, (s.pc u).asleepOn ≠ some .gate1 := by
    intro u hu
    have hflag := h.awaits.gate1 u hu
    rw [h.inv.flag_eq, decide_eq_true_eq] at hflag
    obtain ⟨v, hv | hv⟩ := hflag
    · simp [hexclusive v] at hv
    · cases hp : (s.pc v).place with
      | outside => simp [hp, Place.draining] at hv
      | asleep x =>
        rw [hp] at hv
        exact hgate2 v (by simpa [Thread.asleepOn, hp, Place.draining] using hv)
      | woken x => exact hwoken v x hp
  have hp : (s.pc t).place = .outside := by
    cases hp : (s.pc t).place with
    | outside => rfl
    | asleep x =>
      have hx : (s.pc t).asleepOn = some x.gate := by rw [Thread.asleepOn, hp]
      cases hg : x.gate with
      | gate1 => exact absurd (hx.trans (congrArg some hg)) (hgate1 t)
      | gate2 => exact absurd (hx.trans (congrArg some hg)) (hgate2 t)
    | woken x => exact absurd hp (hwoken t x)
  have he := hexclusive t
  have hs := hshared t
  cases hth : s.pc t
  simp_all

/-- Somebody can go on: a woken thread first, then whoever holds the mutex. -/
lemma progress (h : Settles s flag) : (∀ t, s.pc t = {}) ∨
    ∃ t m sh th sig, Move.goesOn m ∧
      (monitor (T := T)).next t s.shared (s.pc t) m = some (sh, th, sig) ∧
      (th.phase < (s.pc t).phase ∨
        th.phase = (s.pc t).phase ∧ th.rank < (s.pc t).rank ∧ sig = .none) := by
  by_cases hwoken : ∃ t x, (s.pc t).place = .woken x
  · obtain ⟨t, x, hp⟩ := hwoken
    right
    obtain ⟨he, -⟩ := (h.tidy t).inside (by simp [hp])
    have hn : next s.shared (s.pc t) (.proceed false) =
        some (resume false x s.shared (s.pc t)) := by
      simp only [next, hp]
    obtain ⟨_, _, -, heffect⟩ := h.inv.encodes.follows (le_tally Thread.shared s.pc t) hn
    exact ⟨t, .proceed false, _, _, _, trivial, hn, heffect.phase_or_rank hp he⟩
  by_cases hexclusive : ∃ t, (s.pc t).exclusive = true
  · obtain ⟨t, he⟩ := hexclusive
    right
    have hp : (s.pc t).place = .outside := by
      by_contra hp
      simp [((h.tidy t).inside hp).1] at he
    have hn : next s.shared (s.pc t) .unlock = some (unlock (s.pc t)) := by
      simp only [next, hp, he, if_true]
    refine ⟨t, .unlock, _, _, _, trivial, hn, .inl ?_⟩
    simp [Thread.phase, hp, he]
  by_cases hshared : ∃ t, 0 < (s.pc t).shared
  · obtain ⟨t, hs⟩ := hshared
    right
    have hp : (s.pc t).place = .outside := by
      by_contra hp
      simp [((h.tidy t).inside hp).2] at hs
    have hn : next s.shared (s.pc t) .unlockShared = some (unlockShared s.shared (s.pc t)) := by
      simp only [next, hp, hs, if_true]
    refine ⟨t, .unlockShared, _, _, _, trivial, hn, .inl ?_⟩
    simp only [Thread.phase]
    omega
  · left
    push Not at hwoken hexclusive hshared
    exact h.outside hwoken (fun t => by simpa using hexclusive t)
      fun t => Nat.le_zero.mp (hshared t)

/-! ### Everybody gets in -/

variable [DecidableEq T]

/-- A step of a thread that calls with empty hands leaves it tidy. -/
lemma tidy_step (h : Settles s flag) {a : Act T Move} (hfree : FreeHanded s a)
    (hs : monitor.machine.step s a = some s') (t : T) : (s'.pc t).Tidy := by
  obtain ⟨sh, th, sig, hn, hd⟩ := Monitor.step_eq_some.mp hs
  obtain ⟨_, _, -, heffect⟩ := h.inv.encodes.follows (le_tally Thread.shared s.pc a.tid) hn
  have hth : th.Tidy := by
    have htidy := h.tidy a.tid
    by_cases hout : (s.pc a.tid).place = .outside
    · by_cases hacq : a.move.acquires = true
      · obtain ⟨he, hsh⟩ := hfree hacq
        exact heffect.tidy he hsh
      · -- what is left outside is to give back
        simp only [monitor, next, hout] at hn
        cases hm : a.move <;> simp_all only [Move.acquires, not_true_eq_false, reduceCtorEq]
        all_goals
          simp only [Option.ite_none_right_eq_some, Option.some.injEq] at hn
          obtain ⟨-, hn⟩ := hn
          rw [Prod.ext_iff, Prod.ext_iff] at hn
          obtain ⟨-, rfl, -⟩ := hn
        · exact ⟨fun h => absurd hout h, htidy.single⟩
        · exact ⟨fun h => absurd hout h, (Nat.sub_le _ _).trans htidy.single⟩
    · obtain ⟨he, hsh⟩ := htidy.inside hout
      exact heffect.tidy he hsh
  have hupdate : (Function.update s.pc a.tid th t).Tidy := by
    by_cases hta : t = a.tid
    · subst hta
      rwa [Function.update_self]
    · rw [Function.update_of_ne hta]
      exact h.tidy t
  rcases Monitor.pc_of_deliver hd t with hpc | hpc
  · rw [hpc]
    exact hupdate
  · rw [hpc]
    exact hupdate.wake

theorem step (h : Settles s flag) {a : Act T Move} (hfree : FreeHanded s a)
    (hs : monitor.machine.step s a = some s') : ∃ flag', Settles s' flag' := by
  obtain ⟨flag', hinv', hawaits'⟩ := h.awaits.step h.inv h.holders_lt hs
  exact ⟨flag', hinv', hawaits', fun t => h.tidy_step hfree hs t, h.card_lt⟩

theorem of_runs (hT : Fintype.card T < (nReaders : Word w).toNat)
    (h : monitor.machine.Runs FreeHanded start s) : ∃ flag, Settles s flag := by
  refine h.invariant (I := fun s => ∃ flag, Settles s flag)
    ⟨false, Inv.initial, ⟨?_, ?_⟩, ?_, hT⟩ ?_
  · intro t ht
    cases ht
  · intro t ht
    cases ht
  · exact fun _ => Thread.tidy_default
  · rintro u a u' ⟨flag, hu⟩ hfree hs
    exact hu.step hfree hs

/-- The holders leave, and everybody who is in a call gets in and leaves. -/
theorem exists_runs (h : Settles s flag) :
    ∃ s', monitor.machine.Runs (fun _ a => a.move.goesOn) s s' ∧ s'.shared = 0 ∧
      ∀ t, s'.pc t = {} := by
  have hkeep : ∀ (u : Config T (Word w) Thread) a u', (∃ flag, Settles u flag) → a.move.goesOn →
      monitor.machine.step u a = some u' → ∃ flag, Settles u' flag := by
    rintro u a u' ⟨flag, hu⟩ hgo hs
    refine hu.step (fun hacq => ?_) hs
    cases hm : a.move <;> simp_all [Move.goesOn, Move.acquires]
  obtain ⟨s', hruns, ⟨flag', hs'⟩, hgoal⟩ := Monitor.exists_runs_of_phase
    (G := fun s => ∀ t, s.pc t = {}) Thread.phase_wake Thread.rank_le_one hkeep
    (fun u ⟨flag, hu⟩ => hu.progress) ⟨flag, h⟩
  refine ⟨s', hruns, ?_, hgoal⟩
  rw [hs'.inv.encodes.eq_zero, hs'.inv.flag_eq, decide_eq_false_iff_not]
  refine ⟨?_, tally_eq_zero_iff.mpr fun t => by rw [hgoal t]⟩
  rintro ⟨t, ht⟩
  rw [hgoal t] at ht
  simp [Thread.Entered, Place.draining] at ht

end Settles

/-! ### Writers first -/

/-- Nobody else gets in while a thread waits at `gate2_`. -/
lemma Inv.kept {s s' : Config T (Word w) Thread} {flag : Bool} [DecidableEq T] (h : Inv s flag)
    {t : T} (ht : (s.pc t).place.draining = true)
    {a : Act T Move} (hs : monitor.machine.step s a = some s') :
    (∀ u, (s'.pc u).shared ≤ (s.pc u).shared) ∧ ∀ u, u ≠ t → ¬ (s'.pc u).Entered := by
  have hflag : flag = true := by
    rw [h.flag_eq, decide_eq_true_eq]
    exact ⟨t, .inr ht⟩
  subst hflag
  refine ⟨h.admission hs, fun u hut => ?_⟩
  have hnot : ¬ (s.pc u).Entered := fun hu =>
    hut (h.eq_of_writes (Thread.writes_pos.mpr hu) (Thread.writes_pos.mpr (.inr ht)))
  obtain ⟨flag', th, sig, heffect, hd, -⟩ := h.step hs
  have hupdate : ¬ (Function.update s.pc a.tid th u).Entered := by
    by_cases hua : u = a.tid
    · subst hua
      rw [Function.update_self]
      exact heffect.not_entered hnot
    · rwa [Function.update_of_ne hua]
  rcases Monitor.pc_of_deliver hd u with hpc | hpc
  · rwa [hpc]
  · rw [hpc]
    exact fun he => hupdate (Thread.entered_wake.mp he)

/-- As long as the thread is there, in every run. -/
lemma Inv.kept_of_runs {s s' : Config T (Word w) Thread} {flag : Bool} [DecidableEq T]
    (h : Inv s flag) {t : T} (ht : (s.pc t).place.draining = true)
    (hruns : monitor.machine.Runs (fun u _ => (u.pc t).place.draining = true) s s') :
    (∀ u, (s'.pc u).shared ≤ (s.pc u).shared) ∧ ∀ u, u ≠ t → ¬ (s'.pc u).Entered := by
  have hall : (∃ flag', Inv s' flag') ∧
      (∀ u, (s'.pc u).shared ≤ (s.pc u).shared) ∧ ∀ u, u ≠ t → ¬ (s'.pc u).Entered := by
    induction hruns with
    | refl =>
      refine ⟨⟨flag, h⟩, fun u => le_rfl, fun u hut hu => hut ?_⟩
      exact h.eq_of_writes (Thread.writes_pos.mpr hu) (Thread.writes_pos.mpr (.inr ht))
    | tail _ hdraining hs ih =>
      obtain ⟨⟨flag', hinv⟩, hle, -⟩ := ih
      obtain ⟨hle', hnot⟩ := hinv.kept hdraining hs
      obtain ⟨flag'', -, -, -, -, hinv'⟩ := hinv.step hs
      exact ⟨⟨flag'', hinv'⟩, fun u => (hle' u).trans (hle u), hnot⟩
  exact hall.2

/-- The last reader has left, so the thread is awake and will find the mutex free. -/
lemma Settles.next_of_draining {s : Config T (Word w) Thread} {flag : Bool} (h : Settles s flag)
    {t : T} (ht : (s.pc t).place.draining = true) (hzero : holders s = 0) :
    ∃ x, (s.pc t).place = .woken x ∧ ∀ timeout,
      next s.shared (s.pc t) (.proceed timeout) = some (s.shared, (s.pc t).acquire, .none) := by
  cases hp : (s.pc t).place with
  | outside => simp [hp, Place.draining] at ht
  | asleep x =>
    have hx : (s.pc t).asleepOn = some .gate2 := by
      simpa [Thread.asleepOn, hp, Place.draining] using ht
    have hpos := h.awaits.gate2 t hx
    omega
  | woken x =>
    refine ⟨x, rfl, fun timeout => ?_⟩
    have hreaders : readers s.shared = 0 := h.inv.encodes.readers_eq_zero.mpr hzero
    have hgate : x.gate = .gate2 := by simpa [hp, Place.draining] using ht
    cases x with
    | lockGate2 => simp [next, hp, resume, drain, hreaders]
    | tryLockUntilGate2 => simp [next, hp, resume, tryLockUntilGate2, hreaders]
    | _ => cases hgate

/-! ### The law -/

variable [DecidableEq T]

/-- Who gets in, from a state of the threads around one mutex on. -/
structure ProgressLaw (s : Config T (Word w) Thread) : Prop where
  /-- A wait whose time is not over ends with the mutex. -/
  served : ∀ t o, (s.pc t).place ≠ .outside → next s.shared (s.pc t) (.proceed false) = some o →
    o.2.1.place = .outside → (s.pc t).Served o.2.1
  /-- As soon as the holders leave, everybody who is in a call gets in. -/
  finishes : ∃ s', monitor.machine.Runs (fun _ a => a.move.goesOn) s s' ∧ s'.shared = 0 ∧
    ∀ t, s'.pc t = {}
  /-- Whatever the others call, nobody gets in before a writer that waits at `gate2_`. -/
  writer_first : ∀ t, (s.pc t).place.draining = true →
    ∀ s', monitor.machine.Runs (fun u _ => (u.pc t).place.draining = true) s s' →
      (∀ u, (s'.pc u).shared ≤ (s.pc u).shared) ∧ ∀ u, u ≠ t → ¬ (s'.pc u).Entered
  /-- When the last reader has left, that writer is awake and gets in. -/
  writer_next : ∀ t, (s.pc t).place.draining = true → holders s = 0 →
    ∃ x, (s.pc t).place = .woken x ∧ ∀ timeout,
      next s.shared (s.pc t) (.proceed timeout) = some (s.shared, (s.pc t).acquire, .none)

/-- Threads that call with empty hands, and are fewer than the readers that `state_` can count: from
every reachable state everybody who is in a call gets in when the holders leave, and a writer at
`gate2_` is next. -/
theorem progressLaw (hT : Fintype.card T < (nReaders : Word w).toNat)
    {s : Config T (Word w) Thread} (h : monitor.machine.Runs FreeHanded start s) :
    ProgressLaw s := by
  obtain ⟨flag, hs⟩ := Settles.of_runs hT h
  refine ⟨fun t o hp hn hout => ?_, hs.exists_runs, fun t ht s' => hs.inv.kept_of_runs ht,
    fun t => hs.next_of_draining⟩
  cases hplace : (s.pc t).place with
  | outside => exact absurd hplace hp
  | asleep x => simp [next, hplace] at hn
  | woken x =>
    simp only [next, hplace, Option.some.injEq] at hn
    subst hn
    exact served_resume hout

/-- A writer waits at `gate2_` for a reader, and a writer and a reader wait behind it. -/
theorem progressLaw_four : ∃ s : Config (Fin 4) (Word 31) Thread,
    (s.pc 0).shared = 1 ∧ (s.pc 1).place = .asleep .lockGate2 ∧
      (s.pc 2).place = .asleep .tryLockUntilGate1 ∧ (s.pc 3).place = .asleep .lockShared ∧
        ProgressLaw s := by
  have hrun : (monitor.machine.runWhile FreeHanded (start : Config (Fin 4) (Word 31) Thread)
      [⟨0, .lockShared, none⟩, ⟨1, .lock, none⟩, ⟨2, .tryLockUntil, none⟩,
        ⟨3, .lockShared, none⟩]).any
      (fun s => (s.pc 0).shared == 1 && (s.pc 1).place == .asleep .lockGate2 &&
        (s.pc 2).place == .asleep .tryLockUntilGate1 &&
        (s.pc 3).place == .asleep .lockShared) = true := by
    decide +kernel
  obtain ⟨s, hs, hp⟩ := Machine.exists_runs_of_runWhile _ _ hrun
  simp only [Bool.and_eq_true, beq_iff_eq, and_assoc] at hp
  refine ⟨s, hp.1, hp.2.1, hp.2.2.1, hp.2.2.2, progressLaw ?_ hs⟩
  rw [toNat_nReaders, Fintype.card_fin]
  decide

end SharedMutex

end Sync
