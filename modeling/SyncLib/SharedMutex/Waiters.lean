import SyncLib.SharedMutex.Exclusion

/-!
# Waiting for a `shared_mutex_base`

As long as the readers stay below their limit, whoever sleeps at `gate1_` without a notification
sleeps behind the flag, and whoever sleeps at `gate2_` waits for a reader that is still there. So
nobody sleeps at a free mutex.
-/

namespace Sync

open Core

namespace SharedMutex

/-! ### What an effect leaves asleep -/

lemma Thread.asleepOn_wake (th : Thread) : th.wake.asleepOn = none := by
  cases hp : th.place <;> simp [wake, asleepOn, hp]

lemma Thread.place_of_asleepOn {th : Thread} {g : Gate} (h : th.asleepOn = some g) :
    ∃ x, th.place = .asleep x ∧ x.gate = g := by
  cases hp : th.place <;> simp_all [asleepOn]

lemma Thread.entered_of_asleepOn {th : Thread} (h : th.asleepOn = some .gate2) : th.Entered := by
  obtain ⟨x, hp, hx⟩ := place_of_asleepOn h
  exact .inr (by simp [hp, Place.draining, hx])

@[simp] lemma Thread.asleepOn_wait (th : Thread) (x : Wait) :
    (th.wait x).asleepOn = some x.gate := rfl

@[simp] lemma Thread.asleepOn_leave (th : Thread) : th.leave.asleepOn = none := rfl

@[simp] lemma Thread.asleepOn_acquire (th : Thread) : th.acquire.asleepOn = none := rfl

@[simp] lemma Thread.asleepOn_acquireShared (th : Thread) : th.acquireShared.asleepOn = none := rfl

namespace Effect

variable {n count count' : ℕ} {flag flag' : Bool} {th th' : Thread} {sig : Signal Gate}

/-- Below the limit of the readers a thread goes to sleep at `gate1_` only behind the flag. -/
lemma asleep_gate1 (h : Effect n flag count th flag' count' th' sig) (hlt : count < n)
    (ht : th'.asleepOn = some .gate1) : flag' = true := by
  cases h with
  | block x hd hx h => exact h.resolve_right hlt.ne
  | drain x hd hx hf hc => simp [hx] at ht
  | drainOn x hd hx hc => simp [hx] at ht
  | release hp he => simp [Thread.asleepOn, hp] at ht
  | unshare hp hs => simp [Thread.asleepOn, hp] at ht
  | _ => simp [Thread.asleepOn, Thread.leave, Thread.acquire, Thread.acquireShared] at ht

/-- Whoever clears the flag wakes all of `gate1_`. -/
lemma clears (h : Effect n flag count th flag' count' th' sig) (hf : flag = true) :
    flag' = true ∨ sig = .all .gate1 := by
  cases h with
  | withdraw hd => exact .inr rfl
  | release hp he => exact .inr rfl
  | acquire hd hf' hc => exact .inl rfl
  | drain x hd hx hf' hc => exact .inl rfl
  | _ => exact .inl hf

lemma asleep_gate2 (h : Effect n flag count th flag' count' th' sig)
    (ht : th'.asleepOn = some .gate2) : 0 < count' := by
  cases h with
  | block x hd hx h => simp [hx] at ht
  | drain x hd hx hf hc => exact hc
  | drainOn x hd hx hc => exact hc
  | release hp he => simp [Thread.asleepOn, hp] at ht
  | unshare hp hs => simp [Thread.asleepOn, hp] at ht
  | _ => simp [Thread.asleepOn, Thread.leave, Thread.acquire, Thread.acquireShared] at ht

/-- The last reader that leaves behind the flag notifies `gate2_`. -/
lemma drains (h : Effect n true count th flag' count' th' sig) (hc : 0 < count)
    (he : th.exclusive = false) : 0 < count' ∨ sig = .one .gate2 := by
  cases h with
  | release hp he' => simp [he] at he'
  | unshare hp hs =>
    by_cases hone : count = 1
    · exact .inr (by simp [hone])
    · exact .inl (by omega)
  | share hd hf hc' => cases hf
  | _ => exact .inl hc

end Effect

/-! ### The invariant -/

variable {w : ℕ} {T : Type*} [Fintype T] [DecidableEq T]

/-- Who sleeps sleeps behind the flag, at `gate2_` with a reader inside. -/
structure Awaits (s : Config T (Word w) Thread) (flag : Bool) : Prop where
  gate1 : ∀ t, (s.pc t).asleepOn = some .gate1 → flag = true
  gate2 : ∀ t, (s.pc t).asleepOn = some .gate2 → 0 < holders s

/-- The shared holders are below their limit. -/
def BelowLimit (s : Config T (Word w) Thread) (_ : Act T Move) : Prop :=
  holders s < (nReaders : Word w).toNat

instance (s : Config T (Word w) Thread) (a : Act T Move) : Decidable (BelowLimit s a) :=
  inferInstanceAs (Decidable (_ < _))

variable {s s' : Config T (Word w) Thread} {flag : Bool}

theorem Awaits.step (h : Awaits s flag) (hinv : Inv s flag) {a : Act T Move}
    (hlt : BelowLimit s a) (hs : monitor.machine.step s a = some s') :
    ∃ flag', Inv s' flag' ∧ Awaits s' flag' := by
  obtain ⟨flag', th, sig, heffect, hd, hinv'⟩ := hinv.step hs
  refine ⟨flag', hinv', fun t ht => ?_, fun t ht => ?_⟩
  · have hbefore := Monitor.asleepOn_of_deliver Thread.asleepOn_wake hd ht
    change (Function.update s.pc a.tid th t).asleepOn = some .gate1 at hbefore
    by_cases hta : t = a.tid
    · subst hta
      rw [Function.update_self] at hbefore
      exact heffect.asleep_gate1 hlt hbefore
    · rw [Function.update_of_ne hta] at hbefore
      apply (heffect.clears (h.gate1 t hbefore)).resolve_right
      rintro rfl
      exact Monitor.asleepOn_ne_of_all Thread.asleepOn_wake hd t ht
  · have hbefore := Monitor.asleepOn_of_deliver Thread.asleepOn_wake hd ht
    change (Function.update s.pc a.tid th t).asleepOn = some .gate2 at hbefore
    by_cases hta : t = a.tid
    · subst hta
      rw [Function.update_self] at hbefore
      exact heffect.asleep_gate2 hbefore
    · rw [Function.update_of_ne hta] at hbefore
      have hentered := Thread.entered_of_asleepOn hbefore
      have hflag : flag = true := by
        rw [hinv.flag_eq, decide_eq_true_eq]
        exact ⟨t, hentered⟩
      subst hflag
      have hne : (s.pc a.tid).exclusive = false := by
        by_contra he
        rw [Bool.not_eq_false] at he
        exact hta (hinv.eq_of_writes (Thread.writes_pos.mpr hentered)
          (Thread.writes_pos.mpr (.inl he)))
      apply (heffect.drains (h.gate2 t hbefore) hne).resolve_right
      rintro rfl
      -- nobody else can be at `gate2_`
      obtain ⟨u, hut, hu⟩ := Monitor.exists_asleepOn_of_one Thread.asleepOn_wake hd ht
      have hwrites := Monitor.apply_pc_of_deliver Thread.writes_wake hd u
      refine hut (hinv'.eq_of_writes ?_ (Thread.writes_pos.mpr (Thread.entered_of_asleepOn ht)))
      rw [hwrites]
      exact Thread.writes_pos.mpr (Thread.entered_of_asleepOn hu)

/-! ### The law -/

/-- Where a thread that has not been notified may be asleep. -/
structure WaitersLaw (s : Config T (Word w) Thread) : Prop where
  gate1 : ∀ t, (s.pc t).asleepOn = some .gate1 → entered s.shared = true
  gate2 : ∀ t, (s.pc t).asleepOn = some .gate2 →
    (∀ u, (s.pc u).place.draining = true → u = t) ∧ entered s.shared = true ∧ 0 < holders s
  /-- Nobody sleeps at a free mutex. -/
  free : s.shared = 0 → ∀ t, (s.pc t).asleepOn = none

/-- In every run in which the readers stay below their limit, whoever sleeps waits for a thread
that will wake it. -/
theorem waitersLaw (h : monitor.machine.Runs BelowLimit start s) : WaitersLaw s := by
  obtain ⟨flag, hinv, hwait⟩ : ∃ flag, Inv s flag ∧ Awaits s flag := by
    refine h.invariant (I := fun s => ∃ flag, Inv s flag ∧ Awaits s flag) ?_ ?_
    · refine ⟨false, Inv.initial, fun t ht => ?_, fun t ht => ?_⟩ <;> cases ht
    · rintro u a u' ⟨flag, hu, hw⟩ hlt hs
      exact hw.step hu hlt hs
  have hgate1 : ∀ t, (s.pc t).asleepOn = some .gate1 → entered s.shared = true := fun t ht =>
    hinv.encodes.entered_eq.trans (hwait.gate1 t ht)
  have hgate2 : ∀ t, (s.pc t).asleepOn = some .gate2 → entered s.shared = true := by
    intro t ht
    rw [hinv.encodes.entered_eq, hinv.flag_eq, decide_eq_true_eq]
    exact ⟨t, Thread.entered_of_asleepOn ht⟩
  refine ⟨hgate1, fun t ht => ⟨fun u hu => ?_, hgate2 t ht, hwait.gate2 t ht⟩, fun h0 t => ?_⟩
  · exact hinv.eq_of_writes (Thread.writes_pos.mpr (.inr hu))
      (Thread.writes_pos.mpr (Thread.entered_of_asleepOn ht))
  · have hclear : entered s.shared = false := by
      rw [hinv.encodes.entered_eq]
      exact (hinv.encodes.eq_zero.mp h0).1
    rw [Option.eq_none_iff_forall_ne_some]
    intro g hg
    cases g with
    | gate1 => simp [hgate1 t hg] at hclear
    | gate2 => simp [hgate2 t hg] at hclear

/-- A writer sleeps at `gate2_` behind a reader, and a second reader behind the writer. -/
theorem waitersLaw_three : ∃ s : Config (Fin 3) (Word 31) Thread,
    monitor.machine.Runs BelowLimit start s ∧ (s.pc 1).asleepOn = some .gate2 ∧
      (s.pc 2).asleepOn = some .gate1 ∧ WaitersLaw s := by
  have hrun : (monitor.machine.runWhile BelowLimit (start : Config (Fin 3) (Word 31) Thread)
      [⟨0, .lockShared, none⟩, ⟨1, .tryLockUntil, none⟩, ⟨2, .lockShared, none⟩]).any
      (fun s => (s.pc 1).asleepOn == some .gate2 && (s.pc 2).asleepOn == some .gate1) = true := by
    decide +kernel
  obtain ⟨s, hs, hp⟩ := Machine.exists_runs_of_runWhile _ _ hrun
  simp only [Bool.and_eq_true, beq_iff_eq] at hp
  exact ⟨s, hs, hp.1, hp.2, waitersLaw hs⟩

end SharedMutex

end Sync
