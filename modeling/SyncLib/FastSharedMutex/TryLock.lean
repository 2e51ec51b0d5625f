import SyncLib.FastSharedMutex.Tokens

/-!
# `try_lock_shared` and `try_lock` of `fast_shared_mutex`

A `try_lock_shared` that returns false leaves its `-1` in `rdcount_`, and the `return false` at the
end of `try_lock` keeps `wrmtx_`. Without these two exits the counters tell the readers, and whoever
has locked the mutex finds it as `lock` leaves it.
-/

namespace Sync

open Core

namespace FastSharedMutex

variable {T : Type*} {s s' : Config T (Shared T) Place} {t : T}

/-! ### The counters -/

section

variable [Fintype T]

/-- `rdcount_` tells the readers that are active or wait, so `unlock` posts as many tokens as
readers wait, and `lock` waits for the readers that are active or have a token. -/
structure CountLaw (s : Config T (Shared T) Place) : Prop where
  rdcount : s.shared.rdcount.toInt =
    (if ∃ t, (s.pc t).subtracted = 1 then 0 else longMax.toInt) -
      (total Place.active s + total Place.waiting s)
  posts : ∀ t, s.pc t = .writing → (unlock s.shared).2.pending = total Place.waiting s
  counts : ∀ t w, s.pc t = .subtracting w →
    longMax.toInt - s.shared.rdcount.toInt = total Place.active s + s.shared.rdsem ∧
      total Place.waiting s = s.shared.rdsem
  waits : ∀ t, s.pc t = .wrWait → s.shared.rdwait.toInt =
    total Place.active s + s.shared.rdsem + total Place.leaving s

lemma Inv.countLaw (hcard : Fintype.card T < 2 ^ 31) (h : Inv s) : CountLaw s := by
  refine ⟨h.rdcount_eq, fun t ht => ?_, fun t w ht => ?_, fun t ht => ?_⟩
  · have htokens := h.tokens_eq hcard ht
    have hcount := (h.narrowed hcard ht).trans (h.written ht).1
    simp only [unlock]
    split_ifs with hneg
    · exact htokens
    · rw [Int32.lt_iff_toInt_lt, hcount, Int32.toInt_zero] at hneg
      simp only [Place.pending]
      omega
  · exact ⟨(h.found ht).1, (h.found ht).2.1⟩
  · exact (h.balanced_inside .draining ht rfl rfl).1

end

/-! ### The exits -/

variable [DecidableEq T]

/-- The step is not the operation of a `try_lock_shared` that returns false. -/
def NotRefused (s : Config T (Shared T) Place) (a : T × Move) : Prop :=
  a.2 = .tryLockShared → ¬ s.shared.rdcount < 1

instance (s : Config T (Shared T) Place) (a : T × Move) : Decidable (NotRefused s a) :=
  inferInstanceAs (Decidable (_ → _))

/-- The step is not the operation of a `try_lock_shared` that returns false, nor one on the way of
`try_lock` to the `return false` at its end, nor a `try_lock` on a mutex that nobody uses whose
weak compare-exchange fails. -/
def GivesBack (s : Config T (Shared T) Place) (a : T × Move) : Prop :=
  NotRefused s a ∧ s.pc a.1 ≠ .restoring ∧
    (a.2 = .tryLock false → s.shared.owner = none → ∃ t, s.pc t ≠ .idle)

/-- The step ends a call of `try_lock` that returns false. -/
def ReturnsFalse (s : Config T (Shared T) Place) (a : T × Move)
    (s' : Config T (Shared T) Place) : Prop :=
  ((∃ ok, a.2 = .tryLock ok) ∨ (s.pc a.1).trying = true) ∧ s'.pc a.1 = .idle

/-- A `try_lock` only returns false at its first operation. -/
lemma Tight.failed (h : Tight s) {a : T × Move} (hok : GivesBack s a)
    (hs : code.machine.step s a = some s') (hret : ReturnsFalse s a s') :
    s' = s ∧ ∃ t, s.pc t ≠ .idle := by
  obtain ⟨t, m⟩ := a
  obtain ⟨sh, p, hop, rfl⟩ := op_of_step hs
  obtain ⟨htry, hidle⟩ := hret
  obtain ⟨-, hr, hspurious⟩ := hok
  simp only [Function.update_self] at hop htry hidle hr hspurious
  generalize hp : s.pc t = q at hop htry hr
  cases hop with
  | fail ok hfail =>
    have hself : Function.update s.pc t .idle = s.pc := by rw [← hp, Function.update_eq_self]
    rw [hself]
    refine ⟨rfl, ?_⟩
    cases ho : s.shared.owner with
    | none =>
      rcases hfail with rfl | hne
      · exact hspurious rfl ho
      · exact absurd ho hne
    | some u =>
      refine ⟨u, fun hu => ?_⟩
      have hin := h u ho
      rw [hu] at hin
      cases hin
  | restore => exact absurd rfl hr
  | unopposed w => cases w <;> cases hidle
  | addBlocked w => cases w <;> cases hidle
  | refuse | leave | pay | post | finish =>
    rcases htry with ⟨ok, hm⟩ | hp'
    · cases hm
    · cases hp'
  | enter | divert | admitted | depart | payLast | begin | claim | tryClaim | announce | addFree
  | drained | unlock | unlockAlone | release => cases hidle

variable [Fintype T]

instance (s : Config T (Shared T) Place) (a : T × Move) : Decidable (GivesBack s a) :=
  inferInstanceAs (Decidable (_ ∧ _ ∧ (_ → _ → _)))

/-! ### `try_lock_shared` -/

/-- A `try_lock_shared` that returns false counts a reader that there is not. -/
lemma Inv.not_countLaw_of_refused (hcard : Fintype.card T < 2 ^ 31) (h : Inv s) {a : T × Move}
    (hno : ¬ NotRefused s a) (hs : code.machine.step s a = some s') : ¬ CountLaw s' := by
  obtain ⟨t, m⟩ := a
  obtain ⟨sh, p, hop, rfl⟩ := op_of_step hs
  rw [NotRefused, Classical.not_imp, not_not] at hno
  obtain ⟨rfl, hfull⟩ := hno
  simp only at hop
  generalize hp : s.pc t = q at hop
  cases hop with
  | enter hm hfree => exact absurd hfull hfree
  | refuse _ =>
    rw [← hp, Function.update_eq_self]
    intro hlaw
    have hcount := hlaw.rdcount
    have hcount' := h.rdcount_eq
    have hx := h.toInt_decrement hcard
    simp only [total] at hcount hcount'
    omega

/-- With fewer than `2^31` threads, a run keeps the counters right all along exactly when no
`try_lock_shared` of it returns false. -/
theorem countLaw_iff_notRefused (hcard : Fintype.card T < 2 ^ 31) {as : List (T × Move)}
    (hrun : code.machine.run start as = some s) :
    (∀ pre u, pre <+: as → code.machine.run start pre = some u → CountLaw u) ↔
      code.machine.Admits NotRefused start as :=
  Machine.forall_prefix_iff_admits_of_invariant hrun Inv.start (fun _ hu => hu.countLaw hcard)
    (fun _ _ _ hu hok hs => hu.step hcard hok hs)
    fun _ _ _ hu hno hs => hu.not_countLaw_of_refused hcard hno hs

/-- A `try_lock_shared` ahead of a writer, and a reader behind it: the counters are right. -/
theorem countLaw_iff_notRefused_three :
    code.machine.Admits NotRefused (start : Config (Fin 3) (Shared (Fin 3)) Place)
        [(0, .tryLockShared), (1, .lock), (1, .proceed), (1, .proceed), (2, .lockShared)] ∧
      ∀ pre u, pre <+: [(0, .tryLockShared), (1, .lock), (1, .proceed), (1, .proceed),
          (2, .lockShared)] →
        code.machine.run (start : Config (Fin 3) (Shared (Fin 3)) Place) pre = some u →
        CountLaw u := by
  have hend : (code.machine.runWhile NotRefused (start : Config (Fin 3) (Shared (Fin 3)) Place)
      [(0, .tryLockShared), (1, .lock), (1, .proceed), (1, .proceed),
        (2, .lockShared)]).isSome = true := by
    decide +kernel
  obtain ⟨s, hs⟩ := Option.isSome_iff_exists.mp hend
  obtain ⟨hrun, hadmits⟩ := Machine.run_of_runWhile hs
  exact ⟨hadmits, (countLaw_iff_notRefused (by decide) hrun).mpr hadmits⟩

/-- A `try_lock_shared` behind a writer returns false. The writer posts a token that nobody waits
for, and at its next `lock` it waits for good, with no reader there. -/
theorem not_countLaw_two : ∃ s : Config (Fin 2) (Shared (Fin 2)) Place,
    code.machine.Reachable start s ∧ s.pc 0 = .wrWait ∧ s.pc 1 = .idle ∧ s.shared.wrsem = 0 ∧
      s.shared.rdsem = 1 ∧ ¬ CountLaw s := by
  obtain ⟨s, hs, hp⟩ := Machine.exists_reachable_of_run (M := code.machine)
    (s := (start : Config (Fin 2) (Shared (Fin 2)) Place))
    [(0, .lock), (0, .proceed), (0, .proceed), (1, .tryLockShared), (0, .unlock), (0, .proceed),
      (0, .proceed), (0, .lock), (0, .proceed), (0, .proceed), (0, .proceed)]
    (fun s => s.pc 0 == .wrWait && s.pc 1 == .idle && s.shared.wrsem == 0 && s.shared.rdsem == 1 &&
      s.shared.rdcount == -1) (by decide +kernel)
  simp only [Bool.and_eq_true, beq_iff_eq, and_assoc] at hp
  obtain ⟨h0, h1, hwrsem, hrdsem, hrdcount⟩ := hp
  refine ⟨s, hs, h0, h1, hwrsem, hrdsem, fun hlaw => ?_⟩
  have hnone : ∀ w : Place → ℕ, w .wrWait = 0 → w .idle = 0 → total w s = 0 := by
    intro w hw hw'
    rw [total, tally_eq_zero_iff, Fin.forall_fin_two, h0, h1]
    exact ⟨hw, hw'⟩
  have hcount := hlaw.rdcount
  rw [if_pos ⟨0, by rw [h0]; rfl⟩, hrdcount, hnone _ rfl rfl, hnone _ rfl rfl] at hcount
  exact absurd hcount (by decide)

/-! ### `try_lock` -/

/-- Outside of the methods the owner of `wrmtx_` is the thread that has locked the mutex, which
finds it as `lock` leaves it, the counters tell the readers, and a mutex that nobody uses is as at
the start. A `try_lock` that returns false leaves everything as it was, and the mutex is in use. -/
structure TryLockLaw (s : Config T (Shared T) Place) : Prop where
  owner : ∀ t, s.pc t = .idle ∨ s.pc t = .reading ∨ s.pc t = .writing →
    (s.pc t = .writing ↔ s.shared.owner = some t)
  acquired : ∀ t, s.pc t = .writing →
    (∀ u, u ≠ t → s.pc u ≠ .writing ∧ s.pc u ≠ .reading) ∧
      s.shared.rdcount.toInt = -total Place.waiting s ∧ s.shared.rdwait = 0 ∧
      s.shared.rdsem = 0 ∧ s.shared.wrsem = 0
  rdcount : s.shared.rdcount.toInt =
    (if ∃ t, (s.pc t).subtracted = 1 then 0 else longMax.toInt) -
      (total Place.active s + total Place.waiting s)
  waiting : total Place.waiting s = s.shared.rdsem + total Place.pending s + s.shared.behind
  unused : (∀ t, s.pc t = .idle) → s.shared = initial
  failed : ∀ a s', GivesBack s a → code.machine.step s a = some s' → ReturnsFalse s a s' →
    s' = s ∧ ∃ t, s.pc t ≠ .idle

lemma Inv.toTryLockLaw (h : Inv s) (htight : Tight s) : TryLockLaw s := by
  refine ⟨fun t ht => ⟨fun hw => h.owner t (by rw [hw]; rfl), fun ho => ?_⟩, fun t ht => ?_,
    h.rdcount_eq, h.waiting, h.shared_eq_initial htight, fun a s' => htight.failed⟩
  · have hin := htight t ho
    rcases ht with ht | ht | ht
    · rw [ht] at hin
      cases hin
    · rw [ht] at hin
      cases hin
    · exact ht
  · obtain ⟨hcount, -, -, hrdsem, -, -, hzero, hwrsem⟩ := h.written ht
    refine ⟨fun u hut => ⟨fun hu => hut (h.writing_eq ht hu), h.not_reading ht u⟩, hcount, ?_,
      hrdsem, hwrsem⟩
    exact Int64.toInt_inj.mp hzero

/-- With fewer than `2^31` threads, in every run without these steps. -/
theorem tryLockLaw (hcard : Fintype.card T < 2 ^ 31)
    (h : code.machine.Runs GivesBack start s) : TryLockLaw s := by
  have hinv : Inv s ∧ Tight s := by
    refine h.invariant (I := fun u => Inv u ∧ Tight u) ⟨.start, tight_start⟩ ?_
    intro u a u' hu hok hs
    exact ⟨hu.1.step hcard hok.1 hs, hu.2.step hok.2.1 hs⟩
  exact hinv.1.toTryLockLaw hinv.2

/-- A writer that got the mutex by `try_lock` after the reader it found had left, and a `try_lock`
of the reader that returned false. -/
theorem tryLockLaw_two : ∃ s : Config (Fin 2) (Shared (Fin 2)) Place,
    code.machine.Runs GivesBack start s ∧ s.pc 0 = .writing ∧ s.pc 1 = .idle ∧ TryLockLaw s := by
  have hrun : (code.machine.runWhile GivesBack (start : Config (Fin 2) (Shared (Fin 2)) Place)
      [(1, .lockShared), (0, .tryLock true), (0, .proceed), (1, .unlockShared), (1, .proceed),
        (0, .proceed), (1, .tryLock true)]).any
      (fun s => s.pc 0 == .writing && s.pc 1 == .idle) = true := by
    decide +kernel
  obtain ⟨s, hs, hp⟩ := Machine.exists_runs_of_runWhile _ _ hrun
  simp only [Bool.and_eq_true, beq_iff_eq] at hp
  exact ⟨s, hs, hp.1, hp.2, tryLockLaw (by decide) hs⟩

/-- The `try_lock` of the only thread returns false and keeps `wrmtx_`. -/
theorem not_tryLockLaw_one : ∃ s : Config (Fin 1) (Shared (Fin 1)) Place,
    code.machine.run start [(0, .tryLock true), (0, .proceed), (0, .proceed)] = some s ∧
      s.pc 0 = .idle ∧ s.shared.owner = some 0 ∧ ¬ TryLockLaw s := by
  have hrun : (code.machine.run (start : Config (Fin 1) (Shared (Fin 1)) Place)
      [(0, .tryLock true), (0, .proceed), (0, .proceed)]).any
      (fun s => s.pc 0 == .idle && s.shared.owner == some 0) = true := by
    decide +kernel
  rw [Option.any_eq_true] at hrun
  obtain ⟨s, hs, hp⟩ := hrun
  simp only [Bool.and_eq_true, beq_iff_eq] at hp
  refine ⟨s, hs, hp.1, hp.2, fun hlaw => ?_⟩
  have hw := (hlaw.owner 0 (.inl hp.1)).mpr hp.2
  rw [hp.1] at hw
  cases hw

end FastSharedMutex

end Sync
