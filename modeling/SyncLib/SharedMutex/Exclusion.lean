import SyncLib.SharedMutex.Threads

/-!
# Readers and writers of `shared_mutex_base`

The flag of `state_` belongs to one thread, which holds the mutex exclusively or waits at
`gate2_`, and under the flag `state_` counts the shared holders. Hence a writer excludes everybody
else.
-/

namespace Sync

open Core

namespace SharedMutex

/-- The thread stands behind the flag. -/
def Thread.writes (th : Thread) : ℕ := th.exclusive.toNat + th.place.draining.toNat

@[simp] lemma Thread.shared_wake (th : Thread) : th.wake.shared = th.shared := by
  rw [wake]
  split <;> rfl

@[simp] lemma Thread.exclusive_wake (th : Thread) : th.wake.exclusive = th.exclusive := by
  rw [wake]
  split <;> rfl

@[simp] lemma Thread.writes_wake (th : Thread) : th.wake.writes = th.writes := by
  rw [wake]
  split
  · rename_i x hx
    simp [writes, hx, Place.draining]
  · rfl

lemma Thread.writes_of_draining {th : Thread} (h : th.place.draining = true) :
    th.writes = th.exclusive.toNat + 1 := by
  rw [writes, h, Bool.toNat_true]

lemma Thread.writes_of_not_draining {th : Thread} (h : th.place.draining = false) :
    th.writes = th.exclusive.toNat := by
  rw [writes, h, Bool.toNat_false, add_zero]

/-! ### What an effect changes -/

/-- The count and the flag change by what the thread has more or less of them. -/
structure Accounted (flag : Bool) (count : ℕ) (th : Thread) (flag' : Bool) (count' : ℕ)
    (th' : Thread) : Prop where
  shared : count' + th.shared = count + th'.shared
  writes : flag'.toNat + th.writes = flag.toNat + th'.writes
  exclusive : th'.exclusive = true → count' = 0
  kept : flag = true → count' ≤ count

lemma Effect.accounted {n count count' : ℕ} {flag flag' : Bool} {th th' : Thread}
    {sig : Signal Gate} (h : Effect n flag count th flag' count' th' sig)
    (hshared : th.shared ≤ count) (hwrites : th.writes ≤ flag.toNat)
    (hexclusive : th.exclusive = true → count = 0) :
    Accounted flag count th flag' count' th' := by
  cases h with
  | giveUp hd =>
    refine ⟨rfl, ?_, hexclusive, fun _ => le_rfl⟩
    rw [Thread.writes_of_not_draining hd]
    rfl
  | block x hd hx h =>
    refine ⟨rfl, ?_, hexclusive, fun _ => le_rfl⟩
    have hx' : (th.wait x).place.draining = false := by simp [Thread.wait, Place.draining, hx]
    rw [Thread.writes_of_not_draining hd, Thread.writes_of_not_draining hx']
    rfl
  | acquire hd hf hc =>
    refine ⟨rfl, ?_, fun _ => hc, fun _ => le_rfl⟩
    subst hf
    simp only [Bool.toNat_false, Nat.le_zero] at hwrites
    rw [hwrites]
    rfl
  | drain x hd hx hf hc =>
    refine ⟨rfl, ?_, hexclusive, fun _ => le_rfl⟩
    have hx' : (th.wait x).place.draining = true := by simp [Thread.wait, Place.draining, hx]
    subst hf
    rw [Thread.writes_of_not_draining hd, Thread.writes_of_draining hx']
    simp only [Bool.toNat_true, Bool.toNat_false, Thread.wait]
    omega
  | drained hd hc =>
    refine ⟨rfl, ?_, fun _ => hc, fun _ => le_rfl⟩
    have hle : flag.toNat ≤ 1 := flag.toNat_le
    rw [Thread.writes_of_draining hd] at hwrites ⊢
    simp only [Thread.writes, Thread.acquire, Place.draining, Bool.toNat_true, Bool.toNat_false]
    omega
  | drainOn x hd hx hc =>
    refine ⟨rfl, ?_, hexclusive, fun _ => le_rfl⟩
    have hx' : (th.wait x).place.draining = true := by simp [Thread.wait, Place.draining, hx]
    rw [Thread.writes_of_draining hd, Thread.writes_of_draining hx']
    rfl
  | withdraw hd =>
    refine ⟨rfl, ?_, hexclusive, fun _ => le_rfl⟩
    have hle : flag.toNat ≤ 1 := flag.toNat_le
    rw [Thread.writes_of_draining hd] at hwrites ⊢
    simp only [Thread.writes, Thread.leave, Place.draining, Bool.toNat_false]
    omega
  | release hp he =>
    have hc := hexclusive he
    refine ⟨by simp only; omega, ?_, fun _ => rfl, fun _ => Nat.zero_le _⟩
    have hle : flag.toNat ≤ 1 := flag.toNat_le
    simp only [Thread.writes, hp, he, Place.draining, Bool.toNat_true, Bool.toNat_false]
      at hwrites ⊢
    omega
  | share hd hf hc =>
    refine ⟨?_, ?_, ?_, ?_⟩
    · simp only [Thread.acquireShared]
      omega
    · rw [Thread.writes_of_not_draining hd]
      rfl
    · intro he
      subst hf
      have he' : th.exclusive = true := he
      simp [Thread.writes, he'] at hwrites
    · simp [hf]
  | unshare hp hs =>
    refine ⟨by simp only; omega, rfl, ?_, fun _ => Nat.sub_le _ _⟩
    intro he
    have := hexclusive he
    omega
  | wakeUp x hp =>
    refine ⟨rfl, ?_, hexclusive, fun _ => le_rfl⟩
    simp [Thread.writes, hp, Place.draining]

/-- Behind the flag no thread gets another shared hold. -/
lemma Effect.shared_le {n count count' : ℕ} {flag' : Bool} {th th' : Thread} {sig : Signal Gate}
    (h : Effect n true count th flag' count' th' sig) : th'.shared ≤ th.shared := by
  cases h with
  | share hd hf hc => cases hf
  | unshare hp hs => exact Nat.sub_le _ _
  | _ => exact le_rfl

/-! ### The invariant -/

variable {w : ℕ} {T : Type*} [Fintype T]

/-- The number of shared holds. -/
def holders (s : Config T (Word w) Thread) : ℕ := tally Thread.shared s.pc

/-- The flag is set for one thread, the word counts the shared holds, and there are none besides
an exclusive one. -/
structure Inv (s : Config T (Word w) Thread) (flag : Bool) : Prop where
  encodes : Encodes s.shared flag (holders s)
  writes : tally Thread.writes s.pc = flag.toNat
  apart : ∀ t, (s.pc t).exclusive = true → holders s = 0

namespace Inv

variable {s s' : Config T (Word w) Thread} {flag : Bool}

lemma initial : Inv (start : Config T (Word w) Thread) false := by
  refine ⟨?_, ?_, ?_⟩
  · simpa [holders, start, tally] using encodes_zero
  · simp [start, tally, Thread.writes, Place.draining]
  · simp [start]

/-- Two threads behind the flag are the same. -/
lemma eq_of_writes (h : Inv s flag) {t u : T} (ht : 0 < (s.pc t).writes)
    (hu : 0 < (s.pc u).writes) : t = u := by
  classical
  by_contra hne
  have hle := add_le_tally Thread.writes s.pc hne
  have hflag := h.writes
  cases flag <;> simp only [Bool.toNat_false, Bool.toNat_true] at hflag <;> omega

variable [DecidableEq T]

/-- A step has an effect on the thread that moves, and keeps the invariant. -/
theorem step (h : Inv s flag) {a : Act T Move} (hs : monitor.machine.step s a = some s') :
    ∃ flag' th sig,
      Effect (nReaders : Word w).toNat flag (holders s) (s.pc a.tid) flag' (holders s') th sig ∧
      monitor.deliver ⟨s'.shared, Function.update s.pc a.tid th⟩ sig a.notified = some s' ∧
      Inv s' flag' := by
  obtain ⟨sh, th, sig, hn, hd⟩ := Monitor.step_eq_some.mp hs
  have hshared : s'.shared = sh := Monitor.shared_of_deliver hd
  subst hshared
  obtain ⟨flag', count', henc, heffect⟩ :=
    h.encodes.follows (le_tally Thread.shared s.pc a.tid) hn
  simp only at henc heffect
  have hcount : holders s' = tally Thread.shared (Function.update s.pc a.tid th) :=
    tally_congr fun t => Monitor.apply_pc_of_deliver Thread.shared_wake hd t
  have hwrites : tally Thread.writes s'.pc = tally Thread.writes (Function.update s.pc a.tid th) :=
    tally_congr fun t => Monitor.apply_pc_of_deliver Thread.writes_wake hd t
  have hexclusive : ∀ t, (s'.pc t).exclusive = (Function.update s.pc a.tid th t).exclusive :=
    fun t => Monitor.apply_pc_of_deliver Thread.exclusive_wake hd t
  have hacc := heffect.accounted (le_tally Thread.shared s.pc a.tid)
    (h.writes ▸ le_tally Thread.writes s.pc a.tid) (h.apart a.tid)
  have hmoved := tally_update Thread.shared s.pc a.tid th
  have hwmoved := tally_update Thread.writes s.pc a.tid th
  rw [← hcount] at hmoved
  rw [← hwrites, h.writes] at hwmoved
  have hcount' : count' = holders s' := by
    have hshared := hacc.shared
    change _ + _ = holders s + _ at hmoved
    change _ = holders s + _ at hshared
    omega
  subst hcount'
  refine ⟨flag', th, sig, heffect, hd, henc, ?_, fun t ht => ?_⟩
  · have := hacc.writes
    omega
  · rw [hexclusive] at ht
    by_cases hta : t = a.tid
    · subst hta
      rw [Function.update_self] at ht
      exact hacc.exclusive ht
    · rw [Function.update_of_ne hta] at ht
      -- the flag is set for another thread, so there is no new reader
      have hpos := le_tally Thread.writes s.pc t
      simp only [h.writes, Thread.writes, ht, Bool.toNat_true] at hpos
      have hflag : flag = true := by
        cases flag with
        | false => simp at hpos
        | true => rfl
      exact Nat.le_zero.mp ((hacc.kept hflag).trans_eq (h.apart t ht))

theorem of_reachable (h : monitor.machine.Reachable start s) : ∃ flag, Inv s flag := by
  refine h.invariant (I := fun s => ∃ flag, Inv s flag) ⟨_, initial⟩ ?_
  rintro u a u' ⟨flag, hu⟩ - hs
  obtain ⟨flag', -, -, -, -, hu'⟩ := hu.step hs
  exact ⟨flag', hu'⟩

end Inv

/-! ### The law -/

/-- A thread holds the mutex exclusively or waits at `gate2_` for the readers to leave. -/
def Thread.Entered (th : Thread) : Prop := th.exclusive = true ∨ th.place.draining = true

instance (th : Thread) : Decidable th.Entered := inferInstanceAs (Decidable (_ ∨ _))

lemma Thread.writes_pos {th : Thread} : 0 < th.writes ↔ th.Entered := by
  rw [writes, Entered]
  cases th.exclusive <;> cases th.place.draining <;> simp

/-- The flag is set when a thread has entered. -/
lemma Inv.flag_eq {s : Config T (Word w) Thread} {flag : Bool} (h : Inv s flag) :
    flag = decide (∃ t, (s.pc t).Entered) := by
  have hwrites := h.writes
  cases flag with
  | false =>
    rw [Bool.toNat_false, tally_eq_zero_iff] at hwrites
    rw [eq_comm, decide_eq_false_iff_not]
    rintro ⟨t, ht⟩
    rw [← Thread.writes_pos, hwrites t] at ht
    exact lt_irrefl _ ht
  | true =>
    rw [eq_comm, decide_eq_true_eq]
    by_contra hnone
    have hzero : tally Thread.writes s.pc = 0 := tally_eq_zero_iff.mpr fun t => by
      by_contra hne
      exact hnone ⟨t, Thread.writes_pos.mp (Nat.pos_of_ne_zero hne)⟩
    rw [hzero] at hwrites
    cases hwrites

variable [DecidableEq T]

/-- What holds in a state of the threads around one mutex. -/
structure ExclusionLaw (s : Config T (Word w) Thread) : Prop where
  exclusive : ∀ t u, (s.pc t).exclusive = true → (s.pc u).exclusive = true → t = u
  apart : ∀ t u, (s.pc t).exclusive = true → (s.pc u).shared = 0
  single : ∀ t u, (s.pc t).Entered → (s.pc u).Entered → t = u
  /-- `state_` counts the shared holders, with the flag for the thread that entered. -/
  state_eq : s.shared.toNat =
    holders s + if ∃ t, (s.pc t).Entered then (writeEntered : Word w).toNat else 0
  no_carry : holders s ≤ (nReaders : Word w).toNat
  /-- While the flag is set no thread gets another shared hold. -/
  admission : entered s.shared = true → ∀ a s', monitor.machine.step s a = some s' →
    ∀ t, (s'.pc t).shared ≤ (s.pc t).shared

namespace Inv

variable {s s' : Config T (Word w) Thread} {flag : Bool}

lemma admission (h : Inv s true) {a : Act T Move} (hs : monitor.machine.step s a = some s')
    (t : T) : (s'.pc t).shared ≤ (s.pc t).shared := by
  obtain ⟨flag', th, sig, heffect, hd, -⟩ := h.step hs
  rw [Monitor.apply_pc_of_deliver (f := Thread.shared) Thread.shared_wake hd t]
  simp only
  by_cases hta : t = a.tid
  · subst hta
    rw [Function.update_self]
    exact heffect.shared_le
  · rw [Function.update_of_ne hta]

end Inv

/-- In every reachable state writers exclude everybody else, `state_` is what it stands for, and
no reader enters behind the flag. -/
theorem exclusionLaw {s : Config T (Word w) Thread} (h : monitor.machine.Reachable start s) :
    ExclusionLaw s := by
  obtain ⟨flag, hinv⟩ := Inv.of_reachable h
  have hsingle : ∀ t u, (s.pc t).Entered → (s.pc u).Entered → t = u := fun t u ht hu =>
    hinv.eq_of_writes (Thread.writes_pos.mpr ht) (Thread.writes_pos.mpr hu)
  refine ⟨fun t u ht hu => hsingle t u (.inl ht) (.inl hu), ?_, hsingle, ?_, ?_, ?_⟩
  · intro t u ht
    exact tally_eq_zero_iff.mp (hinv.apart t ht) u
  · rw [hinv.encodes.toNat_eq, toNat_writeEntered, hinv.flag_eq]
    split_ifs with hex <;> simp [hex]
  · exact hinv.encodes.count_le
  · intro hflag a s' hs
    rw [hinv.encodes.entered_eq] at hflag
    subst hflag
    exact fun t => hinv.admission hs t

/-- A writer that waits for a reader keeps the next reader out, and holds the mutex when the first
one has left. -/
theorem exclusionLaw_three : ∃ s : Config (Fin 3) (Word 31) Thread,
    monitor.machine.Reachable start s ∧ (s.pc 1).exclusive = true ∧ (s.pc 2).shared = 0 ∧
      ExclusionLaw s := by
  obtain ⟨s, hs, hp⟩ := Machine.exists_reachable_of_run (M := monitor.machine)
    (s := (start : Config (Fin 3) (Word 31) Thread))
    [⟨0, .lockShared, none⟩, ⟨1, .lock, none⟩, ⟨2, .tryLockShared, none⟩,
      ⟨0, .unlockShared, some 1⟩, ⟨1, .proceed false, none⟩]
    (fun s => (s.pc 1).exclusive && (s.pc 2).shared == 0) (by decide +kernel)
  simp only [Bool.and_eq_true, beq_iff_eq] at hp
  exact ⟨s, hs, hp.1, hp.2, exclusionLaw hs⟩

end SharedMutex

end Sync
