import SyncLib.Core.Baton
import SyncLib.Core.Interleaving
import SyncLib.Core.Marks
import SyncLib.SharedMutex.Waiters

/-!
# Readers at their limit

Threads that only use `lock_shared`, `try_lock_shared` and `unlock_shared`. A reader sleeps at
`gate1_` while the limit is reached, and the holder that leaves at the limit notifies one. A holder
that leaves below the limit notifies nobody, although another reader may still be asleep.
-/

namespace Sync

open Core

namespace SharedMutex

/-! ### The threads -/

/-- The calls of a reader, and the steps in its wait. -/
def Move.reads : Move → Bool
  | .lockShared | .tryLockShared | .unlockShared | .wakeUp | .proceed _ => true
  | _                                                                   => false

/-- The readers around one mutex, with marks for those that were notified. -/
def readersMachine {w : ℕ} {T : Type*} [Fintype T] [DecidableEq T] :
    Machine (Config T (Word w) (Thread × Bool)) (Act T Move) :=
  (monitor.marked.machine).restrict fun _ a => a.move.reads

/-- A mutex that has just been constructed. -/
def readersStart {w : ℕ} {T : Type*} : Config T (Word w) (Thread × Bool) :=
  ⟨0, fun _ => ({}, false)⟩

/-- Readers that were notified and have not tested the limit again. -/
def Thread.notified (p : Thread × Bool) : ℕ :=
  match p.1.place with
  | .woken _ => p.2.toNat
  | _        => 0

section

variable {w : ℕ} {T : Type*} [Fintype T]

def notified (s : Config T (Word w) (Thread × Bool)) : ℕ := tally Thread.notified s.pc

/-- Some reader sleeps at `gate1_` and was not notified. -/
def Sleeps (s : Config T (Word w) (Thread × Bool)) : Prop :=
  ∃ t, (s.pc t).1.asleepOn = some .gate1

instance (s : Config T (Word w) (Thread × Bool)) : Decidable (Sleeps s) :=
  inferInstanceAs (Decidable (∃ _, _))

/-- While a reader sleeps, the shared holders and the notified readers can fill up the limit. -/
def NoLostWakeUp (s : Config T (Word w) (Thread × Bool)) : Prop :=
  Sleeps s → (nReaders : Word w).toNat ≤ holders (Monitor.unmark s) + notified s

instance (s : Config T (Word w) (Thread × Bool)) : Decidable (NoLostWakeUp s) :=
  inferInstanceAs (Decidable (_ → _))

/-- A holder leaves at the limit, or nobody sleeps, or there is a holder or a notified reader to
spare. -/
def LeavesNobody (s : Config T (Word w) (Thread × Bool)) (a : Act T Move) : Prop :=
  a.move = .unlockShared → holders (Monitor.unmark s) = (nReaders : Word w).toNat ∨ ¬ Sleeps s ∨
    (nReaders : Word w).toNat < holders (Monitor.unmark s) + notified s

instance (s : Config T (Word w) (Thread × Bool)) (a : Act T Move) :
    Decidable (LeavesNobody s a) :=
  inferInstanceAs (Decidable (_ → _))

end

/-! ### The steps -/

/-- The thread is in no method of a writer. -/
structure Thread.Reads (th : Thread) : Prop where
  exclusive : th.exclusive = false
  place : ∀ x, th.place = .asleep x ∨ th.place = .woken x → x = .lockShared

lemma Thread.Reads.wake {th : Thread} (h : th.Reads) : th.wake.Reads := by
  refine ⟨by rw [exclusive_wake, h.exclusive], fun x hx => h.place x ?_⟩
  cases hp : th.place <;> simp_all [Thread.wake]

/-- What a section of a reader does, where `count` readers are counted and `n` is their limit. -/
inductive ReaderEffect (n count : ℕ) (th : Thread) : Move → ℕ → Thread → Signal Gate → Prop
  | refuse {m : Move} (hp : th.place = .outside) (hm : m ≠ .unlockShared) :
      ReaderEffect n count th m count th .none
  | block {m : Move} (hm : m ≠ .unlockShared) (hc : count = n) :
      ReaderEffect n count th m count (th.wait .lockShared) .none
  | share {m : Move} (hm : m ≠ .unlockShared) (hc : count < n) :
      ReaderEffect n count th m (count + 1) th.acquireShared .none
  | unshare (hp : th.place = .outside) (hs : 0 < th.shared) :
      ReaderEffect n count th .unlockShared (count - 1) { th with shared := th.shared - 1 }
        (if count = n then .one .gate1 else .none)
  | wakeUp (hp : th.place = .asleep .lockShared) :
      ReaderEffect n count th .wakeUp count { th with place := .woken .lockShared } .none

namespace ReaderEffect

variable {w n count count' : ℕ} {state : Word w} {th th' : Thread} {m : Move} {sig : Signal Gate}

lemma reads (h : ReaderEffect n count th m count' th' sig) (hr : th.Reads) : th'.Reads := by
  cases h with
  | refuse hp hm => exact hr
  | block hm hc => exact ⟨hr.exclusive, by simp [Thread.wait]⟩
  | share hm hc => exact ⟨hr.exclusive, by simp [Thread.acquireShared]⟩
  | unshare hp hs => exact ⟨hr.exclusive, hr.place⟩
  | wakeUp hp => exact ⟨hr.exclusive, by simp⟩

/-- The count changes by what the thread has more or less of it. -/
lemma accounted (h : ReaderEffect n count th m count' th' sig) (hle : th.shared ≤ count) :
    count' + th.shared = count + th'.shared := by
  cases h with
  | refuse hp hm => rfl
  | block hm hc => rfl
  | share hm hc =>
    simp only [Thread.acquireShared]
    omega
  | unshare hp hs =>
    simp only
    omega
  | wakeUp hp => rfl

lemma of_lockShared (h : Encodes state false count) (hm : m ≠ .unlockShared) :
    ∃ count', Encodes (lockShared state th).1 false count' ∧
      ReaderEffect (nReaders : Word w).toNat count th m count' (lockShared state th).2.1
        (lockShared state th).2.2 := by
  rw [lockShared, enterShared]
  split_ifs with hb
  · exact ⟨_, h, .block hm ((h.blocked_iff.mp hb).resolve_left Bool.false_ne_true)⟩
  · rw [h.blocked_iff, not_or] at hb
    have hlt := lt_of_le_of_ne h.count_le hb.2
    exact ⟨_, h.share hlt, .share hm hlt⟩

lemma of_tryLockShared (h : Encodes state false count) (hp : th.place = .outside)
    (hm : m ≠ .unlockShared) :
    ∃ count', Encodes (tryLockShared state th).1 false count' ∧
      ReaderEffect (nReaders : Word w).toNat count th m count' (tryLockShared state th).2.1
        (tryLockShared state th).2.2 := by
  rw [tryLockShared]
  split_ifs with hb
  · rw [Bool.and_eq_true, bne_iff_ne, ne_eq, h.readers_eq_nReaders] at hb
    have hlt := lt_of_le_of_ne h.count_le hb.2
    exact ⟨_, h.share hlt, .share hm hlt⟩
  · exact ⟨_, h, .refuse hp hm⟩

/-- Every section of a reader is one of these, and leaves the flag clear. -/
theorem of_next (h : Encodes state false count) (hr : th.Reads) (hle : th.shared ≤ count)
    (hm : m.reads = true) {o : Outcome w} (hn : next state th m = some o) :
    ∃ count', Encodes o.1 false count' ∧
      ReaderEffect (nReaders : Word w).toNat count th m count' o.2.1 o.2.2 := by
  rw [next.eq_def] at hn
  cases hp : th.place with
  | outside =>
    rw [hp] at hn
    cases m with
    | lockShared => cases hn; exact of_lockShared h (by decide)
    | tryLockShared => cases hn; exact of_tryLockShared h hp (by decide)
    | unlockShared =>
      simp only [Option.ite_none_right_eq_some, Option.some.injEq] at hn
      obtain ⟨hs, rfl⟩ := hn
      obtain ⟨henc, hrest⟩ := h.unlockShared (hs.trans_le hle) th
      refine ⟨_, henc, ?_⟩
      rw [hrest]
      exact .unshare hp hs
    | wakeUp => cases hn
    | proceed timeout => cases hn
    | _ => cases hm
  | asleep x =>
    obtain rfl := hr.place x (.inl hp)
    rw [hp] at hn
    cases m with
    | wakeUp => cases hn; exact ⟨_, h, .wakeUp hp⟩
    | _ => cases hn
  | woken x =>
    obtain rfl := hr.place x (.inr hp)
    rw [hp] at hn
    cases m with
    | proceed timeout => cases hn; exact of_lockShared h (by simp)
    | _ => cases hn

end ReaderEffect

/-! ### The baton -/

variable {w : ℕ} {T : Type*}

/-- A free place can be taken by one reader, and a notified reader will look at it. -/
def readersBaton : (monitor (w := w) (T := T)).marked.Baton Gate.gate1 where
  avail s := (nReaders : Word w).toNat - (readers s).toNat
  credit := Thread.notified
  announces _ := False
  gain := 1
  asleepOn_wake p := Thread.asleepOn_wake p.1
  credit_le_wake p := by
    obtain ⟨th, mark⟩ := p
    cases hp : th.place <;>
      simp [Monitor.marked, monitor, Thread.notified, Thread.wake, hp, Bool.toNat_le]
  gain_le_wake p hp := by
    obtain ⟨x, hx, -⟩ := Thread.place_of_asleepOn hp
    simp [Monitor.marked, monitor, Thread.notified, Thread.wake, hx]
  announces_wake _ := id

/-- A reader that does not leave below the limit passes on what it was notified of. -/
lemma ReaderEffect.keeps {state state' : Word w} {count count' : ℕ} {p : Thread × Bool}
    {th : Thread} {m : Move} {sig : Signal Gate}
    (h : ReaderEffect (nReaders : Word w).toNat count p.1 m count' th sig)
    (henc : Encodes state false count) (henc' : Encodes state' false count')
    (hlimit : m = .unlockShared → count = (nReaders : Word w).toNat) :
    (readersBaton (T := T)).Keeps state p state' (th, false) sig := by
  have havail : (readersBaton (T := T)).avail state = (nReaders : Word w).toNat - count :=
    congrArg ((nReaders : Word w).toNat - ·) henc.toNat_readers
  have havail' : (readersBaton (T := T)).avail state' = (nReaders : Word w).toNat - count' :=
    congrArg ((nReaders : Word w).toNat - ·) henc'.toNat_readers
  have houtside : ∀ {q : Thread × Bool}, q.1.place = .outside → Thread.notified q = 0 := by
    intro q hq
    simp [Thread.notified, hq]
  refine ⟨fun hp => ?_, False.elim, .inr (.inr ?_)⟩
  · rw [havail']
    cases h with
    | block hm hc => simp [hc]
    | refuse hp' hm => simp [Monitor.marked, monitor, Thread.asleepOn, hp'] at hp
    | share hm hc => simp [Monitor.marked, monitor] at hp
    | unshare hp' hs => simp [Monitor.marked, monitor, Thread.asleepOn, hp'] at hp
    | wakeUp hp' => simp [Monitor.marked, monitor, Thread.asleepOn] at hp
  · rw [havail, havail']
    change _ ∨ _ + Thread.notified p ≤ _ + Thread.notified (th, false) + _
    cases h with
    | block hm hc => exact .inl (by simp [hc])
    | refuse hp hm =>
      right
      rw [houtside hp, houtside (q := (p.1, false)) hp]
      exact Nat.le_add_right _ _
    | share hm hc =>
      right
      have hle : Thread.notified p ≤ 1 := by
        rw [Thread.notified]
        split
        · exact Bool.toNat_le _
        · exact Nat.zero_le _
      omega
    | unshare hp hs =>
      right
      rw [hlimit rfl, houtside hp]
      simp only [if_true, Monitor.Baton.sent, readersBaton]
      omega
    | wakeUp hp =>
      right
      have hzero : Thread.notified p = 0 := by simp [Thread.notified, hp]
      rw [hzero]
      omega

/-! ### The invariant -/

variable [Fintype T]

/-- There are readers only, and the word counts their holds. -/
structure ReadersInv (s : Config T (Word w) (Thread × Bool)) : Prop where
  encodes : Encodes s.shared false (holders (Monitor.unmark s))
  reads : ∀ t, (s.pc t).1.Reads

namespace ReadersInv

lemma initial : ReadersInv (readersStart : Config T (Word w) (Thread × Bool)) :=
  ⟨by simpa [holders, readersStart, Monitor.unmark, tally] using encodes_zero,
    fun _ => ⟨rfl, by simp [readersStart]⟩⟩

variable {s s' : Config T (Word w) (Thread × Bool)}

lemma covered_iff (h : ReadersInv s) :
    (readersBaton (T := T)).Covered s ↔ NoLostWakeUp s := by
  have havail : (readersBaton (T := T)).avail s.shared
      = (nReaders : Word w).toNat - holders (Monitor.unmark s) :=
    congrArg ((nReaders : Word w).toNat - ·) h.encodes.toNat_readers
  constructor
  · intro hc hsleep
    rcases hc hsleep with ⟨_, hfalse⟩ | hle
    · exact hfalse.elim
    · rw [havail] at hle
      exact Nat.sub_le_iff_le_add'.mp hle
  · intro hlaw hsleep
    right
    rw [havail]
    exact Nat.sub_le_iff_le_add'.mpr (hlaw hsleep)

variable [DecidableEq T] {a : Act T Move}

/-- A step of a reader has an effect, and keeps the invariant. -/
theorem step (h : ReadersInv s) (hs : readersMachine.step s a = some s') :
    ∃ th sig, ReaderEffect (nReaders : Word w).toNat (holders (Monitor.unmark s)) (s.pc a.tid).1
        a.move (holders (Monitor.unmark s')) th sig ∧
      monitor.marked.next a.tid s.shared (s.pc a.tid) a.move = some (s'.shared, (th, false), sig) ∧
      monitor.marked.deliver ⟨s'.shared, Function.update s.pc a.tid (th, false)⟩ sig a.notified
        = some s' ∧ ReadersInv s' := by
  obtain ⟨hm, hs⟩ := Machine.restrict_step_eq_some.mp hs
  obtain ⟨sh, p, sig, hn, hd⟩ := Monitor.step_eq_some.mp hs
  have hmarked := hn
  obtain ⟨hn, hmark⟩ := Monitor.marked_next.mp hn
  obtain ⟨th, mark⟩ := p
  obtain rfl : mark = false := hmark
  have hshared : s'.shared = sh := Monitor.shared_of_deliver hd
  subst hshared
  have hle : (s.pc a.tid).1.shared ≤ holders (Monitor.unmark s) :=
    le_tally Thread.shared (Monitor.unmark s).pc a.tid
  obtain ⟨count', henc, heffect⟩ := ReaderEffect.of_next h.encodes (h.reads a.tid) hle hm hn
  simp only at henc heffect
  have hcount : holders (Monitor.unmark s')
      = tally (fun p : Thread × Bool => p.1.shared) (Function.update s.pc a.tid (th, false)) :=
    tally_congr fun t => Monitor.apply_pc_of_deliver (f := fun p : Thread × Bool => p.1.shared)
      (fun p => Thread.shared_wake p.1) hd t
  have hmoved := tally_update (fun p : Thread × Bool => p.1.shared) s.pc a.tid (th, false)
  have hacc := heffect.accounted hle
  have hcount' : count' = holders (Monitor.unmark s') := by
    change _ = holders (Monitor.unmark s) + _ at hmoved
    simp only at hmoved
    omega
  subst hcount'
  refine ⟨th, sig, heffect, hmarked, hd, henc, fun t => ?_⟩
  have hupdate : (Function.update s.pc a.tid (th, false) t).1.Reads := by
    by_cases hta : t = a.tid
    · subst hta
      rw [Function.update_self]
      exact heffect.reads (h.reads a.tid)
    · rw [Function.update_of_ne hta]
      exact h.reads t
  rcases Monitor.pc_of_deliver hd t with ht | ht
  · rwa [ht]
  · rw [ht]
    exact hupdate.wake

/-- A holder that leaves below the limit notifies nobody. -/
lemma leave_below (h : ReadersInv s) (hs : readersMachine.step s a = some s')
    (hm : a.move = .unlockShared)
    (hne : holders (Monitor.unmark s) ≠ (nReaders : Word w).toNat) :
    holders (Monitor.unmark s') + 1 = holders (Monitor.unmark s) ∧ notified s' = notified s ∧
      (Sleeps s' ↔ Sleeps s) := by
  obtain ⟨th, sig, heffect, -, hd, -⟩ := h.step hs
  have hle : (s.pc a.tid).1.shared ≤ holders (Monitor.unmark s) :=
    le_tally Thread.shared (Monitor.unmark s).pc a.tid
  rw [hm] at heffect
  have hth : (s.pc a.tid).1.place = .outside ∧ 0 < (s.pc a.tid).1.shared ∧
      holders (Monitor.unmark s') = holders (Monitor.unmark s) - 1 ∧ th.place = .outside ∧
      sig = .none := by
    generalize holders (Monitor.unmark s') = count' at heffect
    cases heffect with
    | refuse hp hm => exact absurd rfl hm
    | block hm hc => exact absurd rfl hm
    | share hm hc => exact absurd rfl hm
    | unshare hp hpos => exact ⟨hp, hpos, rfl, hp, if_neg hne⟩
  obtain ⟨hp, hpos, hcount, hp', rfl⟩ := hth
  have hpc : Function.update s.pc a.tid (th, false) = s'.pc :=
    congrArg Config.pc (Monitor.deliver_none.mp hd).2
  refine ⟨by omega, ?_, ?_⟩
  · have hmoved := tally_update Thread.notified s.pc a.tid (th, false)
    simp only [Thread.notified, hp, hp', Nat.add_zero, hpc] at hmoved
    exact hmoved
  · have hsame : ∀ t, (Function.update s.pc a.tid (th, false) t).1.asleepOn
        = (s.pc t).1.asleepOn :=
      Code.apply_update (f := fun p : Thread × Bool => p.1.asleepOn)
        (by simp [Thread.asleepOn, hp, hp'])
    simp only [Sleeps, ← hpc, hsame]

/-- Where holders leave nobody asleep, no wake-up gets lost. -/
lemma noLostWakeUp_of_leavesNobody (h : ReadersInv s) (hlaw : NoLostWakeUp s)
    (hok : LeavesNobody s a) (hs : readersMachine.step s a = some s') : NoLostWakeUp s' := by
  obtain ⟨th, sig, heffect, hn, hd, h'⟩ := h.step hs
  by_cases hlimit : a.move = .unlockShared → holders (Monitor.unmark s) = (nReaders : Word w).toNat
  · rw [← h'.covered_iff]
    refine Monitor.Baton.Covered.step (a := a) (h.covered_iff.mpr hlaw) ?_
      (Machine.restrict_step_eq_some.mp hs).2
    intro sh p sig' hn'
    obtain ⟨rfl, rfl, rfl⟩ : s'.shared = sh ∧ (th, false) = p ∧ sig = sig' := by
      simpa using hn.symm.trans hn'
    exact heffect.keeps h.encodes h'.encodes hlimit
  · rw [Classical.not_imp] at hlimit
    obtain ⟨hm, hne⟩ := hlimit
    obtain ⟨hcount, hnotified, hsleeps⟩ := h.leave_below hs hm hne
    intro hsleep
    rcases (hok hm).resolve_left hne with hnone | hspare
    · exact absurd (hsleeps.mp hsleep) hnone
    · omega

lemma not_noLostWakeUp (h : ReadersInv s) (hok : ¬ LeavesNobody s a)
    (hs : readersMachine.step s a = some s') : ¬ NoLostWakeUp s' := by
  simp only [LeavesNobody, Classical.not_imp, not_or, not_not] at hok
  obtain ⟨hm, hne, hsleep, hspare⟩ := hok
  obtain ⟨hcount, hnotified, hsleeps⟩ := h.leave_below hs hm hne
  intro hlaw
  have hle := hlaw (hsleeps.mpr hsleep)
  omega

end ReadersInv

variable [DecidableEq T]

/-- In every run of readers there are shared holders and notified readers enough for the limit
whenever another reader sleeps, exactly when no holder leaves below the limit while a reader sleeps
and nobody is to spare. -/
theorem noLostWakeUp_iff {as : List (Act T Move)} {s : Config T (Word w) (Thread × Bool)}
    (hrun : readersMachine.run readersStart as = some s) :
    (∀ pre (u : Config T (Word w) (Thread × Bool)), pre <+: as →
        readersMachine.run readersStart pre = some u → NoLostWakeUp u) ↔
      readersMachine.Admits LeavesNobody (readersStart : Config T (Word w) (Thread × Bool)) as := by
  refine Machine.forall_prefix_iff_admits_of_invariant
    (I := fun u => ReadersInv u ∧ NoLostWakeUp u) hrun ⟨ReadersInv.initial, ?_⟩
    (fun _ h => h.2) ?_ ?_
  · rintro ⟨t, ht⟩
    cases ht
  · rintro u a u' ⟨hinv, hlaw⟩ hok hs
    obtain ⟨-, -, -, -, -, hinv'⟩ := hinv.step hs
    exact ⟨hinv', hinv.noLostWakeUp_of_leavesNobody hlaw hok hs⟩
  · rintro u a u' ⟨hinv, -⟩ hok hs
    exact hinv.not_noLostWakeUp hok hs

/-- Three readers fill the limit and two more sleep. When two of the holders have left, one of the
sleepers was notified, and the other one sleeps on although there is room for both. -/
theorem lost_wakeUp : ∃ s : Config (Fin 5) (Word 2) (Thread × Bool),
    readersMachine.run readersStart
        [⟨0, .lockShared, none⟩, ⟨1, .lockShared, none⟩, ⟨2, .lockShared, none⟩,
          ⟨3, .lockShared, none⟩, ⟨4, .lockShared, none⟩, ⟨0, .unlockShared, some 3⟩,
          ⟨1, .unlockShared, none⟩] = some s ∧
      (nReaders : Word 2).toNat = 3 ∧ (s.pc 4).1.place = .asleep .lockShared ∧
      holders (Monitor.unmark s) = 1 ∧ notified s = 1 ∧ ¬ NoLostWakeUp s :=
  ⟨_, rfl, by decide, rfl, by decide, by decide, by decide⟩

/-- Three readers fill the limit and three more sleep. A newcomer takes the place of the first
holder that leaves, so that the second one leaves at the limit, too. The third one leaves below the
limit while a reader sleeps, but the two that were notified and the newcomer can fill it up. -/
theorem noLostWakeUp_iff_six :
    readersMachine.Admits LeavesNobody (readersStart : Config (Fin 6) (Word 2) (Thread × Bool))
        [⟨0, .lockShared, none⟩, ⟨1, .lockShared, none⟩, ⟨2, .lockShared, none⟩,
          ⟨3, .lockShared, none⟩, ⟨4, .lockShared, none⟩, ⟨5, .lockShared, none⟩,
          ⟨0, .unlockShared, some 3⟩, ⟨0, .tryLockShared, none⟩, ⟨1, .unlockShared, some 4⟩,
          ⟨2, .unlockShared, none⟩] ∧
      ∀ pre u, pre <+: [⟨0, .lockShared, none⟩, ⟨1, .lockShared, none⟩, ⟨2, .lockShared, none⟩,
          ⟨3, .lockShared, none⟩, ⟨4, .lockShared, none⟩, ⟨5, .lockShared, none⟩,
          ⟨0, .unlockShared, some 3⟩, ⟨0, .tryLockShared, none⟩, ⟨1, .unlockShared, some 4⟩,
          ⟨2, .unlockShared, none⟩] →
        readersMachine.run (readersStart : Config (Fin 6) (Word 2) (Thread × Bool)) pre = some u →
        NoLostWakeUp u := by
  have hend : (readersMachine.runWhile LeavesNobody
      (readersStart : Config (Fin 6) (Word 2) (Thread × Bool))
      [⟨0, .lockShared, none⟩, ⟨1, .lockShared, none⟩, ⟨2, .lockShared, none⟩,
        ⟨3, .lockShared, none⟩, ⟨4, .lockShared, none⟩, ⟨5, .lockShared, none⟩,
        ⟨0, .unlockShared, some 3⟩, ⟨0, .tryLockShared, none⟩, ⟨1, .unlockShared, some 4⟩,
        ⟨2, .unlockShared, none⟩]).any
      (fun s => (s.pc 5).1.place == .asleep .lockShared) = true := by
    decide +kernel
  obtain ⟨s, hs, -⟩ := (Option.any_eq_true _ _).mp hend
  obtain ⟨hrun, hadmits⟩ := Machine.run_of_runWhile hs
  exact ⟨hadmits, (noLostWakeUp_iff hrun).mpr hadmits⟩

end SharedMutex

end Sync
