import Mathlib.Data.List.Nodup
import SyncLib.Core.Machine
import SyncLib.Lock.Attempts

/-!
# The rounds of `lock`

One thread in a call of `lock` or of `_lock_first`, with any outcomes of the attempts, and in the
destructor of `scoped_lock`. A round that fails goes on where it failed: the next round blocks on
the mutex that could not be taken, wherever the rotations have put it.
-/

namespace Sync

namespace Lock

open Core UniqueLock

variable {M : Type}

/-! ### The thread -/

/-- Where the thread is: in a round of `lock`, after it, in the destructor, or after that. The last
two keep the calls that were made before the destructor. -/
inductive Stage (M : Type)
  | locking (c : Call M) (p : MutexProgram M (Option (Call M)))
  | returned
  | unlocking (before : List (Event M)) (p : MutexProgram M Unit)
  | done (before : List (Event M))

/-- The calls on mutexes so far, the newest first, and where the thread is. -/
structure Locker (M : Type) where
  log : List (Event M)
  stage : Stage M

/-- The answer of an operation where `try_lock` returns `ok`. -/
def reply (ok : Bool) : (o : MutexOp M) → o.Result
  | .lock _    => ()
  | .tryLock _ => ok
  | .unlock _  => ()
  | .yield     => ()

namespace Locker

/-- One call on a mutex, or a step from one stage to the next, of a thread that locks `ms`. -/
def step (ms : List M) (s : Locker M) (ok : Bool) : Option (Locker M) :=
  match s.stage with
  | .locking c (.call o k) =>
    some ⟨event o (reply ok o) :: s.log, .locking c (k (reply ok o))⟩
  | .locking _ (.ret (some c)) => some ⟨s.log, .locking c c.round⟩
  | .locking _ (.ret none) => some ⟨s.log, .returned⟩
  | .returned => some ⟨s.log, .unlocking s.log (unlock ms)⟩
  | .unlocking before (.call o k) =>
    some ⟨event o (reply ok o) :: s.log, .unlocking before (k (reply ok o))⟩
  | .unlocking before (.ret ()) => some ⟨s.log, .done before⟩
  | .done _ => none

def machine (ms : List M) : Machine (Locker M) Bool := ⟨step ms⟩

/-- At the start of a call. -/
def start (c : Call M) : Locker M := ⟨[], .locking c c.round⟩

end Locker

/-! ### The law -/

/-- The mutexes of a call in the order of its arguments. -/
def Call.toList : Call M → List M
  | .two m0 m1 => [m0, m1]
  | .first _ a => a.toList

/-- The index of `_lock_first` is that of a mutex. -/
def Call.InRange : Call M → Prop
  | .two _ _   => True
  | .first i a => 0 ≤ i ∧ i < a.toList.length

/-- The mutex on which the next round blocks. -/
def Call.next? : Call M → Option M
  | .two m0 _  => some m0
  | .first i a => a.toList[i.toNat]?

/-- A thread with these calls behind it, the newest first, blocked after a failed attempt only on
the mutex of that attempt. -/
def Follows : List (Event M) → Prop
  | []             => True
  | .locked m :: l => (∀ m', Failed l m' → m' = m) ∧ Follows l
  | _ :: l         => Follows l

/-- What holds of a thread that locks `ms` in any state. -/
structure OrderLaw [DecidableEq M] (ms : List M) (s : Locker M) : Prop where
  range : ∀ c p, s.stage = .locking c p → c.InRange ∧ c.toList.Perm ms
  order : Follows s.log
  returned : s.stage = .returned → ∀ m ∈ ms, acquired m s.log = released m s.log + 1
  destroyed : ∀ before, s.stage = .done before → ∃ d, s.log = d ++ before ∧
    ∀ m ∈ ms, acquired m d = 0 ∧ released m d = 1

/-! ### Rounds -/

lemma failed_append {d l : List (Event M)} {m : M} (hd : ∀ m, .locked m ∉ d) :
    Failed (d ++ l) m ↔ .tried m false ∈ d ∨ Failed l m := by
  induction d with
  | nil => simp
  | cons e d ih =>
    have hrest := ih fun m' hm' => hd m' (List.mem_cons_of_mem _ hm')
    cases e with
    | locked m' => exact absurd List.mem_cons_self (hd m')
    | tried m' ok =>
      cases ok with
      | true => simpa [Failed] using hrest
      | false => simp [Failed, hrest, or_assoc]
    | unlocked m' => simpa [Failed] using hrest
    | yielded => simpa [Failed] using hrest

lemma toList_rotate (a : Args M) : a.rotate.toList = a.m2 :: a.mn ++ [a.m0, a.m1] := by
  obtain ⟨m0, m1, m2, mn⟩ := a
  match mn with
  | []             => rfl
  | [_]            => rfl
  | _ :: _ :: _    => simp [Args.rotate, Args.toList]

/-- The calls after which a round has failed at `m'`, on the mutexes `pre` and `m'` after `m`. -/
def roundFailed (m : M) (pre : List M) (m' : M) : List (Event M) :=
  .yielded :: .unlocked m :: (rollback pre m' ++ [.locked m])

/-- After a round that failed the attempt at `m'` is the one that has failed. -/
lemma failed_roundFailed {m m' : M} {pre : List M} {l : List (Event M)} {x : M} :
    Failed (roundFailed m pre m' ++ l) x ↔ x = m' := by
  have hsplit : roundFailed m pre m' ++ l =
      (.yielded :: .unlocked m :: rollback pre m') ++ (.locked m :: l) := by
    simp [roundFailed]
  rw [hsplit, failed_append (by simp [rollback, attempts])]
  simp [rollback, attempts, Failed]

section

variable [DecidableEq M] (x : M)

lemma acquired_roundFailed (m m' : M) (pre : List M) :
    acquired x (roundFailed m pre m') = released x (roundFailed m pre m') := by
  have hsplit : roundFailed m pre m' =
      [.yielded] ++ ([.unlocked m] ++ (rollback pre m' ++ [.locked m])) := rfl
  have hyield : acquired x ([.yielded] : List (Event M)) = 0 ∧
      released x ([.yielded] : List (Event M)) = 0 := ⟨rfl, rfl⟩
  simp only [hsplit, acquired_append, released_append, acquired_rollback, acquired_locked,
    released_locked, acquired_unlocked, released_unlocked, hyield]
  omega

lemma acquired_attempts_locked (ms : List M) (m : M) (l : List (Event M)) :
    acquired x (attempts ms ++ .locked m :: l) = acquired x l + (m :: ms).count x ∧
      released x (attempts ms ++ .locked m :: l) = released x l := by
  have hsplit : attempts ms ++ .locked m :: l = attempts ms ++ ([.locked m] ++ l) := rfl
  have hcount : (m :: ms).count x = [m].count x + ms.count x := by
    rw [← List.count_append]
    rfl
  simp only [hsplit, acquired_append, released_append, acquired_attempts, released_attempts,
    acquired_locked, released_locked, Nat.zero_add, and_true]
  omega

end

/-- What a round that blocks on `m` and then tries `ms` has called when it returns `i`. -/
def TriedAll (m : M) (ms : List M) (l : List (Event M)) (i : ℤ) (l' : List (Event M)) : Prop :=
  i = -1 ∧ l' = attempts ms ++ .locked m :: l ∨
    ∃ pre m' post, ms = pre ++ m' :: post ∧ i = pre.length ∧
      .yielded :: l' = roundFailed m pre m' ++ l

namespace Recording

lemma wp_lockThenTryAll {m : M} {ms : List M} {others : MutexProgram M ℤ} {l : List (Event M)}
    (hl : ∀ m', Failed l m' → m' = m)
    (h : recording.wp others (Attempted ms (.locked m :: l)) (.locked m :: l)) :
    recording.wp (lockThenTryAll m others) (TriedAll m ms l) l := by
  simp only [lockThenTryAll, locking, Contract.wp_bind, wp_scope, wp_lock, Contract.wp_pure,
    Ctor.make]
  refine ⟨hl, Contract.wp_mono h fun i l' hi => ?_⟩
  rcases hi with ⟨rfl, rfl⟩ | ⟨pre, m', post, rfl, rfl, rfl⟩
  · exact .inl ⟨rfl, rfl⟩
  · rw [if_neg (by omega)]
    exact .inr ⟨pre, m', post, rfl, rfl, by simp [roundFailed]⟩

lemma wp_tryLockSecond (a : Args M) (l : List (Event M)) :
    recording.wp a.tryLockSecond (Attempted (a.m2 :: (a.mn ++ [a.m0])) l) l := by
  obtain ⟨m0, m1, m2, mn⟩ := a
  cases mn with
  | nil => exact wp_tryLock_attempted m2 m0 [] l
  | cons m3 mn => exact wp_tryLock_attempted m2 m3 (mn ++ [m0]) l

/-- A round of `lock(m0, m1)` that failed is one on a single other mutex. -/
lemma wp_lockThenTry {m m' : M} {l : List (Event M)} (hl : ∀ m'', Failed l m'' → m'' = m) :
    recording.wp (lockThenTry m m') (fun done l' =>
      if done then l' = attempts [m'] ++ .locked m :: l
      else .yielded :: l' = roundFailed m [] m' ++ l) l := by
  simp only [lockThenTry, locking, Contract.wp_bind, wp_scope, wp_lock, wp_tryLock,
    Contract.wp_pure, Ctor.make]
  exact ⟨hl, rfl, rfl⟩

lemma wp_unlock_all (ms : List M) (l : List (Event M)) :
    recording.wp (unlock ms) (fun _ l' => l' = (ms.map Event.unlocked).reverse ++ l) l := by
  induction ms using unlock.induct generalizing l with
  | case1 => simp [unlock]
  | case2 m0 => simp [unlock]
  | case3 m0 m1 mn ih =>
    simp only [unlock, Contract.wp_bind, wp_unlock]
    refine Contract.wp_mono (ih _) fun _ l' hl' => ?_
    simp [hl']

end Recording

/-- A call on a mutex that the contract admits keeps the order. -/
lemma Follows.cons {l : List (Event M)} (h : Follows l) {o : MutexOp M}
    (ho : recording.requires o l) (ok : Bool) : Follows (event o (reply ok o) :: l) := by
  cases o with
  | lock m => exact ⟨ho, h⟩
  | tryLock m => exact h
  | unlock m => exact h
  | yield => exact h

lemma inRange_lock (m0 m1 : M) (mn : List M) : (lock m0 m1 mn).InRange := by
  cases mn with
  | nil => trivial
  | cons m2 mn => exact ⟨le_rfl, by simp [Args.toList]; omega⟩

lemma toList_lock (m0 m1 : M) (mn : List M) : (lock m0 m1 mn).toList = m0 :: m1 :: mn := by
  cases mn <;> rfl

section

variable [DecidableEq M]

/-- Between two rounds of a call on `ms`: nothing is held, and the next round blocks on the mutex of
the attempt that has failed. -/
structure Going (ms : List M) (c : Call M) (l : List (Event M)) : Prop where
  inRange : c.InRange
  perm : c.toList.Perm ms
  next : ∀ m, Failed l m → c.next? = some m
  even : ∀ m, acquired m l = released m l

/-- At the return of a call on `ms`. -/
def Done (ms : List M) (l : List (Event M)) : Prop :=
  ∀ m, acquired m l = released m l + ms.count m

def AfterRound (ms : List M) : Option (Call M) → List (Event M) → Prop
  | none, l   => Done ms l
  | some c, l => Going ms c l

namespace Going

variable {ms : List M} {c c' : Call M} {l : List (Event M)}

/-- A round that has acquired all mutexes. -/
lemma done (h : Going ms c l) {m : M} {ms' : List M} (hms : (m :: ms').Perm c.toList) :
    Done ms (attempts ms' ++ .locked m :: l) := by
  intro x
  obtain ⟨hacq, hrel⟩ := acquired_attempts_locked x ms' m l
  rw [hacq, hrel, h.even x, hms.count_eq, h.perm.count_eq]

/-- A round that has failed at `m'`. -/
lemma failed (h : Going ms c l) {m m' : M} {pre : List M} (hrange : c'.InRange)
    (hperm : c'.toList = c.toList) (hnext : c'.next? = some m') :
    Going ms c' (roundFailed m pre m' ++ l) := by
  refine ⟨hrange, hperm ▸ h.perm, fun x hx => ?_, fun x => ?_⟩
  · rw [hnext, failed_roundFailed.mp hx]
  · rw [acquired_append, released_append, acquired_roundFailed, h.even x]

/-- The first case of `_lock_first`: the index of the mutex that failed is one more. -/
lemma round_zero {a : Args M} (h : Going ms (.first 0 a) l) :
    recording.wp (Call.first 0 a).round (AfterRound ms) l := by
  simp only [Call.round, lockFirstRound, if_true, Contract.wp_bind]
  have hl : ∀ m', Failed l m' → m' = a.m0 := fun m' hm' => (Option.some.inj (h.next m' hm')).symm
  have htry := wp_tryLock_attempted a.m1 a.m2 a.mn (.locked a.m0 :: l)
  refine Contract.wp_mono (Recording.wp_lockThenTryAll hl htry) fun i l' hi => ?_
  rcases hi with ⟨rfl, rfl⟩ | ⟨pre, m', post, hsplit, rfl, hl'⟩
  · exact h.done (List.Perm.refl _)
  · have hlist : a.toList = a.m0 :: (pre ++ m' :: post) := by rw [← hsplit]; rfl
    rw [if_neg (by omega)]
    simp only [Contract.wp_bind, Recording.wp_yield, Contract.wp_pure, AfterRound]
    rw [hl']
    refine h.failed ⟨by omega, ?_⟩ rfl ?_
    · rw [hlist, List.length_cons, List.length_append, List.length_cons]
      omega
    · rw [Call.next?, hlist]
      simp

/-- The second case: the mutexes after the second one come first, so the index is two more, but
for that of `m0`, which comes last. -/
lemma round_one {a : Args M} (h : Going ms (.first 1 a) l) :
    recording.wp (Call.first 1 a).round (AfterRound ms) l := by
  have hne : (1 : ℤ) ≠ 0 := by decide
  simp only [Call.round, lockFirstRound, hne, if_true, if_false, Contract.wp_bind]
  have hl : ∀ m', Failed l m' → m' = a.m1 := fun m' hm' => (Option.some.inj (h.next m' hm')).symm
  have htry := Recording.wp_tryLockSecond a (.locked a.m1 :: l)
  refine Contract.wp_mono (Recording.wp_lockThenTryAll hl htry) fun i l' hi => ?_
  rcases hi with ⟨rfl, rfl⟩ | ⟨pre, m', post, hsplit, rfl, hl'⟩
  · refine h.done ?_
    have hperm : (a.m1 :: a.m2 :: (a.mn ++ [a.m0])).Perm (a.m0 :: a.m1 :: a.m2 :: a.mn) := by
      rw [← List.cons_append, ← List.cons_append]
      exact List.perm_append_singleton _ _
    exact hperm
  · have hlen := congrArg List.length hsplit
    have hget : (a.m2 :: (a.mn ++ [a.m0]))[pre.length]? = some m' := by
      rw [hsplit]
      simp
    simp only [List.length_cons, List.length_append, List.length_nil] at hlen
    rw [if_neg (by omega)]
    simp only [Contract.wp_bind, Recording.wp_yield, Contract.wp_pure, AfterRound]
    rw [hl']
    split_ifs with hlast
    · have hlast' : pre.length = a.mn.length + 1 := by exact_mod_cast hlast
      rw [hlast', List.getElem?_cons_succ, List.getElem?_concat_length] at hget
      exact h.failed ⟨le_rfl, by simp [Args.toList]; omega⟩ rfl hget
    · have hlt : pre.length < (a.m2 :: a.mn).length := by
        rw [List.length_cons]
        omega
      rw [← List.cons_append, List.getElem?_append_left hlt] at hget
      refine h.failed ⟨by omega, ?_⟩ rfl ?_
      · simp [Args.toList] at hlt ⊢
        omega
      · exact hget

/-- The other cases: the arguments are rotated by two, and so is the index. -/
lemma round_rest {i : ℤ} {a : Args M} (h : Going ms (.first i a) l) (h0 : i ≠ 0) (h1 : i ≠ 1) :
    recording.wp (Call.first i a).round (AfterRound ms) l := by
  simp only [Call.round, lockFirstRound, h0, h1, if_false, Contract.wp_pure, AfterRound]
  obtain ⟨hpos, hlt⟩ := h.inRange
  obtain ⟨k, rfl⟩ : ∃ k : ℕ, i = k + 2 := ⟨(i - 2).toNat, by omega⟩
  have hrotate := toList_rotate a
  have hperm : a.rotate.toList.Perm a.toList := by
    rw [hrotate]
    exact @List.perm_append_comm _ (a.m2 :: a.mn) [a.m0, a.m1]
  simp only [Args.toList, List.length_cons] at hlt
  have hget : (Call.first ((k : ℤ) + 2 - 2) a.rotate).next?
      = (Call.first ((k : ℤ) + 2) a).next? := by
    have hsub : ((k : ℤ) + 2 - 2).toNat = k := by omega
    have hadd : ((k : ℤ) + 2).toNat = k + 2 := by omega
    rw [Call.next?, Call.next?, hsub, hadd, hrotate, List.getElem?_append_left]
    · rfl
    · rw [List.length_cons]
      omega
  refine ⟨⟨by omega, ?_⟩, hperm.trans h.perm, fun m hm => hget ▸ h.next m hm, h.even⟩
  rw [hperm.length_eq]
  simp only [Args.toList, List.length_cons]
  omega

/-- Both halves of the round of `lock(m0, m1)`. -/
lemma round_two {m0 m1 : M} (h : Going ms (.two m0 m1) l) :
    recording.wp (Call.two m0 m1).round (AfterRound ms) l := by
  simp only [Call.round, lockRound, Contract.wp_bind]
  have hl : ∀ m', Failed l m' → m' = m0 := fun m' hm' => (Option.some.inj (h.next m' hm')).symm
  refine Contract.wp_mono (Recording.wp_lockThenTry hl) fun done l₁ hl₁ => ?_
  cases done with
  | true =>
    simp only [if_true] at hl₁
    rw [hl₁]
    exact h.done (List.Perm.refl _)
  | false =>
    simp only [Bool.false_eq_true, if_false, Contract.wp_bind, Recording.wp_yield] at hl₁ ⊢
    rw [hl₁]
    have h₁ : Going ms (.two m1 m0) (roundFailed m0 [] m1 ++ l) := by
      refine ⟨trivial, (List.Perm.swap m0 m1 []).trans h.perm, fun x hx => ?_, fun x => ?_⟩
      · rw [failed_roundFailed.mp hx]
        rfl
      · rw [acquired_append, released_append, acquired_roundFailed, h.even x]
    have hl' : ∀ m', Failed (roundFailed m0 [] m1 ++ l) m' → m' = m1 :=
      fun m' hm' => failed_roundFailed.mp hm'
    refine Contract.wp_mono (Recording.wp_lockThenTry hl') fun done l₂ hl₂ => ?_
    cases done with
    | true =>
      simp only [if_true] at hl₂ ⊢
      rw [hl₂]
      exact h₁.done (List.Perm.refl _)
    | false =>
      simp only [Bool.false_eq_true, if_false, Contract.wp_bind, Recording.wp_yield,
        Contract.wp_pure, AfterRound] at hl₂ ⊢
      rw [hl₂]
      refine ⟨trivial, h.perm, fun x hx => ?_, fun x => ?_⟩
      · rw [failed_roundFailed.mp hx]
        rfl
      · rw [acquired_append, released_append, acquired_roundFailed, h₁.even x]

/-- A round blocks where the one before it failed, and acquires all mutexes or fails in turn. -/
theorem round (h : Going ms c l) : recording.wp c.round (AfterRound ms) l := by
  cases c with
  | two m0 m1 => exact h.round_two
  | first i a =>
    by_cases h0 : i = 0
    · subst h0
      exact h.round_zero
    · by_cases h1 : i = 1
      · subst h1
        exact h.round_one
      · exact h.round_rest h0 h1

end Going

/-! ### Any number of rounds -/

/-- What the calls so far and the stage of a thread that locks `ms` have to do with each other. -/
def Stage.Holds (ms : List M) (l : List (Event M)) : Stage M → Prop
  | .locking c p        => c.InRange ∧ c.toList.Perm ms ∧ recording.wp p (AfterRound ms) l
  | .returned           => Done ms l
  | .unlocking before p =>
    recording.wp p (fun _ l' => l' = (ms.map Event.unlocked).reverse ++ before) l
  | .done before        => l = (ms.map Event.unlocked).reverse ++ before

namespace Locker

variable {ms : List M} {s s' : Locker M} {ok : Bool}

lemma holds_start {c : Call M} (hc : c.InRange) :
    (start c).stage.Holds c.toList (start c).log := by
  have hgoing : Going c.toList c [] := ⟨hc, List.Perm.refl _, fun _ hm => hm.elim, fun _ => rfl⟩
  exact ⟨hc, List.Perm.refl _, hgoing.round⟩

theorem holds_step (hs : (machine ms).step s ok = some s') (hfollows : Follows s.log)
    (h : s.stage.Holds ms s.log) : Follows s'.log ∧ s'.stage.Holds ms s'.log := by
  obtain ⟨l, stage⟩ := s
  simp only [machine, step] at hs
  cases stage with
  | locking c p =>
    obtain ⟨hrange, hperm, hwp⟩ := h
    match p with
    | .call o k =>
      cases hs
      exact ⟨hfollows.cons hwp.1 ok, hrange, hperm, hwp.2 _ _ rfl⟩
    | .ret (some c') =>
      cases hs
      have hgoing : Going ms c' l := hwp
      exact ⟨hfollows, hgoing.inRange, hgoing.perm, hgoing.round⟩
    | .ret none =>
      cases hs
      exact ⟨hfollows, hwp⟩
  | returned =>
    cases hs
    exact ⟨hfollows, Recording.wp_unlock_all ms l⟩
  | unlocking before p =>
    match p with
    | .call o k =>
      cases hs
      exact ⟨hfollows.cons h.1 ok, h.2 _ _ rfl⟩
    | .ret () =>
      cases hs
      exact ⟨hfollows, h⟩
  | done before => cases hs

theorem holds_of_reachable {c : Call M} (hc : c.InRange)
    (h : (machine c.toList).Reachable (start c) s) :
    Follows s.log ∧ s.stage.Holds c.toList s.log := by
  have hstart : Follows (start c).log ∧ (start c).stage.Holds c.toList (start c).log :=
    ⟨trivial, holds_start hc⟩
  exact h.invariant (I := fun u => Follows u.log ∧ u.stage.Holds c.toList u.log) hstart
    fun _ _ _ hu _ hs => holds_step hs hu.1 hu.2

/-- A call on distinct mutexes. -/
lemma orderLaw_of_reachable {c : Call M} (hc : c.InRange) (hms : c.toList.Nodup)
    (h : (machine c.toList).Reachable (start c) s) : OrderLaw c.toList s := by
  obtain ⟨hfollows, hholds⟩ := holds_of_reachable hc h
  refine ⟨fun c' p hp => ?_, hfollows, fun hr m hm => ?_, fun before hd => ?_⟩
  · rw [hp] at hholds
    exact ⟨hholds.1, hholds.2.1⟩
  · rw [hr] at hholds
    rw [hholds m, List.count_eq_one_of_mem hms hm]
  · rw [hd] at hholds
    refine ⟨_, hholds, fun m hm => ?_⟩
    have hacq : acquired m (c.toList.map Event.unlocked).reverse = 0 := by
      rw [acquired, List.countP_reverse]
      exact acquired_map_unlocked m c.toList
    have hrel : released m (c.toList.map Event.unlocked).reverse = c.toList.count m := by
      rw [released, List.countP_reverse]
      exact released_map_unlocked m c.toList
    exact ⟨hacq, hrel.trans (List.count_eq_one_of_mem hms hm)⟩

end Locker

/-- `_lock_first` on three or more distinct mutexes from any index, and `scoped_lock` on two or
more, with any outcomes of the attempts. -/
theorem orderLaw :
    (∀ (i : ℤ) (a : Args M) (s : Locker M), 0 ≤ i → i < a.toList.length → a.toList.Nodup →
      (Locker.machine a.toList).Reachable (Locker.start (.first i a)) s →
      OrderLaw a.toList s) ∧
    ∀ (m0 m1 : M) (mn : List M) (s : Locker M), (m0 :: m1 :: mn).Nodup →
      (Locker.machine (m0 :: m1 :: mn)).Reachable (Locker.start (lock m0 m1 mn)) s →
      OrderLaw (m0 :: m1 :: mn) s := by
  constructor
  · intro i a s hpos hlt hms hs
    exact Locker.orderLaw_of_reachable (c := .first i a) ⟨hpos, hlt⟩ hms hs
  · intro m0 m1 mn s hms hs
    rw [← toList_lock] at hms hs ⊢
    exact Locker.orderLaw_of_reachable (inRange_lock m0 m1 mn) hms hs

/-- Three mutexes from the index `1`: the last one, which is tried first, is taken. -/
theorem orderLaw_three : ∃ s : Locker (Fin 3),
    s.log = [.yielded, .unlocked 1, .tried 2 false, .locked 1] ∧
      (∃ p, s.stage = .locking (.first 2 ⟨0, 1, 2, []⟩) p) ∧ OrderLaw [0, 1, 2] s := by
  have hrun : (Locker.machine [0, 1, 2]).run (Locker.start (.first 1 ⟨(0 : Fin 3), 1, 2, []⟩))
      [true, false, true, true, true] = some ⟨[.yielded, .unlocked 1, .tried 2 false, .locked 1],
        .locking (.first 2 ⟨0, 1, 2, []⟩) (Call.first 2 ⟨0, 1, 2, []⟩).round⟩ := rfl
  exact ⟨_, rfl, ⟨_, rfl⟩, orderLaw.1 1 ⟨0, 1, 2, []⟩ _ (by decide) (by decide) (by decide)
    (Machine.reachable_of_run .refl hrun)⟩

end

end Lock

end Sync
