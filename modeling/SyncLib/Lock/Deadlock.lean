import SyncLib.Core.Machine
import SyncLib.Lock.Basic

/-!
# Threads that lock several mutexes

Any number of threads call `lock`, directly or through `scoped_lock`, on selections of a common
set of mutexes in orders of their own. A thread that blocks holds nothing, so nobody waits for a
thread that is blocked.
-/

namespace Sync

namespace Lock

open Core

variable {T : Type*} {M : Type}

/-! ### The threads -/

/-- Where a thread is. -/
inductive Phase (M : Type)
  /-- Outside `lock`, without mutexes. -/
  | idle
  /-- In a call of `lock` on the mutexes `ms`, with the rest of the round. -/
  | locking (ms : List M) (p : MutexProgram M (Option (Call M)))
  /-- After the return of `lock`. -/
  | holding (ms : List M)
  /-- Unlocking the mutexes one after the other. -/
  | unlocking (p : MutexProgram M Unit)

/-- The holder of each mutex, and where each thread is. -/
structure State (T : Type*) (M : Type) where
  owner : M → Option T
  phase : T → Phase M

/-- A call of `lock`, the start of the unlocking in some order, or the next step of a call with
the outcome of `try_lock`, which may fail without a reason. -/
inductive Move (M : Type)
  | lock (m0 m1 : M) (mn : List M)
  | unlock (ms : List M)
  | proceed (ok : Bool)

section

variable [DecidableEq M]

/-- The operation `o` of thread `t`: the new holders and the answer, none where `t` has to
wait. -/
def exec (t : T) (owner : M → Option T) (ok : Bool) :
    (o : MutexOp M) → Option ((M → Option T) × o.Result)
  | .lock m =>
    if owner m = none then some (Function.update owner m (some t), ()) else none
  | .tryLock m =>
    if ok then
      if owner m = none then some (Function.update owner m (some t), true) else none
    else some (owner, false)
  | .unlock m => some (Function.update owner m none, ())
  | .yield => some (owner, ())

/-- One step of thread `t`. -/
def next (t : T) (owner : M → Option T) :
    Phase M → Move M → Option ((M → Option T) × Phase M)
  | .idle, .lock m0 m1 mn =>
    if (m0 :: m1 :: mn).Nodup then
      some (owner, .locking (m0 :: m1 :: mn) (lock m0 m1 mn).round)
    else none
  | .locking ms (.ret (some c)), .proceed _ => some (owner, .locking ms c.round)
  | .locking ms (.ret none), .proceed _ => some (owner, .holding ms)
  | .locking ms (.call o k), .proceed ok =>
    (exec t owner ok o).map fun r => (r.1, .locking ms (k r.2))
  | .holding ms, .unlock ms' => if ms'.Perm ms then some (owner, .unlocking (unlock ms')) else none
  | .unlocking (.ret ()), .proceed _ => some (owner, .idle)
  | .unlocking (.call o k), .proceed ok =>
    (exec t owner ok o).map fun r => (r.1, .unlocking (k r.2))
  | _, _ => none

/-- The interleaving of all threads. -/
def machine [DecidableEq T] : Machine (State T M) (T × Move M) where
  step s a := (next a.1 s.owner (s.phase a.1) a.2).map fun r =>
    ⟨r.1, Function.update s.phase a.1 r.2⟩

end

/-- All mutexes are free. -/
def start : State T M := ⟨fun _ => none, fun _ => .idle⟩

/-! ### Deadlocks -/

/-- The thread waits in `lock` of a mutex that is taken. -/
def Blocked (s : State T M) (t : T) : Prop :=
  ∃ ms m k, s.phase t = .locking ms (.call (.lock m) k) ∧ s.owner m ≠ none

def Unfinished (s : State T M) (t : T) : Prop := s.phase t ≠ .idle

/-- The mutexes that a thread holds. -/
def held (owner : M → Option T) (t : T) : Set M := {m | owner m = some t}

/-- What a thread in a phase holds, and will hold if it goes on from there. -/
def Phase.Holds (H : Set M) : Phase M → Prop
  | .idle         => H = ∅
  | .locking ms p => ms.Nodup ∧ custody.wp p (fun
      | none, H' => H' = {m | m ∈ ms}
      | some c, H' => H' = ∅ ∧ c.mutexes = {m | m ∈ ms}) H
  | .holding ms   => ms.Nodup ∧ H = {m | m ∈ ms}
  | .unlocking p  => custody.wp p (fun _ H' => H' = ∅) H

def Inv (s : State T M) : Prop := ∀ t, (s.phase t).Holds (held s.owner t)

lemma holds_round {c : Call M} {ms : List M} (hms : ms.Nodup) (hc : c.mutexes = {m | m ∈ ms}) :
    (Phase.locking ms c.round).Holds ∅ := by
  refine ⟨hms, Contract.wp_mono (wp_round c) fun r H hr => ?_⟩
  cases r with
  | none => exact hr.trans hc
  | some c' => exact ⟨hr.1, hr.2.trans hc⟩

variable {s s' : State T M}

lemma Inv.held_eq_empty (h : Inv s) {t : T} (ht : Blocked s t) : held s.owner t = ∅ := by
  obtain ⟨ms, m, k, hp, -⟩ := ht
  have hholds := h t
  rw [hp] at hholds
  exact hholds.2.1

variable [DecidableEq M]

/-- An operation that a thread may call does to the mutexes it holds what its contract says, and
nothing to those of the others. -/
lemma exec_ensures {t : T} {owner owner' : M → Option T} {ok : Bool} {o : MutexOp M} {r : o.Result}
    (h : exec t owner ok o = some (owner', r)) (hreq : custody.requires o (held owner t)) :
    custody.ensures o (held owner t) r (held owner' t) ∧
      ∀ u, u ≠ t → held owner' u = held owner u := by
  have htake : ∀ m, owner m = none →
      (m ∉ held owner t ∧ held (Function.update owner m (some t)) t = insert m (held owner t)) ∧
        ∀ u, u ≠ t → held (Function.update owner m (some t)) u = held owner u := by
    intro m hm
    refine ⟨⟨by simp [held, hm], ?_⟩, fun u hu => ?_⟩
    · ext m'
      by_cases hmm : m' = m
      · simp [held, hmm]
      · simp [held, hmm]
    · ext m'
      by_cases hmm : m' = m
      · simp [held, hmm, hm, hu.symm]
      · simp [held, hmm]
  cases o with
  | lock m =>
    simp only [exec] at h
    split_ifs at h with hm
    cases h
    exact htake m hm
  | tryLock m =>
    simp only [exec] at h
    split_ifs at h with hok hm
    · cases h
      exact htake m hm
    · cases h
      exact ⟨rfl, fun _ _ => rfl⟩
  | unlock m =>
    cases h
    refine ⟨?_, fun u hu => ?_⟩
    · ext m'
      by_cases hmm : m' = m
      · simp [held, hmm]
      · simp [held, hmm]
    · ext m'
      by_cases hmm : m' = m
      · have hm : owner m = some t := hreq
        simp [held, hmm, hm, hu.symm]
      · simp [held, hmm]
  | yield =>
    cases h
    exact ⟨rfl, fun _ _ => rfl⟩

/-- A step keeps the phase of the thread in line with what it holds. -/
lemma next_holds {t : T} {owner owner' : M → Option T} {p p' : Phase M} {a : Move M}
    (h : next t owner p a = some (owner', p')) (hp : p.Holds (held owner t)) :
    p'.Holds (held owner' t) ∧ ∀ u, u ≠ t → held owner' u = held owner u := by
  cases p with
  | idle =>
    cases a with
    | lock m0 m1 mn =>
      simp only [next] at h
      split_ifs at h with hms
      cases h
      refine ⟨?_, fun _ _ => rfl⟩
      rw [show held owner t = ∅ from hp]
      exact holds_round hms (mutexes_lock m0 m1 mn)
    | unlock ms => simp [next] at h
    | proceed ok => simp [next] at h
  | locking ms q =>
    obtain ⟨hms, hwp⟩ := hp
    cases a with
    | lock m0 m1 mn => simp [next] at h
    | unlock ms => simp [next] at h
    | proceed ok =>
      match q with
      | .ret none =>
        cases h
        exact ⟨⟨hms, hwp⟩, fun _ _ => rfl⟩
      | .ret (some c) =>
        cases h
        obtain ⟨hheld, hc⟩ : held owner t = ∅ ∧ _ := hwp
        refine ⟨?_, fun _ _ => rfl⟩
        rw [hheld]
        exact holds_round hms hc
      | .call o k =>
        simp only [next, Option.map_eq_some_iff] at h
        obtain ⟨⟨owner₁, r⟩, hexec, heq⟩ := h
        cases heq
        obtain ⟨hens, hothers⟩ := exec_ensures hexec hwp.1
        exact ⟨⟨hms, hwp.2 r _ hens⟩, hothers⟩
  | holding ms =>
    cases a with
    | lock m0 m1 mn => simp [next] at h
    | proceed ok => simp [next] at h
    | unlock ms' =>
      simp only [next] at h
      split_ifs at h with hperm
      cases h
      obtain ⟨hms, hheld⟩ := hp
      refine ⟨?_, fun _ _ => rfl⟩
      have hset : held owner t = {m | m ∈ ms'} := by
        rw [hheld]
        ext m
        exact hperm.symm.mem_iff
      rw [hset]
      exact wp_unlock_all (hperm.nodup_iff.mpr hms)
  | unlocking q =>
    cases a with
    | lock m0 m1 mn => simp [next] at h
    | unlock ms => simp [next] at h
    | proceed ok =>
      match q with
      | .ret () =>
        cases h
        exact ⟨hp, fun _ _ => rfl⟩
      | .call o k =>
        simp only [next, Option.map_eq_some_iff] at h
        obtain ⟨⟨owner₁, r⟩, hexec, heq⟩ := h
        cases heq
        obtain ⟨hens, hothers⟩ := exec_ensures hexec hp.1
        exact ⟨hp.2 r _ hens, hothers⟩

variable [DecidableEq T]

lemma Inv.step {a : T × Move M} (h : Inv s) (hs : machine.step s a = some s') : Inv s' := by
  obtain ⟨t, a⟩ := a
  simp only [machine, Option.map_eq_some_iff] at hs
  obtain ⟨⟨owner', p'⟩, hnext, rfl⟩ := hs
  obtain ⟨hself, hothers⟩ := next_holds hnext (h t)
  intro u
  by_cases hut : u = t
  · subst hut
    simpa using hself
  · simp only [Function.update_of_ne hut, hothers u hut]
    exact h u

/-- A thread that is blocked in `lock` of a mutex holds none, and while there is an unfinished
thread, there is one that is not blocked. -/
theorem no_deadlock (h : machine.Reachable start s) :
    (∀ t, Blocked s t → ∀ m, s.owner m ≠ some t) ∧
      ¬ ((∃ t, Unfinished s t) ∧ ∀ t, Unfinished s t → Blocked s t) := by
  have hinv : Inv s := h.invariant (I := Inv) (fun _ => by simp [start, Phase.Holds, held])
    fun _ _ _ hu _ hs => hu.step hs
  have hnone : ∀ t, Blocked s t → ∀ m, s.owner m ≠ some t := by
    intro t ht m hm
    have hmem : m ∈ held s.owner t := hm
    rw [hinv.held_eq_empty ht] at hmem
    exact hmem
  refine ⟨hnone, ?_⟩
  rintro ⟨⟨t, ht⟩, hall⟩
  obtain ⟨ms, m, k, -, hm⟩ := hall t ht
  -- whoever holds the mutex that `t` waits for is unfinished, and so it is blocked
  obtain ⟨u, hu⟩ := Option.ne_none_iff_exists'.mp hm
  have hunf : Unfinished s u := by
    intro hidle
    have hholds := hinv u
    rw [hidle] at hholds
    have hmem : m ∈ held s.owner u := hu
    rw [show held s.owner u = ∅ from hholds] at hmem
    exact hmem
  exact hnone u (hall u hunf) m hu

/-- Two threads lock two mutexes in opposite orders. The second one gives its mutex back and waits
for the other. -/
theorem no_deadlock_two :
    ∃ s : State (Fin 2) (Fin 2), machine.run start
        [(0, .lock 0 1 []), (1, .lock 1 0 []), (0, .proceed true), (1, .proceed true),
          (1, .proceed false), (1, .proceed true), (1, .proceed true)] = some s ∧
      Blocked s 1 ∧ (∀ t, Blocked s t → ∀ m, s.owner m ≠ some t) ∧
      ¬ ((∃ t, Unfinished s t) ∧ ∀ t, Unfinished s t → Blocked s t) := by
  refine ⟨_, rfl, ⟨_, 0, _, rfl, by decide⟩, ?_⟩
  exact no_deadlock (Machine.reachable_of_run .refl (show machine.run start
    [(0, .lock 0 1 []), (1, .lock 1 0 []), (0, .proceed true), (1, .proceed true),
      (1, .proceed false), (1, .proceed true), (1, .proceed true)] = some _ from rfl))

end Lock

end Sync
