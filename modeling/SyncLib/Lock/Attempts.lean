import SyncLib.Lock.Basic

/-!
# What the locking functions have called

The calls on the mutexes one by one, with their answers, and the exact calls of `try_lock`: it
tries the mutexes in order, and when one fails it unlocks the earlier ones again.
-/

namespace Sync

namespace Lock

open Core UniqueLock

variable {M : Type}

/-! ### Calls -/

/-- A call on a mutex that is over. -/
inductive Event (M : Type)
  | locked (m : M)
  | tried (m : M) (ok : Bool)
  | unlocked (m : M)
  | yielded
  deriving DecidableEq, Repr

/-- The operation with its answer. -/
def event : (o : MutexOp M) → o.Result → Event M
  | .lock m, _     => .locked m
  | .tryLock m, ok => .tried m ok
  | .unlock m, _   => .unlocked m
  | .yield, _      => .yielded

section

variable [DecidableEq M]

/-- The call acquires `m`. -/
def Event.takes (m : M) : Event M → Bool
  | .locked m'   => m' = m
  | .tried m' ok => ok && m' = m
  | _            => false

/-- The call releases `m`. -/
def Event.gives (m : M) : Event M → Bool
  | .unlocked m' => m' = m
  | _            => false

/-- How often the calls acquire `m`. -/
def acquired (m : M) (l : List (Event M)) : ℕ := l.countP (Event.takes m)

/-- How often the calls release `m`. -/
def released (m : M) (l : List (Event M)) : ℕ := l.countP (Event.gives m)

end

/-- The attempts that a list of calls, the newest first, has seen fail since it last blocked in
`lock`. -/
def Failed : List (Event M) → M → Prop
  | [], _                   => False
  | .locked _ :: _, _       => False
  | .tried m' false :: l, m => m = m' ∨ Failed l m
  | _ :: l, m               => Failed l m

/-- What a thread with these calls behind it may do: it may block only on a mutex whose attempt has
failed, if there is one. -/
def recording : Contract (MutexOp M) MutexOp.Result (List (Event M)) where
  requires
    | .lock m, l => ∀ m', Failed l m' → m' = m
    | _, _       => True
  ensures o l r l' := l' = event o r :: l

/-- The answers of mutexes whose `try_lock` succeeds as `ok` says. -/
def answer (ok : List (Event M) → M → Bool) :
    (o : MutexOp M) → List (Event M) → o.Result × List (Event M)
  | .lock m, l    => ((), .locked m :: l)
  | .tryLock m, l => (ok l m, .tried m (ok l m) :: l)
  | .unlock m, l  => ((), .unlocked m :: l)
  | .yield, l     => ((), .yielded :: l)

namespace Recording

variable {α : Type} {l : List (Event M)}

@[simp] lemma wp_lock {m : M} {Q : Unit → List (Event M) → Prop} :
    recording.wp (Mutex.lock m) Q l ↔ (∀ m', Failed l m' → m' = m) ∧ Q () (.locked m :: l) := by
  simp only [Mutex.lock, Contract.wp_op, recording, event]
  exact ⟨fun h => ⟨h.1, h.2 () _ rfl⟩, fun h => ⟨h.1, fun _ _ hl => hl ▸ h.2⟩⟩

@[simp] lemma wp_tryLock {m : M} {Q : Bool → List (Event M) → Prop} :
    recording.wp (Mutex.tryLock m) Q l ↔
      Q true (.tried m true :: l) ∧ Q false (.tried m false :: l) := by
  simp only [Mutex.tryLock, Contract.wp_op, recording, event]
  constructor
  · intro h
    exact ⟨h.2 true _ rfl, h.2 false _ rfl⟩
  · rintro ⟨ht, hf⟩
    refine ⟨trivial, fun ok l' hl => ?_⟩
    cases ok with
    | true => exact hl ▸ ht
    | false => exact hl ▸ hf

@[simp] lemma wp_unlock {m : M} {Q : Unit → List (Event M) → Prop} :
    recording.wp (Mutex.unlock m) Q l ↔ Q () (.unlocked m :: l) := by
  simp only [Mutex.unlock, Contract.wp_op, recording, event]
  exact ⟨fun h => h.2 () _ rfl, fun h => ⟨trivial, fun _ _ hl => hl ▸ h⟩⟩

@[simp] lemma wp_yield {Q : Unit → List (Event M) → Prop} :
    recording.wp (Mutex.yield) Q l ↔ Q () (.yielded :: l) := by
  simp only [Mutex.yield, Contract.wp_op, recording, event]
  exact ⟨fun h => h.2 () _ rfl, fun h => ⟨trivial, fun _ _ hl => hl ▸ h⟩⟩

/-- At the end of a scope the destructor unlocks what the object still owns. -/
lemma wp_scope {o : UniqueLock M} {body : UniqueLock M → MutexProgram M (UniqueLock M × α)}
    {Q : α → List (Event M) → Prop} :
    recording.wp (o.scope body) Q l ↔
      recording.wp (body o) (fun r l' => match r.1.destroy with
        | some m => Q r.2 (.unlocked m :: l')
        | none => Q r.2 l') l := by
  have hpost : ∀ (r : UniqueLock M × α) l', recording.wp (do
      match r.1.destroy with
      | some m => Mutex.unlock m
      | none => pure ()
      return r.2) Q l' ↔ match r.1.destroy with
        | some m => Q r.2 (.unlocked m :: l')
        | none => Q r.2 l' := by
    intro r l'
    cases r.1.destroy <;> simp
  simp only [scope, Contract.wp_bind]
  constructor <;> intro h <;> refine Contract.wp_mono h fun r l' => ?_
  · exact (hpost r l').mp
  · exact (hpost r l').mpr

lemma ensures_answer (ok : List (Event M) → M → Bool) (o : MutexOp M) (l : List (Event M)) :
    recording.ensures o l (answer ok o l).1 (answer ok o l).2 := by
  cases o <;> rfl

end Recording

/-! ### The calls of try_lock -/

/-- The calls of an attempt on all mutexes that succeeds, the newest first. -/
def attempts (ms : List M) : List (Event M) := (ms.map (Event.tried · true)).reverse

/-- The calls of an attempt that fails at `m`, after the mutexes `pre`: these are unlocked, the last
one first. -/
def rollback (pre : List M) (m : M) : List (Event M) :=
  pre.map Event.unlocked ++ .tried m false :: attempts pre

/-- What an attempt on the mutexes `ms` has called when it returns `i`. -/
def Attempted (ms : List M) (l : List (Event M)) (i : ℤ) (l' : List (Event M)) : Prop :=
  i = -1 ∧ l' = attempts ms ++ l ∨
    ∃ pre m post, ms = pre ++ m :: post ∧ i = pre.length ∧ l' = rollback pre m ++ l

/-- The calls before an attempt on the first of the mutexes that succeeds. -/
lemma Attempted.cons {m0 : M} {ms : List M} {l l' : List (Event M)} {i : ℤ}
    (h : Attempted ms (.tried m0 true :: l) i l') :
    i = -1 ∧ l' = attempts (m0 :: ms) ++ l ∨
      i ≠ -1 ∧ Attempted (m0 :: ms) l (i + 1) (.unlocked m0 :: l') := by
  rcases h with ⟨rfl, rfl⟩ | ⟨pre, m, post, rfl, rfl, rfl⟩
  · exact .inl ⟨rfl, by simp [attempts]⟩
  · refine .inr ⟨by omega, .inr ⟨m0 :: pre, m, post, rfl, by simp, ?_⟩⟩
    simp [rollback, attempts]

theorem wp_tryLock_attempted (m0 m1 : M) (mn : List M) (l : List (Event M)) :
    recording.wp (tryLock m0 m1 mn) (Attempted (m0 :: m1 :: mn) l) l := by
  induction mn generalizing m0 m1 l with
  | nil =>
    simp only [tryLock, tryLock₂, tryToLock, Contract.wp_bind, Recording.wp_tryLock,
      Contract.wp_pure, Ctor.make, Recording.wp_scope, if_true]
    refine ⟨⟨?_, ?_⟩, ?_⟩
    · exact .inl ⟨rfl, rfl⟩
    · exact .inr ⟨[m0], m1, [], rfl, rfl, rfl⟩
    · exact .inr ⟨[], m0, [m1], rfl, rfl, rfl⟩
  | cons m2 mn ih =>
    simp only [tryLock, tryToLock, Contract.wp_bind, Recording.wp_tryLock, Contract.wp_pure,
      Ctor.make, Recording.wp_scope, if_true]
    constructor
    · refine Contract.wp_mono (ih m1 m2 (.tried m0 true :: l)) fun i l' hi => ?_
      rcases hi.cons with ⟨rfl, hl⟩ | ⟨hne, hi⟩
      · exact .inl ⟨rfl, hl⟩
      · rw [if_neg hne]
        exact hi
    · exact .inr ⟨[], m0, m1 :: m2 :: mn, rfl, rfl, rfl⟩

/-! ### What they leave -/

lemma mem_attempts {ms : List M} {e : Event M} : e ∈ attempts ms ↔ ∃ m ∈ ms, e = .tried m true := by
  simp [attempts, eq_comm]

section

variable [DecidableEq M] (m : M)

@[simp] lemma acquired_append (l l' : List (Event M)) :
    acquired m (l ++ l') = acquired m l + acquired m l' := List.countP_append

@[simp] lemma released_append (l l' : List (Event M)) :
    released m (l ++ l') = released m l + released m l' := List.countP_append

@[simp] lemma acquired_locked (m' : M) : acquired m [.locked m'] = [m'].count m := by
  simp [acquired, Event.takes, List.count, List.countP_cons]

@[simp] lemma released_locked (m' : M) : released m [.locked m'] = 0 := rfl

@[simp] lemma acquired_unlocked (m' : M) : acquired m [.unlocked m'] = 0 := rfl

@[simp] lemma released_unlocked (m' : M) : released m [.unlocked m'] = [m'].count m := by
  simp [released, Event.gives, List.count, List.countP_cons]

@[simp] lemma acquired_attempts (ms : List M) : acquired m (attempts ms) = ms.count m := by
  simp [acquired, attempts, Event.takes, List.countP_map, Function.comp_def, List.count,
    BEq.beq]

@[simp] lemma released_attempts (ms : List M) : released m (attempts ms) = 0 := by
  simp [released, attempts, Event.gives, List.countP_map, Function.comp_def]

@[simp] lemma acquired_map_unlocked (ms : List M) : acquired m (ms.map Event.unlocked) = 0 := by
  simp [acquired, Event.takes, List.countP_map, Function.comp_def]

@[simp] lemma released_map_unlocked (ms : List M) :
    released m (ms.map Event.unlocked) = ms.count m := by
  simp [released, Event.gives, List.countP_map, Function.comp_def, List.count, BEq.beq]

/-- A rollback leaves all mutexes as they were. -/
lemma acquired_rollback (pre : List M) (m' : M) :
    acquired m (rollback pre m') = released m (rollback pre m') := by
  have hcons : rollback pre m'
      = pre.map Event.unlocked ++ ([.tried m' false] ++ attempts pre) := rfl
  have hfailed : acquired m [.tried m' false] = 0 ∧ released m [.tried m' false] = 0 := ⟨rfl, rfl⟩
  rw [hcons, acquired_append, acquired_append, released_append, released_append, hfailed.1,
    hfailed.2]
  simp

end

/-- An attempt on `ms` that returns `i` has called `d`: it holds all mutexes if every `try_lock`
succeeded, and else it has stopped at the first that failed, `i` is its index, and the earlier
mutexes are unlocked again. -/
structure AttemptLaw [DecidableEq M] (ms : List M) (i : ℤ) (d : List (Event M)) : Prop where
  all : i = -1 ↔ ∀ m, .tried m false ∉ d
  holds : i = -1 → d = attempts ms ∧ ∀ m, acquired m d = released m d + ms.count m
  rollback : i ≠ -1 → ∃ pre m post, ms = pre ++ m :: post ∧ i = pre.length ∧
    d = rollback pre m ∧ ∀ m, acquired m d = released m d

lemma Attempted.law [DecidableEq M] {ms : List M} {l l' : List (Event M)} {i : ℤ}
    (h : Attempted ms l i l') : ∃ d, l' = d ++ l ∧ AttemptLaw ms i d := by
  rcases h with ⟨rfl, rfl⟩ | ⟨pre, m, post, rfl, rfl, rfl⟩
  · refine ⟨attempts ms, rfl, ?_, ?_, fun hne => absurd rfl hne⟩
    · exact iff_of_true rfl fun m hm => by simpa using mem_attempts.mp hm
    · exact fun _ => ⟨rfl, by simp⟩
  · have hne : (pre.length : ℤ) ≠ -1 := by omega
    refine ⟨rollback pre m, rfl, ?_, fun heq => absurd heq hne, fun _ => ?_⟩
    · exact iff_of_false hne fun hnone => hnone m (by simp [rollback])
    · exact ⟨pre, m, post, rfl, rfl, rfl, fun m' => acquired_rollback m' pre m⟩

/-- `try_lock` of any mutexes, whatever their attempts return. -/
theorem tryLock_law [DecidableEq M] (ok : List (Event M) → M → Bool) (m0 m1 : M) (mn : List M)
    (l : List (Event M)) :
    ∃ d, ((tryLock m0 m1 mn).run (answer ok) l).2 = d ++ l ∧
      AttemptLaw (m0 :: m1 :: mn) ((tryLock m0 m1 mn).run (answer ok) l).1 d :=
  (Contract.run_of_wp (Recording.ensures_answer ok) (wp_tryLock_attempted m0 m1 mn l)).law

/-- The third of four mutexes is taken. -/
example : (tryLock 0 1 [2, 3]).run (answer fun _ m => m != (2 : Fin 4)) [] =
    (2, [.unlocked 0, .unlocked 1, .tried 2 false, .tried 1 true, .tried 0 true]) := by
  decide

end Lock

end Sync
