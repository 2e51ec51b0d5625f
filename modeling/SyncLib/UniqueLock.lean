import SyncLib.Core.Ledger
import SyncLib.Core.Machine

/-!
# `unique_lock`

The members of `unique_lock`, generic in the type of the mutex pointers: a pointer is only copied
and compared with `nullptr`. So a pointer can carry the number of the acquisition it was made
for, and the members cannot tell.

`operator=` has no `return`. What its two assignments do is followed beyond its end, and that the
behaviour of the program is undefined from there on is kept in the state.
-/

namespace Sync

open Core

structure UniqueLock (P : Type*) where
  mtx : Option P := none
  owns : Bool := false
  deriving DecidableEq, Repr

namespace UniqueLock

variable {P : Type*}

/-! ### Members -/

/-- The constructors other than the move constructor. The last argument is what the attempt to
take the mutex returns. -/
inductive Ctor (P : Type*)
  | default
  | locking (m : P)
  | defer (m : P)
  | tryToLock (m : P) (ok : Bool)
  | adopt (m : P)
  | timeoutDuration (m : P) (ok : Bool)
  | timeoutTime (m : P) (ok : Bool)
  deriving DecidableEq, Repr

def Ctor.make : Ctor P → UniqueLock P
  | .default              => {}
  | .locking m            => { mtx := some m, owns := true }
  | .defer m              => { mtx := some m }
  | .tryToLock m ok       => { mtx := some m, owns := ok }
  | .adopt m              => { mtx := some m, owns := true }
  | .timeoutDuration m ok => { mtx := some m, owns := ok }
  | .timeoutTime m ok     => { mtx := some m, owns := ok }

/-- `unique_lock(unique_lock&&) = default`: the new object and `other` after it. -/
def moveConstruct (other : UniqueLock P) : UniqueLock P × UniqueLock P := (other, other)

/-- `operator=(unique_lock&&)` between two objects: the target and `other` after its assignments,
and whether it gets to a `return`. -/
def moveAssign (_self other : UniqueLock P) : (UniqueLock P × UniqueLock P) × Bool :=
  (({ mtx := other.mtx, owns := other.owns }, { mtx := none, owns := false }), false)

/-- `operator=(unique_lock&&)` with the object itself as `other`: each `std::exchange` returns
the old value before it is assigned. -/
def selfMoveAssign (self : UniqueLock P) : UniqueLock P × Bool :=
  ({ mtx := self.mtx, owns := self.owns }, false)

def swap (self other : UniqueLock P) : UniqueLock P × UniqueLock P := (other, self)

/-- The object after `release`, and the pointer it returns. -/
def release (self : UniqueLock P) : UniqueLock P × Option P := ({}, self.mtx)

/-- The mutex that the destructor unlocks. -/
def destroy (self : UniqueLock P) : Option P := if self.owns then self.mtx else none

/-! ### Collections of objects -/

/-- A pointer to a mutex, with the number of an acquisition that the program does not see. -/
structure Ptr (M : Type*) where
  mutex : M
  acq : Option ℕ
  deriving DecidableEq, Repr

/-- An operation on objects named by `O`. -/
inductive Op (O M : Type*)
  | construct (o : O) (c : Ctor M)
  | moveConstruct (o other : O)
  | moveAssign (o other : O)
  | swap (o other : O)
  | release (o : O)
  | destroy (o : O)
  deriving DecidableEq, Repr

/-- The live objects, the mutex of each acquisition so far, the acquisitions that `release` gave
up, and the unlocks, the newest first, and whether a call has reached the end of a function with a
result without a `return`. -/
structure State (O M : Type*) where
  objs : O → Option (UniqueLock (Ptr M))
  acquired : List M
  released : List ℕ
  unlocked : List (Ptr M)
  undefined : Bool

variable {O M : Type*}

/-- The constructor acquires or adopts the mutex. -/
def Ctor.acquires (c : Ctor M) : Bool := c.make.owns

/-- The constructor on a pointer that carries `acq`. -/
def Ctor.tag (acq : Option ℕ) : Ctor M → Ctor (Ptr M)
  | .default              => .default
  | .locking m            => .locking ⟨m, acq⟩
  | .defer m              => .defer ⟨m, acq⟩
  | .tryToLock m ok       => .tryToLock ⟨m, acq⟩ ok
  | .adopt m              => .adopt ⟨m, acq⟩
  | .timeoutDuration m ok => .timeoutDuration ⟨m, acq⟩ ok
  | .timeoutTime m ok     => .timeoutTime ⟨m, acq⟩ ok

/-- The acquisition that an object owns. -/
def acquisition (l : UniqueLock (Ptr M)) : Option ℕ :=
  if l.owns then l.mtx.bind (·.acq) else none

section

variable [DecidableEq O]

def step (s : State O M) : Op O M → Option (State O M)
  | .construct o c =>
    match s.objs o, c.make.mtx with
    | none, some m =>
      if c.acquires then
        some { s with
          objs := Function.update s.objs o (some (c.tag (some s.acquired.length)).make)
          acquired := s.acquired ++ [m] }
      else some { s with objs := Function.update s.objs o (some (c.tag none).make) }
    | none, none => some { s with objs := Function.update s.objs o (some (c.tag none).make) }
    | some _, _ => none
  | .moveConstruct o other =>
    match s.objs o, s.objs other with
    | none, some l =>
      let r := moveConstruct l
      some { s with objs := Function.update (Function.update s.objs other (some r.2)) o (some r.1) }
    | _, _ => none
  | .moveAssign o other =>
    match s.objs o, s.objs other with
    | some l, some l' =>
      if o = other then
        let r := l.selfMoveAssign
        some { s with
          objs := Function.update s.objs o (some r.1)
          undefined := s.undefined || !r.2 }
      else
        let r := moveAssign l l'
        some { s with
          objs := Function.update (Function.update s.objs o (some r.1.1)) other (some r.1.2)
          undefined := s.undefined || !r.2 }
    | _, _ => none
  | .swap o other =>
    match s.objs o, s.objs other with
    | some l, some l' =>
      let r := swap l l'
      some { s with
        objs := Function.update (Function.update s.objs o (some r.1)) other (some r.2) }
    | _, _ => none
  | .release o =>
    match s.objs o with
    | some l =>
      some { s with
        objs := Function.update s.objs o (some l.release.1)
        released := l.acquisition.toList ++ s.released }
    | none => none
  | .destroy o =>
    match s.objs o with
    | some l =>
      some { s with
        objs := Function.update s.objs o none
        unlocked := l.destroy.toList ++ s.unlocked }
    | none => none

def machine : Machine (State O M) (Op O M) := ⟨step⟩

end

def start : State O M := ⟨fun _ => none, [], [], [], false⟩

/-! ### Custody of the acquisitions -/

/-- The acquisitions as tokens: an object holds the one it owns, `release` gives it up and an
unlock spends it. -/
def ledger (s : State O M) : Ledger O where
  issued := s.acquired.length
  holder := (fun x => x.bind acquisition) ∘ s.objs
  given := s.released
  spent := s.unlocked.filterMap (·.acq)

/-- Every acquisition is owned by one object, or was given up, or was unlocked once; whoever
owns one points to its mutex, and every unlock was made for one. -/
structure Accounts (s : State O M) : Prop where
  balanced : (ledger s).Balanced
  owned : ∀ o l, s.objs o = some l → l.owns = true →
    ∃ m i, l.mtx = some ⟨m, some i⟩ ∧ s.acquired[i]? = some m
  unlocks : ∀ p ∈ s.unlocked, ∃ i, p.acq = some i ∧ s.acquired[i]? = some p.mutex

/-- The acquisitions are accounted for, and what the program does is defined. -/
structure Law (s : State O M) : Prop extends Accounts s where
  defined : s.undefined = false

/-- The object, if there is one, owns no mutex. -/
def Idle (x : Option (UniqueLock (Ptr M))) : Prop := ∀ l, x = some l → l.owns = false

/-- No move construction from an object that owns a mutex, and no move assignment from another
object to one that does. -/
def KeepsAccounts (s : State O M) : Op O M → Prop
  | .moveConstruct _ other => Idle (s.objs other)
  | .moveAssign o other    => o ≠ other → Idle (s.objs o)
  | _                      => True

/-- No move construction from an object that owns a mutex, and no move assignment. -/
def Allowed (s : State O M) : Op O M → Prop
  | .moveConstruct _ other => Idle (s.objs other)
  | .moveAssign _ _        => False
  | _                      => True

lemma acquisition_of_not_owns {l : UniqueLock (Ptr M)} (h : l.owns = false) :
    l.acquisition = none := by
  simp [acquisition, h]

lemma Ctor.make_tag_of_acquires {c : Ctor M} {m : M} (h : c.acquires = true)
    (hm : c.make.mtx = some m) (acq : Option ℕ) : (c.tag acq).make = ⟨some ⟨m, acq⟩, true⟩ := by
  cases c <;> simp_all [acquires, make, tag]

lemma Ctor.owns_make_tag {c : Ctor M} (acq : Option ℕ) : (c.tag acq).make.owns = c.acquires := by
  cases c <;> rfl

variable {s s' : State O M}

lemma accounts_start : Accounts (start : State O M) := by
  constructor
  · constructor <;> simp [ledger, start]
  · simp [start]
  · simp [start]

lemma law_start : Law (start : State O M) := ⟨accounts_start, rfl⟩

lemma accounts_undefined {b : Bool} : Accounts { s with undefined := b } ↔ Accounts s :=
  ⟨fun h => ⟨h.balanced, h.owned, h.unlocks⟩, fun h => ⟨h.balanced, h.owned, h.unlocks⟩⟩

lemma idle_some {l : UniqueLock (Ptr M)} : Idle (some l) ↔ l.owns = false := by
  simp [Idle]

lemma holder_of_objs {o : O} {x : Option (UniqueLock (Ptr M))} (h : s.objs o = x) :
    (ledger s).holder o = x.bind acquisition := by
  simp [ledger, h]

namespace Accounts

variable (h : Accounts s)

include h

lemma acquisition_eq {o : O} {l : UniqueLock (Ptr M)} (ho : s.objs o = some l)
    (hl : l.owns = true) : ∃ m i, l = ⟨some ⟨m, some i⟩, true⟩ ∧ s.acquired[i]? = some m ∧
      (ledger s).holder o = some i := by
  obtain ⟨m, i, hm, hi⟩ := h.owned o l ho hl
  have heq : l = ⟨some ⟨m, some i⟩, true⟩ := by
    cases l
    simp_all
  refine ⟨m, i, heq, hi, ?_⟩
  rw [holder_of_objs ho, heq]
  rfl

/-- The objects hand over what they hold. -/
lemma permute {objs : O → Option (UniqueLock (Ptr M))} (e : Equiv.Perm O)
    (hheld : (fun x => x.bind acquisition) ∘ objs = (ledger s).holder ∘ e)
    (hobjs : ∀ o l, objs o = some l → l.owns = true → ∃ o', s.objs o' = some l) :
    Accounts { s with objs } := by
  constructor
  · have hb := h.balanced.permute e
    rw [← hheld] at hb
    exact hb
  · intro o l ho hl
    obtain ⟨o', ho'⟩ := hobjs o l ho hl
    exact h.owned o' l ho' hl
  · exact h.unlocks

end Accounts

lemma not_accounts_of_lost (h : Accounts s) {o : O} {l : UniqueLock (Ptr M)}
    (ho : s.objs o = some l) (hl : l.owns = true) {objs : O → Option (UniqueLock (Ptr M))}
    (hlost : ∀ o' l', objs o' = some l' → l'.acquisition ≠ none →
      ∃ u ≠ o, s.objs u = some l') : ¬ Accounts { s with objs } := by
  obtain ⟨m, i, rfl, -, hold⟩ := h.acquisition_eq ho hl
  have hbalanced : ¬ (ledger { s with objs }).Balanced := by
    refine h.balanced.not_balanced_of_lost hold rfl rfl rfl fun o' ho' => ?_
    simp only [ledger, Function.comp_apply, Option.bind_eq_some_iff] at ho'
    obtain ⟨l', hl', hacq⟩ := ho'
    obtain ⟨u, hu, hul⟩ := hlost o' l' hl' (by simp [hacq])
    refine hu (h.balanced.eq_of_holder (i := i) ?_ hold)
    rw [holder_of_objs hul]
    exact hacq
  exact fun h' => hbalanced h'.balanced

variable [DecidableEq O]

lemma comp_objs_update {objs : O → Option (UniqueLock (Ptr M))} {o : O}
    {x : Option (UniqueLock (Ptr M))} :
    (fun x => x.bind acquisition) ∘ Function.update objs o x =
      Function.update ((fun x => x.bind acquisition) ∘ objs) o (x.bind acquisition) :=
  Function.comp_update _ _ _ _

lemma update_objs_cases {objs : O → Option (UniqueLock (Ptr M))} {o o' : O}
    {x : Option (UniqueLock (Ptr M))} {l : UniqueLock (Ptr M)}
    (h : Function.update objs o x o' = some l) : x = some l ∨ objs o' = some l := by
  by_cases hoo : o' = o
  · subst hoo
    rw [Function.update_self] at h
    exact .inl h
  · rw [Function.update_of_ne hoo] at h
    exact .inr h

namespace Accounts

variable (h : Accounts s)

include h

/-- An object that owned nothing is replaced by one that owns nothing. -/
lemma put {o : O} {l : UniqueLock (Ptr M)} (ho : (ledger s).holder o = none)
    (hl : l.owns = false) : Accounts { s with objs := Function.update s.objs o (some l) } := by
  refine h.permute (Equiv.refl O) ?_ fun o' l' ho' hl' => ?_
  · rw [comp_objs_update]
    refine Function.update_eq_self_iff.mpr ?_
    rw [Option.bind_some, acquisition_of_not_owns hl]
    exact ho.symm
  · rcases update_objs_cases ho' with heq | ho'
    · cases heq
      simp [hl] at hl'
    · exact ⟨o', ho'⟩

lemma construct {o : O} {m : M} (ho : s.objs o = none) :
    Accounts { s with
      objs := Function.update s.objs o (some ⟨some ⟨m, some s.acquired.length⟩, true⟩)
      acquired := s.acquired ++ [m] } := by
  have hkeep : ∀ {i : ℕ} {m' : M}, s.acquired[i]? = some m' →
      (s.acquired ++ [m])[i]? = some m' := by
    intro i m' hi
    have hlt := (List.getElem?_eq_some_iff.mp hi).1
    rwa [List.getElem?_append_left hlt]
  constructor
  · have hb := h.balanced.issue (o := o) (by rw [holder_of_objs ho]; rfl)
    simp only [ledger, comp_objs_update, List.length_append, List.length_singleton] at hb ⊢
    exact hb
  · intro o' l ho' hl
    rcases update_objs_cases ho' with heq | ho'
    · cases heq
      exact ⟨m, _, rfl, by simp⟩
    · obtain ⟨m', i, hm, hi⟩ := h.owned o' l ho' hl
      exact ⟨m', i, hm, hkeep hi⟩
  · intro p hp
    obtain ⟨i, hi, hm⟩ := h.unlocks p hp
    exact ⟨i, hi, hkeep hm⟩

lemma release {o : O} {l : UniqueLock (Ptr M)} (ho : s.objs o = some l) :
    Accounts { s with
      objs := Function.update s.objs o (some l.release.1)
      released := l.acquisition.toList ++ s.released } := by
  cases hl : l.owns with
  | false =>
    have hput := h.put (o := o) (l := l.release.1)
      (by rw [holder_of_objs ho]; simp [acquisition_of_not_owns hl]) rfl
    simpa [acquisition_of_not_owns hl] using hput
  | true =>
    obtain ⟨m, i, rfl, hi, hold⟩ := h.acquisition_eq ho hl
    constructor
    · have hb := h.balanced.give hold
      simp only [ledger, comp_objs_update] at hb ⊢
      exact hb
    · intro o' l' ho' hl'
      rcases update_objs_cases ho' with heq | ho'
      · cases heq
        simp [UniqueLock.release] at hl'
      · exact h.owned o' l' ho' hl'
    · exact h.unlocks

lemma destroy {o : O} {l : UniqueLock (Ptr M)} (ho : s.objs o = some l) :
    Accounts { s with
      objs := Function.update s.objs o none
      unlocked := l.destroy.toList ++ s.unlocked } := by
  cases hl : l.owns with
  | false =>
    have hnone : (ledger s).holder o = none := by
      rw [holder_of_objs ho]
      simp [acquisition_of_not_owns hl]
    have hperm : Accounts { s with objs := Function.update s.objs o none } :=
      h.permute (Equiv.refl O)
        (by rw [comp_objs_update]; exact Function.update_eq_self_iff.mpr hnone.symm)
        fun o' l' ho' _ => ⟨o', (update_objs_cases ho').resolve_left (by simp)⟩
    simpa [UniqueLock.destroy, hl] using hperm
  | true =>
    obtain ⟨m, i, rfl, hi, hold⟩ := h.acquisition_eq ho hl
    constructor
    · have hb := h.balanced.spend hold
      simp only [ledger, comp_objs_update, UniqueLock.destroy] at hb ⊢
      exact hb
    · intro o' l' ho' hl'
      exact h.owned o' l' ((update_objs_cases ho').resolve_left (by simp)) hl'
    · intro p hp
      simp only [UniqueLock.destroy, if_true, Option.toList_some, List.singleton_append,
        List.mem_cons] at hp
      rcases hp with rfl | hp
      · exact ⟨i, rfl, hi⟩
      · exact h.unlocks p hp

/-- Two objects exchange their values. -/
lemma swap {o o' : O} {l l' : UniqueLock (Ptr M)} (ho : s.objs o = some l)
    (ho' : s.objs o' = some l') :
    Accounts { s with
      objs := Function.update (Function.update s.objs o (some l')) o' (some l) } := by
  refine h.permute (Equiv.swap o' o) ?_ fun u v hu _ => ?_
  · rw [comp_objs_update, comp_objs_update, Equiv.comp_swap_eq_update, holder_of_objs ho,
      holder_of_objs ho']
    rfl
  · rcases update_objs_cases hu with heq | hu
    · exact ⟨o, by rw [ho, heq]⟩
    · rcases update_objs_cases hu with heq | hu
      · exact ⟨o', by rw [ho', heq]⟩
      · exact ⟨u, hu⟩

end Accounts

/-- The new object of a move construction owns what its source owns. -/
lemma Accounts.moveConstruct_iff (h : Accounts s) {o other : O} {l : UniqueLock (Ptr M)}
    (ho : s.objs o = none) (hother : s.objs other = some l) :
    Accounts { s with objs := Function.update s.objs o (some l) } ↔ l.owns = false := by
  have hne : o ≠ other := by
    rintro rfl
    simp [ho] at hother
  constructor
  · intro h'
    by_contra hl
    obtain ⟨m, i, rfl, -, hold⟩ := h.acquisition_eq hother (by simpa using hl)
    -- both objects hold acquisition `i` now
    apply hne
    apply h'.balanced.eq_of_holder (i := i)
    · simp [ledger, acquisition]
    · simp [ledger, acquisition, hne.symm, hother]
  · intro hl
    exact h.put (by rw [holder_of_objs ho]; rfl) hl

/-- The target of a move assignment forgets what it owned. -/
lemma Accounts.moveAssign_iff (h : Accounts s) {o other : O} {l l' : UniqueLock (Ptr M)}
    (hne : o ≠ other) (ho : s.objs o = some l) (hother : s.objs other = some l') :
    Accounts { s with
      objs := Function.update (Function.update s.objs o (some (moveAssign l l').1.1)) other
        (some (moveAssign l l').1.2) } ↔ l.owns = false := by
  constructor
  · intro h'
    by_contra hl
    refine not_accounts_of_lost h ho (by simpa using hl) (fun u v hu hv => ?_) h'
    rcases update_objs_cases hu with heq | hu
    · cases heq
      simp [moveAssign, acquisition] at hv
    · by_cases huo : u = o
      · subst huo
        rw [Function.update_self] at hu
        cases hu
        exact ⟨other, Ne.symm hne, hother⟩
      · rw [Function.update_of_ne huo] at hu
        exact ⟨u, huo, hu⟩
  · intro hl
    have hput := (h.swap ho hother).put (o := other) (l := {}) ?_ rfl
    · simpa only [Function.update_idem, moveAssign] using hput
    · simp [ledger, acquisition_of_not_owns hl]

/-- A step keeps the accounts exactly when it is not one of the two moves that lose or double an
acquisition. -/
theorem accounts_step (h : Accounts s) {a : Op O M} (hs : step s a = some s') :
    Accounts s' ↔ KeepsAccounts s a := by
  cases a with
  | construct o c =>
    simp only [KeepsAccounts, iff_true]
    cases ho : s.objs o <;> cases hm : c.make.mtx <;>
      simp only [step, ho, hm, Option.some.injEq, reduceCtorEq] at hs
    · subst hs
      refine h.put (by rw [holder_of_objs ho]; rfl) ?_
      cases c <;> simp_all [Ctor.make, Ctor.tag]
    · split_ifs at hs with hc
      · cases hs
        rw [Ctor.make_tag_of_acquires hc hm]
        exact h.construct ho
      · cases hs
        refine h.put (by rw [holder_of_objs ho]; rfl) ?_
        rw [Ctor.owns_make_tag]
        simpa using hc
  | moveConstruct o other =>
    cases ho : s.objs o <;> cases hother : s.objs other <;>
      simp only [step, ho, hother, Option.some.injEq, reduceCtorEq] at hs
    rename_i l
    subst hs
    have hcopy : Function.update s.objs other (some l) = s.objs :=
      Function.update_eq_self_iff.mpr hother.symm
    simp only [moveConstruct, KeepsAccounts, hother, hcopy, idle_some]
    exact h.moveConstruct_iff ho hother
  | moveAssign o other =>
    cases ho : s.objs o <;> cases hother : s.objs other <;>
      simp only [step, ho, hother, reduceCtorEq] at hs
    rename_i l l'
    split_ifs at hs with hne
    · cases hs
      have hself : Function.update s.objs o (some l.selfMoveAssign.1) = s.objs :=
        Function.update_eq_self_iff.mpr ho.symm
      rw [hself]
      exact iff_of_true (accounts_undefined.mpr h) fun hne' => absurd hne hne'
    · cases hs
      simp only [KeepsAccounts, ne_eq, hne, not_false_eq_true, forall_const, ho, idle_some]
      exact accounts_undefined.trans (h.moveAssign_iff hne ho hother)
  | swap o other =>
    cases ho : s.objs o <;> cases hother : s.objs other <;>
      simp only [step, ho, hother, Option.some.injEq, reduceCtorEq] at hs
    subst hs
    simp only [KeepsAccounts, iff_true]
    exact h.swap ho hother
  | release o =>
    cases ho : s.objs o <;> simp only [step, ho, Option.some.injEq, reduceCtorEq] at hs
    subst hs
    simp only [KeepsAccounts, iff_true]
    exact h.release ho
  | destroy o =>
    cases ho : s.objs o <;> simp only [step, ho, Option.some.injEq, reduceCtorEq] at hs
    subst hs
    simp only [KeepsAccounts, iff_true]
    exact h.destroy ho

/-- Only a move assignment runs off the end of its function. -/
lemma undefined_step {a : Op O M} (hs : step s a = some s') :
    s'.undefined = true ↔ s.undefined = true ∨ ∃ o other, a = .moveAssign o other := by
  cases a with
  | construct o c =>
    cases ho : s.objs o <;> cases hm : c.make.mtx <;>
      simp only [step, ho, hm, Option.some.injEq, reduceCtorEq] at hs
    · subst hs
      simp
    · split_ifs at hs
      all_goals
        cases hs
        simp
  | moveConstruct o other | swap o other =>
    cases ho : s.objs o <;> cases hother : s.objs other <;>
      simp only [step, ho, hother, Option.some.injEq, reduceCtorEq] at hs
    subst hs
    simp
  | moveAssign o other =>
    cases ho : s.objs o <;> cases hother : s.objs other <;>
      simp only [step, ho, hother, reduceCtorEq] at hs
    split_ifs at hs
    all_goals
      cases hs
      simp [selfMoveAssign, moveAssign]
  | release o | destroy o =>
    cases ho : s.objs o <;> simp only [step, ho, Option.some.injEq, reduceCtorEq] at hs
    subst hs
    simp

/-- A step keeps the law exactly when it is neither a move construction that doubles an acquisition
nor a move assignment. -/
theorem law_step (h : Law s) {a : Op O M} (hs : step s a = some s') : Law s' ↔ Allowed s a := by
  have haccounts := accounts_step h.toAccounts hs
  have hundefined := undefined_step hs
  rw [h.defined] at hundefined
  cases a with
  | moveAssign o other =>
    refine iff_of_false (fun h' => ?_) id
    have htrue := hundefined.mpr (.inr ⟨o, other, rfl⟩)
    rw [h'.defined] at htrue
    cases htrue
  | construct | moveConstruct | swap | release | destroy =>
    have hdefined : s'.undefined = false := by
      simpa using hundefined
    exact ⟨fun h' => haccounts.mp h'.toAccounts, fun ha => ⟨haccounts.mpr ha, hdefined⟩⟩

/-- The accounts alone, as if `operator=` had its `return`: they are kept exactly when no object is
move constructed from one that owns a mutex, and none that owns a mutex is move assigned. -/
theorem accounts_iff_keepsAccounts {ops : List (Op O M)} (hrun : machine.run start ops = some s) :
    (∀ pre u, pre <+: ops → machine.run start pre = some u → Accounts u) ↔
      machine.Admits KeepsAccounts start ops :=
  Machine.forall_prefix_iff_admits hrun accounts_start fun _ _ _ hu hs => accounts_step hu hs

/-- After every operation the program is defined and every acquisition is accounted for, exactly
when no object is move constructed from one that owns a mutex, and none is move assigned. -/
theorem law_iff_allowed {ops : List (Op O M)} (hrun : machine.run start ops = some s) :
    (∀ pre u, pre <+: ops → machine.run start pre = some u → Law u) ↔
      machine.Admits Allowed start ops :=
  Machine.forall_prefix_iff_admits hrun law_start fun _ _ _ hu hs => law_step hu hs

/-- One object locks a mutex, a second one is move constructed from it, and both are destroyed:
the mutex is unlocked twice. -/
theorem unlocked_twice :
    ∃ s : State (Fin 2) Unit, machine.run start
        [.construct 0 (.locking ()), .moveConstruct 1 0, .destroy 1, .destroy 0] = some s ∧
      s.acquired.length = 1 ∧ s.unlocked = [⟨(), some 0⟩, ⟨(), some 0⟩] ∧ ¬ Law s := by
  refine ⟨_, rfl, rfl, rfl, fun h => ?_⟩
  rcases h.balanced.accounted 0 (by decide) with ⟨-, -, hcount⟩ | ⟨-, ⟨hmem, -⟩ | ⟨-, hcount⟩⟩
  · exact absurd hcount (by decide)
  · exact absurd hmem (by decide)
  · exact absurd hcount (by decide)

instance (x : Option (UniqueLock (Ptr M))) : Decidable (Idle x) :=
  inferInstanceAs (Decidable (∀ l ∈ x, l.owns = false))

instance (s : State O M) (a : Op O M) : Decidable (Allowed s a) := by
  unfold Allowed
  split <;> infer_instance

/-- Two objects swap, a third one is move constructed from the one that owns nothing, the owner
releases the mutex, and it is adopted again: the operations are allowed, so the law holds. -/
theorem law_iff_allowed_swap :
    machine.Admits Allowed (start : State (Fin 4) Bool)
        [.construct 0 (.adopt true), .construct 1 .default, .swap 0 1, .moveConstruct 2 0,
          .release 1, .construct 3 (.adopt true), .destroy 3] ∧
      ∀ pre u, pre <+: [.construct 0 (.adopt true), .construct 1 .default, .swap 0 1,
          .moveConstruct 2 0, .release 1, .construct 3 (.adopt true), .destroy 3] →
        machine.run (start : State (Fin 4) Bool) pre = some u → Law u := by
  obtain ⟨s, hs⟩ := Option.isSome_iff_exists.mp (show (machine.runWhile Allowed
    (start : State (Fin 4) Bool) [.construct 0 (.adopt true), .construct 1 .default, .swap 0 1,
      .moveConstruct 2 0, .release 1, .construct 3 (.adopt true), .destroy 3]).isSome = true by
    decide)
  obtain ⟨hrun, hallowed⟩ := Machine.run_of_runWhile hs
  exact ⟨hallowed, (law_iff_allowed hrun).mpr hallowed⟩

end UniqueLock

end Sync
