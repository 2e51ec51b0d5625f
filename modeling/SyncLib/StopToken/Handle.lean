import SyncLib.Core.Machine
import SyncLib.Core.Tally
import SyncLib.StopToken.Word

/-!
# The special members of `stop_token` and `stop_source`

The two classes have the same special members: a pointer to a `_stop_state` that is copied, moved,
swapped and assigned by copy and swap. They differ in the members of `_stop_state` that they call
when a copy is made and when an object is destroyed.
-/

namespace Sync

open Core

/-! ### The states -/

/-- A `_stop_state`: its word, how often it was deleted, and whether a stop was requested. Nothing
reads the last two. -/
structure Cell where
  word : StopState.Word
  deletions : ℕ
  stopped : Bool
  deriving DecidableEq, Repr

namespace Cell

/-- `new _stop_state`. -/
def new : Cell := ⟨StopState.initial, 0, false⟩

/-- A new word, and `delete this` if the flag is set. -/
def drop (c : Cell) (r : StopState.Word × Bool) : Cell :=
  { c with word := r.1, deletions := c.deletions + r.2.toNat }

def incrementTokenRef (c : Cell) : Cell := { c with word := StopState.incrementTokenRef c.word }

def decrementTokenRef (c : Cell) : Cell := c.drop (StopState.decrementTokenRef c.word)

def incrementSourceRef (c : Cell) : Cell := { c with word := StopState.incrementSourceRef c.word }

end Cell

abbrev Heap := ℕ → Cell

/-- `if (p != nullptr) p->f()`. -/
def Heap.call (h : Heap) (p : Option ℕ) (f : Cell → Cell) : Heap :=
  match p with
  | none   => h
  | some i => Function.update h i (f (h i))

lemma Heap.call_apply (h : Heap) (p : Option ℕ) (f : Cell → Cell) (i : ℕ) :
    h.call p f i = if p = some i then f (h i) else h i := by
  cases p with
  | none => simp [Heap.call]
  | some j =>
    by_cases hij : i = j
    · subst hij
      simp [Heap.call]
    · simp [Heap.call, hij, Ne.symm hij]

/-! ### Special members -/

/-- What a class calls on the state of a new copy, and on that of an object that is destroyed. -/
structure HandleClass where
  onCopy : Cell → Cell
  onDestroy : Cell → Cell

/-- `stop_token`. -/
def stopToken : HandleClass := ⟨Cell.incrementTokenRef, Cell.decrementTokenRef⟩

/-- `stop_source`. Its destructor calls `increment_source_ref`. -/
def stopSource : HandleClass := ⟨Cell.incrementSourceRef, Cell.incrementSourceRef⟩

namespace HandleClass

variable (K : HandleClass)

/-- The copy constructor, and the constructor of a token from a state. -/
def copyConstruct (h : Heap) (other : Option ℕ) : Heap × Option ℕ := (h.call other K.onCopy, other)

/-- The move constructor: the new object and `other` after it. -/
def moveConstruct (other : Option ℕ) : Option ℕ × Option ℕ := (other, none)

def swap (self other : Option ℕ) : Option ℕ × Option ℕ := (other, self)

def destroy (h : Heap) (self : Option ℕ) : Heap := h.call self K.onDestroy

/-- The move assignment between two objects: the target and `other` after it. -/
def moveAssign (h : Heap) (self other : Option ℕ) : Heap × Option ℕ × Option ℕ :=
  let (token, other) := moveConstruct other
  let (self, token) := swap self token
  (K.destroy h token, self, other)

/-- The move assignment of an object to itself. -/
def moveAssignSelf (h : Heap) (self : Option ℕ) : Heap × Option ℕ :=
  let (token, self) := moveConstruct self
  let (self, token) := swap self token
  (K.destroy h token, self)

/-- The copy assignment. -/
def copyAssign (h : Heap) (self other : Option ℕ) : Heap × Option ℕ :=
  if self ≠ other then
    let (h, token) := K.copyConstruct h other
    let (self, token) := swap self token
    (K.destroy h token, self)
  else (h, self)

end HandleClass

/-! ### Collections of objects -/

/-- The live objects of a class with their pointers. -/
abbrev Objects (O : Type*) := O → Option (Option ℕ)

/-- The operations on objects named by `O`; `null` constructs one without a state. -/
inductive HandleOp (O : Type*)
  | null (o : O)
  | copy (o other : O)
  | move (o other : O)
  | copyAssign (o other : O)
  | moveAssign (o other : O)
  | swap (o other : O)
  | destroy (o : O)
  deriving DecidableEq, Repr

variable {O : Type*}

def HandleClass.step [DecidableEq O] (K : HandleClass) (h : Heap) (objs : Objects O) :
    HandleOp O → Option (Heap × Objects O)
  | .null o =>
    match objs o with
    | none => some (h, Function.update objs o (some none))
    | some _ => none
  | .copy o other =>
    match objs o, objs other with
    | none, some p =>
      let r := K.copyConstruct h p
      some (r.1, Function.update objs o (some r.2))
    | _, _ => none
  | .move o other =>
    match objs o, objs other with
    | none, some p =>
      let r := moveConstruct p
      some (h, Function.update (Function.update objs other (some r.2)) o (some r.1))
    | _, _ => none
  | .copyAssign o other =>
    match objs o, objs other with
    | some p, some q =>
      let r := K.copyAssign h p q
      some (r.1, Function.update objs o (some r.2))
    | _, _ => none
  | .moveAssign o other =>
    match objs o, objs other with
    | some p, some q =>
      if o = other then
        let r := K.moveAssignSelf h p
        some (r.1, Function.update objs o (some r.2))
      else
        let r := K.moveAssign h p q
        some (r.1, Function.update (Function.update objs o (some r.2.1)) other (some r.2.2))
    | _, _ => none
  | .swap o other =>
    match objs o, objs other with
    | some p, some q =>
      let r := swap p q
      some (h, Function.update (Function.update objs o (some r.1)) other (some r.2))
    | _, _ => none
  | .destroy o =>
    match objs o with
    | some p => some (K.destroy h p, Function.update objs o none)
    | none => none

/-! ### References -/

/-- The weight of an object that points to state `i`. -/
def pointsTo (i : ℕ) (x : Option (Option ℕ)) : ℕ := if x = some (some i) then 1 else 0

/-- The number of objects that point to state `i`. -/
def refs [Fintype O] (objs : Objects O) (i : ℕ) : ℕ := tally (pointsTo i) objs

/-- The weight of a pointer to state `i`. -/
def isPtr (i : ℕ) (p : Option ℕ) : ℕ := if p = some i then 1 else 0

@[simp] lemma pointsTo_some (i : ℕ) (p : Option ℕ) : pointsTo i (some p) = isPtr i p := by
  simp [pointsTo, isPtr]

@[simp] lemma pointsTo_none (i : ℕ) : pointsTo i none = 0 := rfl

@[simp] lemma isPtr_none (i : ℕ) : isPtr i none = 0 := rfl

/-- The state of which an operation takes a reference. -/
def HandleOp.taken (objs : Objects O) : HandleOp O → Option ℕ
  | .copy _ other       => (objs other).join
  | .copyAssign o other => if objs o = objs other then none else (objs other).join
  | _                   => none

section

variable [Fintype O]

lemma refs_le_card (objs : Objects O) (i : ℕ) : refs objs i ≤ Fintype.card O := by
  rw [← tally_eq_card (w := fun _ => 1) (f := objs) fun _ => rfl]
  refine tally_le_tally fun o => ?_
  simp only [pointsTo]
  split_ifs <;> simp

lemma refs_pos_iff {objs : Objects O} {i : ℕ} :
    0 < refs objs i ↔ ∃ o, objs o = some (some i) := by
  rw [Nat.pos_iff_ne_zero, ne_eq, refs, tally_eq_zero_iff, not_forall]
  simp [pointsTo]

lemma refs_pos {objs : Objects O} {o : O} {i : ℕ} (ho : objs o = some (some i)) :
    0 < refs objs i :=
  refs_pos_iff.mpr ⟨o, ho⟩

lemma HandleOp.taken_pos {objs : Objects O} {a : HandleOp O} {i : ℕ} (h : a.taken objs = some i) :
    0 < refs objs i := by
  cases a with
  | copy o other => exact refs_pos (Option.join_eq_some_iff.mp h)
  | copyAssign o other =>
    simp only [taken] at h
    split_ifs at h
    exact refs_pos (Option.join_eq_some_iff.mp h)
  | _ => simp [taken] at h

end

variable [DecidableEq O]

/-- The state of which an operation destroys a reference, in an object or a temporary one. -/
def HandleOp.dropped (objs : Objects O) : HandleOp O → Option ℕ
  | .copyAssign o other => if objs o = objs other then none else (objs o).join
  | .moveAssign o other => if o = other then none else (objs o).join
  | .destroy o          => (objs o).join
  | _                   => none

lemma HandleOp.taken_ne_dropped {objs : Objects O} {a : HandleOp O} {i : ℕ}
    (h : a.taken objs = some i) : a.dropped objs ≠ some i := by
  cases a with
  | copyAssign o other =>
    simp only [taken, dropped] at h ⊢
    split_ifs at h ⊢ with hne
    rw [Option.join_eq_some_iff] at h
    rw [ne_eq, Option.join_eq_some_iff, ← h]
    exact hne
  | copy o other => simp [dropped]
  | _ => simp [taken] at h

variable [Fintype O]

lemma refs_update (objs : Objects O) (o : O) (x : Option (Option ℕ)) (i : ℕ) :
    refs (Function.update objs o x) i + pointsTo i (objs o) = refs objs i + pointsTo i x :=
  tally_update (pointsTo i) objs o x

lemma refs_update_update (objs : Objects O) {o other : O} (hne : o ≠ other)
    (x y : Option (Option ℕ)) (i : ℕ) :
    refs (Function.update (Function.update objs o x) other y) i + pointsTo i (objs o) +
      pointsTo i (objs other) = refs objs i + pointsTo i x + pointsTo i y := by
  have h₁ := refs_update objs o x i
  have h₂ := refs_update (Function.update objs o x) other y i
  rw [Function.update_of_ne hne.symm] at h₂
  omega

/-- An operation calls the state of the reference it takes, then that of the one it drops. -/
theorem HandleClass.step_effect {K : HandleClass} {h h' : Heap} {objs objs' : Objects O}
    {a : HandleOp O} (hs : K.step h objs a = some (h', objs')) :
    h' = (h.call (a.taken objs) K.onCopy).call (a.dropped objs) K.onDestroy ∧
      ∀ i, refs objs' i + isPtr i (a.dropped objs) = refs objs i + isPtr i (a.taken objs) := by
  cases a with
  | null o =>
    cases ho : objs o <;> simp only [step, ho, Option.some.injEq, Prod.mk.injEq, reduceCtorEq] at hs
    obtain ⟨rfl, rfl⟩ := hs
    refine ⟨rfl, fun i => ?_⟩
    simpa [HandleOp.taken, HandleOp.dropped, ho] using refs_update objs o (some none) i
  | copy o other =>
    cases ho : objs o <;> cases hother : objs other <;>
      simp only [step, ho, hother, Option.some.injEq, Prod.mk.injEq, reduceCtorEq] at hs
    obtain ⟨rfl, rfl⟩ := hs
    rename_i p
    refine ⟨by simp [HandleOp.taken, HandleOp.dropped, hother, copyConstruct, Heap.call],
      fun i => ?_⟩
    simpa [HandleOp.taken, HandleOp.dropped, ho, hother, copyConstruct]
      using refs_update objs o (some p) i
  | move o other =>
    cases ho : objs o <;> cases hother : objs other <;>
      simp only [step, ho, hother, Option.some.injEq, Prod.mk.injEq, reduceCtorEq] at hs
    obtain ⟨rfl, rfl⟩ := hs
    rename_i p
    have hne : other ≠ o := by
      rintro rfl
      simp [ho] at hother
    refine ⟨rfl, fun i => ?_⟩
    have hrefs := refs_update_update objs hne (some none) (some p) i
    simp only [ho, hother, pointsTo_some, pointsTo_none, isPtr_none, moveConstruct,
      HandleOp.taken, HandleOp.dropped] at hrefs ⊢
    omega
  | copyAssign o other =>
    cases ho : objs o <;> cases hother : objs other <;>
      simp only [step, ho, hother, Option.some.injEq, Prod.mk.injEq, reduceCtorEq] at hs
    obtain ⟨rfl, rfl⟩ := hs
    rename_i p q
    have hrefs := refs_update objs o (some q)
    by_cases hpq : p = q
    · subst hpq
      refine ⟨by simp [copyAssign, HandleOp.taken, HandleOp.dropped, ho, hother, Heap.call],
        fun i => ?_⟩
      simpa [copyAssign, HandleOp.taken, HandleOp.dropped, ho, hother] using hrefs i
    · refine ⟨by simp [copyAssign, HandleOp.taken, HandleOp.dropped, ho, hother, hpq,
        copyConstruct, swap, destroy], fun i => ?_⟩
      simpa [copyAssign, HandleOp.taken, HandleOp.dropped, ho, hother, hpq, copyConstruct, swap]
        using hrefs i
  | moveAssign o other =>
    cases ho : objs o <;> cases hother : objs other <;>
      simp only [step, ho, hother, reduceCtorEq] at hs
    rename_i p q
    split_ifs at hs with hne
    · simp only [Option.some.injEq, Prod.mk.injEq] at hs
      obtain ⟨rfl, rfl⟩ := hs
      subst hne
      refine ⟨by simp [HandleOp.taken, HandleOp.dropped, moveAssignSelf, moveConstruct, swap,
        destroy, Heap.call], fun i => ?_⟩
      simpa [HandleOp.taken, HandleOp.dropped, moveAssignSelf, moveConstruct, swap, ho]
        using refs_update objs o (some p) i
    · simp only [Option.some.injEq, Prod.mk.injEq] at hs
      obtain ⟨rfl, rfl⟩ := hs
      refine ⟨by simp [HandleOp.taken, HandleOp.dropped, hne, ho, moveAssign, moveConstruct, swap,
        destroy, Heap.call], fun i => ?_⟩
      have hrefs := refs_update_update objs hne (some q) (some none) i
      simp only [HandleOp.taken, HandleOp.dropped, hne, if_false, ho, hother, pointsTo_some,
        isPtr_none, moveAssign, moveConstruct, swap, Option.join_some] at hrefs ⊢
      omega
  | swap o other =>
    cases ho : objs o <;> cases hother : objs other <;>
      simp only [step, ho, hother, Option.some.injEq, Prod.mk.injEq, reduceCtorEq] at hs
    obtain ⟨rfl, rfl⟩ := hs
    rename_i p q
    refine ⟨rfl, fun i => ?_⟩
    by_cases hne : o = other
    · subst hne
      obtain rfl : p = q := Option.some.inj (ho.symm.trans hother)
      simpa [HandleOp.taken, HandleOp.dropped, HandleClass.swap, ho]
        using refs_update objs o (some p) i
    · have hrefs := refs_update_update objs hne (some q) (some p) i
      simp only [ho, hother, pointsTo_some, HandleClass.swap, isPtr_none, HandleOp.taken,
        HandleOp.dropped] at hrefs ⊢
      omega
  | destroy o =>
    cases ho : objs o <;> simp only [step, ho, Option.some.injEq, Prod.mk.injEq, reduceCtorEq] at hs
    obtain ⟨rfl, rfl⟩ := hs
    rename_i p
    refine ⟨by simp [HandleOp.taken, HandleOp.dropped, ho, destroy, Heap.call], fun i => ?_⟩
    simpa [HandleOp.taken, HandleOp.dropped, ho] using refs_update objs o none i

end Sync
