import SyncLib.StopToken.Handle

/-!
# Counting the references to a `_stop_state`

Histories of operations on `stop_source`, `stop_token` and `stop_callback` objects. While no
`stop_source` with a state is destroyed, the two counts of every state are the numbers of objects
that point to it. The destructor of `stop_source` counts the wrong way (`source_leaked`).
-/

namespace Sync

open Core StopState

/-! ### Callbacks -/

namespace Cell

/-- `try_push_callback` when nobody holds the lock, without the list: the state, and whether the
callback was registered. -/
def tryPushCallback (isStopTokenCopy : Bool) (c : Cell) : Cell × Bool :=
  if StopState.stopRequested c.word then (c, false)
  else if !stopPossible c.word then (c, false)
  else
    let w := locked c.word
    ({ c with word := if isStopTokenCopy then unlockAndIncrementTokenRef w else unlock w }, true)

/-- `erase_callback` when nobody holds the lock; `linked` says whether the callback is in the
list. -/
def eraseCallback (linked : Bool) (c : Cell) : Cell :=
  let w := locked c.word
  if linked then c.drop (unlockAndDecrementTokenRef w)
  else { c with word := unlock w }.decrementTokenRef

/-- What `request_stop` leaves of the word: the flag is set, and the lock is free. The callbacks
that it runs are further operations of the history. -/
def requestStop (c : Cell) : Cell :=
  if StopState.stopRequested c.word then c
  else { c with word := unlock (requestedAndLocked c.word), stopped := true }

end Cell

/-! ### Histories -/

/-- The operations on sources `A`, tokens `B` and callbacks `C`. -/
inductive StopOp (A B C : Type*)
  | source (a : HandleOp A)
  | newSource (a : A)
  | token (b : HandleOp B)
  | getToken (b : B) (a : A)
  | registerCopy (c : C) (b : B)
  | registerMove (c : C) (b : B)
  | destroyCallback (c : C) (linked : Bool)
  | requestStop (a : A)
  deriving DecidableEq, Repr

/-- The live objects, and the states allocated so far: those below `next`. -/
structure StopObjects (A B C : Type*) where
  heap : Heap
  next : ℕ
  sources : Objects A
  tokens : Objects B
  callbacks : Objects C

namespace StopObjects

variable {A B C : Type*} [DecidableEq A] [DecidableEq B] [DecidableEq C]

/-- The constructors of `stop_callback` from a token. -/
def register (s : StopObjects A B C) (isStopTokenCopy : Bool) (c : C) (b : B) :
    Option (StopObjects A B C) :=
  match s.callbacks c, s.tokens b with
  | none, some none => some { s with callbacks := Function.update s.callbacks c (some none) }
  | none, some (some i) =>
    let r := (s.heap i).tryPushCallback isStopTokenCopy
    let s := { s with heap := Function.update s.heap i r.1 }
    if r.2 then
      some { s with
        callbacks := Function.update s.callbacks c (some (some i))
        tokens := if isStopTokenCopy then s.tokens else Function.update s.tokens b (some none) }
    else some { s with callbacks := Function.update s.callbacks c (some none) }
  | _, _ => none

def step (s : StopObjects A B C) : StopOp A B C → Option (StopObjects A B C)
  | .source a =>
    (stopSource.step s.heap s.sources a).map fun r => { s with heap := r.1, sources := r.2 }
  | .newSource a =>
    match s.sources a with
    | none => some { s with
        heap := Function.update s.heap s.next Cell.new
        next := s.next + 1
        sources := Function.update s.sources a (some (some s.next)) }
    | some _ => none
  | .token b =>
    (stopToken.step s.heap s.tokens b).map fun r => { s with heap := r.1, tokens := r.2 }
  | .getToken b a =>
    match s.tokens b, s.sources a with
    | none, some p =>
      let r := stopToken.copyConstruct s.heap p
      some { s with heap := r.1, tokens := Function.update s.tokens b (some r.2) }
    | _, _ => none
  | .registerCopy c b => s.register true c b
  | .registerMove c b => s.register false c b
  | .destroyCallback c linked =>
    match s.callbacks c with
    | some p => some { s with
        heap := s.heap.call p (Cell.eraseCallback linked)
        callbacks := Function.update s.callbacks c none }
    | none => none
  | .requestStop a =>
    match s.sources a with
    | some p => some { s with heap := s.heap.call p Cell.requestStop }
    | none => none

def machine : Machine (StopObjects A B C) (StopOp A B C) := ⟨step⟩

/-- No objects and no states. -/
def start : StopObjects A B C :=
  ⟨fun _ => Cell.new, 0, fun _ => none, fun _ => none, fun _ => none⟩

/-! ### The law -/

variable [Fintype A] [Fintype B] [Fintype C]

/-- The objects that point to state `i` and count as sources. -/
def sourceRefs (s : StopObjects A B C) (i : ℕ) : ℕ := refs s.sources i

/-- The objects that point to state `i` and count as tokens. -/
def tokenRefs (s : StopObjects A B C) (i : ℕ) : ℕ := refs s.tokens i + refs s.callbacks i

/-- `stop_token::stop_possible()` of a token that points to state `i`. -/
def tokenStopPossible (s : StopObjects A B C) (i : ℕ) : Bool := stopPossible (s.heap i).word

/-- What the counts of the states mean. -/
structure Law (s : StopObjects A B C) : Prop where
  sources_eq : ∀ i < s.next, 0 < s.tokenRefs i + s.sourceRefs i →
    sourceField (s.heap i).word = s.sourceRefs i
  tokens_eq : ∀ i < s.next, 0 < s.tokenRefs i + s.sourceRefs i →
    tokenField (s.heap i).word = s.tokenRefs i
  deletions_eq : ∀ i < s.next,
    (s.heap i).deletions = if s.tokenRefs i + s.sourceRefs i = 0 then 1 else 0
  possible_iff : ∀ b i, s.tokens b = some (some i) →
    (s.tokenStopPossible i = true ↔ (s.heap i).stopped = true ∨ ∃ a, s.sources a = some (some i))

/-- No `stop_source` with a state is destroyed, be it a temporary one of an assignment. -/
def KeepsSources (s : StopObjects A B C) : StopOp A B C → Prop
  | .source a => a.dropped s.sources = none
  | _         => True

/-- After the operation every state has fewer than `2 ^ 31` references of each kind. -/
def Fits (s : StopObjects A B C) (a : StopOp A B C) : Prop :=
  ∀ s', step s a = some s' → ∀ i, s'.tokenRefs i < 2 ^ 31 ∧ s'.sourceRefs i < 2 ^ 31

def Allowed (s : StopObjects A B C) (a : StopOp A B C) : Prop := KeepsSources s a ∧ Fits s a

end StopObjects

/-- The state is deleted if it has no references, and counts them otherwise. -/
structure Cell.Counts (c : Cell) (tokens sources : ℕ) : Prop where
  live : 0 < tokens + sources →
    c.deletions = 0 ∧ Encodes c.word c.stopped false tokens sources
  dead : tokens + sources = 0 → c.deletions = 1

namespace Cell.Counts

variable {c : Cell} {tokens sources : ℕ}

lemma new : Cell.new.Counts 0 1 := by
  constructor
  · intro _
    simp only [Cell.new, true_and]
    exact encodes_initial
  · simp

lemma incrementTokenRef (h : c.Counts tokens sources) (hpos : 0 < tokens + sources)
    (hlt : tokens + 1 < 2 ^ 31) : c.incrementTokenRef.Counts (tokens + 1) sources := by
  obtain ⟨hdel, henc⟩ := h.live hpos
  exact ⟨fun _ => ⟨hdel, henc.incrementTokenRef hlt⟩, fun h0 => by omega⟩

lemma incrementSourceRef (h : c.Counts tokens sources) (hpos : 0 < tokens + sources)
    (hlt : sources + 1 < 2 ^ 31) : c.incrementSourceRef.Counts tokens (sources + 1) := by
  obtain ⟨hdel, henc⟩ := h.live hpos
  have hinc := henc.incrementSourceRef hlt
  simp only [Cell.incrementSourceRef]
  exact ⟨fun _ => ⟨hdel, hinc⟩, fun h0 => by omega⟩

/-- A reference is dropped, and the state is deleted with the last one. -/
lemma drop {r : Word × Bool} (hdel : c.deletions = 0)
    (h : Encodes r.1 c.stopped false tokens sources ∧ (r.2 = true ↔ tokens = 0 ∧ sources = 0)) :
    (c.drop r).Counts tokens sources := by
  obtain ⟨henc, hiff⟩ := h
  constructor
  · intro hpos
    have hfalse : r.2 = false := by
      rw [← Bool.not_eq_true, hiff]
      omega
    exact ⟨by simp [Cell.drop, hdel, hfalse], henc⟩
  · intro hzero
    have htrue : r.2 = true := hiff.mpr (by omega)
    simp [Cell.drop, hdel, htrue]

lemma decrementTokenRef (h : c.Counts (tokens + 1) sources) :
    c.decrementTokenRef.Counts tokens sources := by
  obtain ⟨hdel, henc⟩ := h.live (by omega)
  exact drop hdel henc.decrementTokenRef

lemma eraseCallback (h : c.Counts (tokens + 1) sources) (linked : Bool) :
    (c.eraseCallback linked).Counts tokens sources := by
  obtain ⟨hdel, henc⟩ := h.live (by omega)
  cases linked with
  | true => exact drop hdel henc.locked.unlockAndDecrementTokenRef
  | false => exact drop hdel henc.locked.unlock.decrementTokenRef

lemma requestStop (h : c.Counts tokens sources) (hpos : 0 < tokens + sources) :
    c.requestStop.Counts tokens sources := by
  obtain ⟨hdel, henc⟩ := h.live hpos
  cases hs : c.stopped with
  | true =>
    have heq : c.requestStop = c := by
      simp [Cell.requestStop, henc.stopRequested_eq, hs]
    rwa [heq]
  | false =>
    rw [hs] at henc
    have heq : c.requestStop =
        { c with word := unlock (requestedAndLocked c.word), stopped := true } := by
      simp [Cell.requestStop, henc.stopRequested_eq]
    rw [heq]
    exact ⟨fun _ => ⟨hdel, henc.requestedAndLocked.unlock⟩, fun h0 => by omega⟩

/-- A callback counts as a token if it is registered from a copy, and in place of the token it
was moved from otherwise. -/
lemma tryPushCallback (h : c.Counts tokens sources) (hpos : 0 < tokens + sources)
    {isStopTokenCopy : Bool} (hlt : isStopTokenCopy = true → tokens + 1 < 2 ^ 31)
    (hr : (c.tryPushCallback isStopTokenCopy).2 = true) :
    (c.tryPushCallback isStopTokenCopy).1.Counts (tokens + isStopTokenCopy.toNat) sources := by
  obtain ⟨hdel, henc⟩ := h.live hpos
  simp only [Cell.tryPushCallback] at hr ⊢
  split_ifs at hr ⊢ with hs hp hcopy
  · have hlocked := henc.locked.unlockAndIncrementTokenRef (hlt hcopy)
    simp only [hcopy, Bool.toNat_true]
    exact ⟨fun _ => ⟨hdel, hlocked⟩, fun h0 => by omega⟩
  · simp only [Bool.not_eq_true] at hcopy
    simp only [hcopy, Bool.toNat_false, Nat.add_zero]
    exact ⟨fun _ => ⟨hdel, henc.locked.unlock⟩, fun h0 => by omega⟩

end Cell.Counts

namespace StopObjects

variable {A B C : Type*} [Fintype A] [Fintype B] [Fintype C]

/-- Every allocated state counts its references, and no object points to another one. -/
structure Inv (s : StopObjects A B C) : Prop where
  counts : ∀ i < s.next, (s.heap i).Counts (s.tokenRefs i) (s.sourceRefs i)
  fresh : ∀ i, s.next ≤ i → s.tokenRefs i = 0 ∧ s.sourceRefs i = 0

namespace Inv

variable {s s' : StopObjects A B C}

lemma initial : Inv (start : StopObjects A B C) := by
  constructor
  · intro i hi
    exact absurd hi (Nat.not_lt_zero i)
  · intro i _
    simp [start, tokenRefs, sourceRefs, refs, tally]

lemma lt_next (h : Inv s) {i : ℕ} (hi : 0 < s.tokenRefs i + s.sourceRefs i) : i < s.next := by
  by_contra hge
  have := h.fresh i (not_lt.mp hge)
  omega

/-- The objects change, and the states along with the numbers of references. -/
lemma of_heap (h : Inv s) (hnext : s'.next = s.next)
    (hcell : ∀ i, i < s.next → (s.heap i).Counts (s.tokenRefs i) (s.sourceRefs i) →
      (s'.heap i).Counts (s'.tokenRefs i) (s'.sourceRefs i))
    (hfresh : ∀ i, s.tokenRefs i = 0 ∧ s.sourceRefs i = 0 → s.next ≤ i →
      s'.tokenRefs i = 0 ∧ s'.sourceRefs i = 0) : Inv s' := by
  constructor
  · intro i hi
    rw [hnext] at hi
    exact hcell i hi (h.counts i hi)
  · intro i hi
    rw [hnext] at hi
    exact hfresh i (h.fresh i hi) hi

lemma source [DecidableEq A] (h : Inv s) {a : HandleOp A} {heap : Heap} {sources : Objects A}
    (hs : stopSource.step s.heap s.sources a = some (heap, sources))
    (hkeep : a.dropped s.sources = none)
    (hfits : ∀ i, refs sources i < 2 ^ 31) : Inv { s with heap, sources } := by
  obtain ⟨rfl, hrefs⟩ := HandleClass.step_effect hs
  simp only [hkeep, isPtr_none, Nat.add_zero] at hrefs
  refine h.of_heap rfl (fun i hi hc => ?_) fun i h0 _ => ?_
  · simp only [tokenRefs, sourceRefs, hrefs, hkeep, Heap.call_apply, reduceCtorEq, if_false]
    split_ifs with ht
    · have hpos := HandleOp.taken_pos ht
      have hlt := hfits i
      simp only [hrefs, isPtr, ht, if_true] at hlt
      simp only [isPtr, ht, if_true]
      exact hc.incrementSourceRef (Nat.lt_add_left _ hpos) hlt
    · simp only [isPtr, ht, if_false, Nat.add_zero]
      exact hc
  · refine ⟨h0.1, ?_⟩
    simp only [sourceRefs, hrefs]
    have hpos : a.taken s.sources ≠ some i := fun ht => by
      have := HandleOp.taken_pos ht
      have := h0.2
      simp only [sourceRefs] at this
      omega
    simp only [isPtr, hpos, if_false, Nat.add_zero]
    exact h0.2

lemma token [DecidableEq B] (h : Inv s) {b : HandleOp B} {heap : Heap} {tokens : Objects B}
    (hs : stopToken.step s.heap s.tokens b = some (heap, tokens))
    (hfits : ∀ i, refs tokens i + refs s.callbacks i < 2 ^ 31) : Inv { s with heap, tokens } := by
  obtain ⟨rfl, hrefs⟩ := HandleClass.step_effect hs
  refine h.of_heap rfl (fun i hi hc => ?_) fun i h0 _ => ?_
  · have hr := hrefs i
    have hlt := hfits i
    simp only [tokenRefs, sourceRefs, Heap.call_apply] at hc ⊢
    by_cases ht : b.taken s.tokens = some i
    · have hpos := HandleOp.taken_pos ht
      have hd := HandleOp.taken_ne_dropped ht
      simp only [isPtr, ht, hd, if_true, if_false, Nat.add_zero] at hr ⊢
      have heq : refs tokens i + refs s.callbacks i
          = refs s.tokens i + refs s.callbacks i + 1 := by omega
      rw [heq] at hlt ⊢
      exact hc.incrementTokenRef (by omega) hlt
    · by_cases hd : b.dropped s.tokens = some i
      · simp only [isPtr, ht, hd, if_true, if_false, Nat.add_zero] at hr ⊢
        have heq : refs s.tokens i + refs s.callbacks i
            = refs tokens i + refs s.callbacks i + 1 := by omega
        rw [heq] at hc
        exact hc.decrementTokenRef
      · simp only [isPtr, ht, hd, if_false, Nat.add_zero] at hr ⊢
        rw [hr]
        exact hc
  · have hr := hrefs i
    simp only [tokenRefs] at h0 ⊢
    have ht : b.taken s.tokens ≠ some i := fun ht => by
      have := HandleOp.taken_pos ht
      omega
    simp only [isPtr, ht, if_false] at hr
    exact ⟨by omega, h0.2⟩

lemma newSource [DecidableEq A] (h : Inv s) {a : A} (ha : s.sources a = none) :
    Inv { s with
      heap := Function.update s.heap s.next Cell.new
      next := s.next + 1
      sources := Function.update s.sources a (some (some s.next)) } := by
  have hrefs := refs_update s.sources a (some (some s.next))
  simp only [ha, pointsTo_none, Nat.add_zero, pointsTo_some, isPtr, Option.some.injEq] at hrefs
  constructor
  · intro i hi
    simp only [tokenRefs, sourceRefs, hrefs]
    by_cases hin : i = s.next
    · subst hin
      have h0 := h.fresh s.next le_rfl
      simp only [tokenRefs, sourceRefs] at h0
      rw [h0.1, h0.2, Function.update_self, if_pos rfl]
      exact Cell.Counts.new
    · rw [Function.update_of_ne hin, if_neg (Ne.symm hin), Nat.add_zero]
      exact h.counts i (by simp only at hi; omega)
  · intro i hi
    simp only at hi
    have h0 := h.fresh i (by omega)
    refine ⟨h0.1, ?_⟩
    simp only [sourceRefs, hrefs]
    rw [if_neg (by omega)]
    exact h0.2

lemma getToken [DecidableEq B] (h : Inv s) {b : B} {a : A} {p : Option ℕ} (hb : s.tokens b = none)
    (ha : s.sources a = some p)
    (hfits : ∀ i, refs (Function.update s.tokens b (some p)) i + refs s.callbacks i < 2 ^ 31) :
    Inv { s with
      heap := s.heap.call p Cell.incrementTokenRef
      tokens := Function.update s.tokens b (some p) } := by
  have hrefs := refs_update s.tokens b (some p)
  simp only [hb, pointsTo_none, Nat.add_zero, pointsTo_some] at hrefs
  refine h.of_heap rfl (fun i hi hc => ?_) fun i h0 _ => ?_
  · have hlt := hfits i
    simp only [tokenRefs, sourceRefs, Heap.call_apply, hrefs] at hc hlt ⊢
    by_cases hp : p = some i
    · have hpos := refs_pos (hp ▸ ha)
      simp only [isPtr, hp, if_true, Nat.add_right_comm _ 1] at hlt ⊢
      exact hc.incrementTokenRef (by omega) hlt
    · simp only [isPtr, hp, if_false, Nat.add_zero]
      exact hc
  · have hp : p ≠ some i := fun hp => by
      have := refs_pos (hp ▸ ha)
      have := h0.2
      simp only [sourceRefs] at this
      omega
    simp only [tokenRefs, hrefs, isPtr, hp, if_false, Nat.add_zero]
    exact h0

lemma register [DecidableEq B] [DecidableEq C] (h : Inv s) {isStopTokenCopy : Bool} {c : C}
    {b : B} (hs : s.register isStopTokenCopy c b = some s')
    (hfits : ∀ i, s'.tokenRefs i < 2 ^ 31) : Inv s' := by
  cases hc : s.callbacks c <;> cases hb : s.tokens b <;>
    simp only [StopObjects.register, hc, hb, reduceCtorEq] at hs
  rename_i p
  cases p with
  | none =>
    simp only [Option.some.injEq] at hs
    subst hs
    have hrefs := refs_update s.callbacks c (some none)
    simp only [hc, pointsTo_none, pointsTo_some, isPtr_none, Nat.add_zero] at hrefs
    refine h.of_heap rfl (fun i hi hcell => ?_) fun i h0 _ => ?_
    · simpa only [tokenRefs, sourceRefs, hrefs] using hcell
    · simpa only [tokenRefs, sourceRefs, hrefs] using h0
  | some i =>
    have hpos : 0 < refs s.tokens i := refs_pos hb
    have hi : i < s.next := h.lt_next (by simp only [tokenRefs]; omega)
    cases hr : ((s.heap i).tryPushCallback isStopTokenCopy).2 with
    | false =>
      simp only [hr, Bool.false_eq_true, if_false, Option.some.injEq] at hs
      subst hs
      have hrefs := refs_update s.callbacks c (some none)
      simp only [hc, pointsTo_none, pointsTo_some, isPtr_none, Nat.add_zero] at hrefs
      have hsame : ((s.heap i).tryPushCallback isStopTokenCopy).1 = s.heap i := by
        simp only [Cell.tryPushCallback] at hr ⊢
        split_ifs at hr ⊢ <;> rfl
      refine h.of_heap rfl (fun j _ hcell => ?_) fun j h0 _ => ?_
      · simpa only [tokenRefs, sourceRefs, hrefs, hsame, Function.update_eq_self] using hcell
      · simpa only [tokenRefs, sourceRefs, hrefs] using h0
    | true =>
      simp only [hr, if_true, Option.some.injEq] at hs
      subst hs
      have hcallbacks := refs_update s.callbacks c (some (some i))
      simp only [hc, pointsTo_none, pointsTo_some, Nat.add_zero] at hcallbacks
      -- a copy leaves the token as it is, a move takes its reference over
      have htokens : ∀ j, refs (if isStopTokenCopy then s.tokens
          else Function.update s.tokens b (some none)) j
            + (!isStopTokenCopy).toNat * isPtr j (some i) = refs s.tokens j := by
        intro j
        cases isStopTokenCopy with
        | true => simp
        | false =>
          have hrefs := refs_update s.tokens b (some none) j
          simpa [hb] using hrefs
      refine h.of_heap rfl (fun j hj hcell => ?_) fun j h0 hj => ?_
      · have hfit := hfits j
        have ht := htokens j
        simp only [tokenRefs, sourceRefs, hcallbacks] at hcell hfit ⊢
        by_cases hji : j = i
        · subst hji
          simp only [isPtr, if_true, Nat.mul_one] at hfit ht ⊢
          rw [Function.update_self]
          have hsum : refs (if isStopTokenCopy then s.tokens
              else Function.update s.tokens b (some none)) j + (refs s.callbacks j + 1)
              = refs s.tokens j + refs s.callbacks j + isStopTokenCopy.toNat := by
            cases isStopTokenCopy <;> simp at ht ⊢ <;> omega
          rw [hsum] at hfit ⊢
          refine hcell.tryPushCallback (by omega) (fun hcopy => ?_) hr
          simpa [hcopy] using hfit
        · have hne : (some i : Option ℕ) ≠ some j := fun h => hji (Option.some.inj h).symm
          simp only [isPtr, hne, if_false, Nat.mul_zero, Nat.add_zero] at ht ⊢
          rw [Function.update_of_ne hji, ht]
          exact hcell
      · have ht := htokens j
        have hne : (some i : Option ℕ) ≠ some j := fun h => by
          have := Option.some.inj h
          omega
        simp only [tokenRefs, sourceRefs, hcallbacks, isPtr, hne, if_false, Nat.mul_zero,
          Nat.add_zero] at h0 ht ⊢
        rw [ht]
        exact h0

lemma destroyCallback [DecidableEq C] (h : Inv s) {c : C} {p : Option ℕ} (linked : Bool)
    (hc : s.callbacks c = some p) :
    Inv { s with
      heap := s.heap.call p (Cell.eraseCallback linked)
      callbacks := Function.update s.callbacks c none } := by
  have hrefs := refs_update s.callbacks c none
  simp only [hc, pointsTo_none, Nat.add_zero, pointsTo_some] at hrefs
  refine h.of_heap rfl (fun i hi hcell => ?_) fun i h0 _ => ?_
  · have hr := hrefs i
    simp only [tokenRefs, sourceRefs, Heap.call_apply] at hcell ⊢
    by_cases hp : p = some i
    · simp only [isPtr, hp, if_true] at hr ⊢
      rw [← hr, ← Nat.add_assoc] at hcell
      exact hcell.eraseCallback linked
    · simp only [isPtr, hp, if_false, Nat.add_zero] at hr ⊢
      rw [hr]
      exact hcell
  · have hr := hrefs i
    simp only [tokenRefs] at h0 ⊢
    exact ⟨by omega, h0.2⟩

lemma requestStop (h : Inv s) {a : A} {p : Option ℕ} (ha : s.sources a = some p) :
    Inv { s with heap := s.heap.call p Cell.requestStop } := by
  refine h.of_heap rfl (fun i hi hcell => ?_) fun i h0 _ => h0
  simp only [Heap.call_apply]
  split_ifs with hp
  · have hpos : 0 < s.sourceRefs i := refs_pos (hp ▸ ha)
    exact hcell.requestStop (by omega)
  · exact hcell

theorem step [DecidableEq A] [DecidableEq B] [DecidableEq C] (h : Inv s) {a : StopOp A B C}
    (hok : Allowed s a) (hs : StopObjects.step s a = some s') : Inv s' := by
  obtain ⟨hkeep, hfits⟩ := hok
  have hfit := hfits s' hs
  cases a with
  | source a =>
    simp only [StopObjects.step, Option.map_eq_some_iff] at hs
    obtain ⟨⟨heap, sources⟩, hs, rfl⟩ := hs
    exact h.source hs hkeep fun i => (hfit i).2
  | newSource a =>
    cases ha : s.sources a <;> simp only [StopObjects.step, ha, reduceCtorEq] at hs
    cases hs
    exact h.newSource ha
  | token b =>
    simp only [StopObjects.step, Option.map_eq_some_iff] at hs
    obtain ⟨⟨heap, tokens⟩, hs, rfl⟩ := hs
    exact h.token hs fun i => (hfit i).1
  | getToken b a =>
    cases hb : s.tokens b <;> cases ha : s.sources a <;>
      simp only [StopObjects.step, hb, ha, reduceCtorEq] at hs
    cases hs
    exact h.getToken hb ha fun i => (hfit i).1
  | registerCopy c b => exact h.register hs fun i => (hfit i).1
  | registerMove c b => exact h.register hs fun i => (hfit i).1
  | destroyCallback c linked =>
    cases hc : s.callbacks c <;> simp only [StopObjects.step, hc, reduceCtorEq] at hs
    cases hs
    exact h.destroyCallback linked hc
  | requestStop a =>
    cases ha : s.sources a <;> simp only [StopObjects.step, ha, reduceCtorEq] at hs
    cases hs
    exact h.requestStop ha

/-- A state that counts its references obeys the law. -/
theorem law (h : Inv s) : Law s := by
  constructor
  · intro i hi hpos
    exact ((h.counts i hi).live hpos).2.sourceField_eq
  · intro i hi hpos
    exact ((h.counts i hi).live hpos).2.tokenField_eq
  · intro i hi
    split_ifs with h0
    · exact (h.counts i hi).dead h0
    · exact ((h.counts i hi).live (by omega)).1
  · intro b i hb
    have hpos : 0 < s.tokenRefs i := Nat.add_pos_left (refs_pos hb) _
    have hi := h.lt_next (i := i) (by omega)
    have henc := ((h.counts i hi).live (by omega)).2
    rw [tokenStopPossible, henc.stopPossible_eq]
    simp [sourceRefs, refs_pos_iff]

end Inv

variable [DecidableEq A] [DecidableEq B] [DecidableEq C]

/-- In every history in which no `stop_source` with a state is destroyed and the references fit
into their fields, the counts of every state are the numbers of the objects that point to it, it
is deleted once with the last of them, and its tokens know whether a stop is possible. -/
theorem law_of_allowed {s : StopObjects A B C} (h : machine.Runs Allowed start s) : Law s :=
  (h.invariant (I := Inv) Inv.initial fun _ _ _ hu hok hs => hu.step hok hs).law

/-- Few objects have few references. -/
lemma fits_of_card (hA : Fintype.card A < 2 ^ 31) (hBC : Fintype.card B + Fintype.card C < 2 ^ 31)
    (s : StopObjects A B C) (a : StopOp A B C) : Fits s a := by
  intro s' _ i
  have h₁ := refs_le_card s'.sources i
  have h₂ := refs_le_card s'.tokens i
  have h₃ := refs_le_card s'.callbacks i
  simp only [tokenRefs, sourceRefs]
  omega

/-- A source with a token is destroyed. The state then counts two sources, and the token reports
that a stop is possible. -/
theorem source_leaked :
    ∃ s : StopObjects (Fin 1) (Fin 1) (Fin 1),
      machine.run start [.newSource 0, .getToken 0 0, .source (.destroy 0)] = some s ∧
      s.sources 0 = none ∧ s.tokens 0 = some (some 0) ∧ sourceField (s.heap 0).word = 2 ∧
      s.tokenStopPossible 0 = true ∧ ¬ Law s := by
  refine ⟨_, rfl, rfl, rfl, rfl, rfl, fun h => ?_⟩
  exact absurd (h.sources_eq 0 (by decide) (by decide)) (by decide)

/-- A source, a token, and a callback that is registered from the token. -/
theorem law_of_allowed_one :
    ∃ s : StopObjects (Fin 1) (Fin 1) (Fin 1), s.callbacks 0 = some (some 0) ∧ Law s := by
  have hfits := fits_of_card (A := Fin 1) (B := Fin 1) (C := Fin 1) (by decide) (by decide)
  have h₁ : machine.Runs Allowed start _ :=
    .tail (a := .newSource 0) .refl ⟨trivial, hfits start _⟩ rfl
  have h₂ : machine.Runs Allowed start _ := .tail (a := .getToken 0 0) h₁ ⟨trivial, hfits _ _⟩ rfl
  have h₃ : machine.Runs Allowed start _ :=
    .tail (a := .registerCopy 0 0) h₂ ⟨trivial, hfits _ _⟩ rfl
  exact ⟨_, rfl, law_of_allowed h₃⟩

end StopObjects

end Sync
