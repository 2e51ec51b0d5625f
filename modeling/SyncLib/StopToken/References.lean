import SyncLib.StopToken.Refinement

/-!
# The references that the threads count

The counts of tokens and sources that the operations on `state_` have left are recorded beside the
threads, with what the calls of `request_stop` have returned. As long as no reference is dropped
that was never taken, and the counts fit into their fields, the word stands for the two counts, for
the lock of one thread and for the stop that one call has requested.
-/

namespace Sync

namespace StopState

open Core

/-! ### Counts -/

/-- The numbers of references. -/
structure Refs where
  tokens : ℕ
  sources : ℕ
  deriving DecidableEq, Repr

namespace RefOp

def count : RefOp → Refs → Refs
  | .incrementToken, r  => { r with tokens := r.tokens + 1 }
  | .decrementToken, r  => { r with tokens := r.tokens - 1 }
  | .incrementSource, r => { r with sources := r.sources + 1 }
  | .decrementSource, r => { r with sources := r.sources - 1 }

/-- A decrement is matched by an earlier increment, and an increment fits into the field. -/
def fits : RefOp → Refs → Bool
  | .incrementToken, r  => decide (r.tokens + 1 < 2 ^ 31)
  | .decrementToken, r  => decide (0 < r.tokens)
  | .incrementSource, r => decide (r.sources + 1 < 2 ^ 31)
  | .decrementSource, r => decide (0 < r.sources)

end RefOp

variable {T N : Type*}

/-- What a step does to the counts. -/
def refOp : Option (Pc N) → Move N → Option RefOp
  | none, .count r                               => some r
  | some (.push _ copy .unlock), .proceed _      => if copy then some .incrementToken else none
  | some (.erase _ .unlockDecrement), .proceed _ => some .decrementToken
  | some (.erase _ .decrement), .proceed _       => some .decrementToken
  | _, _                                         => none

/-- The result of the comparison before `delete this`, in a step that makes one. -/
def deletion (w : Word) : Option (Pc N) → Move N → Option Bool
  | none, .count .decrementToken                 => some (decrementTokenRef w).2
  | none, .count .decrementSource                => some (decrementSourceRef w).2
  | some (.erase _ .unlockDecrement), .proceed _ => some (unlockAndDecrementTokenRef w).2
  | some (.erase _ .decrement), .proceed _       => some (decrementTokenRef w).2
  | _, _                                         => none

/-- What `request_stop` returns in a step to `op'`, if it does. -/
def answer (op op' : Option (Pc N)) : Option Bool :=
  match op with
  | some (.request _)  => if op'.isNone then some false else none
  | some (.stop .last) => some true
  | some (.stop .done) => some true
  | _                  => none

/-- The threads, the counts, and what the calls of `request_stop` have returned so far. -/
structure Counted (T N : Type*) where
  state : State T N
  refs : Refs
  answers : List Bool

namespace Counted

def fits (c : Counted T N) (a : T × Move N) : Bool :=
  (refOp (c.state.control a.1).op a.2).all (RefOp.fits · c.refs)

/-- A new `_stop_state` with its first source. -/
def start : Counted T N := ⟨State.start, ⟨0, 1⟩, []⟩

section

variable [DecidableEq N] [DecidableEq T]

def step (c : Counted T N) (a : T × Move N) : Option (Counted T N) :=
  let u := c.state.control a.1
  (threadStep a.1 c.state.mem c.state.objs u.frames u.op a.2).map fun o =>
    ⟨c.state.after a.1 o, (refOp u.op a.2).elim c.refs (RefOp.count · c.refs),
      (answer u.op o.control.op).toList ++ c.answers⟩

/-- The interleavings in which every decrement is matched and the counts fit. -/
def machine : Machine (Counted T N) (T × Move N) := (⟨step⟩ : Machine _ _).restrict fits

end

end Counted

/-! ### What a thread does to the word -/

/-- The call of `request_stop` that set the flag is under way on the thread. -/
def Control.stopping [DecidableEq N] (c : Control N) : Bool := c.jobs.contains .stop

/-- The word, and whether a thread is between locking and unlocking, and in the call of
`request_stop` that set the flag. -/
structure View where
  word : Word
  locking : Bool
  stopping : Bool

/-- The steps of a thread, as far as the word is concerned, with what they count and return. -/
inductive View.Step : View → Option RefOp → Option Bool → View → Prop
  | keep (v : View) : Step v none none v
  | refuse (w : Word) (s : Bool) (hs : stopRequested w = true) :
      Step ⟨w, false, s⟩ none (some false) ⟨w, false, s⟩
  | request (w : Word) (hs : stopRequested w = false) (hl : isLocked w = false) :
      Step ⟨w, false, false⟩ none none ⟨requestedAndLocked w, true, true⟩
  | acquire (w : Word) (s : Bool) (hl : isLocked w = false) :
      Step ⟨w, false, s⟩ none none ⟨locked w, true, s⟩
  | release (w : Word) (s : Bool) : Step ⟨w, true, s⟩ none none ⟨unlock w, false, s⟩
  | last (w : Word) : Step ⟨w, true, true⟩ none (some true) ⟨unlock w, false, false⟩
  | done (w : Word) : Step ⟨w, false, true⟩ none (some true) ⟨w, false, false⟩
  | releaseIncrement (w : Word) (s : Bool) :
      Step ⟨w, true, s⟩ (some .incrementToken) none ⟨unlockAndIncrementTokenRef w, false, s⟩
  | releaseDecrement (w : Word) (s : Bool) :
      Step ⟨w, true, s⟩ (some .decrementToken) none ⟨(unlockAndDecrementTokenRef w).1, false, s⟩
  | count (w : Word) (s : Bool) (r : RefOp) :
      Step ⟨w, false, s⟩ (some r) none ⟨r.apply w, false, s⟩

variable [DecidableEq N]

def Control.view (c : Control N) (w : Word) : View := ⟨w, c.holdsLock, c.stopping⟩

namespace Control

variable (frames : List (Frame N))

/-- Whether a callback over one of the frames is run by `request_stop`. -/
def stoppingUnder : Bool := (frames.map Frame.job).contains .stop

lemma view_none (w : Word) :
    (⟨none, frames⟩ : Control N).view w = ⟨w, false, stoppingUnder frames⟩ := rfl

lemma view_request (w : Word) (p : RequestPc) :
    (⟨some (.request p), frames⟩ : Control N).view w = ⟨w, false, stoppingUnder frames⟩ := rfl

lemma view_stop (w : Word) (p : StopPc N) :
    (⟨some (.stop p), frames⟩ : Control N).view w = ⟨w, (Pc.stop p).holdsLock, true⟩ := rfl

lemma view_push (w : Word) (cb : N) (copy : Bool) (p : PushPc) :
    (⟨some (.push cb copy p), frames⟩ : Control N).view w =
      ⟨w, (Pc.push cb copy p).holdsLock, stoppingUnder frames⟩ := rfl

lemma view_erase (w : Word) (cb : N) (p : ErasePc) :
    (⟨some (.erase cb p), frames⟩ : Control N).view w =
      ⟨w, (Pc.erase cb p).holdsLock, stoppingUnder frames⟩ := rfl

end Control

variable {s : State T N} {L : Life T N} {t : T} {frames : List (Frame N)}
  {m : Move N} {o : Outcome T N}

namespace Coupled

open Control

/-- Under the first step of a method the call of `request_stop` is another one. -/
lemma stoppingUnder_eq_false (h : Coupled s L) {p : StopPc N}
    (hc : s.control t = ⟨some (.stop p), frames⟩) : stoppingUnder frames = false := by
  have hnodup := (h.thread t).nodup
  rw [hc] at hnodup
  simpa [stoppingUnder] using (List.nodup_cons.mp hnodup).1

lemma view_user (hc : s.control t = ⟨none, frames⟩)
    (ho : userStep t s.mem s.objs frames m = some o) :
    ((s.control t).view s.mem.word).Step (refOp none m) none (o.control.view o.mem.word) := by
  rw [hc, view_none]
  cases m with
  | requestStop =>
    cases ho
    exact .keep _
  | construct cb copy =>
    rw [userStep] at ho
    split at ho <;> cases ho
    exact .keep _
  | destroy cb =>
    rw [userStep] at ho
    split at ho <;> cases ho
    · exact .keep _
    · exact .keep _
  | leave =>
    cases frames with
    | nil => cases ho
    | cons f rest =>
      cases f with
      | stop cb empty =>
        cases ho
        exact .keep _
      | push cb =>
        cases ho
        exact .keep _
  | count r =>
    cases ho
    exact .count s.mem.word _ r
  | proceed ok => cases ho

lemma view_request (h : Coupled s L) {p : RequestPc} (ok : Bool)
    (hc : s.control t = ⟨some (.request p), frames⟩)
    (ho : requestStep t s.mem s.objs frames ok p = o) :
    ((s.control t).view s.mem.word).Step none (answer (some (.request p)) o.control.op)
      (o.control.view o.mem.word) := by
  have ht := h.thread t
  rw [hc] at ht
  have hok : p.Ok := ht.op _ rfl
  rw [hc, Control.view_request]
  have hretry : o = ⟨s.mem, s.objs, ⟨(RequestPc.test s.mem.word).map .request, frames⟩, none⟩ →
      View.Step ⟨s.mem.word, false, stoppingUnder frames⟩ none
        (answer (some (.request p)) o.control.op) (o.control.view o.mem.word) := by
    rintro rfl
    rw [RequestPc.test]
    split_ifs with hstop
    · exact .refuse _ _ hstop
    · exact .keep _
    · exact .keep _
  cases p with
  | load => exact hretry ho.symm
  | cas past =>
    rw [requestStep] at ho
    split_ifs at ho with hcas
    · obtain ⟨hstop, hlock⟩ := hok
      -- nobody has requested a stop, so no call under this one has
      have hw := h.winner_eq_none (hcas.2 ▸ hstop)
      have hunder : stoppingUnder frames = false := by
        rw [← Bool.not_eq_true, stoppingUnder, List.contains_iff_mem]
        intro hj
        have hown : L.winner = some t := ht.owned .stop hj
        simp [hw] at hown
      rw [hcas.2, hunder]
      subst ho
      exact .request past hstop hlock
    · exact hretry ho.symm

lemma view_push (h : Coupled s L) {cb : N} {copy : Bool} {p : PushPc} (ok : Bool)
    (hc : s.control t = ⟨some (.push cb copy p), frames⟩)
    (ho : pushStep s.mem s.objs frames ok cb copy p = o) :
    ((s.control t).view s.mem.word).Step (refOp (some (.push cb copy p)) (.proceed ok)) none
      (o.control.view o.mem.word) := by
  have ht := h.thread t
  rw [hc] at ht
  have hok : p.Ok L cb := ht.op _ rfl
  rw [hc, Control.view_push]
  subst ho
  cases p with
  | load =>
    simp only [pushStep]
    split_ifs <;> exact .keep _
  | cas past =>
    rw [pushStep]
    split_ifs with hcas
    · rw [hcas.2]
      exact .acquire past _ hok.2.2
    · exact .keep _
  | link => exact .keep _
  | unlock =>
    cases copy with
    | true => exact .releaseIncrement s.mem.word _
    | false => exact .release s.mem.word _
  | start => exact .keep _

variable [DecidableEq T]

lemma view_stop (h : Coupled s L) {p : StopPc N} (ok : Bool)
    (hc : s.control t = ⟨some (.stop p), frames⟩)
    (ho : stopStep t s.mem s.objs frames ok p = o) :
    ((s.control t).view s.mem.word).Step none (answer (some (.stop p)) o.control.op)
      (o.control.view o.mem.word) := by
  have ht := h.thread t
  rw [hc] at ht
  have hok : p.Ok s.mem.flags L t frames.length := ht.op _ rfl
  have hunder := h.stoppingUnder_eq_false hc
  rw [hc, Control.view_stop]
  have hretry : ∀ q : StopPc N, (Pc.stop q).holdsLock = false →
      View.Step ⟨s.mem.word, false, true⟩ none none
        ((⟨some (.stop q), frames⟩ : Control N).view s.mem.word) := by
    intro q hq
    rw [Control.view_stop, hq]
    exact .keep _
  have htest : (Pc.stop (StopPc.test s.mem.word : StopPc N)).holdsLock = false := by
    rw [StopPc.test]
    split_ifs <;> rfl
  subst ho
  cases p with
  | pop first =>
    simp only [stopStep]
    split
    · cases first <;> exact .keep _
    · cases first <;> exact .keep _
  | unlock cb empty => exact .release s.mem.word true
  | start cb empty => exact .keep _
  | mark cb empty =>
    by_cases hflag : s.mem.flags (t, frames.length) = true
    · rw [stopStep, if_pos hflag]
      cases empty <;> exact .keep _
    · rw [stopStep, if_neg hflag]
      cases empty <;> exact .keep _
  | load => exact hretry _ htest
  | cas past =>
    rw [stopStep]
    split_ifs with hcas
    · rw [hcas.2]
      exact .acquire past true hok
    · exact hretry _ htest
  | last =>
    show View.Step ⟨s.mem.word, true, true⟩ none (some true)
      ⟨unlock s.mem.word, false, stoppingUnder frames⟩
    rw [hunder]
    exact .last s.mem.word
  | done =>
    show View.Step ⟨s.mem.word, false, true⟩ none (some true)
      ⟨s.mem.word, false, stoppingUnder frames⟩
    rw [hunder]
    exact .done s.mem.word

lemma view_erase (h : Coupled s L) {cb : N} {p : ErasePc} (ok : Bool)
    (hc : s.control t = ⟨some (.erase cb p), frames⟩)
    (ho : eraseStep t s.mem s.objs frames ok cb p = o) :
    ((s.control t).view s.mem.word).Step (refOp (some (.erase cb p)) (.proceed ok)) none
      (o.control.view o.mem.word) := by
  have ht := h.thread t
  rw [hc] at ht
  have hok : p.Ok L t cb := ht.op _ rfl
  rw [hc, Control.view_erase]
  have hretry : View.Step ⟨s.mem.word, false, stoppingUnder frames⟩ none none
      ((⟨some (.erase cb (.test s.mem.word)), frames⟩ : Control N).view s.mem.word) := by
    rw [ErasePc.test]
    split_ifs <;> exact .keep _
  subst ho
  cases p with
  | load => exact hretry
  | cas past =>
    rw [eraseStep]
    split_ifs with hcas
    · rw [hcas.2]
      exact .acquire past _ hok.2
    · exact hretry
  | unlink =>
    simp only [eraseStep]
    split <;> exact .keep _
  | unlockDecrement => exact .releaseDecrement s.mem.word _
  | unlock => exact .release s.mem.word _
  | check =>
    simp only [eraseStep]
    split
    · split <;> exact .keep _
    · exact .keep _
  | wait =>
    simp only [eraseStep]
    split_ifs <;> exact .keep _
  | decrement => exact .count s.mem.word _ .decrementToken

/-- One step of a thread is a step of its view of the word. -/
theorem view_step (h : Coupled s L)
    (ho : threadStep t s.mem s.objs (s.control t).frames (s.control t).op m = some o) :
    ((s.control t).view s.mem.word).Step (refOp (s.control t).op m)
      (answer (s.control t).op o.control.op) (o.control.view o.mem.word) := by
  cases hc : s.control t with
  | mk op frames =>
    have hop : (s.control t).op = op := congrArg Control.op hc
    rw [hc] at ho
    rw [← hc, hop]
    cases op with
    | none => exact view_user hc ho
    | some pc =>
      cases m with
      | proceed ok =>
        cases pc with
        | request p => exact h.view_request ok hc (Option.some.inj ho)
        | stop p => exact h.view_stop ok hc (Option.some.inj ho)
        | push cb copy p => exact h.view_push ok hc (Option.some.inj ho)
        | erase cb p => exact h.view_erase ok hc (Option.some.inj ho)
      | _ => cases pc <;> cases ho

end Coupled

/-! ### What the word stands for -/

lemma Encodes.stop_self {w : Word} {stop lock : Bool} {tokens sources : ℕ}
    (h : Encodes w stop lock tokens sources) : Encodes w (stopRequested w) lock tokens sources := by
  rw [h.stopRequested_eq]
  exact h

lemma RefOp.encodes {w : Word} {stop lock : Bool} {refs : Refs} (r : RefOp)
    (h : Encodes w stop lock refs.tokens refs.sources) (hfits : r.fits refs = true) :
    Encodes (r.apply w) stop lock (r.count refs).tokens (r.count refs).sources := by
  obtain ⟨tokens, sources⟩ := refs
  cases r with
  | incrementToken => exact h.incrementTokenRef (by simpa [fits] using hfits)
  | decrementToken =>
    cases tokens with
    | zero => simp [fits] at hfits
    | succ k => exact h.decrementTokenRef.1
  | incrementSource => exact h.incrementSourceRef (by simpa [fits] using hfits)
  | decrementSource =>
    cases sources with
    | zero => simp [fits] at hfits
    | succ k => exact h.decrementSourceRef.1

namespace Encodes

variable {w : Word} {stop lock : Bool} {refs : Refs}

lemma decrementToken_deletes (h : Encodes w stop lock refs.tokens refs.sources)
    (hfits : RefOp.decrementToken.fits refs = true) :
    (StopState.decrementTokenRef w).2 = true ↔
      (RefOp.decrementToken.count refs).tokens = 0 ∧
        (RefOp.decrementToken.count refs).sources = 0 := by
  obtain ⟨tokens, sources⟩ := refs
  cases tokens with
  | zero => simp [RefOp.fits] at hfits
  | succ k => exact h.decrementTokenRef.2

lemma decrementSource_deletes (h : Encodes w stop lock refs.tokens refs.sources)
    (hfits : RefOp.decrementSource.fits refs = true) :
    (StopState.decrementSourceRef w).2 = true ↔
      (RefOp.decrementSource.count refs).tokens = 0 ∧
        (RefOp.decrementSource.count refs).sources = 0 := by
  obtain ⟨tokens, sources⟩ := refs
  cases sources with
  | zero => simp [RefOp.fits] at hfits
  | succ k => exact h.decrementSourceRef.2

lemma unlockAndDecrement_deletes (h : Encodes w stop true refs.tokens refs.sources)
    (hfits : RefOp.decrementToken.fits refs = true) :
    (StopState.unlockAndDecrementTokenRef w).2 = true ↔
      (RefOp.decrementToken.count refs).tokens = 0 ∧
        (RefOp.decrementToken.count refs).sources = 0 := by
  obtain ⟨tokens, sources⟩ := refs
  cases tokens with
  | zero => simp [RefOp.fits] at hfits
  | succ k => exact h.unlockAndDecrementTokenRef.2

end Encodes

namespace View

variable {v v' : View} {r : Option RefOp} {a : Option Bool} {refs : Refs}

/-- Where the lock is held the word says so. -/
def Locked (v : View) : Prop := v.locking = true → isLocked v.word = true

/-- The lock after a step. -/
def lockAfter (v v' : View) : Bool := if v'.locking = v.locking then isLocked v.word else v'.locking

lemma Step.encodes (h : v.Step r a v') (hlocked : v.Locked)
    (henc : Encodes v.word (stopRequested v.word) (isLocked v.word) refs.tokens refs.sources)
    (hfits : ∀ x ∈ r, x.fits refs = true) :
    Encodes v'.word (stopRequested v'.word) (lockAfter v v')
      (r.elim refs (RefOp.count · refs)).tokens (r.elim refs (RefOp.count · refs)).sources := by
  rw [lockAfter]
  cases h with
  | keep => simpa using henc
  | refuse w s hs => exact henc
  | request w hs hl =>
    simp only [hs, hl] at henc
    exact henc.requestedAndLocked.stop_self
  | acquire w s hl =>
    simp only [hl] at henc
    exact henc.locked.stop_self
  | release w s =>
    simp only [hlocked rfl] at henc
    exact henc.unlock.stop_self
  | last w =>
    simp only [hlocked rfl] at henc
    exact henc.unlock.stop_self
  | done w => exact henc
  | releaseIncrement w s =>
    simp only [hlocked rfl] at henc
    apply (henc.unlockAndIncrementTokenRef _).stop_self
    simpa [RefOp.fits] using hfits _ rfl
  | releaseDecrement w s =>
    simp only [hlocked rfl] at henc
    obtain ⟨tokens, sources⟩ := refs
    cases tokens with
    | zero => simpa [RefOp.fits] using hfits _ rfl
    | succ k => exact henc.unlockAndDecrementTokenRef.1.stop_self
  | count w s x => exact (x.encodes henc (hfits x rfl)).stop_self

lemma lockAfter_cases (h : lockAfter v v' = true) :
    v'.locking = true ∨ v.locking = false ∧ isLocked v.word = true := by
  rw [lockAfter] at h
  split_ifs at h with heq
  · rw [heq]
    cases v.locking
    · exact .inr ⟨rfl, h⟩
    · exact .inl rfl
  · exact .inl h

end View

/-! ### Who requests the stop -/

/-- A step of a thread, as far as the flag and the call that sets it are concerned: the flag and
whether the call is under way on the thread, before and after, and what a call returns. -/
inductive Turn : Bool → Bool → Option Bool → Bool → Bool → Prop
  | keep (stop call : Bool) : Turn stop call none stop call
  | request : Turn false false none true true
  | refuse (call : Bool) : Turn true call (some false) true call
  | accept (stop : Bool) : Turn stop true (some true) stop false

lemma Turn.mono {stop call stop' call' : Bool} {a : Option Bool}
    (h : Turn stop call a stop' call') (hs : stop = true) : stop' = true := by
  cases h with
  | keep => exact hs
  | request => cases hs
  | refuse => rfl
  | accept => exact hs

/-- No call returns before the flag is set. After that one call is under way, or has returned true;
`calls` says on which threads it is. -/
def Decided (stop : Bool) (answers : List Bool) (calls : T → Bool) : Prop :=
  if stop then
    answers.count true = 0 ∧ (∃! t, calls t = true) ∨
      answers.count true = 1 ∧ ∀ t, calls t = false
  else answers = [] ∧ ∀ t, calls t = false

namespace Decided

variable {stop stop' call call' : Bool} {answers : List Bool} {calls : T → Bool} {t : T}
  {a : Option Bool}

theorem turn [DecidableEq T] (h : Decided stop answers calls)
    (hturn : Turn stop (calls t) a stop' call') :
    Decided stop' (a.toList ++ answers) (Function.update calls t call') := by
  generalize hcall : calls t = call at hturn
  cases hturn with
  | keep =>
    rw [← hcall, Function.update_eq_self]
    exact h
  | request =>
    obtain ⟨rfl, hnone⟩ := h
    refine .inl ⟨rfl, t, Function.update_self .., fun u hu => ?_⟩
    by_contra hut
    simp [hut, hnone u] at hu
  | refuse =>
    rw [← hcall, Function.update_eq_self]
    rcases h with ⟨hcount, hone⟩ | ⟨hcount, hnone⟩
    · exact .inl ⟨by simpa using hcount, hone⟩
    · exact .inr ⟨by simpa using hcount, hnone⟩
  | accept =>
    cases stop with
    | false => simp [h.2 t] at hcall
    | true =>
      rcases h with ⟨hcount, hone⟩ | ⟨-, hnone⟩
      · refine .inr ⟨by simpa using hcount, fun u => ?_⟩
        by_cases hut : u = t
        · rw [hut, Function.update_self]
        · rw [Function.update_of_ne hut, ← Bool.not_eq_true]
          intro hu
          exact hut (hone.unique hu hcall)
      · simp [hnone t] at hcall

end Decided

lemma View.Step.turn {v v' : View} {r : Option RefOp} {a : Option Bool} (h : v.Step r a v')
    (hlocked : v.Locked) :
    Turn (stopRequested v.word) v.stopping a (stopRequested v'.word) v'.stopping := by
  cases h with
  | keep => exact .keep _ _
  | refuse w s hs =>
    simp only [hs]
    exact .refuse s
  | request w hs hl =>
    simp only [hs, (flags_requestedAndLocked hs hl).1]
    exact .request
  | acquire w s hl =>
    simp only [(flags_locked hl).1]
    exact .keep _ _
  | release w s =>
    simp only [stopRequested_unlock (hlocked rfl)]
    exact .keep _ _
  | last w =>
    simp only [stopRequested_unlock (hlocked rfl)]
    exact .accept _
  | done w => exact .accept _
  | releaseIncrement w s =>
    simp only [stopRequested_unlockAndIncrementTokenRef]
    exact .keep _ _
  | releaseDecrement w s =>
    simp only [stopRequested_unlockAndDecrementTokenRef]
    exact .keep _ _
  | count w s x =>
    simp only [(Coupled.flags_apply x w).1]
    exact .keep _ _

/-! ### The law -/

namespace Counted

/-- The word of the state. -/
def word (c : Counted T N) : Word := c.state.mem.word

/-- The threads on which the call of `request_stop` is under way that set the flag. -/
def calls (c : Counted T N) : T → Bool := Control.stopping ∘ c.state.control

structure Inv (c : Counted T N) : Prop where
  coupled : ∃ L, Coupled c.state L
  encodes : Encodes c.word (stopRequested c.word) (isLocked c.word) c.refs.tokens c.refs.sources
  locked : isLocked c.word = true → ∃ t, (c.state.control t).holdsLock = true
  decided : Decided (stopRequested c.word) c.answers c.calls

variable {c c' : Counted T N} {t : T} {m : Move N}

namespace Inv

lemma initial : Inv (start : Counted T N) := by
  have hs : stopRequested (start : Counted T N).word = false := encodes_initial.stopRequested_eq
  have hl : isLocked (start : Counted T N).word = false := encodes_initial.isLocked_eq
  refine ⟨⟨_, Coupled.start⟩, ?_, ?_, ?_⟩
  · rw [hs, hl]
    exact encodes_initial
  · simp [hl]
  · rw [hs]
    exact ⟨rfl, fun t => rfl⟩

lemma locked_view (h : Inv c) (t : T) : ((c.state.control t).view c.word).Locked := by
  obtain ⟨L, hL⟩ := h.coupled
  exact hL.exclusive.locked t

end Inv

variable [DecidableEq T]

/-- What the word means in a state, and what a step from there may do. -/
structure Law (c : Counted T N) : Prop where
  word : ∃ stop lock : Bool, Encodes c.word stop lock c.refs.tokens c.refs.sources ∧
    (stop = true ↔ ∃ t, .requested t ∈ c.state.log) ∧
      (lock = true ↔ ∃ t, (c.state.control t).holdsLock = true)
  exclusive : ∀ t u, (c.state.control t).holdsLock = true →
    (c.state.control u).holdsLock = true → t = u
  kept : ∀ c', machine.Reachable c c' → stopRequested c.word = true → stopRequested c'.word = true
  decided : Decided (stopRequested c.word) c.answers c.calls
  deletes : ∀ t m c', machine.step c (t, m) = some c' →
    ∀ d ∈ deletion c.word (c.state.control t).op m,
      (d = true ↔ c'.refs.tokens = 0 ∧ c'.refs.sources = 0)

lemma step_eq_some (h : machine.step c (t, m) = some c') :
    (∀ r ∈ refOp (c.state.control t).op m, r.fits c.refs = true) ∧
    ∃ o, threadStep t c.state.mem c.state.objs (c.state.control t).frames (c.state.control t).op m
        = some o ∧
      c' = ⟨c.state.after t o, (refOp (c.state.control t).op m).elim c.refs (RefOp.count · c.refs),
        (answer (c.state.control t).op o.control.op).toList ++ c.answers⟩ := by
  obtain ⟨hfits, hs⟩ := Machine.restrict_step_eq_some.mp h
  obtain ⟨o, ho, rfl⟩ := Option.map_eq_some_iff.mp hs
  refine ⟨fun r hr => ?_, o, ho, rfl⟩
  rw [fits, Option.mem_def.mp hr] at hfits
  exact hfits

namespace Inv

theorem step (h : Inv c) (hs : machine.step c (t, m) = some c') : Inv c' := by
  obtain ⟨hfits, o, ho, rfl⟩ := step_eq_some hs
  obtain ⟨L, hL⟩ := h.coupled
  have hview := hL.view_step ho
  have hlocked := h.locked_view t
  have henc := hview.encodes hlocked h.encodes hfits
  refine ⟨hL.thread_step ho, ?_, ?_, ?_⟩
  · have hl : isLocked o.mem.word = _ := henc.isLocked_eq
    rw [← hl] at henc
    exact henc
  · intro hl
    have hafter : View.lockAfter _ _ = true := henc.isLocked_eq.symm.trans hl
    rcases View.lockAfter_cases hafter with hheld | ⟨hfree, hlock⟩
    · refine ⟨t, ?_⟩
      change o.control.holdsLock = true at hheld
      simpa [State.after] using hheld
    · obtain ⟨u, hu⟩ := h.locked hlock
      have hut : u ≠ t := by
        rintro rfl
        exact Bool.false_ne_true (hfree.symm.trans hu)
      refine ⟨u, ?_⟩
      simpa [State.after, hut] using hu
  · have hcalls : Control.stopping ∘ (c.state.after t o).control =
        Function.update c.calls t o.control.stopping := Function.comp_update ..
    simp only [calls, hcalls]
    exact h.decided.turn (hview.turn hlocked)

lemma mono (h : Inv c) (hs : machine.step c (t, m) = some c')
    (hstop : stopRequested c.word = true) : stopRequested c'.word = true := by
  obtain ⟨-, o, ho, rfl⟩ := step_eq_some hs
  obtain ⟨L, hL⟩ := h.coupled
  exact ((hL.view_step ho).turn (h.locked_view t)).mono hstop

/-- The comparison before `delete this` is for the last reference. -/
lemma deletes (h : Inv c) (hs : machine.step c (t, m) = some c') {d : Bool}
    (hd : deletion c.word (c.state.control t).op m = some d) :
    d = true ↔ c'.refs.tokens = 0 ∧ c'.refs.sources = 0 := by
  obtain ⟨hfits, o, ho, rfl⟩ := step_eq_some hs
  have henc := h.encodes
  have hlocked := h.locked_view t
  rw [Control.view] at hlocked
  cases hc : c.state.control t with
  | mk op frames =>
    rw [hc] at hfits hd hlocked ho
    cases op with
    | none =>
      cases m with
      | count r =>
        have hr := hfits r rfl
        cases r with
        | decrementToken =>
          cases hd
          exact henc.decrementToken_deletes hr
        | decrementSource =>
          cases hd
          exact henc.decrementSource_deletes hr
        | _ => cases hd
      | _ => cases hd
    | some pc =>
      cases m with
      | proceed ok =>
        cases pc with
        | erase cb p =>
          cases p with
          | unlockDecrement =>
            cases hd
            rw [show isLocked c.word = true from hlocked rfl] at henc
            exact henc.unlockAndDecrement_deletes (hfits _ rfl)
          | decrement =>
            cases hd
            exact henc.decrementToken_deletes (hfits _ rfl)
          | _ => cases hd
        | _ => cases hd
      | _ => cases pc <;> cases ho

theorem law (h : Inv c) : Law c := by
  obtain ⟨L, hL⟩ := h.coupled
  refine ⟨⟨_, _, h.encodes, ?_, h.locked, ?_⟩, hL.exclusive.unique, ?_, h.decided, ?_⟩
  · rw [word, hL.requested, Option.isSome_iff_exists]
    simp only [hL.runs.law.1.winner_iff]
  · rintro ⟨t, ht⟩
    exact hL.exclusive.locked t ht
  · intro c' hrun hstop
    have hinv : Inv c' ∧ stopRequested c'.word = true := by
      apply hrun.invariant (I := fun c => Inv c ∧ stopRequested c.word = true) ⟨h, hstop⟩
      rintro u ⟨t, m⟩ u' ⟨hu, hst⟩ - hs
      exact ⟨hu.step hs, hu.mono hs hst⟩
    exact hinv.2
  · intro t m c' hs d hd
    exact h.deletes hs hd

end Inv

/-- In every interleaving in which every decrement is matched and the counts fit into their fields,
the word stands for the references, the lock and the stop that one call has requested, and the
state is deleted with its last reference. -/
theorem reference_law (h : machine.Reachable start c) : Law c := by
  have hinv : Inv c := h.invariant Inv.initial fun u a u' hu _ hs => hu.step hs
  exact hinv.law

/-- A token is taken, a callback registered and erased, and a stop requested; the source is dropped
and the token after it. -/
theorem reference_law_two : ∃ c : Counted (Fin 2) (Fin 1), machine.Reachable start c ∧
    c.refs = ⟨0, 0⟩ ∧ c.answers = [true] ∧ Law c := by
  obtain ⟨c, hc, hp⟩ := Machine.exists_reachable_of_run (M := machine)
    (s := (start : Counted (Fin 2) (Fin 1)))
    [(1, .count .incrementToken), (0, .construct 0 true), (0, .proceed true), (0, .proceed true),
      (0, .proceed true), (0, .proceed true), (0, .destroy 0), (0, .proceed true),
      (0, .proceed true), (0, .proceed true), (0, .proceed true), (1, .requestStop),
      (1, .proceed true), (1, .proceed true), (1, .proceed true), (1, .proceed true),
      (0, .count .decrementSource), (1, .count .decrementToken)]
    (fun c => c.refs == ⟨0, 0⟩ && c.answers == [true]) (by decide +kernel)
  rw [Bool.and_eq_true, beq_iff_eq, beq_iff_eq] at hp
  exact ⟨c, hc, hp.1, hp.2, reference_law hc⟩

end Counted

end StopState

end Sync
