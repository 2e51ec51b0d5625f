import SyncLib.StopToken.Threads

/-!
# What the threads keep

The invariant that couples the threads of a `_stop_state` with the life of the callbacks. Every
fact about a callback belongs to the thread that has it in hand, and no step of another thread
breaks it.
-/

namespace Sync

namespace StopState

open Core

variable {T N : Type*}

/-! ### What a thread has in hand -/

/-- Between a lock and its unlock. -/
def Pc.holdsLock : Pc N → Bool
  | .stop (.pop _) | .stop (.unlock _ _) | .stop .last => true
  | .push _ _ .link | .push _ _ .unlock => true
  | .erase _ .unlink | .erase _ .unlockDecrement | .erase _ .unlock => true
  | _ => false

/-- A method that a thread has begun, its compare-exchange done in the case of `request_stop`. -/
inductive Job (N : Type*)
  | stop
  | push (cb : N)
  | erase (cb : N)
  deriving DecidableEq, Repr

def Pc.job : Pc N → Option (Job N)
  | .request _    => none
  | .stop _       => some .stop
  | .push cb _ _  => some (.push cb)
  | .erase cb _   => some (.erase cb)

def Frame.job : Frame N → Job N
  | .stop _ _ => .stop
  | .push cb  => .push cb

/-- The callback that `request_stop` has taken off the list. -/
def Pc.hand : Pc N → Option N
  | .stop (.unlock cb _) | .stop (.start cb _) | .stop (.mark cb _) => some cb
  | _ => none

def Frame.hand : Frame N → Option N
  | .stop cb _ => some cb
  | .push _    => none

/-- The callback that runs over the frame. -/
def Frame.node : Frame N → N
  | .stop cb _ | .push cb => cb

namespace Control

def holdsLock (c : Control N) : Bool := c.op.any Pc.holdsLock

def jobs (c : Control N) : List (Job N) := (c.op.bind Pc.job).toList ++ c.frames.map Frame.job

def hands (c : Control N) : List N := (c.op.bind Pc.hand).toList ++ c.frames.filterMap Frame.hand

/-- Only `request_stop` has callbacks in hand. -/
lemma hands_frames_eq_nil {frames : List (Frame N)} (h : Job.stop ∉ frames.map Frame.job) :
    frames.filterMap Frame.hand = [] := by
  refine List.filterMap_eq_nil_iff.mpr fun f hf => ?_
  cases f with
  | stop cb empty => exact absurd (List.mem_map_of_mem (f := Frame.job) hf) h
  | push cb => rfl

end Control

/-- Only one thread has the lock. -/
structure Exclusive (w : Word) (control : T → Control N) : Prop where
  locked : ∀ u, (control u).holdsLock = true → isLocked w = true
  unique : ∀ u v, (control u).holdsLock = true → (control v).holdsLock = true → u = v

lemma Exclusive.update [DecidableEq T] {w w' : Word} {control : T → Control N} {t : T}
    {c : Control N} (h : Exclusive w control)
    (hheld : c.holdsLock = true →
      isLocked w' = true ∧ ((control t).holdsLock = true ∨ isLocked w = false))
    (hkept : (control t).holdsLock = false → isLocked w = true → isLocked w' = true) :
    Exclusive w' (Function.update control t c) := by
  have hother : ∀ v, v ≠ t → (control v).holdsLock = true → (control t).holdsLock = false := by
    intro v hv hlock
    by_contra ht
    exact hv (h.unique v t hlock (by simpa using ht))
  have hnew : ∀ v, v ≠ t → c.holdsLock = true → (control v).holdsLock = false := by
    intro v hv hc
    by_contra hlock
    rw [Bool.not_eq_false] at hlock
    rcases (hheld hc).2 with ht | hw
    · simp [hother v hv hlock] at ht
    · simp [h.locked v hlock] at hw
  constructor
  · intro u hu
    by_cases hut : u = t
    · subst hut
      rw [Function.update_self] at hu
      exact (hheld hu).1
    · rw [Function.update_of_ne hut] at hu
      exact hkept (hother u hut hu) (h.locked u hu)
  · intro u v hu hv
    by_cases hut : u = t <;> by_cases hvt : v = t
    · exact hut.trans hvt.symm
    · subst hut
      rw [Function.update_self] at hu
      rw [Function.update_of_ne hvt] at hv
      simp [hnew v hvt hu] at hv
    · subst hvt
      rw [Function.update_self] at hv
      rw [Function.update_of_ne hut] at hu
      simp [hnew u hut hv] at hu
    · rw [Function.update_of_ne hut] at hu
      rw [Function.update_of_ne hvt] at hv
      exact h.unique u v hu hv

/-! ### Whose event it is -/

/-- The thread that constructs or destroys a callback, or that has requested the stop, may make
the event happen. -/
def Event.Owned (t : T) (winner : Option T) (objs : N → Obj T) : Event T N → Prop
  | .requested _ | .stopped _ => True
  | .linked n | .registered n | .refused n | .entered n | .left n => objs n = .constructing t
  | .popped _ _ | .started _ _ | .finished _ _ | .marked _ => winner = some t
  | .unlinked n | .erased n _ => objs n = .destroying t
  | .removed n => objs n = .destroying t ∧ winner = some t

lemma winner_ne {t u : T} {winner : Option T} (hu : u ≠ t) (hw : winner = some u) :
    winner ≠ some t := by
  rw [hw]
  exact fun h => hu (Option.some.inj h)

namespace Stage

/-- In its constructor. -/
def isBuilding : Stage → Bool
  | fresh | linking | entered => true
  | _ => false

/-- An execution has started and not ended. -/
def isExecuting : Stage → Bool
  | running | removed | entered => true
  | _ => false

/-- `request_stop` took it off the list, and it is not erased. -/
def isTaken : Stage → Bool
  | popped | running | ran | marked => true
  | _ => false

/-- Registered, and `erase_callback` has not found it. -/
def isErasable (st : Stage) : Bool := st == linked || st.isTaken

lemma not_listed_of_taken {st : Stage} (h : st.isTaken = true) : st.isListed = false := by
  cases st <;> simp_all [isTaken, isListed]

end Stage

variable [DecidableEq N]

namespace Life

variable {L L' : Life T N} {e : Event T N} {t u : T} {objs : N → Obj T} {n : N}

lemma Step.stage_eq (h : L.Step e L') (hn : e.node ≠ some n) : L'.stage n = L.stage n := by
  cases h <;> first
    | rfl
    | exact set_stage_of_ne L _ fun heq => hn (heq ▸ rfl)

lemma Step.winner_eq (h : L.Step e L') (hw : L.winner = some t) : L'.winner = some t := by
  cases h <;> simp_all

lemma Step.noneListed (h : L.Step e L') (hw : L.winner = some t) (hl : L.NoneListed) :
    L'.NoneListed := by
  intro n
  have hln := hl n
  by_cases hn : e.node = some n
  · cases h <;> simp_all [Event.node, Stage.isListed]
  · rw [h.stage_eq hn, hln]

/-- A callback in its constructor is left alone by other threads. -/
lemma Step.building (h : L.Step e L') (ho : e.Owned t L.winner objs) (hu : u ≠ t)
    (hobj : objs n = .constructing u) (hst : (L.stage n).isBuilding = true)
    (hw : L.stage n = .linking → L.winner = none) : L'.stage n = L.stage n := by
  by_cases hn : e.node = some n
  · cases h <;> simp_all [Event.node, Event.Owned, Stage.isBuilding, Stage.isListed_iff]
  · exact h.stage_eq hn

/-- A callback in the hands of `request_stop` is left alone by other threads. -/
lemma Step.current (h : L.Step e L') (ho : e.Owned t L.winner objs) (hw : L.winner ≠ some t)
    (hst : (L.stage n).isCurrent = true ∨ (L'.stage n).isCurrent = true) :
    L'.stage n = L.stage n := by
  by_cases hn : e.node = some n
  · cases h <;> simp_all [Event.node, Event.Owned, Stage.isCurrent]
  · exact h.stage_eq hn

/-- A callback that a thread destroys stays off the list, or on it, but for `request_stop`. -/
lemma Step.erasable (h : L.Step e L') (ho : e.Owned t L.winner objs) (hu : u ≠ t)
    (hobj : objs n = .destroying u) :
    ((L.stage n).isErasable = true → (L'.stage n).isErasable = true) ∧
      ((L.stage n).isTaken = true → (L'.stage n).isTaken = true) ∧
      (L.stage n = .unlinked → L'.stage n = .unlinked) ∧
      (L.stage n = .marked → L'.stage n = .marked) := by
  by_cases hn : e.node = some n
  · cases h with
    | popped m head hm _ =>
      rcases Stage.isListed_iff.mp hm with hm | hm <;>
        simp_all [Event.node, Event.Owned, Stage.isErasable, Stage.isTaken]
    | _ => simp_all [Event.node, Event.Owned, Stage.isErasable, Stage.isTaken]
  · simp [h.stage_eq hn]

end Life

/-! ### What a thread knows -/

def RequestPc.Ok : RequestPc → Prop
  | .load     => True
  | .cas past => stopRequested past = false ∧ isLocked past = false

/-- Over `depth` frames, `request_stop` has one callback in hand or none; it was the last one if
`empty` is set. -/
def StopPc.Ok (flags : Local T → Bool) (L : Life T N) (u : T) (depth : ℕ) : StopPc N → Prop
  | .pop _ | .load => True
  | .unlock cb empty | .start cb empty =>
    L.stage cb = .popped ∧ (empty = true → L.NoneListed)
  | .mark cb empty =>
    (if flags (u, depth) = true then (L.stage cb).isCurrent = false
      else L.stage cb = .ran) ∧ (empty = true → L.NoneListed)
  | .cas past => isLocked past = false
  | .last | .done => L.NoneListed

def PushPc.Ok (L : Life T N) (cb : N) : PushPc → Prop
  | .load | .start => L.stage cb = .fresh
  | .cas past => L.stage cb = .fresh ∧ stopRequested past = false ∧ isLocked past = false
  | .link => L.stage cb = .fresh ∧ L.winner = none
  | .unlock => L.stage cb = .linking ∧ L.winner = none

def ErasePc.Ok (L : Life T N) (u : T) (cb : N) : ErasePc → Prop
  | .load | .unlink => (L.stage cb).isErasable = true
  | .cas past => (L.stage cb).isErasable = true ∧ isLocked past = false
  | .unlockDecrement => L.stage cb = .unlinked
  | .unlock | .check | .wait => (L.stage cb).isTaken = true
  | .decrement => L.stage cb = .marked ∨ (L.stage cb = .removed ∧ L.winner = some u)

def Pc.Ok (flags : Local T → Bool) (L : Life T N) (u : T) (depth : ℕ) : Pc N → Prop
  | .request p   => p.Ok
  | .stop p      => p.Ok flags L u depth
  | .push cb _ p => p.Ok L cb
  | .erase cb p  => p.Ok L u cb

/-- A callback runs over a frame with `depth` frames under it. -/
def Frame.Ok (flags : Local T → Bool) (isRemoved : N → Option (Local T)) (L : Life T N) (u : T)
    (depth : ℕ) : Frame N → Prop
  | .stop cb empty =>
    isRemoved cb = some (u, depth) ∧
      L.stage cb = (if flags (u, depth) = true then .removed else .running) ∧
      (empty = true → L.NoneListed)
  | .push cb => L.stage cb = .entered

/-- The thread that has begun a method is known. -/
def Job.Owned (u : T) (winner : Option T) (objs : N → Obj T) : Job N → Prop
  | .stop     => winner = some u
  | .push cb  => objs cb = .constructing u
  | .erase cb => objs cb = .destroying u

lemma Job.Owned.update {u : T} {winner : Option T} {objs : N → Obj T} {j : Job N}
    (h : j.Owned u winner objs) {n : N} {o : Obj T} (hpush : j ≠ .push n) (herase : j ≠ .erase n) :
    j.Owned u winner (Function.update objs n o) := by
  cases j with
  | stop => exact h
  | push cb => exact (Function.update_of_ne (fun heq : cb = n => hpush (heq ▸ rfl)) ..).trans h
  | erase cb => exact (Function.update_of_ne (fun heq : cb = n => herase (heq ▸ rfl)) ..).trans h

structure ThreadOk (mem : Memory T N) (objs : N → Obj T) (L : Life T N) (u : T) (c : Control N) :
    Prop where
  nodup : c.jobs.Nodup
  owned : ∀ j ∈ c.jobs, j.Owned u L.winner objs
  op : ∀ pc ∈ c.op, pc.Ok mem.flags L u c.frames.length
  frames : ∀ f rest, f :: rest <:+ c.frames → f.Ok mem.flags mem.isRemoved L u rest.length

/-- What the other threads may rely on when thread `t` makes a step. -/
structure Guarantee (t : T) (mem : Memory T N) (objs : N → Obj T) (L : Life T N)
    (o : Outcome T N) (L' : Life T N) : Prop where
  follows : (o.event = none ∧ L' = L) ∨
    ∃ e, o.event = some e ∧ L.Step e L' ∧ e.Owned t L.winner objs
  unlocked : L.winner = none → L'.winner = none ∨ isLocked mem.word = false
  objs : ∀ n u, u ≠ t → (objs n = .constructing u → o.objs n = .constructing u) ∧
    (objs n = .destroying u → o.objs n = .destroying u)
  flags : ∀ u k, u ≠ t → o.mem.flags (u, k) = mem.flags (u, k)
  isRemoved : ∀ n, o.mem.isRemoved n = mem.isRemoved n ∨ L.winner = some t

namespace Guarantee

variable {t u : T} {mem : Memory T N} {objs : N → Obj T} {L L' : Life T N} {o : Outcome T N}
  {n : N}

lemma winner_eq (h : Guarantee t mem objs L o L') (hw : L.winner = some u) :
    L'.winner = some u := by
  rcases h.follows with ⟨-, rfl⟩ | ⟨e, -, hs, -⟩
  · exact hw
  · exact hs.winner_eq hw

lemma noneListed (h : Guarantee t mem objs L o L') (hw : L.winner = some u)
    (hl : L.NoneListed) : L'.NoneListed := by
  rcases h.follows with ⟨-, rfl⟩ | ⟨e, -, hs, -⟩
  · exact hl
  · exact hs.noneListed hw hl

lemma building (h : Guarantee t mem objs L o L') (hu : u ≠ t) (hobj : objs n = .constructing u)
    (hst : (L.stage n).isBuilding = true) (hw : L.stage n = .linking → L.winner = none) :
    L'.stage n = L.stage n := by
  rcases h.follows with ⟨-, rfl⟩ | ⟨e, -, hs, ho⟩
  · rfl
  · exact hs.building ho hu hobj hst hw

lemma current (h : Guarantee t mem objs L o L') (hw : L.winner ≠ some t)
    (hst : (L.stage n).isCurrent = true ∨ (L'.stage n).isCurrent = true) :
    L'.stage n = L.stage n := by
  rcases h.follows with ⟨-, rfl⟩ | ⟨e, -, hs, ho⟩
  · rfl
  · exact hs.current ho hw hst

lemma erasable (h : Guarantee t mem objs L o L') (hu : u ≠ t) (hobj : objs n = .destroying u) :
    ((L.stage n).isErasable = true → (L'.stage n).isErasable = true) ∧
      ((L.stage n).isTaken = true → (L'.stage n).isTaken = true) ∧
      (L.stage n = .unlinked → L'.stage n = .unlinked) ∧
      (L.stage n = .marked → L'.stage n = .marked) := by
  rcases h.follows with ⟨-, rfl⟩ | ⟨e, -, hs, ho⟩
  · exact ⟨id, id, id, id⟩
  · exact hs.erasable ho hu hobj

lemma owned (h : Guarantee t mem objs L o L') (hu : u ≠ t) {j : Job N}
    (hj : j.Owned u L.winner objs) : j.Owned u L'.winner o.objs := by
  cases j with
  | stop => exact h.winner_eq hj
  | push cb => exact (h.objs cb u hu).1 hj
  | erase cb => exact (h.objs cb u hu).2 hj

lemma stopPc (h : Guarantee t mem objs L o L') (hu : u ≠ t) (hw : L.winner = some u) {k : ℕ}
    {p : StopPc N} (hp : p.Ok mem.flags L u k) : p.Ok o.mem.flags L' u k := by
  cases p with
  | pop first => trivial
  | load => trivial
  | cas past => exact hp
  | last | done => exact h.noneListed hw hp
  | unlock cb empty | start cb empty =>
    refine ⟨?_, fun he => h.noneListed hw (hp.2 he)⟩
    rw [h.current (winner_ne hu hw) (.inl (by rw [hp.1]; rfl)), hp.1]
  | mark cb empty =>
    refine ⟨?_, fun he => h.noneListed hw (hp.2 he)⟩
    have hstage := hp.1
    rw [h.flags u k hu]
    split_ifs at hstage ⊢ with hflag
    · by_contra hcur
      rw [Bool.not_eq_false] at hcur
      rw [h.current (winner_ne hu hw) (.inr hcur)] at hcur
      simp [hstage] at hcur
    · rw [h.current (winner_ne hu hw) (.inl (by rw [hstage]; rfl)), hstage]

lemma pushPc (h : Guarantee t mem objs L o L') (hu : u ≠ t) (hobj : objs n = .constructing u)
    {copy : Bool} {p : PushPc} (hlock : (Pc.push n copy p).holdsLock = true →
      isLocked mem.word = true) (hp : p.Ok L n) : p.Ok L' n := by
  have hstage := h.building hu hobj
  have hwinner : (Pc.push n copy p).holdsLock = true → L.winner = none → L'.winner = none := by
    intro hheld hw
    refine (h.unlocked hw).resolve_right ?_
    simp [hlock hheld]
  cases p with
  | load | start =>
    have hfresh : L.stage n = .fresh := hp
    exact (hstage (by rw [hfresh]; rfl) (by simp [hfresh])).trans hp
  | cas past =>
    have hfresh : L.stage n = .fresh := hp.1
    exact ⟨(hstage (by rw [hfresh]; rfl) (by simp [hfresh])).trans hfresh, hp.2⟩
  | link | unlock => exact ⟨(hstage (by rw [hp.1]; rfl) fun _ => hp.2).trans hp.1, hwinner rfl hp.2⟩

lemma erasePc (h : Guarantee t mem objs L o L') (hu : u ≠ t) (hobj : objs n = .destroying u)
    {p : ErasePc} (hp : p.Ok L u n) : p.Ok L' u n := by
  obtain ⟨herasable, htaken, hunlinked, hmarked⟩ := h.erasable hu hobj
  cases p with
  | load | unlink => exact herasable hp
  | cas past => exact ⟨herasable hp.1, hp.2⟩
  | unlockDecrement => exact hunlinked hp
  | unlock | check | wait => exact htaken hp
  | decrement =>
    rcases hp with hp | ⟨hp, hw⟩
    · exact .inl (hmarked hp)
    · refine .inr ⟨?_, h.winner_eq hw⟩
      rw [h.current (winner_ne hu hw) (.inl (by rw [hp]; rfl)), hp]

lemma frame (h : Guarantee t mem objs L o L') (hu : u ≠ t) {k : ℕ} {f : Frame N}
    (hj : f.job.Owned u L.winner objs) (hf : f.Ok mem.flags mem.isRemoved L u k) :
    f.Ok o.mem.flags o.mem.isRemoved L' u k := by
  cases f with
  | stop cb empty =>
    have hw : L.winner = some u := hj
    obtain ⟨hremoved, hstage, hempty⟩ := hf
    refine ⟨?_, ?_, fun he => h.noneListed hw (hempty he)⟩
    · rw [← hremoved]
      refine (h.isRemoved cb).resolve_right fun ht => hu ?_
      exact Option.some.inj (hw.symm.trans ht)
    · rw [h.flags u k hu, h.current (winner_ne hu hw) (.inl ?_), hstage]
      rw [hstage]
      split_ifs <;> rfl
  | push cb =>
    have hstage : L.stage cb = .entered := hf
    exact (h.building hu hj (by rw [hstage]; rfl) (by simp [hstage])).trans hstage

/-- What a thread knows stays true when another one makes a step. -/
theorem threadOk (h : Guarantee t mem objs L o L') (hu : u ≠ t) {c : Control N}
    (hlock : c.holdsLock = true → isLocked mem.word = true) (hc : ThreadOk mem objs L u c) :
    ThreadOk o.mem o.objs L' u c := by
  refine ⟨hc.nodup, fun j hj => h.owned hu (hc.owned j hj), ?_, ?_⟩
  · intro pc hpc
    have hok := hc.op pc hpc
    have hheld : pc.holdsLock = true → isLocked mem.word = true := fun hpl =>
      hlock (by rw [Control.holdsLock, Option.mem_def.mp hpc]; exact hpl)
    have hjob : ∀ j ∈ pc.job, j.Owned u L.winner objs := by
      intro j hj
      refine hc.owned j (List.mem_append_left _ ?_)
      rw [Option.mem_def.mp hpc, Option.bind_some, Option.mem_toList]
      exact hj
    cases pc with
    | request p => exact hok
    | stop p => exact h.stopPc hu (hjob _ rfl) hok
    | push cb copy p => exact h.pushPc hu (hjob _ rfl) hheld hok
    | erase cb p => exact h.erasePc hu (hjob _ rfl) hok
  · intro f rest hf
    refine h.frame hu (hc.owned _ (List.mem_append_right _ ?_)) (hc.frames f rest hf)
    exact List.mem_map_of_mem (hf.subset List.mem_cons_self)

end Guarantee

/-! ### The invariant -/

/-- The fields of a callback, in a stage of its life. -/
structure NodeOk (mem : Memory T N) (o : Obj T) (st : Stage) (n : N) : Prop where
  raw : o = .raw → st = .fresh
  live : o = .live true → st.isErasable = true
  taken : st.isTaken = true → mem.links.prev n = none
  finished : mem.finished n = true → st = .marked ∨ st = .gone
  marked : st = .marked → mem.isRemoved n = none

def Memory.ListOk (mem : Memory T N) (L : Life T N) : Prop :=
  ∃ l, mem.links.Lists l ∧ ∀ n, n ∈ l ↔ (L.stage n).isListed = true

lemma Memory.ListOk.set {mem : Memory T N} {L : Life T N} (h : mem.ListOk L) {n : N} {st : Stage}
    (hst : st.isListed = (L.stage n).isListed) : mem.ListOk (L.set n st) := by
  obtain ⟨l, hl, hmem⟩ := h
  refine ⟨l, hl, fun m => ?_⟩
  by_cases hm : m = n
  · subst hm
    rw [Life.set_stage, hst, hmem]
  · rw [Life.set_stage_of_ne L st hm, hmem]

/-- The state of the threads and the memory, and the life of the callbacks. -/
structure Coupled (s : State T N) (L : Life T N) : Prop where
  runs : Life.Runs s.log L
  requested : stopRequested s.mem.word = L.winner.isSome
  exclusive : Exclusive s.mem.word s.control
  threadId : ∀ u, s.mem.threadId = some u → L.winner = some u
  list : s.mem.ListOk L
  node : ∀ n, NodeOk s.mem (s.objs n) (L.stage n) n
  thread : ∀ u, ThreadOk s.mem s.objs L u (s.control u)
  current : ∀ n, (L.stage n).isCurrent = true →
    ∃ u, L.winner = some u ∧ n ∈ (s.control u).hands

namespace Coupled

variable {s : State T N} {L : Life T N} {t : T} {frames : List (Frame N)} {n : N}

lemma word_isLocked (h : Coupled s L) {pc : Pc N} (hc : s.control t = ⟨some pc, frames⟩)
    (hpc : pc.holdsLock = true) : isLocked s.mem.word = true := by
  refine h.exclusive.locked t ?_
  rw [hc]
  exact hpc

lemma winner_eq_none (h : Coupled s L) (hstop : stopRequested s.mem.word = false) :
    L.winner = none := by
  have hreq := h.requested
  rwa [hstop, eq_comm, Option.isSome_eq_false_iff, Option.isNone_iff_eq_none] at hreq

lemma mem_hands (h : Coupled s L) (hw : L.winner = some t) (hn : (L.stage n).isCurrent = true) :
    n ∈ (s.control t).hands := by
  obtain ⟨u, hu, hm⟩ := h.current n hn
  obtain rfl : t = u := Option.some.inj (hw.symm.trans hu)
  exact hm

/-- When `request_stop` has no callback in hand, there is none. -/
lemma not_current (h : Coupled s L) {p : StopPc N} (hc : s.control t = ⟨some (.stop p), frames⟩)
    (hp : (Pc.stop p).hand = none) (n : N) : (L.stage n).isCurrent = false := by
  have ht := h.thread t
  rw [hc] at ht
  have hw : L.winner = some t := ht.owned .stop List.mem_cons_self
  by_contra hcur
  rw [Bool.not_eq_false] at hcur
  have hm := h.mem_hands hw hcur
  have hframes := Control.hands_frames_eq_nil (List.nodup_cons.mp ht.nodup).1
  rw [hc, Control.hands, hframes, List.append_nil, Option.bind_some, hp] at hm
  cases hm

/-- What is in the hands of the `request_stop` of a thread that erases it is over a frame. -/
lemma frame_of_taken (h : Coupled s L) {p : ErasePc}
    (hc : s.control t = ⟨some (.erase n p), frames⟩) (hw : L.winner = some t)
    (htaken : (L.stage n).isTaken = true) (hn : L.stage n ≠ .marked) :
    ∃ empty rest, .stop n empty :: rest <:+ frames := by
  have hcur : (L.stage n).isCurrent = true := by
    cases hst : L.stage n <;> simp_all [Stage.isTaken, Stage.isCurrent]
  have hm := h.mem_hands hw hcur
  rw [hc] at hm
  obtain ⟨f, hf, hfn⟩ := List.mem_filterMap.mp hm
  cases f with
  | stop cb empty =>
    cases hfn
    obtain ⟨front, rest, rfl⟩ := List.append_of_mem hf
    exact ⟨empty, rest, List.suffix_append _ _⟩
  | push cb => cases hfn

lemma start : Coupled (State.start : State T N) Life.start := by
  refine ⟨.nil, encodes_initial.stopRequested_eq, ⟨?_, ?_⟩, by simp [State.start],
    ⟨[], Links.lists_empty, ?_⟩, ?_, ?_, ?_⟩
  · intro u hu
    cases hu
  · intro u v hu
    cases hu
  · intro n
    exact ⟨fun hn => absurd hn List.not_mem_nil, fun hn => Bool.noConfusion hn⟩
  · intro n
    constructor <;> simp [State.start, Life.start, Stage.isTaken]
  · intro u
    refine ⟨List.nodup_nil, fun j hj => absurd hj List.not_mem_nil, ?_, fun f rest hf => ?_⟩
    · rintro pc ⟨⟩
    · exact absurd (hf.subset List.mem_cons_self) List.not_mem_nil
  · intro n hn
    cases hn

end Coupled

/-- What thread `t` owes after its step. -/
structure Obligation (t : T) (s : State T N) (o : Outcome T N) (L' : Life T N) : Prop where
  requested : stopRequested o.mem.word = L'.winner.isSome
  held : o.control.holdsLock = true →
    isLocked o.mem.word = true ∧
      ((s.control t).holdsLock = true ∨ isLocked s.mem.word = false)
  kept : (s.control t).holdsLock = false → isLocked s.mem.word = true →
    isLocked o.mem.word = true
  threadId : ∀ u, o.mem.threadId = some u → L'.winner = some u
  list : o.mem.ListOk L'
  node : ∀ n, NodeOk o.mem (o.objs n) (L'.stage n) n
  thread : ThreadOk o.mem o.objs L' t o.control
  hands : L'.winner = some t → ∀ n, (L'.stage n).isCurrent = true → n ∈ o.control.hands

/-- A step that meets its obligation, and on which the others may rely, keeps the invariant. -/
theorem Coupled.after [DecidableEq T] {s : State T N} {L L' : Life T N} {t : T}
    {o : Outcome T N} (h : Coupled s L) (hg : Guarantee t s.mem s.objs L o L')
    (ho : Obligation t s o L') : Coupled (s.after t o) L' := by
  refine ⟨?_, ho.requested, h.exclusive.update ho.held ho.kept, ho.threadId, ho.list, ho.node,
    ?_, ?_⟩
  · rcases hg.follows with ⟨he, rfl⟩ | ⟨e, he, hs, -⟩
    · simpa [State.after, he] using h.runs
    · simpa [State.after, he] using h.runs.cons hs
  · intro u
    by_cases hu : u = t
    · subst hu
      simpa [State.after] using ho.thread
    · simpa [State.after, hu] using hg.threadOk hu (h.exclusive.locked u) (h.thread u)
  · intro n hn
    by_cases hw : L'.winner = some t
    · exact ⟨t, hw, by simpa [State.after] using ho.hands hw n hn⟩
    · have hstage := hg.current (fun ht => hw (hg.winner_eq ht)) (.inr hn)
      rw [hstage] at hn
      obtain ⟨u, hu, hmem⟩ := h.current n hn
      have hut : u ≠ t := by
        rintro rfl
        exact hw (hg.winner_eq hu)
      exact ⟨u, hg.winner_eq hu, by simpa [State.after, hut] using hmem⟩

end StopState

end Sync
