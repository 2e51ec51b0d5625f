import SyncLib.StopToken.SequentialSteps

/-!
# `request_stop` on one thread

User code, the call before its compare-exchange, and whole runs: whatever the callbacks destroy,
construct and request, the call returns, and the registered callbacks have had their turns.
-/

namespace Sync

namespace StopState

open Core

variable {T N : Type*} [DecidableEq N] [DecidableEq T]

namespace Stopping

variable {t : T} {u : State T N} {s : Session T N}

/-! ### User code -/

/-- User code does not do anything with an object that is not there. -/
lemma skip (h : Stopping t u s) (code : Body N) {ok : Bool}
    (hop : (s.state.control t).op = none) (hstep : s.step t ok = some { s with code })
    (hsize : code.size < s.code.size) : ∃ s', s.step t ok = some s' ∧ Next t u s ok s' := by
  refine ⟨_, hstep, .inl ⟨h.reachable, h.idle, ?_⟩, fun _ => ?_⟩
  · obtain ⟨hreads, hlast, hid, -, hcallers, hfollows, hret, hexec⟩ := h.going
    exact ⟨hreads, hlast, hid, by rw [hop]; trivial, hcallers, hfollows, hret, hexec⟩
  · simp only [Session.weight, cost]
    omega

/-- User code begins a method, or destroys an object that is not registered. -/
lemma user (h : Stopping t u s) (m : Move N) (op : Option (Pc N)) (objs : N → Obj T)
    (body : N → Body N) (code : Body N) (seen : List (Seen N)) {ok : Bool}
    (hop : (s.state.control t).op = none)
    (hstep : s.step t ok =
      (machine.step s.state (t, m)).map fun v => ⟨v, body, code, s.callers, seen⟩)
    (ho : userStep t s.state.mem s.state.objs (s.state.control t).frames m
      = some ⟨s.state.mem, objs, ⟨op, (s.state.control t).frames⟩, none⟩)
    (hreads : Reads s.state.mem.word op) (hwaits : Waits code op)
    (hfollows : Follows (pending u.log) (pending s.state.log) seen op)
    (hreturned : .returns true ∉ seen)
    (hcount : ∀ n, seen.count (.executes n) + seen.count (.entered n)
      = s.seen.count (.executes n) + s.seen.count (.entered n))
    (hnearer : 32 * (code.size + burden body (pending s.state.log)) + rank body op
      < 32 * (s.code.size + burden s.body (pending s.state.log)) + 12) :
    ∃ s', s.step t ok = some s' ∧ Next t u s ok s' := by
  have ho' : threadStep t s.state.mem s.state.objs (s.state.control t).frames none m
      = some ⟨s.state.mem, objs, ⟨op, (s.state.control t).frames⟩, none⟩ := ho
  refine ⟨⟨s.state.after t _, body, code, s.callers, seen⟩, ?_,
    .inl (h.after (m := m) (hop ▸ ho') body ?_), fun _ => ?_⟩
  · rw [hstep]
    simp only [machine, hop, ho', Option.map_some]
  · have hlast := h.going.last
    rw [Control.jobs, hop, Option.bind_none, Option.toList_none, List.nil_append] at hlast
    refine ⟨hreads, ?_, .inl (h.threadId (by simp [hop])), hwaits,
      h.going.callers, hfollows, hreturned, fun n => ?_⟩
    · rw [Control.jobs, List.getLast?_append, hlast]
      rfl
    · rw [hcount]
      exact h.going.executions n
  · simp only [Session.weight, after_control, hop, cost]
    show 32 * (_ + _ + burden body (pending s.state.log)) + _ < _ + 12
    omega

/-- A callback returns. -/
theorem leave (h : Stopping t u s) (hop : (s.state.control t).op = none) (hcode : s.code = .done)
    (ok : Bool) : ∃ s', s.step t ok = some s' ∧ Next t u s ok s' := by
  have hid := h.threadId (by simp [hop])
  have hcallers := h.going.callers
  have hfollows := h.going.follows
  have hlast := h.going.last
  rw [Control.jobs, hop, Option.bind_none, Option.toList_none, List.nil_append] at hlast
  rw [hop] at hfollows
  cases hframes : (s.state.control t).frames with
  | nil => simp [hframes] at hlast
  | cons f rest =>
    rw [hframes] at hcallers hlast
    cases hcs : s.callers with
    | nil =>
      rw [hcs] at hcallers
      cases hcallers
    | cons code callers =>
      rw [hcs] at hcallers
      obtain ⟨hcalled, hrest⟩ := List.forall₂_cons.mp hcallers
      have hleft : ∀ {o : Outcome T N},
          userStep t s.state.mem s.state.objs (f :: rest) .leave = some o →
          Going t u o.mem o.control (o.event.toList ++ s.state.log) code callers s.seen →
          pending (o.event.toList ++ s.state.log) = pending s.state.log →
          rank s.body o.control.op ≤ 12 →
          ∃ s', s.step t ok = some s' ∧ Next t u s ok s' := by
        intro o ho hgoing hpending hrank
        have ho' : threadStep t s.state.mem s.state.objs (s.state.control t).frames none .leave
            = some o := by
          rw [hframes]
          exact ho
        refine ⟨_, ?_, .inl (h.after (m := .leave) (hop ▸ ho') s.body hgoing),
          fun _ => ?_⟩
        · simp only [Session.step, hop, hcode, hcs, machine, ho', Option.map_some]
        · simp only [Session.weight, after_control, hop, hcode, hcs, cost]
          show 32 * (_ + _ + burden _ (pending (o.event.toList ++ s.state.log))) + _
            < 32 * (1 + sizes (code :: callers) + _) + 12
          rw [hpending, sizes]
          omega
      cases f with
      | stop n empty =>
        exact hleft rfl ⟨trivial, hlast, .inl hid, hcalled, hrest, hfollows, h.going.returned,
          fun m => h.going.executions m⟩ rfl (show 11 ≤ 12 by omega)
      | push n =>
        have hlast' := getLast_tail hlast (by simp [Frame.job])
        exact hleft rfl ⟨trivial, hlast', .inl hid, trivial, hrest, hfollows, h.going.returned,
          fun m => h.going.executions m⟩ rfl le_rfl

/-- User code runs. -/
theorem code (h : Stopping t u s) (hop : (s.state.control t).op = none) (ok : Bool) :
    ∃ s', s.step t ok = some s' ∧ Next t u s ok s' := by
  have hfollows := h.going.follows
  obtain ⟨L, hL, hord, -⟩ := h.exists_coupled
  rw [hop] at hfollows
  have hret := h.going.returned
  cases hcode : s.code with
  | done => exact h.leave hop hcode ok
  | requestStop rest =>
    refine h.user .requestStop (some (.request .load)) s.state.objs s.body s.code s.seen hop ?_
      rfl trivial ⟨rest, hcode⟩ hfollows hret
      (fun _ => rfl) ?_
    · simp [Session.step, hop, hcode]
    · exact Nat.add_lt_add_left (Nat.lt_succ_self 11) _
  | destroy n rest =>
    have hsize : s.code.size = rest.size + 1 := by rw [hcode]; rfl
    cases hobj : s.state.objs n with
    | live registered =>
      cases registered with
      | true =>
        refine h.user (.destroy n) (some (.erase n .load))
          (Function.update s.state.objs n (.destroying t)) s.body rest (.destroys n :: s.seen)
          hop ?_ ?_ trivial trivial (.destroys n hfollows) (by simpa using hret) (by simp) ?_
        · simp [Session.step, hop, hcode, hobj]
        · simp [userStep, hobj]
        · rw [hsize]
          show 32 * (rest.size + _) + 24 < _
          omega
      | false =>
        have hn := hord.not_mem_pending hL hobj
        have hturns := Turns.destroys n hfollows
        rw [List.erase_of_not_mem hn] at hturns
        refine h.user (.destroy n) none (Function.update s.state.objs n .dead) s.body rest
          (.destroys n :: s.seen) hop ?_ ?_ trivial trivial hturns (by simpa using hret)
          (by simp) ?_
        · simp [Session.step, hop, hcode, hobj]
        · simp [userStep, hobj]
        · rw [hsize]
          show 32 * (rest.size + _) + 12 < _
          omega
    | raw | constructing v | destroying v | dead =>
      refine h.skip rest hop ?_ (hsize ▸ Nat.lt_succ_self _)
      simp [Session.step, hop, hcode, hobj]
  | construct n copy body rest =>
    have hsize : s.code.size = body.size + rest.size + 1 := by rw [hcode]; rfl
    cases hobj : s.state.objs n with
    | raw =>
      have hn : n ∉ pending s.state.log := by
        rw [hL.mem_pending hord.lists, (hL.node n).raw hobj]
        exact Bool.false_ne_true
      have hburden := burden_update s.body body hn
      refine h.user (.construct n copy) (some (.push n copy .load))
        (Function.update s.state.objs n (.constructing t)) (Function.update s.body n body) rest
        (.constructs n :: s.seen) hop ?_ ?_ trivial trivial
        ⟨s.seen, rfl, hfollows⟩ (by simpa using hret) (by simp) ?_
      · simp [Session.step, hop, hcode, hobj]
      · simp [userStep, hobj]
      · rw [hsize, hburden]
        show 32 * (rest.size + _) + (32 * (Function.update s.body n body n).size + 20) < _
        rw [Function.update_self]
        omega
    | live r | constructing v | destroying v | dead =>
      refine h.skip rest hop ?_ ?_
      · simp [Session.step, hop, hcode, hobj]
      · omega

/-- One step of the thread. -/
theorem exists_step (h : Stopping t u s) (hnodup : (pending u.log).Nodup) (ok : Bool) :
    ∃ s', s.step t ok = some s' ∧ Next t u s ok s' := by
  cases hop : (s.state.control t).op with
  | none => exact h.code hop ok
  | some pc =>
    cases pc with
    | request p => exact h.request hop ok
    | push n copy p => exact h.push hop ok
    | erase n p => exact h.erase hop ok
    | stop p =>
      cases p with
      | start n empty => exact h.stop_start hop ok
      | last => exact h.stop_returns hnodup hop (.inl rfl) ok
      | done => exact h.stop_returns hnodup hop (.inr rfl) ok
      | _ => exact h.stop_goesOn hop rfl (by simp) ok

end Stopping

/-! ### The call -/

/-- Thread `t` has not requested the stop yet. -/
structure Calling (t : T) (u : State T N) (s : Session T N) : Prop where
  reachable : machine.Reachable State.start s.state
  idle : ∀ v, v ≠ t → s.state.control v = {}
  mem : s.state.mem = u.mem
  log : s.state.log = u.log
  frames : (s.state.control t).frames = []
  op : (s.state.control t).op = none ∨ (s.state.control t).op = some (.request .load) ∨
    (s.state.control t).op = some (.request (.cas u.mem.word))
  code : s.code = .caller
  callers : s.callers = []
  seen : s.seen = []

namespace Calling

variable {t : T} {u : State T N} {s : Session T N}

/-- A step of the thread before its compare-exchange. -/
lemma goesOn (h : Calling t u s) (m : Move N) (op : Option (Pc N)) {ok : Bool}
    (ho : threadStep t s.state.mem s.state.objs [] (s.state.control t).op m
      = some ⟨s.state.mem, s.state.objs, ⟨op, []⟩, none⟩)
    (hop : op = some (.request .load) ∨ op = some (.request (.cas u.mem.word)))
    (hstep : ∀ v, machine.step s.state (t, m) = some v → (v.control t).op = op →
      s.step t ok = some { s with state := v })
    (hnearer : ok = true → rank s.body op < rank s.body (s.state.control t).op) :
    ∃ s', s.step t ok = some s' ∧ (Calling t u s' ∨ Stopping t u s') ∧
      (ok = true → s'.weight t < s.weight t) := by
  have hs : machine.step s.state (t, m) = some (s.state.after t
      ⟨s.state.mem, s.state.objs, ⟨op, []⟩, none⟩) :=
    Option.map_eq_some_iff.mpr ⟨_, by rw [h.frames]; exact ho, rfl⟩
  refine ⟨{ s with state := s.state.after t ⟨s.state.mem, s.state.objs, ⟨op, []⟩, none⟩ },
    hstep _ hs (congrArg Control.op (after_control _ _)), .inl ⟨h.reachable.tail trivial hs,
    fun v hv => ?_, h.mem, h.log, ?_, ?_, h.code, h.callers, h.seen⟩, fun hok => ?_⟩
  · exact (Function.update_of_ne hv ..).trans (h.idle v hv)
  · rw [after_control]
  · rw [after_control]
    exact .inr hop
  · simp only [Session.weight, after_control]
    exact Nat.add_lt_add_left (hnearer hok) _

/-- The compare-exchange sets the flag. -/
lemma requests (h : Calling t u s)
    (hop : (s.state.control t).op = some (.request (.cas u.mem.word))) :
    ∃ s', s.step t true = some s' ∧ Stopping t u s' ∧ s'.weight t < s.weight t := by
  have ho : threadStep t s.state.mem s.state.objs (s.state.control t).frames
      (s.state.control t).op (.proceed true) = some
      ⟨{ s.state.mem with word := requestedAndLocked u.mem.word }, s.state.objs,
        ⟨some (.stop (.pop true)), []⟩, some (.requested t)⟩ := by
    rw [hop, h.frames]
    simp [threadStep, requestStep, h.mem]
  have hs : machine.step s.state (t, .proceed true) = some (s.state.after t _) :=
    Option.map_eq_some_iff.mpr ⟨_, ho, rfl⟩
  refine ⟨{ s with state := s.state.after t _ }, ?_, ⟨h.reachable.tail trivial hs, fun v hv => ?_,
    ?_⟩, ?_⟩
  · simp only [Session.step, hop, hs, Option.map_some]
    simp [Session.resume]
  · exact (Function.update_of_ne hv ..).trans (h.idle v hv)
  · rw [after_control]
    refine ⟨trivial, rfl, .inr rfl, h.code, ?_, ?_, ?_, fun n => ?_⟩
    · rw [h.callers]
      exact .nil
    · show Turns (pending u.log) s.seen (pending s.state.log)
      rw [h.seen, h.log]
      exact .start
    · show .returns true ∉ s.seen
      rw [h.seen]
      exact List.not_mem_nil
    · show executions n s.state.log = _ + (s.seen.count _ + s.seen.count _)
      rw [h.seen, h.log]
      rfl
  · simp only [Session.weight, after_control, hop]
    exact Nat.add_lt_add_left (show 8 < 10 by omega) _

/-- One step of the thread. -/
theorem exists_step (h : Calling t u s) (hstop : stopRequested u.mem.word = false)
    (hlock : isLocked u.mem.word = false) (ok : Bool) :
    ∃ s', s.step t ok = some s' ∧ (Calling t u s' ∨ Stopping t u s') ∧
      (ok = true → s'.weight t < s.weight t) := by
  have htest : RequestPc.test u.mem.word = some (.cas u.mem.word) := by
    simp [RequestPc.test, hstop, hlock]
  -- a method that goes on is nothing to user code
  have hstep : ∀ {p q : RequestPc}, (s.state.control t).op = some (.request p) → ∀ v,
      machine.step s.state (t, .proceed ok) = some v → (v.control t).op = some (.request q) →
      s.step t ok = some { s with state := v } := by
    intro p q hop v hv hvop
    simp [Session.step, hop, hv, Session.resume, hvop]
  rcases h.op with hop | hop | hop
  · refine h.goesOn .requestStop (some (.request .load)) ?_ (.inl rfl) ?_ fun _ => ?_
    · rw [hop]
      rfl
    · intro v hv _
      simp [Session.step, hop, h.code, Body.caller, hv]
    · rw [hop]
      exact show 11 < 12 by omega
  · refine h.goesOn (.proceed ok) (some (.request (.cas u.mem.word))) ?_ (.inr rfl)
      (hstep hop) fun _ => ?_
    · rw [hop]
      simp [threadStep, requestStep, h.mem, htest]
    · rw [hop]
      exact show 10 < 11 by omega
  · cases ok with
    | true =>
      obtain ⟨s', hs', hstopping, hlt⟩ := h.requests hop
      exact ⟨s', hs', .inr hstopping, fun _ => hlt⟩
    | false =>
      refine h.goesOn (.proceed false) (some (.request (.cas u.mem.word))) ?_ (.inr rfl)
        (hstep hop) Bool.noConfusion
      rw [hop]
      simp [threadStep, requestStep, h.mem, htest]

end Calling

/-! ### Whole runs -/

/-- No thread is in a method, and no stop has been requested. -/
structure Quiet (u : State T N) : Prop where
  reachable : machine.Reachable State.start u
  idle : ∀ v, u.control v = {}
  stopRequested : stopRequested u.mem.word = false

namespace Quiet

variable {t : T} {u : State T N} {s : Session T N}

lemma nodup (h : Quiet u) : (pending u.log).Nodup := by
  obtain ⟨L, -, hord⟩ := exists_coupled h.reachable
  exact hord.lists.1

lemma isLocked (h : Quiet u) : isLocked u.mem.word = false := by
  obtain ⟨L, -, hord⟩ := exists_coupled h.reachable
  by_contra hl
  obtain ⟨v, hv⟩ := hord.held (by simpa using hl)
  rw [h.idle v] at hv
  exact Bool.noConfusion hv

/-- Before the call, in it, or after it. -/
def Kept (t : T) (u : State T N) (s : Session T N) : Prop :=
  (Calling t u s ∨ Stopping t u s) ∨ Returned t s ∧ StopLaw u s

lemma start (h : Quiet u) (body : N → Body N) : Kept t u (Session.start u body) := by
  refine .inl (.inl ⟨h.reachable, fun v _ => h.idle v, rfl, rfl, ?_, .inl ?_, rfl, rfl, rfl⟩)
  · exact congrArg Control.frames (h.idle t)
  · exact congrArg Control.op (h.idle t)

/-- As long as the call has not returned, the thread makes a step, which brings the return nearer
unless it is a failure without a reason. -/
lemma exists_step (h : Quiet u) (hs : Calling t u s ∨ Stopping t u s) (ok : Bool) :
    ∃ s', s.step t ok = some s' ∧ Kept t u s' ∧ (ok = true → s'.weight t < s.weight t) := by
  rcases hs with hs | hs
  · obtain ⟨s', hstep, hkept, hlt⟩ := hs.exists_step h.stopRequested h.isLocked ok
    exact ⟨s', hstep, .inl hkept, hlt⟩
  · obtain ⟨s', hstep, hkept | hkept, hlt⟩ := hs.exists_step h.nodup ok
    · exact ⟨s', hstep, .inl (.inr hkept), hlt⟩
    · exact ⟨s', hstep, .inr hkept, hlt⟩

/-- Every step keeps it. -/
lemma step (h : Quiet u) (hs : Kept t u s) {ok : Bool} {s' : Session T N}
    (hstep : s.step t ok = some s') : Kept t u s' := by
  rcases hs with hs | ⟨hover, -⟩
  · obtain ⟨v, hv, hkept, -⟩ := h.exists_step hs ok
    obtain rfl := Option.some.inj (hv.symm.trans hstep)
    exact hkept
  · simp [hover.step_eq_none] at hstep

end Quiet

/-- Whatever the callbacks do, a `request_stop` that a thread calls when nobody else does anything
obeys the law once it has returned, and from wherever it is, it returns unless weak
compare-exchanges go on to fail without a reason. -/
theorem requestStop_law {t : T} {u : State T N} (hu : Quiet u) {body : N → Body N}
    {s : Session T N} (hs : (program t).Reachable (Session.start u body) s) :
    (Returned t s → StopLaw u s) ∧
      ∃ s', (program t).Runs (fun _ ok => ok = true) s s' ∧ Returned t s' ∧ StopLaw u s' := by
  have hkept : Quiet.Kept t u s :=
    hs.invariant (I := Quiet.Kept t u) (hu.start body) fun _ _ _ hv _ hstep => hu.step hv hstep
  constructor
  · intro hover
    rcases hkept with hgoing | ⟨-, hlaw⟩
    · obtain ⟨v, hv, -⟩ := hu.exists_step hgoing true
      simp [hover.step_eq_none] at hv
    · exact hlaw
  · have hprogress : ∀ v, Quiet.Kept t u v → (Returned t v ∧ StopLaw u v) ∨
        ∃ ok v', ok = true ∧ (program t).step v ok = some v' ∧ Quiet.Kept t u v' ∧
          v'.weight t < v.weight t := by
      rintro v (hv | hv)
      · obtain ⟨v', hstep, hkept', hlt⟩ := hu.exists_step hv true
        exact .inr ⟨true, v', rfl, hstep, hkept', hlt rfl⟩
      · exact .inl hv
    obtain ⟨s', hruns, -, hend⟩ :=
      Machine.exists_runs_of_progress (Session.weight t) hprogress hkept
    exact ⟨s', hruns, hend⟩

/-- The first callback destroys the second one and itself, and constructs one that requests a stop
again. -/
theorem requestStop_law_three : ∃ u : State Unit (Fin 4), Quiet u ∧ pending u.log = [2, 1, 0] ∧
    ∃ s', (program ()).Runs (fun _ ok => ok = true) (Session.start u fun n => if n = 2 then
        .destroy 1 (.destroy 2 (.construct 3 true (.requestStop fun _ => .done) .done)) else .done)
      s' ∧ Returned () s' ∧ StopLaw u s' := by
  let steps (n : Fin 4) : List (Unit × Move (Fin 4)) := [((), .construct n true),
    ((), .proceed true), ((), .proceed true), ((), .proceed true), ((), .proceed true)]
  obtain ⟨u, hu, hp⟩ := Machine.exists_reachable_of_run (M := machine)
    (s := (State.start : State Unit (Fin 4))) (steps 0 ++ steps 1 ++ steps 2)
    (fun u => decide (pending u.log = [2, 1, 0] ∧ u.control () = {} ∧
      stopRequested u.mem.word = false)) (by decide +kernel)
  obtain ⟨hpending, hcontrol, hstop⟩ := of_decide_eq_true hp
  have hquiet : Quiet u := ⟨hu, fun _ => hcontrol, hstop⟩
  exact ⟨u, hquiet, hpending, (requestStop_law hquiet .refl).2⟩

end StopState

end Sync
