import SyncLib.StopToken.Programs

/-!
# The methods on one thread

While a thread executes the callbacks of its `request_stop` and no other thread makes steps, every
step of a method keeps what user code sees to the turns of the callbacks, and brings the end of the
program nearer.
-/

namespace Sync

namespace StopState

open Core

variable {T N : Type*}

/-! ### What the thread keeps -/

/-- A word that was read is still in `state_`, and the thread does not wait for itself. -/
def Reads (w : Word) : Option (Pc N) → Prop
  | some (.request (.cas past)) | some (.stop (.cas past)) | some (.push _ _ (.cas past))
  | some (.erase _ (.cas past)) => past = w
  | some (.erase _ .wait) => False
  | _ => True

/-- The code that calls `request_stop` waits for it. -/
def Waits (code : Body N) : Option (Pc N) → Prop
  | some (.stop _)    => code = .caller
  | some (.request _) => ∃ rest, code = .requestStop rest
  | _ => True

/-- The code under a callback that `request_stop` executes has called it. -/
def Called : Frame N → Body N → Prop
  | .stop _ _, code => code = .caller
  | .push _, _      => True

lemma getLast_tail {j : Job N} {jobs : List (Job N)} (h : (j :: jobs).getLast? = some .stop)
    (hj : j ≠ .stop) : jobs.getLast? = some .stop := by
  cases jobs with
  | nil => exact absurd (Option.some.inj h) hj
  | cons k jobs => exact (List.getLast?_cons_cons (a := j)).symm.trans h

@[simp] lemma after_control [DecidableEq T] (u : State T N) {t : T} (o : Outcome T N) :
    (u.after t o).control t = o.control :=
  Function.update_self ..

variable [DecidableEq N]

/-- What user code saw are turns. A callback in the hands of `request_stop` has not had its own,
one in the hands of `erase_callback` will have none, and one in its constructor is executed at
once. -/
def Follows (l₀ l : List N) (seen : List (Seen N)) : Option (Pc N) → Prop
  | some (.stop (.unlock n _)) | some (.stop (.start n _)) => Turns l₀ seen (n :: l)
  | some (.erase n .load) | some (.erase n (.cas _)) | some (.erase n .unlink) =>
    Turns l₀ seen (l.erase n)
  | some (.push n _ _) => ∃ earlier, seen = .constructs n :: earlier ∧ Turns l₀ earlier l
  | _ => Turns l₀ seen l

/-- Thread `t`, with the code that it runs, while it is in the `request_stop` that it called in
state `u`. -/
structure Going (t : T) (u : State T N) (mem : Memory T N) (c : Control N)
    (log : List (Event T N)) (code : Body N) (callers : List (Body N)) (seen : List (Seen N)) :
    Prop where
  reads : Reads mem.word c.op
  last : c.jobs.getLast? = some .stop
  threadId : mem.threadId = some t ∨ c.op = some (.stop (.pop true))
  waits : Waits code c.op
  callers : List.Forall₂ Called c.frames callers
  follows : Follows (pending u.log) (pending log) seen c.op
  returned : .returns true ∉ seen
  executions : ∀ n, executions n log =
    executions n u.log + (seen.count (.executes n) + seen.count (.entered n))

/-! ### The end of the program -/

/-- The program is over. -/
structure Returned (t : T) (s : Session T N) : Prop where
  op : (s.state.control t).op = none
  code : s.code = .done
  callers : s.callers = []

/-- What user code saw of a `request_stop` that was called in state `u`. -/
structure StopLaw (u : State T N) (s : Session T N) : Prop where
  /-- It returned true, and the calls of the callbacks returned false. -/
  returned : ∃ earlier, s.seen = .returns true :: earlier ∧ .returns true ∉ earlier
  /-- It executed what was registered and not destroyed before its turn. -/
  executes : ∀ n, .executes n ∈ s.seen ↔ n ∈ pending u.log ∧ ¬ DestroyedBefore n s.seen
  order : (executed s.seen).reverse.Sublist (pending u.log)
  once : ∀ n, s.seen.count (.executes n) + s.seen.count (.entered n) ≤ 1
  /-- A callback that was constructed meanwhile was executed at once. -/
  inline : ∀ n earlier, .constructs n :: earlier <:+ s.seen →
    .entered n :: .constructs n :: earlier <:+ s.seen
  unlocked : isLocked s.state.mem.word = false
  head : s.state.mem.links.head = none

variable [DecidableEq T]

lemma Returned.step_eq_none {t : T} {s : Session T N} (h : Returned t s) (ok : Bool) :
    s.step t ok = none := by
  simp [Session.step, h.op, h.code, h.callers]

/-- Thread `t` is in the `request_stop` that it called in state `u`, and no other thread has made a
step since. -/
structure Stopping (t : T) (u : State T N) (s : Session T N) : Prop where
  reachable : machine.Reachable State.start s.state
  idle : ∀ v, v ≠ t → s.state.control v = {}
  going : Going t u s.state.mem (s.state.control t) s.state.log s.code s.callers s.seen

/-! ### A bound on the steps -/

/-- The steps that are left of a method, with those of a callback that it is about to execute. -/
def rank (body : N → Body N) : Option (Pc N) → ℕ
  | none => 12
  | some (.request .load) => 11
  | some (.request (.cas _)) => 10
  | some (.stop (.pop _)) => 8
  | some (.stop (.unlock n _)) => 32 * (body n).size + 20
  | some (.stop (.start n _)) => 32 * (body n).size + 19
  | some (.stop (.mark _ _)) => 11
  | some (.stop .load) => 10
  | some (.stop (.cas _)) => 9
  | some (.stop .last) => 7
  | some (.stop .done) => 7
  | some (.push n _ .load) => 32 * (body n).size + 20
  | some (.push n _ _) => 32 * (body n).size + 19
  | some (.erase _ .load) => 24
  | some (.erase _ (.cas _)) => 23
  | some (.erase _ .unlink) => 22
  | some (.erase _ .unlockDecrement) => 21
  | some (.erase _ .unlock) => 21
  | some (.erase _ .check) => 20
  | some (.erase _ .wait) => 20
  | some (.erase _ .decrement) => 19

/-- The code that waits for callbacks to return. -/
def sizes : List (Body N) → ℕ
  | []        => 0
  | b :: rest => b.size + sizes rest

/-- The code of the callbacks in the list. -/
def burden (body : N → Body N) : List N → ℕ
  | []     => 0
  | n :: l => (body n).size + 1 + burden body l

lemma burden_erase_le (body : N → Body N) (l : List N) (n : N) :
    burden body (l.erase n) ≤ burden body l := by
  induction l with
  | nil => exact le_rfl
  | cons m l ih =>
    by_cases hm : m = n
    · rw [hm, List.erase_cons_head]
      exact Nat.le_add_left _ _
    · rw [List.erase_cons_tail (by simpa using hm)]
      exact Nat.add_le_add_left ih _

/-- A callback that is not in the list does not count. -/
lemma burden_update (body : N → Body N) {l : List N} {n : N} (b : Body N) (hn : n ∉ l) :
    burden (Function.update body n b) l = burden body l := by
  induction l with
  | nil => rfl
  | cons m l ih =>
    obtain ⟨hm, hl⟩ := not_or.mp (List.mem_cons.not.mp hn)
    rw [burden, burden, ih hl, Function.update_of_ne (Ne.symm hm)]

/-- More than the steps that are left of a program. -/
def cost (body : N → Body N) (l : List N) (op : Option (Pc N)) (code : Body N)
    (callers : List (Body N)) : ℕ :=
  32 * (code.size + sizes callers + burden body l) + rank body op

def Session.weight (t : T) (s : Session T N) : ℕ :=
  cost s.body (pending s.state.log) (s.state.control t).op s.code s.callers

namespace Stopping

variable {t : T} {u : State T N} {s : Session T N}

/-! ### What is known of the state -/

lemma mem_jobs (h : Stopping t u s) : .stop ∈ (s.state.control t).jobs :=
  List.mem_of_getLast? h.going.last

/-- The thread has requested the stop. -/
theorem exists_coupled (h : Stopping t u s) : ∃ L, Coupled s.state L ∧ Ordered s.state L ∧
    L.winner = some t ∧ stopRequested s.state.mem.word = true := by
  obtain ⟨L, hL, hord⟩ := StopState.exists_coupled h.reachable
  have hw : L.winner = some t := (hL.thread t).owned .stop h.mem_jobs
  exact ⟨L, hL, hord, hw, by rw [hL.requested, hw]; rfl⟩

/-- Nobody else has the lock. -/
lemma unlocked (h : Stopping t u s) {pc : Pc N} (hop : (s.state.control t).op = some pc)
    (hpc : pc.holdsLock = false) : isLocked s.state.mem.word = false := by
  obtain ⟨L, -, hord, -⟩ := h.exists_coupled
  by_contra hl
  obtain ⟨v, hv⟩ := hord.held (by simpa using hl)
  by_cases hvt : v = t
  · rw [hvt, Control.holdsLock, hop] at hv
    exact Bool.false_ne_true (hpc.symm.trans hv)
  · rw [h.idle v hvt] at hv
    exact Bool.noConfusion hv

/-- After its first section `request_stop` has set `thread_id_`. -/
lemma threadId (h : Stopping t u s) (hop : (s.state.control t).op ≠ some (.stop (.pop true))) :
    s.state.mem.threadId = some t :=
  h.going.threadId.resolve_right hop

/-! ### Steps -/

/-- A step of the thread. -/
lemma after (h : Stopping t u s) {m : Move N} {o : Outcome T N}
    (ho : threadStep t s.state.mem s.state.objs (s.state.control t).frames (s.state.control t).op m
      = some o) (body : N → Body N) {code : Body N} {callers : List (Body N)} {seen : List (Seen N)}
    (hgoing : Going t u o.mem o.control (o.event.toList ++ s.state.log) code callers seen) :
    Stopping t u ⟨s.state.after t o, body, code, callers, seen⟩ := by
  have hs : machine.step s.state (t, m) = some (s.state.after t o) :=
    Option.map_eq_some_iff.mpr ⟨o, ho, rfl⟩
  refine ⟨h.reachable.tail trivial hs, fun v hv => ?_, ?_⟩
  · exact (Function.update_of_ne hv ..).trans (h.idle v hv)
  · rwa [after_control]

/-- Where a step leads, and that it brings the end nearer unless it is a failure without a
reason. -/
structure Next (t : T) (u : State T N) (s : Session T N) (ok : Bool) (s' : Session T N) : Prop where
  keeps : Stopping t u s' ∨ Returned t s' ∧ StopLaw u s'
  nearer : ok = true → s'.weight t < s.weight t

/-- A step in a method. -/
lemma exists_next {pc : Pc N} {ok : Bool} {o : Outcome T N}
    {s' : Session T N} (hop : (s.state.control t).op = some pc)
    (ho : threadStep t s.state.mem s.state.objs (s.state.control t).frames (some pc) (.proceed ok)
      = some o)
    (hresume : ({ s with state := s.state.after t o } : Session T N).resume t pc = s')
    (hnext : Next t u s ok s') : ∃ s', s.step t ok = some s' ∧ Next t u s ok s' := by
  refine ⟨s', ?_, hnext⟩
  simp only [Session.step, hop, machine, ho, Option.map_some, hresume]

/-- A method goes on. -/
lemma goesOn (h : Stopping t u s) {pc pc' : Pc N} {ok : Bool} {o : Outcome T N}
    (hop : (s.state.control t).op = some pc)
    (ho : threadStep t s.state.mem s.state.objs (s.state.control t).frames (some pc) (.proceed ok)
      = some o)
    (hcontrol : o.control = ⟨some pc', (s.state.control t).frames⟩) (hjob : pc'.job = pc.job)
    (hcalls : pc.calls = false)
    (hreads : Reads o.mem.word (some pc'))
    (hid : o.mem.threadId = some t ∨ pc' = .stop (.pop true))
    (hwaits : Waits s.code (some pc) → Waits s.code (some pc'))
    (hfollows : Follows (pending u.log) (pending s.state.log) s.seen (some pc) →
      Follows (pending u.log) (pending (o.event.toList ++ s.state.log)) s.seen (some pc'))
    (hexec : ∀ n, executions n (o.event.toList ++ s.state.log) = executions n s.state.log)
    (hnearer : ok = true → burden s.body (pending (o.event.toList ++ s.state.log)) * 32
      + rank s.body (some pc') < burden s.body (pending s.state.log) * 32 + rank s.body (some pc)) :
    ∃ s', s.step t ok = some s' ∧ Next t u s ok s' := by
  obtain ⟨-, hlast, -, hw, hcallers, hfol, hret, hex⟩ := h.going
  rw [hop] at hw hfol
  refine exists_next hop ho (Session.resume_eq _ hcalls (congrArg Control.op
    ((after_control _ o).trans hcontrol))) ⟨.inl (h.after (hop ▸ ho) s.body ?_), fun hok => ?_⟩
  · rw [hcontrol]
    refine ⟨hreads, ?_, by simpa using hid, hwaits hw, hcallers, hfollows hfol, hret,
      fun n => (hexec n).trans (hex n)⟩
    rw [Control.jobs, hop, Option.bind_some] at hlast
    rw [Control.jobs, Option.bind_some, hjob]
    exact hlast
  · have hlt := hnearer hok
    simp only [Session.weight, after_control, hop, hcontrol, cost]
    show 32 * (_ + burden s.body (pending (o.event.toList ++ s.state.log))) + _ < _
    omega

/-- After a callback, its flag is set or not. -/
lemma mark_eq (t : T) (mem : Memory T N) (objs : N → Obj T) (frames : List (Frame N)) (ok : Bool)
    (n : N) (empty : Bool) :
    (stopStep t mem objs frames ok (.mark n empty)).control
        = ⟨some (.stop (if empty then .done else .load)), frames⟩ ∧
      (stopStep t mem objs frames ok (.mark n empty)).mem.threadId = mem.threadId ∧
      (∀ log, pending ((stopStep t mem objs frames ok (.mark n empty)).event.toList ++ log)
        = pending log) ∧
      ∀ log m, executions m ((stopStep t mem objs frames ok (.mark n empty)).event.toList ++ log)
        = executions m log := by
  by_cases hflag : mem.flags (t, frames.length) = true
  · simp [stopStep, hflag]
  · simp [stopStep, hflag, pending, executions]

/-- The steps of `request_stop` that neither call a callback nor return. -/
theorem stop_goesOn (h : Stopping t u s) {p : StopPc N}
    (hop : (s.state.control t).op = some (.stop p)) (hcalls : (Pc.stop p).calls = false)
    (hp : p ≠ .last ∧ p ≠ .done) (ok : Bool) :
    ∃ s', s.step t ok = some s' ∧ Next t u s ok s' := by
  obtain ⟨L, hL, hord, -⟩ := h.exists_coupled
  cases p with
  | pop first =>
    have hid : (if first then some t else s.state.mem.threadId) = some t := by
      cases first with
      | true => rfl
      | false => exact h.threadId (by simp [hop])
    have hfollows := h.going.follows
    rw [hop] at hfollows
    cases hpop : s.state.mem.links.pop with
    | none =>
      refine h.goesOn hop (o := ⟨{ s.state.mem with
        threadId := if first then some t else s.state.mem.threadId }, s.state.objs,
        ⟨some (.stop .last), (s.state.control t).frames⟩, none⟩) ?_ rfl rfl hcalls trivial
        (.inl hid) (fun hw => hw) (fun hf => hf) (fun _ => rfl) ?_
      · cases first <;> simp [threadStep, stopStep, hpop]
      · exact fun _ => Nat.add_lt_add_left (Nat.lt_succ_self 7) _
    | some popped =>
      obtain ⟨n, links⟩ := popped
      obtain ⟨l, hcons, -, herase⟩ := Coupled.lists_pop hord.lists hpop
      refine h.goesOn hop (o := ⟨{ s.state.mem with
        threadId := if first then some t else s.state.mem.threadId, links := links },
        s.state.objs, ⟨some (.stop (.unlock n links.head.isNone)), (s.state.control t).frames⟩,
        some (.popped n links.head)⟩) ?_ rfl rfl hcalls trivial (.inl hid) (fun hw => hw) ?_
        (fun _ => rfl) ?_
      · cases first <;> simp [threadStep, stopStep, hpop]
      · intro hf
        show Turns _ _ (n :: (pending s.state.log).erase n)
        rwa [herase, ← hcons]
      · intro _
        show burden _ ((pending s.state.log).erase n) * 32 + (32 * (s.body n).size + 20)
          < burden _ (pending s.state.log) * 32 + 8
        rw [herase, hcons]
        simp only [burden]
        omega
  | unlock n empty =>
    refine h.goesOn hop (o := ⟨{ s.state.mem with word := unlock s.state.mem.word }, s.state.objs,
      ⟨some (.stop (.start n empty)), (s.state.control t).frames⟩, none⟩) rfl rfl rfl hcalls
      trivial ?_ (fun hw => hw)
      (fun hf => hf) (fun _ => rfl) ?_
    · exact .inl (h.threadId (by simp [hop]))
    · exact fun _ => Nat.add_lt_add_left (Nat.lt_succ_self _) _
  | start n empty => cases hcalls
  | mark n empty =>
    have hid := h.threadId (by simp [hop])
    obtain ⟨hcontrol, hthread, hpending, hexec⟩ := mark_eq t s.state.mem s.state.objs
      (s.state.control t).frames ok n empty
    refine h.goesOn hop rfl hcontrol rfl hcalls ?_ (.inl (hthread.trans hid)) (fun hw => hw) ?_
      (hexec s.state.log) ?_
    · cases empty <;> trivial
    · intro hf
      rw [hpending]
      cases empty <;> exact hf
    · intro _
      rw [hpending]
      cases empty
      · exact Nat.add_lt_add_left (Nat.lt_succ_self 10) _
      · exact Nat.add_lt_add_left (show 7 < 11 by omega) _
  | load =>
    have hid := h.threadId (by simp [hop])
    refine h.goesOn hop (o := ⟨s.state.mem, s.state.objs, ⟨some (.stop (.cas s.state.mem.word)),
      (s.state.control t).frames⟩, none⟩) ?_ rfl rfl hcalls rfl (.inl hid) (fun hw => hw)
      (fun hf => hf) (fun _ => rfl) ?_
    · simp [threadStep, stopStep, StopPc.test, h.unlocked hop rfl]
    · exact fun _ => Nat.add_lt_add_left (Nat.lt_succ_self 9) _
  | cas past =>
    have hid := h.threadId (by simp [hop])
    have hreads := h.going.reads
    rw [hop] at hreads
    obtain rfl : past = s.state.mem.word := hreads
    cases ok with
    | true =>
      refine h.goesOn hop (o := ⟨{ s.state.mem with word := locked s.state.mem.word },
        s.state.objs, ⟨some (.stop (.pop false)), (s.state.control t).frames⟩, none⟩) ?_ rfl rfl
        hcalls trivial (.inl hid) (fun hw => hw) (fun hf => hf) (fun _ => rfl) ?_
      · simp [threadStep, stopStep]
      · exact fun _ => Nat.add_lt_add_left (Nat.lt_succ_self 8) _
    | false =>
      refine h.goesOn hop (o := ⟨s.state.mem, s.state.objs,
        ⟨some (.stop (.cas s.state.mem.word)), (s.state.control t).frames⟩, none⟩) ?_ rfl rfl
        hcalls rfl (.inl hid) (fun hw => hw) (fun hf => hf) (fun _ => rfl) Bool.noConfusion
      simp [threadStep, stopStep, StopPc.test, h.unlocked hop rfl]
  | last => exact absurd rfl hp.1
  | done => exact absurd rfl hp.2

/-- A method calls callback `n`. -/
lemma call (h : Stopping t u s) {pc : Pc N} {ok : Bool} {o : Outcome T N} {n : N} {f : Frame N}
    {e : Seen N} (hop : (s.state.control t).op = some pc)
    (ho : threadStep t s.state.mem s.state.objs (s.state.control t).frames (some pc) (.proceed ok)
      = some o)
    (hcontrol : o.control = ⟨none, f :: (s.state.control t).frames⟩) (hjob : pc.job = some f.job)
    (hresume : ∀ v : Session T N, v.resume t pc = v.call n e)
    (hid : o.mem.threadId = some t) (hcalled : Called f s.code)
    (hfollows : Turns (pending u.log) (e :: s.seen) (pending (o.event.toList ++ s.state.log)))
    (hpending : pending (o.event.toList ++ s.state.log) = pending s.state.log)
    (hreturns : e ≠ .returns true)
    (hexec : ∀ m, executions m (o.event.toList ++ s.state.log) = executions m s.state.log +
      (([e] : List (Seen N)).count (.executes m) + ([e] : List (Seen N)).count (.entered m)))
    (hrank : rank s.body (some pc) = 32 * (s.body n).size + 19) :
    ∃ s', s.step t ok = some s' ∧ Next t u s ok s' := by
  obtain ⟨-, hlast, -, -, hcallers, -, hret, hex⟩ := h.going
  refine exists_next hop ho (hresume _) ⟨.inl (h.after (hop ▸ ho) s.body ?_), fun _ => ?_⟩
  · refine ⟨by rw [hcontrol]; trivial, ?_, .inl hid, by rw [hcontrol]; trivial, ?_, ?_, ?_, ?_⟩
    · rw [Control.jobs, hop, Option.bind_some, hjob] at hlast
      rw [hcontrol]
      exact hlast
    · rw [hcontrol]
      exact .cons hcalled hcallers
    · rw [hcontrol]
      exact hfollows
    · exact List.not_mem_cons_of_ne_of_not_mem hreturns.symm hret
    · intro m
      have hcount : ∀ x, (e :: s.seen).count x = s.seen.count x + [e].count x := by
        intro x
        rw [← List.singleton_append, List.count_append, Nat.add_comm]
      rw [hexec, hex, hcount, hcount]
      omega
  · simp only [Session.weight, Session.call, after_control, hop, hcontrol, cost, hrank]
    show 32 * (_ + sizes (s.code :: s.callers)
      + burden s.body (pending (o.event.toList ++ s.state.log))) + 12 < _
    rw [hpending, sizes]
    omega

/-- `request_stop` executes the callback that it took off the list. -/
theorem stop_start (h : Stopping t u s) {n : N} {empty : Bool}
    (hop : (s.state.control t).op = some (.stop (.start n empty))) (ok : Bool) :
    ∃ s', s.step t ok = some s' ∧ Next t u s ok s' := by
  have hwaits := h.going.waits
  have hfollows := h.going.follows
  rw [hop] at hwaits hfollows
  refine h.call hop (o := stopStep t s.state.mem s.state.objs (s.state.control t).frames ok
    (.start n empty)) (n := n) (e := .executes n) (f := .stop n empty) rfl rfl rfl (fun _ => rfl)
    ?_ hwaits (.executes hfollows) rfl (by simp) ?_ rfl
  · exact h.threadId (by simp [hop])
  · intro m
    simp [stopStep, executions, List.count_singleton]

/-- Under the `request_stop` of the thread there is no other method. -/
lemma frames_eq_nil (h : Stopping t u s) {p : StopPc N}
    (hop : (s.state.control t).op = some (.stop p)) : (s.state.control t).frames = [] := by
  obtain ⟨L, hL, -⟩ := h.exists_coupled
  have hnodup := (hL.thread t).nodup
  have hlast := h.going.last
  rw [Control.jobs, hop] at hnodup hlast
  have hfirst := (List.nodup_cons.mp hnodup).1
  by_contra hne
  have hmap : (s.state.control t).frames.map Frame.job ≠ [] := by simpa using hne
  exact hfirst (List.mem_of_getLast? ((List.getLast?_cons_of_ne_nil hmap).symm.trans hlast))

/-- What holds when no callback is left. -/
lemma law (h : Stopping t u s) (hnodup : (pending u.log).Nodup)
    (hturns : Turns (pending u.log) s.seen []) {v : Session T N}
    (hseen : v.seen = .returns true :: s.seen) (hunlocked : isLocked v.state.mem.word = false)
    (hhead : v.state.mem.links.head = none) : StopLaw u v := by
  obtain ⟨L, hL, -⟩ := h.exists_coupled
  have hbefore : ∀ n, DestroyedBefore n v.seen ↔ DestroyedBefore n s.seen := by
    intro n
    rw [hseen, destroyedBefore_cons]
    simp
  refine ⟨⟨_, hseen, h.going.returned⟩, fun n => ?_, ?_, fun n => ?_, ?_, hunlocked, hhead⟩
  · rw [hbefore, ← hturns.executes_iff hnodup, hseen]
    simp
  · have horder := hturns.order
    rw [List.append_nil] at horder
    rw [hseen]
    exact horder
  · have honce := hL.runs.law.2.once n
    rw [h.going.executions n] at honce
    rw [hseen]
    simp only [List.count_cons, beq_iff_eq, reduceCtorEq, if_false]
    omega
  · intro n earlier hn
    rw [hseen] at hn ⊢
    rcases List.suffix_cons_iff.mp hn with heq | hn
    · cases heq
    · exact (hturns.inline hn).trans (List.suffix_cons _ _)

/-- `request_stop` returns. -/
theorem stop_returns (h : Stopping t u s) (hnodup : (pending u.log).Nodup) {p : StopPc N}
    (hop : (s.state.control t).op = some (.stop p)) (hp : p = .last ∨ p = .done) (ok : Bool) :
    ∃ s', s.step t ok = some s' ∧ Next t u s ok s' := by
  obtain ⟨L, hL, hord, -⟩ := h.exists_coupled
  have hframes := h.frames_eq_nil hop
  have hwaits := h.going.waits
  have hfollows := h.going.follows
  have hcallers := h.going.callers
  rw [hop] at hwaits hfollows
  rw [hframes] at hcallers
  have hcode : s.code = .caller := hwaits
  have hdone : s.callers = [] := List.forall₂_nil_left_iff.mp hcallers
  have hnone : L.NoneListed := by
    have hok := (hL.thread t).op _ hop
    rcases hp with rfl | rfl <;> exact hok
  have hnil : pending s.state.log = [] := hL.pending_eq_nil hord.lists hnone
  have hturns : Turns (pending u.log) s.seen [] := by
    rw [← hnil]
    rcases hp with rfl | rfl <;> exact hfollows
  have hhead : s.state.mem.links.head = none := by
    rw [hord.lists.head_eq, hnil]
    rfl
  have key : ∀ w, isLocked w = false → (∀ v : Session T N, v.resume t (.stop p) =
      if (v.state.control t).op.isNone then v.returns true else v) →
      stopStep t s.state.mem s.state.objs (s.state.control t).frames ok p = ⟨{ s.state.mem with
        word := w }, s.state.objs, ⟨none, (s.state.control t).frames⟩, some (.stopped t)⟩ →
      rank s.body (some (.stop p)) = 7 → ∃ s', s.step t ok = some s' ∧ Next t u s ok s' := by
    intro w hw hresume hstep hrank
    have hreturns : ({ s with state := s.state.after t (stopStep t s.state.mem s.state.objs
        (s.state.control t).frames ok p) } : Session T N).resume t (.stop p)
        = ⟨s.state.after t (stopStep t s.state.mem s.state.objs (s.state.control t).frames ok p),
          s.body, .done, s.callers, .returns true :: s.seen⟩ := by
      rw [hresume, after_control, hstep]
      simp [Session.returns, hcode, Body.caller]
    refine exists_next hop rfl hreturns ⟨.inr ⟨⟨?_, rfl, hdone⟩, ?_⟩, fun _ => ?_⟩
    · rw [after_control, hstep]
    · rw [hstep]
      exact h.law hnodup hturns rfl hw hhead
    · rw [hstep]
      simp only [Session.weight, after_control, hop, cost, hrank, hcode]
      show 32 * (1 + _ + burden s.body (pending s.state.log)) + 12
        < 32 * (3 + _ + burden s.body (pending s.state.log)) + 7
      omega
  rcases hp with rfl | rfl
  · exact key _ (isLocked_unlock (hL.exclusive.locked t (by rw [Control.holdsLock, hop]; rfl)))
      (fun _ => rfl) rfl rfl
  · exact key s.state.mem.word (h.unlocked hop rfl) (fun _ => rfl) rfl rfl

/-- The methods under one that is not `request_stop` are those over which it was called. -/
lemma last_frames (h : Stopping t u s) {op : Option (Pc N)} (hop : (s.state.control t).op = op)
    (hjob : .stop ∉ op.bind Pc.job) :
    ((s.state.control t).frames.map Frame.job).getLast? = some .stop := by
  have hlast := h.going.last
  rw [Control.jobs, hop] at hlast
  cases hj : op.bind Pc.job with
  | none =>
    rw [hj] at hlast
    exact hlast
  | some j =>
    rw [hj] at hlast hjob
    exact getLast_tail hlast fun heq => hjob (heq ▸ rfl)

/-- A method other than the first `request_stop` returns. -/
lemma ended (h : Stopping t u s) (code : Body N) (seen : List (Seen N)) {pc : Pc N} {ok : Bool}
    {o : Outcome T N} (hop : (s.state.control t).op = some pc)
    (ho : threadStep t s.state.mem s.state.objs (s.state.control t).frames (some pc) (.proceed ok)
      = some o)
    (hcontrol : o.control = ⟨none, (s.state.control t).frames⟩) (hjob : .stop ∉ pc.job)
    (hresume : ({ s with state := s.state.after t o } : Session T N).resume t pc
      = ⟨s.state.after t o, s.body, code, s.callers, seen⟩)
    (hid : o.mem.threadId = some t)
    (hfollows : Turns (pending u.log) seen (pending (o.event.toList ++ s.state.log)))
    (hpending : pending (o.event.toList ++ s.state.log) = pending s.state.log)
    (hreturned : .returns true ∉ seen)
    (hexec : ∀ n, executions n (o.event.toList ++ s.state.log) =
      executions n u.log + (seen.count (.executes n) + seen.count (.entered n)))
    (hnearer : 32 * code.size + 12 < 32 * s.code.size + rank s.body (some pc)) :
    ∃ s', s.step t ok = some s' ∧ Next t u s ok s' := by
  have hlast := h.last_frames hop hjob
  refine exists_next hop ho hresume ⟨.inl (h.after (hop ▸ ho) s.body ?_), fun _ => ?_⟩
  · rw [hcontrol]
    exact ⟨trivial, hlast, .inl hid, trivial, h.going.callers, hfollows, hreturned, hexec⟩
  · simp only [Session.weight, after_control, hop, hcontrol, cost]
    show 32 * (_ + _ + burden s.body (pending (o.event.toList ++ s.state.log))) + 12 < _
    rw [hpending]
    omega

/-- A `request_stop` of a callback returns false. -/
theorem request (h : Stopping t u s) {p : RequestPc}
    (hop : (s.state.control t).op = some (.request p)) (ok : Bool) :
    ∃ s', s.step t ok = some s' ∧ Next t u s ok s' := by
  obtain ⟨L, hL, -, -, hstop⟩ := h.exists_coupled
  have hwaits := h.going.waits
  have hreads := h.going.reads
  have hfollows := h.going.follows
  have hok := (hL.thread t).op _ hop
  rw [hop] at hwaits hreads hfollows
  obtain ⟨rest, hcode⟩ : ∃ rest, s.code = .requestStop rest := hwaits
  cases p with
  | load =>
    refine h.ended (rest false) (.returns false :: s.seen) hop (o := ⟨s.state.mem, s.state.objs,
      ⟨none, (s.state.control t).frames⟩, none⟩) ?_ rfl (by simp [Pc.job]) ?_ ?_
      (.returns hfollows) rfl ?_ ?_ ?_
    · simp [threadStep, requestStep, RequestPc.test, hstop]
    · simp [Session.resume, Session.returns, hcode]
    · exact h.threadId (by simp [hop])
    · simpa using h.going.returned
    · intro n
      simpa using h.going.executions n
    · rw [hcode]
      show 32 * (rest false).size + 12 < 32 * ((rest true).size + (rest false).size + 1) + 11
      omega
  | cas past =>
    obtain rfl : past = s.state.mem.word := hreads
    exact absurd (hstop.symm.trans hok.1) (by simp)

/-- A constructor executes its callback. -/
theorem push (h : Stopping t u s) {n : N} {copy : Bool} {p : PushPc}
    (hop : (s.state.control t).op = some (.push n copy p)) (ok : Bool) :
    ∃ s', s.step t ok = some s' ∧ Next t u s ok s' := by
  obtain ⟨L, hL, -, hw, hstop⟩ := h.exists_coupled
  have hid := h.threadId (by simp [hop])
  have hreads := h.going.reads
  have hfollows := h.going.follows
  have hok := (hL.thread t).op _ hop
  rw [hop] at hreads hfollows
  cases p with
  | load =>
    refine h.goesOn hop (o := ⟨s.state.mem, s.state.objs,
      ⟨some (.push n copy .start), (s.state.control t).frames⟩, none⟩) ?_ rfl rfl rfl trivial
      (.inl hid) (fun hw => hw) (fun hf => hf) (fun _ => rfl) ?_
    · simp [threadStep, pushStep, hstop]
    · exact fun _ => Nat.add_lt_add_left (Nat.lt_succ_self _) _
  | cas past =>
    obtain rfl : past = s.state.mem.word := hreads
    exact absurd (hstop.symm.trans hok.2.1) (by simp)
  | link | unlock => exact absurd (hw.symm.trans hok.2) (by simp)
  | start =>
    obtain ⟨earlier, hseen, hturns⟩ := hfollows
    refine h.call hop (o := pushStep s.state.mem s.state.objs (s.state.control t).frames ok n copy
      .start) (n := n) (e := .entered n) (f := .push n) rfl rfl rfl (fun _ => rfl) hid trivial ?_
      rfl (by simp) ?_ rfl
    · rw [hseen]
      exact .entered n hturns
    · intro m
      simp [pushStep, executions, List.count_singleton]

/-- A destructor takes its callback out of the list, or tells the `request_stop` that executes
it. -/
theorem erase (h : Stopping t u s) {n : N} {p : ErasePc}
    (hop : (s.state.control t).op = some (.erase n p)) (ok : Bool) :
    ∃ s', s.step t ok = some s' ∧ Next t u s ok s' := by
  obtain ⟨L, hL, hord, -⟩ := h.exists_coupled
  have hid := h.threadId (by simp [hop])
  have hreads := h.going.reads
  rw [hop] at hreads
  cases p with
  | load =>
    refine h.goesOn hop (o := ⟨s.state.mem, s.state.objs,
      ⟨some (.erase n (.cas s.state.mem.word)), (s.state.control t).frames⟩, none⟩) ?_ rfl rfl rfl
      rfl (.inl hid) (fun hw => hw) (fun hf => hf) (fun _ => rfl) ?_
    · simp [threadStep, eraseStep, ErasePc.test, h.unlocked hop rfl]
    · exact fun _ => Nat.add_lt_add_left (Nat.lt_succ_self 23) _
  | cas past =>
    obtain rfl : past = s.state.mem.word := hreads
    cases ok with
    | true =>
      refine h.goesOn hop (o := ⟨{ s.state.mem with word := locked s.state.mem.word },
        s.state.objs, ⟨some (.erase n .unlink), (s.state.control t).frames⟩, none⟩) ?_ rfl rfl rfl
        trivial (.inl hid) (fun hw => hw) (fun hf => hf) (fun _ => rfl) ?_
      · simp [threadStep, eraseStep]
      · exact fun _ => Nat.add_lt_add_left (Nat.lt_succ_self 22) _
    | false =>
      refine h.goesOn hop (o := ⟨s.state.mem, s.state.objs,
        ⟨some (.erase n (.cas s.state.mem.word)), (s.state.control t).frames⟩, none⟩) ?_ rfl rfl
        rfl rfl (.inl hid) (fun hw => hw) (fun hf => hf) (fun _ => rfl) Bool.noConfusion
      simp [threadStep, eraseStep, ErasePc.test, h.unlocked hop rfl]
  | unlink =>
    cases hprev : s.state.mem.links.prev n with
    | some slot =>
      refine h.goesOn hop (o := ⟨{ s.state.mem with links := s.state.mem.links.unlink n slot },
        s.state.objs, ⟨some (.erase n .unlockDecrement), (s.state.control t).frames⟩,
        some (.unlinked n)⟩) ?_ rfl rfl rfl trivial (.inl hid) (fun hw => hw) (fun hf => hf)
        (fun _ => rfl) fun _ => ?_
      · simp [threadStep, eraseStep, hprev]
      · have hle := burden_erase_le s.body (pending s.state.log) n
        exact Nat.add_lt_add_of_le_of_lt (Nat.mul_le_mul_right 32 hle) (Nat.lt_succ_self 21)
    | none =>
      have hn : n ∉ pending s.state.log := by
        intro hn
        obtain ⟨slot, hslot, -⟩ := hord.lists.exists_prev hn
        simp [hprev] at hslot
      refine h.goesOn hop (o := ⟨s.state.mem, s.state.objs,
        ⟨some (.erase n .unlock), (s.state.control t).frames⟩, none⟩) ?_ rfl rfl rfl trivial
        (.inl hid) (fun hw => hw) ?_ (fun _ => rfl) ?_
      · simp [threadStep, eraseStep, hprev]
      · intro hf
        have hf : Turns (pending u.log) s.seen ((pending s.state.log).erase n) := hf
        rwa [List.erase_of_not_mem hn] at hf
      · exact fun _ => Nat.add_lt_add_left (Nat.lt_succ_self 21) _
  | unlock =>
    refine h.goesOn hop (o := ⟨{ s.state.mem with word := unlock s.state.mem.word }, s.state.objs,
      ⟨some (.erase n .check), (s.state.control t).frames⟩, none⟩) rfl rfl rfl rfl trivial
      (.inl hid) (fun hw => hw)
      (fun hf => hf) (fun _ => rfl) ?_
    exact fun _ => Nat.add_lt_add_left (Nat.lt_succ_self 20) _
  | check =>
    cases hremoved : s.state.mem.isRemoved n with
    | some removed =>
      refine h.goesOn hop (o := ⟨{ s.state.mem with
        flags := Function.update s.state.mem.flags removed true }, s.state.objs,
        ⟨some (.erase n .decrement), (s.state.control t).frames⟩, some (.removed n)⟩) ?_ rfl rfl rfl
        trivial (.inl hid) (fun hw => hw) (fun hf => hf) (fun _ => rfl) ?_
      · simp [threadStep, eraseStep, hid, hremoved]
      · exact fun _ => Nat.add_lt_add_left (Nat.lt_succ_self 19) _
    | none =>
      refine h.goesOn hop (o := ⟨s.state.mem, s.state.objs,
        ⟨some (.erase n .decrement), (s.state.control t).frames⟩, none⟩) ?_ rfl rfl rfl
        trivial (.inl hid) (fun hw => hw) (fun hf => hf) (fun _ => rfl) ?_
      · simp [threadStep, eraseStep, hid, hremoved]
      · exact fun _ => Nat.add_lt_add_left (Nat.lt_succ_self 19) _
  | wait => exact absurd hreads not_false
  | unlockDecrement | decrement =>
    have hfollows := h.going.follows
    rw [hop] at hfollows
    refine h.ended s.code s.seen hop
      (o := eraseStep t s.state.mem s.state.objs (s.state.control t).frames ok n _) rfl
      rfl (by simp [Pc.job]) rfl hid hfollows rfl h.going.returned
      (fun n => h.going.executions n) ?_
    simp [rank]

end Stopping

end StopState

end Sync
