import SyncLib.StopToken.Refinement

/-!
# The list and the lock

In every interleaving the list is made of the callbacks that were put into it and not taken out
since, the last registered one first, and the locked bit is set only while a thread has the lock.
-/

namespace Sync

namespace StopState

open Core

variable {T N : Type*} [DecidableEq N]

/-! ### Order of registration -/

/-- The callbacks in the list, the last registered first. -/
def pending : List (Event T N) → List N
  | []               => []
  | .linked n :: l   => n :: pending l
  | .popped n _ :: l => (pending l).erase n
  | .unlinked n :: l => (pending l).erase n
  | _ :: l           => pending l

/-- The callbacks put into the list, the last one first. -/
def registrations : List (Event T N) → List N
  | []             => []
  | .linked n :: l => n :: registrations l
  | _ :: l         => registrations l

/-- The list is in the reverse order of registration. -/
theorem pending_sublist (log : List (Event T N)) : (pending log).Sublist (registrations log) := by
  induction log with
  | nil => exact List.Sublist.refl _
  | cons e log ih =>
    cases e with
    | linked n => exact ih.cons_cons n
    | popped n head => exact List.erase_sublist.trans ih
    | unlinked n => exact List.erase_sublist.trans ih
    | _ => exact ih

/-! ### What a step does to the list -/

/-- The event says that a callback was put into the list or taken out of it. -/
def Event.relinks : Event T N → Bool
  | .linked _ | .popped _ _ | .unlinked _ => true
  | _                                     => false

/-- What a step at `op` does to the links, and its event. -/
inductive Relinks (links : Links N) (op : Option (Pc N)) : Links N → Option (Event T N) → Prop
  | keep {e : Option (Event T N)} (he : e.all (fun e => !e.relinks) = true) :
      Relinks links op links e
  | push {n : N} {copy : Bool} (hop : op = some (.push n copy .link)) :
      Relinks links op (links.push n) (some (.linked n))
  | pop {n : N} {links' : Links N} (hpop : links.pop = some (n, links')) :
      Relinks links op links' (some (.popped n links'.head))
  | unlink {n : N} {p : Slot N} (hop : op = some (.erase n .unlink))
      (hp : links.prev n = some p) :
      Relinks links op (links.unlink n p) (some (.unlinked n))

namespace Relinks

variable {t : T} {mem : Memory T N} {objs : N → Obj T} {frames : List (Frame N)}
  {op : Option (Pc N)}

lemma of_user {m : Move N} {o : Outcome T N} (ho : userStep t mem objs frames m = some o) :
    Relinks mem.links op o.mem.links o.event := by
  cases m with
  | requestStop =>
    cases ho
    exact .keep rfl
  | construct n copy =>
    simp only [userStep] at ho
    split at ho <;> cases ho
    exact .keep rfl
  | destroy n =>
    simp only [userStep] at ho
    split at ho <;> cases ho <;> exact .keep rfl
  | leave =>
    cases frames with
    | nil => cases ho
    | cons f rest => cases f <;> cases ho <;> exact .keep rfl
  | count r =>
    cases ho
    exact .keep rfl
  | proceed ok => cases ho

lemma of_push (ok : Bool) (n : N) (copy : Bool) (p : PushPc) :
    Relinks mem.links (some (.push n copy p)) (pushStep mem objs frames ok n copy p).mem.links
      (pushStep mem objs frames ok n copy p).event := by
  cases p with
  | load =>
    simp only [pushStep]
    split_ifs <;> exact .keep rfl
  | cas past =>
    simp only [pushStep]
    split_ifs <;> exact .keep rfl
  | link => exact .push rfl
  | unlock | start => exact .keep rfl

variable [DecidableEq T]

lemma of_stop (ok : Bool) (p : StopPc N) :
    Relinks mem.links op (stopStep t mem objs frames ok p).mem.links
      (stopStep t mem objs frames ok p).event := by
  cases p with
  | pop first =>
    have hlinks : (if first then { mem with threadId := some t } else mem).links
        = mem.links := by
      cases first <;> rfl
    simp only [stopStep, hlinks]
    split
    · simp only [hlinks]
      exact .keep rfl
    · rename_i n links hpop
      exact .pop hpop
  | mark n empty =>
    simp only [stopStep]
    split_ifs <;> exact .keep rfl
  | cas past =>
    simp only [stopStep]
    split_ifs <;> exact .keep rfl
  | unlock n empty | start n empty | load | last | done => exact .keep rfl

lemma of_erase (ok : Bool) (n : N) (p : ErasePc) :
    Relinks mem.links (some (.erase n p)) (eraseStep t mem objs frames ok n p).mem.links
      (eraseStep t mem objs frames ok n p).event := by
  cases p with
  | cas past =>
    simp only [eraseStep]
    split_ifs <;> exact .keep rfl
  | unlink =>
    simp only [eraseStep]
    split
    · rename_i slot hslot
      exact .unlink rfl hslot
    · exact .keep rfl
  | check =>
    simp only [eraseStep]
    split_ifs
    · split <;> exact .keep rfl
    · exact .keep rfl
  | load | unlockDecrement | unlock | wait | decrement => exact .keep rfl

/-- Every step of a thread does one of these. -/
theorem of_threadStep {m : Move N} {o : Outcome T N}
    (ho : threadStep t mem objs frames op m = some o) :
    Relinks mem.links op o.mem.links o.event := by
  rcases threadStep_cases ho with ⟨-, ho⟩ | ⟨ok, -, hstep⟩
  · exact of_user ho
  · rcases hstep with ⟨p, -, rfl⟩ | ⟨p, -, rfl⟩ | ⟨n, copy, p, rfl, rfl⟩ | ⟨n, p, rfl, rfl⟩
    · cases p with
      | load => exact .keep rfl
      | cas past =>
        simp only [requestStep]
        split_ifs <;> exact .keep rfl
    · exact of_stop ok p
    · exact of_push ok n copy p
    · exact of_erase ok n p

end Relinks

namespace Coupled

variable {s : State T N} {L : Life T N} {t : T} {frames : List (Frame N)}

/-- What is in the list is listed. -/
lemma mem_pending (h : Coupled s L) (hl : s.mem.links.Lists (pending s.log)) (n : N) :
    n ∈ pending s.log ↔ (L.stage n).isListed = true := by
  obtain ⟨l, hlists, hmem⟩ := h.list
  rw [hl.unique hlists]
  exact hmem n

lemma pending_eq_nil (h : Coupled s L) (hl : s.mem.links.Lists (pending s.log))
    (hnone : L.NoneListed) : pending s.log = [] := by
  apply List.eq_nil_iff_forall_not_mem.mpr
  intro n hn
  rw [h.mem_pending hl, hnone n] at hn
  exact Bool.noConfusion hn

/-- `request_stop` takes the last registered callback. -/
lemma lists_pop (hl : s.mem.links.Lists (pending s.log)) {n : N} {links : Links N}
    (hpop : s.mem.links.pop = some (n, links)) :
    ∃ l, pending s.log = n :: l ∧ links.Lists l ∧ (pending s.log).erase n = l := by
  obtain ⟨l, hcons, hlists, -, -⟩ := hl.pop hpop
  refine ⟨l, hcons, hlists, ?_⟩
  rw [hcons, List.erase_cons_head]

/-- A callback is put into the list only once. -/
lemma fresh_of_link (h : Coupled s L) {n : N} {copy : Bool}
    (hop : (s.control t).op = some (.push n copy .link)) : L.stage n = .fresh := by
  have ht := h.thread t
  rw [Control.eq_of_op hop] at ht
  obtain ⟨hfresh, -⟩ : PushPc.Ok L n .link := ht.op _ rfl
  exact hfresh

variable [DecidableEq T]

/-- A callback is taken out of the list by `erase_callback` only while it is there. -/
lemma linked_of_unlink (h : Coupled s L) {n : N} {p : Slot N}
    (hop : (s.control t).op = some (.erase n .unlink)) (hp : s.mem.links.prev n = some p) :
    L.stage n = .linked :=
  ((h.unlinkedBy (Control.eq_of_op hop) hp).runs.tail h.runs).linked_of_unlinked

/-- One step of a thread. -/
lemma lists_step (h : Coupled s L) (hl : s.mem.links.Lists (pending s.log)) {m : Move N}
    {o : Outcome T N}
    (ho : threadStep t s.mem s.objs (s.control t).frames (s.control t).op m = some o) :
    o.mem.links.Lists (pending (o.event.toList ++ s.log)) := by
  have hrelinks := Relinks.of_threadStep ho
  revert hrelinks
  generalize o.mem.links = links
  generalize o.event = event
  rintro (he | hop | hpop | ⟨hop, hp⟩)
  · cases event with
    | none => exact hl
    | some e => cases e <;> first | exact hl | cases he
  · apply hl.push
    rw [h.mem_pending hl, h.fresh_of_link hop]
    exact Bool.false_ne_true
  · rename_i n
    obtain ⟨l, -, hlists, herase⟩ := lists_pop hl hpop
    show links.Lists ((pending s.log).erase n)
    rwa [herase]
  · apply hl.unlink _ hp
    rw [h.mem_pending hl, h.linked_of_unlink hop hp]
    rfl

end Coupled

/-! ### The locked bit -/

/-- A step leaves the locked bit set only if the thread has the lock after it, or had it not
before. -/
def LockKept (w : Word) (op : Option (Pc N)) (o : Outcome T N) : Prop :=
  isLocked o.mem.word = true →
    o.control.holdsLock = true ∨ op.any Pc.holdsLock = false ∧ isLocked w = true

section

variable {t : T} {mem : Memory T N} {objs : N → Obj T} {frames : List (Frame N)}

lemma lockKept_user {m : Move N} {o : Outcome T N} (ho : userStep t mem objs frames m = some o) :
    LockKept mem.word none o := by
  have hword : isLocked o.mem.word = isLocked mem.word := by
    cases m with
    | requestStop =>
      cases ho
      rfl
    | construct n copy =>
      simp only [userStep] at ho
      split at ho <;> cases ho
      rfl
    | destroy n =>
      simp only [userStep] at ho
      split at ho <;> cases ho <;> rfl
    | leave =>
      cases frames with
      | nil => cases ho
      | cons f rest => cases f <;> cases ho <;> rfl
    | count r =>
      cases ho
      exact (Coupled.flags_apply r mem.word).2
    | proceed ok => cases ho
  exact fun hl => .inr ⟨rfl, hword.symm.trans hl⟩

lemma lockKept_push {n : N} {copy : Bool} {p : PushPc}
    (hlocked : (Pc.push n copy p).holdsLock = true → isLocked mem.word = true) (ok : Bool) :
    LockKept mem.word (some (.push n copy p)) (pushStep mem objs frames ok n copy p) := by
  cases p with
  | load =>
    simp only [pushStep]
    split_ifs <;> exact fun hl => .inr ⟨rfl, hl⟩
  | cas past =>
    simp only [pushStep]
    split_ifs
    · exact fun _ => .inl rfl
    · exact fun hl => .inr ⟨rfl, hl⟩
  | link => exact fun _ => .inl rfl
  | unlock =>
    have hfree : isLocked
        (if copy then unlockAndIncrementTokenRef mem.word else unlock mem.word) = false := by
      split_ifs
      · exact isLocked_unlockAndIncrementTokenRef (hlocked rfl)
      · exact isLocked_unlock (hlocked rfl)
    exact fun hl => absurd hl (Bool.eq_false_iff.mp hfree)
  | start => exact fun hl => .inr ⟨rfl, hl⟩

variable [DecidableEq T]

lemma lockKept_stop {p : StopPc N}
    (hlocked : (Pc.stop p).holdsLock = true → isLocked mem.word = true) (ok : Bool) :
    LockKept mem.word (some (.stop p)) (stopStep t mem objs frames ok p) := by
  cases p with
  | pop first =>
    simp only [stopStep]
    split <;> exact fun _ => .inl rfl
  | unlock n empty | last =>
    exact fun hl => absurd hl (Bool.eq_false_iff.mp (isLocked_unlock (hlocked rfl)))
  | mark n empty =>
    simp only [stopStep]
    split_ifs <;> exact fun hl => .inr ⟨rfl, hl⟩
  | cas past =>
    simp only [stopStep]
    split_ifs
    · exact fun _ => .inl rfl
    · exact fun hl => .inr ⟨rfl, hl⟩
  | start n empty | load | done => exact fun hl => .inr ⟨rfl, hl⟩

lemma lockKept_erase {n : N} {p : ErasePc}
    (hlocked : (Pc.erase n p).holdsLock = true → isLocked mem.word = true) (ok : Bool) :
    LockKept mem.word (some (.erase n p)) (eraseStep t mem objs frames ok n p) := by
  cases p with
  | cas past =>
    simp only [eraseStep]
    split_ifs
    · exact fun _ => .inl rfl
    · exact fun hl => .inr ⟨rfl, hl⟩
  | unlink =>
    simp only [eraseStep]
    split <;> exact fun _ => .inl rfl
  | unlockDecrement =>
    have hfree := isLocked_unlockAndDecrementTokenRef (hlocked rfl)
    exact fun hl => absurd hl (Bool.eq_false_iff.mp hfree)
  | unlock => exact fun hl => absurd hl (Bool.eq_false_iff.mp (isLocked_unlock (hlocked rfl)))
  | check =>
    simp only [eraseStep]
    split_ifs
    · split <;> exact fun hl => .inr ⟨rfl, hl⟩
    · exact fun hl => .inr ⟨rfl, hl⟩
  | decrement =>
    have hword := (flags_decrementTokenRef mem.word).2
    exact fun hl => .inr ⟨rfl, hword.symm.trans hl⟩
  | load | wait => exact fun hl => .inr ⟨rfl, hl⟩

/-- One step of a thread. -/
lemma lockKept_step {op : Option (Pc N)} {m : Move N} {o : Outcome T N}
    (hlocked : op.any Pc.holdsLock = true → isLocked mem.word = true)
    (ho : threadStep t mem objs frames op m = some o) : LockKept mem.word op o := by
  rcases threadStep_cases ho with ⟨rfl, ho⟩ | ⟨ok, -, hstep⟩
  · exact lockKept_user ho
  · rcases hstep with ⟨p, rfl, rfl⟩ | ⟨p, rfl, rfl⟩ | ⟨n, copy, p, rfl, rfl⟩ | ⟨n, p, rfl, rfl⟩
    · cases p with
      | load => exact fun hl => .inr ⟨rfl, hl⟩
      | cas past =>
        simp only [requestStep]
        split_ifs
        · exact fun _ => .inl rfl
        · exact fun hl => .inr ⟨rfl, hl⟩
    · exact lockKept_stop hlocked ok
    · exact lockKept_push hlocked ok
    · exact lockKept_erase hlocked ok

end

/-! ### Callbacks that are not registered -/

section

variable [DecidableEq T] {t : T} {mem : Memory T N} {objs : N → Obj T} {frames : List (Frame N)}

lemma requestStep_objs {T N : Type*} {t : T} {mem : Memory T N} {objs : N → Obj T}
    {frames : List (Frame N)} {ok : Bool} {p : RequestPc} :
    (requestStep t mem objs frames ok p).objs = objs := by
  cases p with
  | load => rfl
  | cas past =>
    simp only [requestStep]
    split_ifs <;> rfl

lemma stopStep_objs {ok : Bool} {p : StopPc N} :
    (stopStep t mem objs frames ok p).objs = objs := by
  cases p with
  | pop first =>
    simp only [stopStep]
    split <;> rfl
  | mark n empty =>
    simp only [stopStep]
    split_ifs <;> rfl
  | cas past =>
    simp only [stopStep]
    split_ifs <;> rfl
  | unlock n empty | start n empty | load | last | done => rfl

/-- A callback stays unregistered where its constructor refused it or executed it. -/
lemma live_false_cases {op : Option (Pc N)} {m : Move N} {o : Outcome T N}
    (ho : threadStep t mem objs frames op m = some o) {n : N} (hn : o.objs n = .live false) :
    objs n = .live false ∨ o.event = some (.refused n) ∨ o.event = some (.left n) := by
  have hold : ∀ {k : N} {v : Obj T}, Function.update objs k v n = .live false →
      objs n = .live false ∨ n = k ∧ v = .live false := by
    intro k v h
    by_cases hk : n = k
    · subst hk
      rw [Function.update_self] at h
      exact .inr ⟨rfl, h⟩
    · rw [Function.update_of_ne hk] at h
      exact .inl h
  rcases threadStep_cases ho with ⟨-, ho⟩ | ⟨ok, -, hstep⟩
  · cases m with
    | requestStop | count r =>
      cases ho
      exact .inl hn
    | construct k copy =>
      simp only [userStep] at ho
      split at ho <;> cases ho
      exact .inl ((hold hn).resolve_right (by simp))
    | destroy k =>
      simp only [userStep] at ho
      split at ho <;> cases ho <;> exact .inl ((hold hn).resolve_right (by simp))
    | leave =>
      cases frames with
      | nil => cases ho
      | cons f rest =>
        cases f with
        | stop k empty =>
          cases ho
          exact .inl hn
        | push k =>
          cases ho
          rcases hold hn with h | ⟨rfl, -⟩
          · exact .inl h
          · exact .inr (.inr rfl)
    | proceed ok => cases ho
  · rcases hstep with ⟨p, -, rfl⟩ | ⟨p, -, rfl⟩ | ⟨k, copy, p, -, rfl⟩ | ⟨k, p, -, rfl⟩
    · rw [requestStep_objs] at hn
      exact .inl hn
    · rw [stopStep_objs] at hn
      exact .inl hn
    · cases p with
      | load =>
        simp only [pushStep] at hn ⊢
        split_ifs at hn ⊢
        · exact .inl hn
        · rcases hold hn with h | ⟨rfl, -⟩
          · exact .inl h
          · exact .inr (.inl rfl)
        · exact .inl hn
        · exact .inl hn
      | cas past =>
        simp only [pushStep] at hn
        split_ifs at hn <;> exact .inl hn
      | link | start => exact .inl hn
      | unlock => exact .inl ((hold hn).resolve_right (by simp))
    · cases p with
      | cas past =>
        simp only [eraseStep] at hn
        split_ifs at hn <;> exact .inl hn
      | unlink =>
        simp only [eraseStep] at hn
        split at hn <;> exact .inl hn
      | check =>
        simp only [eraseStep] at hn
        split_ifs at hn
        · split at hn <;> exact .inl hn
        · exact .inl hn
      | unlockDecrement | decrement => exact .inl ((hold hn).resolve_right (by simp))
      | load | unlock | wait => exact .inl hn
end

lemma Life.Step.stage_refused {L L' : Life T N} {n : N} (h : L.Step (.refused n) L') :
    L'.stage n = .refused := by
  cases h with
  | refused => exact L.set_stage n _

lemma Life.Step.stage_left {L L' : Life T N} {n : N} (h : L.Step (.left n) L') :
    L'.stage n = .left := by
  cases h with
  | left => exact L.set_stage n _

/-- Nothing happens any more to a callback that its constructor refused or executed. -/
lemma Life.Step.unregistered {L L' : Life T N} {e : Event T N} {n : N} (h : L.Step e L')
    (hn : L.stage n = .refused ∨ L.stage n = .left) :
    L'.stage n = .refused ∨ L'.stage n = .left := by
  by_cases he : e.node = some n
  · rcases hn with hn | hn <;> cases h <;> simp_all [Event.node, Stage.isListed]
  · rwa [h.stage_eq he]

/-! ### Every interleaving -/

/-- The list is made of the pending callbacks, an unregistered callback was refused or executed by
its constructor, and whoever set the locked bit has the lock. -/
structure Ordered (s : State T N) (L : Life T N) : Prop where
  lists : s.mem.links.Lists (pending s.log)
  unregistered : ∀ n, s.objs n = .live false → L.stage n = .refused ∨ L.stage n = .left
  held : isLocked s.mem.word = true → ∃ u, (s.control u).holdsLock = true

lemma Ordered.start : Ordered (State.start : State T N) Life.start := by
  refine ⟨Links.lists_empty, fun n hn => ?_, fun hl => ?_⟩
  · cases hn
  · exact absurd (encodes_initial.isLocked_eq.symm.trans hl) Bool.false_ne_true

/-- An unregistered callback is not in the list. -/
lemma Ordered.not_mem_pending {s : State T N} {L : Life T N} (h : Ordered s L) (hL : Coupled s L)
    {n : N} (hn : s.objs n = .live false) : n ∉ pending s.log := by
  rw [hL.mem_pending h.lists]
  rcases h.unregistered n hn with hst | hst <;> rw [hst] <;> exact Bool.false_ne_true

variable [DecidableEq T]

lemma Ordered.step {s : State T N} {L L' : Life T N} {t : T} {m : Move N} {o : Outcome T N}
    (h : Ordered s L) (hL : Coupled s L) (hL' : Coupled (s.after t o) L')
    (ho : threadStep t s.mem s.objs (s.control t).frames (s.control t).op m = some o) :
    Ordered (s.after t o) L' := by
  have hruns : Life.Runs (o.event.toList ++ s.log) L' := hL'.runs
  refine ⟨hL.lists_step h.lists ho, fun n hn => ?_, fun hl => ?_⟩
  · rcases live_false_cases ho hn with hold | he | he
    · cases he : o.event with
      | none =>
        rw [he] at hruns
        obtain rfl := hL.runs.unique hruns
        exact h.unregistered n hold
      | some e =>
        rw [he] at hruns
        exact (hruns.tail hL.runs).unregistered (h.unregistered n hold)
    · rw [he] at hruns
      exact .inl (hruns.tail hL.runs).stage_refused
    · rw [he] at hruns
      exact .inr (hruns.tail hL.runs).stage_left
  · rcases lockKept_step (fun hheld => hL.exclusive.locked t hheld) ho hl with hheld | ⟨hfree, hw⟩
    · exact ⟨t, by simpa [State.after] using hheld⟩
    · obtain ⟨u, hu⟩ := h.held hw
      have hut : u ≠ t := by
        rintro rfl
        exact absurd hu (Bool.eq_false_iff.mp hfree)
      exact ⟨u, by simpa [State.after, hut] using hu⟩

theorem exists_coupled {s : State T N} (h : machine.Reachable State.start s) :
    ∃ L, Coupled s L ∧ Ordered s L := by
  refine h.invariant (I := fun s => ∃ L, Coupled s L ∧ Ordered s L) ⟨_, .start, .start⟩ ?_
  rintro u ⟨t, m⟩ u' ⟨L, hu, hord⟩ - hs
  obtain ⟨o, ho, rfl⟩ := Option.map_eq_some_iff.mp hs
  obtain ⟨L', hu'⟩ := hu.thread_step ho
  exact ⟨L', hu', hord.step hu hu' ho⟩

/-- In every interleaving the list is in the reverse order of registration, and the locked bit is
set exactly while a thread has the lock. -/
theorem order_law {s : State T N} (h : machine.Reachable State.start s) :
    s.mem.links.Lists (pending s.log) ∧ (pending s.log).Sublist (registrations s.log) ∧
      (isLocked s.mem.word = true ↔ ∃ u, (s.control u).holdsLock = true) := by
  obtain ⟨L, hL, hord⟩ := exists_coupled h
  refine ⟨hord.lists, pending_sublist s.log, hord.held, ?_⟩
  rintro ⟨u, hu⟩
  exact hL.exclusive.locked u hu

end StopState

end Sync
