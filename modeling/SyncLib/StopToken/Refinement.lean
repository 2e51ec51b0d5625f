import SyncLib.StopToken.Steps

/-!
# Threads refine the life of the callbacks

Every step of a thread that is an event takes the callback to the next stage of its life, and
every other step leaves all callbacks in theirs. So the events of every interleaving obey the law.
-/

namespace Sync

namespace StopState

open Core

variable {T N : Type*} [DecidableEq N] [DecidableEq T]

namespace Coupled

variable {s : State T N} {L : Life T N} {t : T} {frames : List (Frame N)}

/-! ### User code -/

lemma flags_apply (r : RefOp) (w : Word) :
    stopRequested (r.apply w) = stopRequested w ∧ isLocked (r.apply w) = isLocked w := by
  cases r with
  | incrementToken => exact flags_incrementTokenRef w
  | decrementToken => exact flags_decrementTokenRef w
  | incrementSource => exact flags_incrementSourceRef w
  | decrementSource => exact flags_decrementSourceRef w

theorem finished (h : Coupled s L) {n : N} {empty : Bool}
    (hc : s.control t = ⟨none, .stop n empty :: frames⟩) :
    ∃ L', Coupled (s.after t
      ⟨s.mem, s.objs, ⟨some (.stop (.mark n empty)), frames⟩, some (.finished n t)⟩) L' := by
  have ht := h.thread t
  rw [hc] at ht
  obtain ⟨-, hstage, hempty⟩ := ht.frames _ frames (List.suffix_refl _)
  have hw : L.winner = some t := ht.owned .stop List.mem_cons_self
  have hne := ht.frames_node_ne
  obtain ⟨hraw, hlive, htaken, hfin, -⟩ := h.node n
  have hold : (L.stage n).isListed = false := by
    rw [hstage]
    split_ifs <;> rfl
  have hnext : ∀ st : Stage, L.Step (.finished n t) (L.set n st) →
      st.isListed = false →
      (if s.mem.flags (t, frames.length) = true then st.isCurrent = false else st = .ran) →
      NodeOk s.mem (s.objs n) st n → Coupled (s.after t
      ⟨s.mem, s.objs, ⟨some (.stop (.mark n empty)), frames⟩, some (.finished n t)⟩)
        (L.set n st) := by
    intro st hs hlisted hst hnode
    have hnone : L.NoneListed → (L.set n st).NoneListed := hs.noneListed hw
    refine h.within hc n st hs hw rfl (fun hl => Bool.noConfusion hl) h.threadId
      (h.list.set (hlisted.trans hold.symm)) (s.mem.sameBut_word s.mem.word) hnode rfl ?_ ?_
      (.inr List.mem_cons_self) (fun _ _ hm => hm)
    · rintro pc ⟨⟩
      refine ⟨?_, fun he => hnone (hempty he)⟩
      rwa [Life.set_stage]
    · exact ht.framesOk (List.suffix_cons _ _) hne (.inl hlisted) (fun _ _ => rfl)
        (fun _ _ => rfl)
  by_cases hflag : s.mem.flags (t, frames.length) = true
  · rw [if_pos hflag] at hstage
    refine ⟨_, hnext .gone (.finishedRemoved n t hstage hw) rfl
      (by rw [if_pos hflag]; rfl) ?_⟩
    constructor <;> simp_all [Stage.isErasable, Stage.isTaken]
  · rw [if_neg hflag] at hstage
    refine ⟨_, hnext .ran (.finished n t hstage hw) rfl (by rw [if_neg hflag]) ?_⟩
    constructor <;> simp_all [Stage.isErasable, Stage.isTaken]

theorem user (h : Coupled s L) (hc : s.control t = ⟨none, frames⟩) {m : Move N} {o : Outcome T N}
    (ho : userStep t s.mem s.objs frames m = some o) : ∃ L', Coupled (s.after t o) L' := by
  have ht := h.thread t
  rw [hc] at ht
  cases m with
  | requestStop =>
    cases ho
    refine ⟨L, h.silent hc (.inl rfl) rfl (fun hl => Bool.noConfusion hl) (fun _ hl => hl)
      h.threadId (List.Sublist.refl _) (.inl rfl) ?_⟩
    rintro pc ⟨⟩
    trivial
  | construct cb copy =>
    rw [userStep] at ho
    split at ho
    · rename_i hraw
      cases ho
      refine ⟨L, h.begun hc (by simp [hraw]) (by simp) rfl ?_ ?_⟩
      · rintro j ⟨⟩
        exact ⟨.inl rfl, Function.update_self ..⟩
      · rintro pc ⟨⟩
        exact (h.node cb).raw hraw
    · cases ho
  | destroy cb =>
    rw [userStep] at ho
    split at ho
    · rename_i hlive
      cases ho
      refine ⟨L, h.begun hc (by simp [hlive]) (by simp) rfl ?_ ?_⟩
      · rintro j ⟨⟩
        exact ⟨.inr rfl, Function.update_self ..⟩
      · rintro pc ⟨⟩
        exact (h.node cb).live hlive
    · rename_i hlive
      cases ho
      exact ⟨L, h.begun hc (by simp [hlive]) (by simp) rfl (by simp) (by simp)⟩
    · cases ho
  | leave =>
    cases frames with
    | nil => cases ho
    | cons f rest =>
      cases f with
      | stop n empty =>
        cases ho
        exact h.finished hc
      | push n =>
        cases ho
        have hstage : L.stage n = .entered := ht.frames _ rest (List.suffix_refl _)
        have hobj : s.objs n = .constructing t := ht.owned (.push n) List.mem_cons_self
        obtain ⟨-, -, -, hfin, -⟩ := h.node n
        refine ⟨_, h.ended hc rfl (.inl rfl) rfl (.left n hstage) hobj rfl (.inr rfl)
          (by rw [hstage]; rfl) (.inl rfl) ?_ ?_⟩
        · constructor <;> simp_all [Stage.isErasable, Stage.isTaken]
        · exact ht.framesOk (List.suffix_cons _ _) ht.frames_node_ne (.inl rfl) (fun _ _ => rfl)
            (fun _ _ => rfl)
  | count r =>
    cases ho
    obtain ⟨hreq, hlock⟩ := flags_apply r s.mem.word
    exact ⟨L, h.silent hc (.inl rfl) hreq (fun hl => Bool.noConfusion hl)
      (fun _ hl => hlock.trans hl) h.threadId (List.Sublist.refl _) (.inl rfl) (by simp)⟩
  | proceed ok => cases ho

/-! ### The methods -/

theorem requestedBy (h : Coupled s L) {past : Word}
    (hc : s.control t = ⟨some (.request (.cas past)), frames⟩) (hpast : s.mem.word = past) :
    Coupled (s.after t ⟨{ s.mem with word := requestedAndLocked past }, s.objs,
      ⟨some (.stop (.pop true)), frames⟩, some (.requested t)⟩) { L with winner := some t } := by
  have ht := h.thread t
  rw [hc] at ht
  obtain ⟨hstop, hlock⟩ : RequestPc.Ok (.cas past) := ht.op _ rfl
  have hunlocked : isLocked s.mem.word = false := by rw [hpast, hlock]
  have hw : L.winner = none := h.winner_eq_none (hpast ▸ hstop)
  have hnojob : Job.stop ∉ frames.map Frame.job := by
    intro hj
    have hown : L.winner = some t := ht.owned .stop hj
    simp [hw] at hown
  refine h.after ⟨.inr ⟨_, rfl, .requested t hw, trivial⟩, fun _ => .inr hunlocked,
    fun _ _ _ => ⟨fun ho => ho, fun ho => ho⟩, fun _ _ _ => rfl, fun _ => .inl rfl⟩
    ⟨?_, fun _ => ⟨(flags_requestedAndLocked hstop hlock).2, .inr hunlocked⟩, ?_, ?_, h.list, ?_,
      ⟨?_, ?_, ?_, ?_⟩, ?_⟩
  · exact (flags_requestedAndLocked hstop hlock).1
  · exact fun _ hl => absurd hl (by simp [hunlocked])
  · intro u hu
    exact absurd (h.threadId u hu) (by simp [hw])
  · intro n
    have hn := h.node n
    exact ⟨hn.raw, hn.live, hn.taken, hn.finished, hn.marked⟩
  · exact List.nodup_cons.mpr ⟨hnojob, ht.nodup⟩
  · intro j hj
    rcases List.mem_cons.mp hj with rfl | hj
    · rfl
    · cases j with
      | stop => exact absurd hj hnojob
      | push n => exact ht.owned _ hj
      | erase n => exact ht.owned _ hj
  · rintro pc ⟨⟩
    trivial
  · intro f rest hf
    cases f with
    | stop n empty =>
      exact absurd (List.mem_map_of_mem (f := Frame.job) (hf.subset List.mem_cons_self)) hnojob
    | push n => exact ht.frames _ rest hf
  · intro _ n hn
    obtain ⟨u, hu, -⟩ := h.current n hn
    simp [hw] at hu

theorem request (h : Coupled s L) {p : RequestPc}
    (hc : s.control t = ⟨some (.request p), frames⟩) (ok : Bool) :
    ∃ L', Coupled (s.after t (requestStep t s.mem s.objs frames ok p)) L' := by
  have hretry : Coupled (s.after t ⟨s.mem, s.objs,
      ⟨(RequestPc.test s.mem.word).map .request, frames⟩, none⟩) L := by
    refine h.silent hc (.inl rfl) rfl ?_ (fun _ hl => hl) h.threadId ?_ ?_ ?_
    · cases RequestPc.test s.mem.word <;> exact fun hl => Bool.noConfusion hl
    · cases RequestPc.test s.mem.word <;> exact List.Sublist.refl _
    · cases RequestPc.test s.mem.word <;> exact .inl rfl
    · intro pc hpc
      rw [RequestPc.test] at hpc
      split_ifs at hpc with hstop hlock
      · cases hpc
      · cases hpc
        trivial
      · cases hpc
        exact ⟨by simpa using hstop, by simpa using hlock⟩
  cases p with
  | load => exact ⟨L, hretry⟩
  | cas past =>
    rw [requestStep]
    split_ifs with hok
    · exact ⟨_, h.requestedBy hc hok.2⟩
    · exact ⟨L, hretry⟩

/-- With the lock, `request_stop` takes the first callback off the list. -/
theorem poppedFirst (h : Coupled s L) {first : Bool} {n : N} {links : Links N}
    (hc : s.control t = ⟨some (.stop (.pop first)), frames⟩)
    (hpop : s.mem.links.pop = some (n, links)) {threadId : Option T}
    (hid : ∀ u, threadId = some u → L.winner = some u) :
    Coupled (s.after t ⟨{ s.mem with threadId, links }, s.objs,
      ⟨some (.stop (.unlock n links.head.isNone)), frames⟩, some (.popped n links.head)⟩)
      (L.set n .popped) := by
  have ht := h.thread t
  rw [hc] at ht
  have hw : L.winner = some t := ht.owned .stop List.mem_cons_self
  have hlocked : isLocked s.mem.word = true := h.word_isLocked hc rfl
  obtain ⟨l, hl, hmem⟩ := h.list
  obtain ⟨l', rfl, hl', hprev, -⟩ := hl.pop hpop
  have hnl' : n ∉ l' := (List.nodup_cons.mp hl.1).1
  have hn : (L.stage n).isListed = true := (hmem n).mp List.mem_cons_self
  have hexec : (L.stage n).isExecuting = false := by
    rcases Stage.isListed_iff.mp hn with hst | hst <;> rw [hst] <;> rfl
  have hs : L.Step (.popped n links.head) (L.set n .popped) := by
    refine .popped n _ hn fun m hm => (hmem m).mp (List.mem_cons_of_mem _ ?_)
    rw [Option.mem_def, hl'.head_eq] at hm
    exact List.mem_of_mem_head? hm
  have hlist : ∀ m, m ∈ l' ↔ ((L.set n .popped).stage m).isListed = true := by
    intro m
    by_cases hm : m = n
    · subst hm
      simp [hnl', Stage.isListed]
    · rw [Life.set_stage_of_ne L _ hm, ← hmem m, List.mem_cons, or_iff_right hm]
  obtain ⟨hraw, -, -, hfin, -⟩ := h.node n
  have hprev' : ∀ m, m ≠ n → (L.stage m).isTaken = true →
      links.prev m = s.mem.links.prev m := by
    intro m _ htaken
    refine hl.pop_prev hpop fun hml => ?_
    exact Bool.false_ne_true ((Stage.not_listed_of_taken htaken).symm.trans ((hmem m).mp hml))
  refine h.within hc n .popped hs hw rfl (fun _ => rfl) hid ⟨l', hl', hlist⟩
    (s.mem.sameBut_links hprev') ⟨?_, fun _ => rfl, fun _ => hprev, ?_, by simp⟩ rfl ?_ ?_
    (.inr List.mem_cons_self) (fun _ _ hm => List.mem_cons_of_mem _ hm)
  · intro hobj
    simp [hraw hobj, Stage.isListed] at hn
  · intro hf
    rcases hfin hf with hst | hst <;> simp [hst, Stage.isListed] at hn
  · rintro pc ⟨⟩
    refine ⟨Life.set_stage .., fun hempty m => ?_⟩
    rw [Option.isNone_iff_eq_none, hl'.head_eq, List.head?_eq_none_iff] at hempty
    rw [← Bool.not_eq_true, ← hlist m, hempty]
    exact List.not_mem_nil
  · exact ht.framesOk (List.suffix_refl _) (ht.frame_node_ne hexec) (.inl rfl) (fun _ _ => rfl)
      (fun _ _ => rfl)

theorem startedBy (h : Coupled s L) {n : N} {empty : Bool}
    (hc : s.control t = ⟨some (.stop (.start n empty)), frames⟩) :
    Coupled (s.after t (stopStep t s.mem s.objs frames true (.start n empty)))
      (L.set n .running) := by
  have ht := h.thread t
  rw [hc] at ht
  have hw : L.winner = some t := ht.owned .stop List.mem_cons_self
  obtain ⟨hstage, hempty⟩ : StopPc.Ok s.mem.flags L t frames.length (.start n empty) := ht.op _ rfl
  have hs : L.Step (.started n t) (L.set n .running) := .started n t hstage
  have hlisted : Stage.isListed .running = (L.stage n).isListed := by rw [hstage]; rfl
  obtain ⟨hraw, -, htaken, hfin, -⟩ := h.node n
  have hremoved : ∀ m, m ≠ n → Function.update s.mem.isRemoved n
      (some (t, frames.length)) m = s.mem.isRemoved m := fun m hm => Function.update_of_ne hm ..
  refine h.within hc n .running hs hw rfl (fun hl => Bool.noConfusion hl) h.threadId
    (h.list.set hlisted) ⟨fun _ _ _ => rfl, hremoved, .inr hw, fun _ _ => rfl, ?_⟩
    ⟨?_, fun _ => rfl, ?_, ?_, by simp⟩ rfl ?_ ?_ (.inr List.mem_cons_self) (fun _ _ hm => hm)
  · intro u k hu
    exact Function.update_of_ne (fun heq => hu (congrArg Prod.fst heq)) ..
  · intro hobj
    simp [hraw hobj] at hstage
  · exact fun _ => htaken (by rw [hstage]; rfl)
  · intro hf
    rcases hfin hf with hst | hst <;> simp [hst] at hstage
  · rintro pc ⟨⟩
  · intro f rest hf
    rcases List.suffix_cons_iff.mp hf with heq | hsuff
    · cases heq
      refine ⟨Function.update_self .., ?_, fun he => hs.noneListed hw (hempty he)⟩
      rw [Life.set_stage, if_neg]
      exact fun hflag => Bool.noConfusion ((Function.update_self ..).symm.trans hflag)
    · refine ht.framesOk (List.suffix_refl _) (ht.frame_node_ne (by rw [hstage]; rfl)) ?_
        hremoved (fun k hk => ?_) f rest hsuff
      · exact .inl rfl
      · exact Function.update_of_ne (fun heq => hk.ne (congrArg Prod.snd heq)) ..

theorem markedBy (h : Coupled s L) {n : N} {empty : Bool}
    (hc : s.control t = ⟨some (.stop (.mark n empty)), frames⟩)
    (hflag : ¬s.mem.flags (t, frames.length) = true) :
    Coupled (s.after t
      ⟨{ s.mem with
          isRemoved := Function.update s.mem.isRemoved n none
          finished := Function.update s.mem.finished n true },
        s.objs, ⟨some (.stop (if empty then .done else .load)), frames⟩, some (.marked n)⟩)
      (L.set n .marked) := by
  have ht := h.thread t
  rw [hc] at ht
  have hw : L.winner = some t := ht.owned .stop List.mem_cons_self
  obtain ⟨hstage, hempty⟩ : StopPc.Ok s.mem.flags L t frames.length (.mark n empty) := ht.op _ rfl
  rw [if_neg hflag] at hstage
  have hs : L.Step (.marked n) (L.set n .marked) := .marked n hstage
  have hlisted : Stage.isListed .marked = (L.stage n).isListed := by rw [hstage]; rfl
  obtain ⟨hraw, -, htaken, -, -⟩ := h.node n
  have hremoved : ∀ m, m ≠ n → Function.update s.mem.isRemoved n none m = s.mem.isRemoved m :=
    fun m hm => Function.update_of_ne hm ..
  refine h.within hc n .marked hs hw rfl ?_ h.threadId (h.list.set hlisted)
    ⟨fun _ _ _ => rfl, hremoved, .inr hw, fun m hm => Function.update_of_ne hm ..,
      fun _ _ _ => rfl⟩
    ⟨?_, fun _ => rfl, ?_, fun _ => .inl rfl, fun _ => Function.update_self ..⟩ ?_ ?_ ?_
    (.inl rfl) ?_
  · cases empty <;> exact fun hl => Bool.noConfusion hl
  · intro hobj
    simp [hraw hobj] at hstage
  · exact fun _ => htaken (by rw [hstage]; rfl)
  · cases empty <;> rfl
  · rintro pc ⟨⟩
    cases empty with
    | false => trivial
    | true => exact hs.noneListed hw (hempty rfl)
  · exact ht.framesOk (List.suffix_refl _) (ht.frame_node_ne (by rw [hstage]; rfl)) (.inl rfl)
      hremoved (fun _ _ => rfl)
  · intro m hm hmem
    have hframes := (List.mem_cons.mp hmem).resolve_left hm
    cases empty <;> exact hframes

/-- The `request_stop` that set the flag returns. -/
theorem stoppedBy (h : Coupled s L) {p : StopPc N} (hc : s.control t = ⟨some (.stop p), frames⟩)
    (hp : (Pc.stop p).hand = none) (hnone : L.NoneListed) {w : Word}
    (hreq : stopRequested w = stopRequested s.mem.word)
    (hkept : (Pc.stop p).holdsLock = true ∨ isLocked w = isLocked s.mem.word) :
    Coupled (s.after t
      ⟨{ s.mem with word := w }, s.objs, ⟨none, frames⟩, some (.stopped t)⟩) L := by
  have ht := h.thread t
  rw [hc] at ht
  have hw : L.winner = some t := ht.owned .stop List.mem_cons_self
  have hs : L.Step (.stopped t) L := .stopped t hw hnone (h.not_current hc hp)
  refine h.silent hc (.inr ⟨rfl, hs⟩) hreq (fun hl => Bool.noConfusion hl) ?_ h.threadId
    (List.nil_sublist _) (.inl hp.symm) (by simp)
  intro hheld hl
  rcases hkept with hkept | hkept
  · exact absurd (hkept.symm.trans hheld) (by simp)
  · rw [hkept, hl]

theorem stop (h : Coupled s L) {p : StopPc N} (hc : s.control t = ⟨some (.stop p), frames⟩)
    (ok : Bool) : ∃ L', Coupled (s.after t (stopStep t s.mem s.objs frames ok p)) L' := by
  have ht := h.thread t
  rw [hc] at ht
  have hw : L.winner = some t := ht.owned .stop List.mem_cons_self
  have hok : p.Ok s.mem.flags L t frames.length := ht.op _ rfl
  have hlock : (Pc.stop p).holdsLock = true → isLocked s.mem.word = true := h.word_isLocked hc
  have hretry : (Pc.stop p).hand = none → Coupled (s.after t
      ⟨s.mem, s.objs, ⟨some (.stop (.test s.mem.word)), frames⟩, none⟩) L := by
    intro hhand
    rw [StopPc.test]
    split_ifs with hlocked
    · exact h.goesOn hc (fun hl => Bool.noConfusion hl) rfl (.inl hhand.symm) trivial
    · have hfree : isLocked s.mem.word = false := by simpa using hlocked
      exact h.goesOn hc (fun hl => Bool.noConfusion hl) rfl (.inl hhand.symm) hfree
  cases p with
  | pop first =>
    have hid : ∀ u, (if first then some t else s.mem.threadId) = some u → L.winner = some u := by
      intro u hu
      cases first with
      | false => exact h.threadId u hu
      | true => exact hw.trans hu
    have hmem : (if first then { s.mem with threadId := some t } else s.mem)
        = { s.mem with threadId := if first then some t else s.mem.threadId } := by
      cases first <;> rfl
    simp only [stopStep, hmem]
    split
    · rename_i hpop
      refine ⟨L, h.silent hc (.inl rfl) rfl (fun _ => ⟨hlock rfl, .inl rfl⟩) (fun _ hl => hl) hid
        (List.Sublist.refl _) (.inl rfl) ?_⟩
      rintro pc ⟨⟩
      obtain ⟨l, hl, hmem⟩ := h.list
      rw [Links.pop_eq_none_iff hl] at hpop
      intro n
      rw [← Bool.not_eq_true, ← hmem n, hpop]
      exact List.not_mem_nil
    · rename_i n links hpop
      exact ⟨_, h.poppedFirst hc hpop hid⟩
  | unlock n empty => exact ⟨L, h.releases hc rfl rfl rfl rfl hok⟩
  | start n empty => exact ⟨_, h.startedBy hc⟩
  | mark n empty =>
    by_cases hflag : s.mem.flags (t, frames.length) = true
    · obtain ⟨hcur, hempty⟩ := hok
      rw [if_pos hflag] at hcur
      simp only [stopStep, if_pos hflag]
      refine ⟨L, h.goesOn hc ?_ rfl (.inr ?_) ?_⟩
      · cases empty <;> exact fun hl => Bool.noConfusion hl
      · rintro m ⟨⟩
        exact hcur
      · cases empty with
        | false => trivial
        | true => exact hempty rfl
    · simp only [stopStep, if_neg hflag]
      exact ⟨_, h.markedBy hc hflag⟩
  | load => exact ⟨L, hretry rfl⟩
  | cas past =>
    rw [stopStep]
    split_ifs with hcas
    · exact ⟨L, h.acquires hc hcas.2 hok rfl rfl trivial⟩
    · exact ⟨L, hretry rfl⟩
  | last => exact ⟨L, h.stoppedBy hc rfl hok (stopRequested_unlock (hlock rfl)) (.inl rfl)⟩
  | done => exact ⟨L, h.stoppedBy hc rfl hok rfl (.inr rfl)⟩

/-- With the lock, a callback is put into the list. -/
theorem linkedBy (h : Coupled s L) {n : N} {copy : Bool}
    (hc : s.control t = ⟨some (.push n copy .link), frames⟩) :
    Coupled (s.after t ⟨{ s.mem with links := s.mem.links.push n }, s.objs,
      ⟨some (.push n copy .unlock), frames⟩, some (.linked n)⟩) (L.set n .linking) := by
  have ht := h.thread t
  rw [hc] at ht
  have hobj : s.objs n = .constructing t := ht.owned (.push n) List.mem_cons_self
  obtain ⟨hstage, hw⟩ : PushPc.Ok L n .link := ht.op _ rfl
  have hlocked : isLocked s.mem.word = true := h.word_isLocked hc rfl
  obtain ⟨l, hl, hmem⟩ := h.list
  have hnl : n ∉ l := by
    rw [hmem, hstage]
    exact Bool.false_ne_true
  have hlist : ∀ m, m ∈ n :: l ↔ ((L.set n .linking).stage m).isListed = true := by
    intro m
    by_cases hm : m = n
    · subst hm
      simp [Stage.isListed]
    · rw [Life.set_stage_of_ne L _ hm, ← hmem m, List.mem_cons, or_iff_right hm]
  obtain ⟨-, -, -, hfin, -⟩ := h.node n
  have hprev : ∀ m, m ≠ n → (L.stage m).isTaken = true →
      (s.mem.links.push n).prev m = s.mem.links.prev m := by
    intro m hmn htaken
    refine hl.push_prev fun hml => ?_
    have hlisted := (hmem m).mp ((List.mem_cons.mp hml).resolve_left hmn)
    exact Bool.false_ne_true ((Stage.not_listed_of_taken htaken).symm.trans hlisted)
  refine h.within hc n .linking (.linked n hstage hw) hobj rfl (fun _ => rfl) h.threadId
    ⟨_, hl.push hnl, hlist⟩ (s.mem.sameBut_links hprev) ?_ rfl ?_ ?_ (.inl rfl) (fun _ _ hm => hm)
  · constructor <;> simp_all [Stage.isErasable, Stage.isTaken]
  · rintro pc ⟨⟩
    exact ⟨Life.set_stage .., hw⟩
  · exact ht.framesOk (List.suffix_refl _) (ht.frame_node_ne (by rw [hstage]; rfl))
      (.inr (.inr hw)) (fun _ _ => rfl) (fun _ _ => rfl)

theorem enteredBy (h : Coupled s L) {n : N} {copy : Bool}
    (hc : s.control t = ⟨some (.push n copy .start), frames⟩) :
    Coupled (s.after t ⟨s.mem, s.objs, ⟨none, .push n :: frames⟩, some (.entered n)⟩)
      (L.set n .entered) := by
  have ht := h.thread t
  rw [hc] at ht
  have hobj : s.objs n = .constructing t := ht.owned (.push n) List.mem_cons_self
  have hstage : L.stage n = .fresh := ht.op _ rfl
  obtain ⟨-, -, -, hfin, -⟩ := h.node n
  refine h.within hc n .entered (.entered n hstage) hobj rfl (fun hl => Bool.noConfusion hl)
    h.threadId (h.list.set (by rw [hstage]; rfl)) (s.mem.sameBut_word s.mem.word) ?_ rfl ?_ ?_
    (.inl rfl) (fun _ _ hm => hm)
  · constructor <;> simp_all [Stage.isErasable, Stage.isTaken]
  · rintro pc ⟨⟩
  · intro f rest hf
    rcases List.suffix_cons_iff.mp hf with heq | hsuff
    · cases heq
      exact Life.set_stage ..
    · refine ht.framesOk (List.suffix_refl _) (ht.frame_node_ne (by rw [hstage]; rfl)) ?_
        (fun _ _ => rfl) (fun _ _ => rfl) f rest hsuff
      exact .inl rfl

theorem push (h : Coupled s L) {n : N} {copy : Bool} {p : PushPc}
    (hc : s.control t = ⟨some (.push n copy p), frames⟩) (ok : Bool) :
    ∃ L', Coupled (s.after t (pushStep s.mem s.objs frames ok n copy p)) L' := by
  have ht := h.thread t
  rw [hc] at ht
  have hobj : s.objs n = .constructing t := ht.owned (.push n) List.mem_cons_self
  have hok : p.Ok L n := ht.op _ rfl
  obtain ⟨-, -, -, hfin, -⟩ := h.node n
  cases p with
  | load =>
    have hfresh : L.stage n = .fresh := hok
    simp only [pushStep]
    split_ifs with hstop hpossible hlock
    · exact ⟨L, h.goesOn hc (fun hl => Bool.noConfusion hl) rfl (.inl rfl) hok⟩
    · rw [Bool.not_eq_true] at hstop
      refine ⟨_, h.ended hc rfl (.inl rfl) rfl (.refused n hfresh (h.winner_eq_none hstop)) hobj rfl
        (.inr rfl) (by rw [hfresh]; rfl) (.inl rfl) ?_ ?_⟩
      · constructor <;> simp_all [Stage.isErasable, Stage.isTaken]
      · exact ht.framesOk (List.suffix_refl _) (ht.frame_node_ne (by rw [hfresh]; rfl)) (.inl rfl)
          (fun _ _ => rfl) (fun _ _ => rfl)
    · exact ⟨L, h.goesOn hc (fun hl => Bool.noConfusion hl) rfl (.inl rfl) hok⟩
    · refine ⟨L, h.goesOn hc (fun hl => Bool.noConfusion hl) rfl (.inl rfl) ⟨hok, ?_, ?_⟩⟩
      · simpa using hstop
      · simpa using hlock
  | cas past =>
    obtain ⟨hfresh, hstop, hlock⟩ := hok
    rw [pushStep]
    split_ifs with hcas
    · exact ⟨L, h.acquires hc hcas.2 hlock rfl rfl ⟨hfresh, h.winner_eq_none (hcas.2 ▸ hstop)⟩⟩
    · exact ⟨L, h.goesOn hc (fun hl => Bool.noConfusion hl) rfl (.inl rfl) hfresh⟩
  | link => exact ⟨_, h.linkedBy hc⟩
  | unlock =>
    obtain ⟨hstage, hw⟩ := hok
    have hlock : isLocked s.mem.word = true := h.word_isLocked hc rfl
    have hreq : stopRequested
        (if copy then unlockAndIncrementTokenRef s.mem.word else unlock s.mem.word)
          = stopRequested s.mem.word := by
      split_ifs
      · exact stopRequested_unlockAndIncrementTokenRef _
      · exact stopRequested_unlock hlock
    refine ⟨_, h.ended hc rfl (.inl rfl) rfl (.registered n hstage hw) hobj hreq (.inl rfl)
      (by rw [hstage]; rfl) (.inl rfl) ?_ ?_⟩
    · constructor <;> simp_all [Stage.isErasable, Stage.isTaken]
    · exact ht.framesOk (List.suffix_refl _) (ht.frame_node_ne (by rw [hstage]; rfl))
        (.inr (.inr hw)) (fun _ _ => rfl) (fun _ _ => rfl)
  | start => exact ⟨_, h.enteredBy hc⟩

/-- With the lock, a callback is taken out of the list. -/
theorem unlinkedBy (h : Coupled s L) {n : N} {p : Slot N}
    (hc : s.control t = ⟨some (.erase n .unlink), frames⟩) (hp : s.mem.links.prev n = some p) :
    Coupled (s.after t ⟨{ s.mem with links := s.mem.links.unlink n p }, s.objs,
      ⟨some (.erase n .unlockDecrement), frames⟩, some (.unlinked n)⟩) (L.set n .unlinked) := by
  have ht := h.thread t
  rw [hc] at ht
  have hobj : s.objs n = .destroying t := ht.owned (.erase n) List.mem_cons_self
  have herasable : (L.stage n).isErasable = true := ht.op _ rfl
  have hlocked : isLocked s.mem.word = true := h.word_isLocked hc rfl
  obtain ⟨-, -, htaken, hfin, -⟩ := h.node n
  have hstage : L.stage n = .linked := by
    have hnot : (L.stage n).isTaken = false := by
      rw [← Bool.not_eq_true]
      intro htk
      simp [htaken htk] at hp
    simpa [Stage.isErasable, hnot] using herasable
  obtain ⟨l, hl, hmem⟩ := h.list
  have hnl : n ∈ l := by
    rw [hmem, hstage]
    rfl
  have hlist : ∀ m, m ∈ l.erase n ↔ ((L.set n .unlinked).stage m).isListed = true := by
    intro m
    by_cases hm : m = n
    · subst hm
      simp [hl.1.mem_erase_iff, Stage.isListed]
    · rw [Life.set_stage_of_ne L _ hm, ← hmem m, List.mem_erase_of_ne hm]
  have hprev : ∀ m, m ≠ n → (L.stage m).isTaken = true →
      (s.mem.links.unlink n p).prev m = s.mem.links.prev m := by
    intro m _ htk
    refine hl.unlink_prev hnl hp fun hml => ?_
    exact Bool.false_ne_true ((Stage.not_listed_of_taken htk).symm.trans ((hmem m).mp hml))
  refine h.within hc n .unlinked (.unlinked n hstage) hobj rfl (fun _ => rfl) h.threadId
    ⟨_, hl.unlink hnl hp, hlist⟩ (s.mem.sameBut_links hprev) ?_ rfl ?_ ?_ (.inl rfl)
    (fun _ _ hm => hm)
  · constructor <;> simp_all [Stage.isErasable, Stage.isTaken]
  · rintro pc ⟨⟩
    exact Life.set_stage ..
  · exact ht.framesOk (List.suffix_refl _) (ht.frame_node_ne (by rw [hstage]; rfl)) (.inl rfl)
      (fun _ _ => rfl) (fun _ _ => rfl)

/-- On the thread of the `request_stop` that runs a callback, `erase_callback` sets the flag. -/
theorem removedBy (h : Coupled s L) {n : N} {loc : Local T}
    (hc : s.control t = ⟨some (.erase n .check), frames⟩) (hw : L.winner = some t)
    (hloc : s.mem.isRemoved n = some loc) :
    Coupled (s.after t ⟨{ s.mem with flags := Function.update s.mem.flags loc true }, s.objs,
      ⟨some (.erase n .decrement), frames⟩, some (.removed n)⟩) (L.set n .removed) := by
  have ht := h.thread t
  rw [hc] at ht
  have hobj : s.objs n = .destroying t := ht.owned (.erase n) List.mem_cons_self
  have htaken : (L.stage n).isTaken = true := ht.op _ rfl
  obtain ⟨-, -, -, hfin, hmarked⟩ := h.node n
  obtain ⟨empty, rest, hrest⟩ := h.frame_of_taken hc hw htaken fun hm => by
    simp [hmarked hm] at hloc
  obtain ⟨hremoved, hinside, hempty⟩ := ht.frames _ rest hrest
  obtain rfl : loc = (t, rest.length) := Option.some.inj (hloc.symm.trans hremoved)
  have hstage : L.stage n = .running := by
    split_ifs at hinside
    · simp [hinside, Stage.isTaken] at htaken
    · exact hinside
  have hs : L.Step (.removed n) (L.set n .removed) := .removed n hstage
  refine h.within hc n .removed hs ⟨hobj, hw⟩ rfl (fun hl => Bool.noConfusion hl) h.threadId
    (h.list.set (by rw [hstage]; rfl))
    ⟨fun _ _ _ => rfl, fun _ _ => rfl, .inl rfl, fun _ _ => rfl, ?_⟩ ?_ rfl ?_ ?_ (.inr ?_)
    (fun _ _ hm => hm)
  · intro u k hu
    exact Function.update_of_ne (fun heq => hu (congrArg Prod.fst heq)) ..
  · constructor <;> simp_all [Stage.isErasable, Stage.isTaken]
  · rintro pc ⟨⟩
    exact .inr ⟨Life.set_stage .., hw⟩
  · intro f rest' hf
    cases f with
    | stop m empty' =>
      obtain ⟨rfl, rfl⟩ := ht.stop_frame_eq hrest hf
      obtain ⟨-, -, hempty'⟩ := ht.frames _ _ hf
      refine ⟨hremoved, ?_, fun he => hs.noneListed hw (hempty' he)⟩
      rw [Life.set_stage, if_pos (Function.update_self ..)]
    | push m =>
      have hentered : L.stage m = .entered := ht.frames _ _ hf
      refine (Life.set_stage_of_ne L _ fun heq => ?_).trans hentered
      simp [← heq, hentered] at hstage
  · exact List.mem_append_right _
      (List.mem_filterMap.mpr ⟨_, hrest.subset List.mem_cons_self, rfl⟩)

theorem erase (h : Coupled s L) {n : N} {p : ErasePc}
    (hc : s.control t = ⟨some (.erase n p), frames⟩) (ok : Bool) :
    ∃ L', Coupled (s.after t (eraseStep t s.mem s.objs frames ok n p)) L' := by
  have ht := h.thread t
  rw [hc] at ht
  have hobj : s.objs n = .destroying t := ht.owned (.erase n) List.mem_cons_self
  have hok : p.Ok L t n := ht.op _ rfl
  obtain ⟨-, -, htaken, hfin, hmarked⟩ := h.node n
  have hretry : (L.stage n).isErasable = true → Coupled (s.after t
      ⟨s.mem, s.objs, ⟨some (.erase n (.test s.mem.word)), frames⟩, none⟩) L := by
    intro herasable
    rw [ErasePc.test]
    split_ifs with hlocked
    · exact h.goesOn hc (fun hl => Bool.noConfusion hl) rfl (.inl rfl) herasable
    · have hfree : isLocked s.mem.word = false := by simpa using hlocked
      exact h.goesOn hc (fun hl => Bool.noConfusion hl) rfl (.inl rfl) ⟨herasable, hfree⟩
  cases p with
  | load => exact ⟨L, hretry hok⟩
  | cas past =>
    obtain ⟨herasable, hlock⟩ := hok
    rw [eraseStep]
    split_ifs with hcas
    · exact ⟨L, h.acquires hc hcas.2 hlock rfl rfl herasable⟩
    · exact ⟨L, hretry herasable⟩
  | unlink =>
    simp only [eraseStep]
    split
    · rename_i p hp
      exact ⟨_, h.unlinkedBy hc hp⟩
    · rename_i hp
      refine ⟨L, h.goesOn hc (fun _ => rfl) rfl (.inl rfl) ?_⟩
      -- a callback in the list has a back link
      have hne : L.stage n ≠ .linked := by
        intro hst
        obtain ⟨l, hl, hmem⟩ := h.list
        obtain ⟨q, hq, -⟩ := hl.exists_prev ((hmem n).mpr (by rw [hst]; rfl))
        simp [hp] at hq
      have herasable : (L.stage n).isErasable = true := hok
      have htk : (L.stage n).isTaken = true := by simpa [Stage.isErasable, hne] using herasable
      exact htk
  | unlockDecrement =>
    have hstage : L.stage n = .unlinked := hok
    refine ⟨_, h.ended hc rfl (.inr rfl) rfl (.erasedUnlinked n t hstage) hobj
      (stopRequested_unlockAndDecrementTokenRef _) (.inl rfl) (by rw [hstage]; rfl) (.inl rfl)
      ?_ ?_⟩
    · constructor <;> simp_all [Stage.isErasable, Stage.isTaken]
    · exact ht.framesOk (List.suffix_refl _) (ht.frame_node_ne (by rw [hstage]; rfl)) (.inl rfl)
        (fun _ _ => rfl) (fun _ _ => rfl)
  | unlock => exact ⟨L, h.releases hc rfl rfl rfl rfl hok⟩
  | check =>
    by_cases hid : s.mem.threadId = some t
    · have hw := h.threadId t hid
      simp only [eraseStep, if_pos hid]
      split
      · rename_i loc hloc
        exact ⟨_, h.removedBy hc hw hloc⟩
      · rename_i hloc
        refine ⟨L, h.goesOn hc (fun hl => Bool.noConfusion hl) rfl (.inl rfl) (.inl ?_)⟩
        by_contra hn
        obtain ⟨empty, rest, hrest⟩ := h.frame_of_taken hc hw hok hn
        have hloc' := (ht.frames _ rest hrest).1
        simp [hloc] at hloc'
    · simp only [eraseStep, if_neg hid]
      exact ⟨L, h.goesOn hc (fun hl => Bool.noConfusion hl) rfl (.inl rfl) hok⟩
  | wait =>
    rw [eraseStep]
    by_cases hf : s.mem.finished n = true
    · rw [if_pos hf]
      refine ⟨L, h.goesOn hc (fun hl => Bool.noConfusion hl) rfl (.inl rfl) (.inl ?_)⟩
      have htk : (L.stage n).isTaken = true := hok
      rcases hfin hf with hst | hst
      · exact hst
      · simp [hst, Stage.isTaken] at htk
    · rw [if_neg hf]
      exact ⟨L, h.goesOn hc (fun hl => Bool.noConfusion hl) rfl (.inl rfl) hok⟩
  | decrement =>
    obtain ⟨hreq, hlock⟩ := flags_decrementTokenRef s.mem.word
    rcases hok with hstage | ⟨hstage, hw⟩
    · refine ⟨_, h.ended hc rfl (.inr rfl) rfl (.erasedMarked n t hstage) hobj hreq
        (.inr hlock) (by rw [hstage]; rfl) (.inl rfl) ?_ ?_⟩
      · constructor <;> simp_all [Stage.isErasable, Stage.isTaken]
      · exact ht.framesOk (List.suffix_refl _) (ht.frame_node_ne (by rw [hstage]; rfl)) (.inl rfl)
          (fun _ _ => rfl) (fun _ _ => rfl)
    · have hset : L.set n .removed = L := by rw [← hstage, L.set_self]
      have hs : L.Step (.erased n t) (L.set n .removed) := hset.symm ▸ .erasedRemoved n t hstage hw
      refine ⟨_, h.ended hc rfl (.inr rfl) rfl hs hobj hreq
        (.inr hlock) (by rw [hstage]) (.inr hstage) ?_ ?_⟩
      · constructor <;> simp_all [Stage.isErasable, Stage.isTaken]
      · rw [hset]
        exact ht.frames

/-- One step of a thread. -/
theorem thread_step (h : Coupled s L) {m : Move N} {o : Outcome T N}
    (ho : threadStep t s.mem s.objs (s.control t).frames (s.control t).op m = some o) :
    ∃ L', Coupled (s.after t o) L' := by
  rcases threadStep_cases ho with ⟨hop, ho⟩ | ⟨ok, -, hstep⟩
  · exact h.user (Control.eq_of_op hop) ho
  · rcases hstep with ⟨p, hop, rfl⟩ | ⟨p, hop, rfl⟩ | ⟨n, copy, p, hop, rfl⟩ | ⟨n, p, hop, rfl⟩
    · exact h.request (Control.eq_of_op hop) ok
    · exact h.stop (Control.eq_of_op hop) ok
    · exact h.push (Control.eq_of_op hop) ok
    · exact h.erase (Control.eq_of_op hop) ok

theorem of_reachable (h : machine.Reachable State.start s) : ∃ L, Coupled s L := by
  refine h.invariant (I := fun s => ∃ L, Coupled s L) ⟨_, start⟩ ?_
  rintro u ⟨t, m⟩ u' ⟨L, hu⟩ - hs
  obtain ⟨o, ho, rfl⟩ := Option.map_eq_some_iff.mp hs
  exact hu.thread_step ho

end Coupled

/-- The events of every interleaving obey the law. -/
theorem callbacks_law {s : State T N} (h : machine.Reachable State.start s) : Law s.log := by
  obtain ⟨L, hL⟩ := Coupled.of_reachable h
  exact hL.runs.law.2

/-- The first thread registers a callback and destroys it while the second one executes it. -/
theorem callbacks_law_two : ∃ s : State (Fin 2) (Fin 1), machine.Reachable State.start s ∧
    s.log = [.erased 0 0, .stopped 1, .marked 0, .finished 0 1, .started 0 1, .popped 0 none,
      .requested 1, .registered 0, .linked 0] ∧ Law s.log := by
  obtain ⟨s, hs, hp⟩ := Machine.exists_reachable_of_run (M := machine)
    (s := (State.start : State (Fin 2) (Fin 1)))
    [(0, .construct 0 true), (0, .proceed true), (0, .proceed true), (0, .proceed true),
      (0, .proceed true), (1, .requestStop), (1, .proceed true), (1, .proceed true),
      (1, .proceed true), (1, .proceed true), (1, .proceed true), (0, .destroy 0),
      (0, .proceed true), (0, .proceed true), (0, .proceed true), (0, .proceed true),
      (0, .proceed true), (0, .proceed true), (1, .leave), (1, .proceed true), (1, .proceed true),
      (0, .proceed true), (0, .proceed true)]
    (fun s => s.log == [.erased 0 0, .stopped 1, .marked 0, .finished 0 1, .started 0 1,
      .popped 0 none, .requested 1, .registered 0, .linked 0]) (by decide +kernel)
  exact ⟨s, hs, by simpa using hp, callbacks_law hs⟩

end StopState

end Sync
