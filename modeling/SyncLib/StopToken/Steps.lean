import SyncLib.StopToken.Invariant

/-!
# Steps that keep the invariant

What is the same for all steps of a thread: the frames of other callbacks are not concerned, a
step is about one callback or about none, and a thread begins a method, goes on in it, or ends it.
-/

namespace Sync

namespace StopState

open Core

variable {T N : Type*}

/-! ### The memory of the others -/

/-- A step of thread `t` about callback `n` leaves alone what belongs to the others. -/
structure Memory.SameBut (mem : Memory T N) (t : T) (n : N) (L : Life T N) (mem' : Memory T N) :
    Prop where
  prev : ∀ m, m ≠ n → (L.stage m).isTaken = true → mem'.links.prev m = mem.links.prev m
  isRemoved : ∀ m, m ≠ n → mem'.isRemoved m = mem.isRemoved m
  isRemoved_self : mem'.isRemoved n = mem.isRemoved n ∨ L.winner = some t
  finished : ∀ m, m ≠ n → mem'.finished m = mem.finished m
  flags : ∀ u k, u ≠ t → mem'.flags (u, k) = mem.flags (u, k)

lemma Memory.sameBut_word (mem : Memory T N) {t : T} {n : N} {L : Life T N} (w : Word) :
    mem.SameBut t n L { mem with word := w } :=
  ⟨fun _ _ _ => rfl, fun _ _ => rfl, .inl rfl, fun _ _ => rfl, fun _ _ _ => rfl⟩

lemma Memory.sameBut_links (mem : Memory T N) {t : T} {n : N} {L : Life T N} {links : Links N}
    {threadId : Option T}
    (h : ∀ m, m ≠ n → (L.stage m).isTaken = true → links.prev m = mem.links.prev m) :
    mem.SameBut t n L { mem with threadId, links } :=
  ⟨h, fun _ _ => rfl, .inl rfl, fun _ _ => rfl, fun _ _ _ => rfl⟩

/-! ### The frames of a thread -/

namespace ThreadOk

variable {mem mem' : Memory T N} {objs : N → Obj T} {L : Life T N} {t : T} {op : Option (Pc N)}
  {frames frames' : List (Frame N)} {f : Frame N} {n : N} {st : Stage}

/-- The callback over a frame is executing. -/
lemma frame_stage (h : ThreadOk mem objs L t ⟨op, frames⟩) (hf : f ∈ frames) :
    (L.stage f.node).isExecuting = true := by
  obtain ⟨front, rest, rfl⟩ := List.append_of_mem hf
  have hok := h.frames f rest (List.suffix_append _ _)
  cases f with
  | stop cb empty =>
    have hstage := hok.2.1
    change (L.stage cb).isExecuting = true
    rw [hstage]
    split_ifs <;> rfl
  | push cb =>
    have hstage : L.stage cb = .entered := hok
    change (L.stage cb).isExecuting = true
    rw [hstage]
    rfl

/-- A callback is executing over one frame only. -/
lemma frames_node_ne (h : ThreadOk mem objs L t ⟨op, f :: frames⟩) :
    ∀ g ∈ frames, g.node ≠ f.node := by
  intro g hg
  have hnodup := (List.nodup_append.mp h.nodup).2.1
  rw [List.map_cons, List.nodup_cons] at hnodup
  have hjob : g.job ≠ f.job := fun heq => hnodup.1 (heq ▸ List.mem_map_of_mem hg)
  obtain ⟨front, rest, hfr⟩ := List.append_of_mem hg
  have hf := h.frames f frames (List.suffix_refl _)
  have hg := h.frames g rest ⟨f :: front, by rw [hfr]; rfl⟩
  cases f with
  | stop cb empty =>
    cases g with
    | stop cb' empty' => exact absurd rfl hjob
    | push cb' =>
      have hentered : L.stage cb' = .entered := hg
      have hinside := hf.2.1
      intro (heq : cb' = cb)
      subst heq
      rw [hentered] at hinside
      split_ifs at hinside
  | push cb =>
    cases g with
    | stop cb' empty' =>
      have hentered : L.stage cb = .entered := hf
      have hinside := hg.2.1
      intro (heq : cb' = cb)
      subst heq
      rw [hentered] at hinside
      split_ifs at hinside
    | push cb' => exact fun heq => hjob (congrArg Job.push heq)

/-- Only one `request_stop` runs callbacks. -/
lemma stop_frame_eq (h : ThreadOk mem objs L t ⟨op, frames⟩) {n m : N} {empty empty' : Bool}
    {rest rest' : List (Frame N)} (hn : .stop n empty :: rest <:+ frames)
    (hm : .stop m empty' :: rest' <:+ frames) : n = m ∧ rest = rest' := by
  have hnodup := (List.nodup_append.mp h.nodup).2.1
  have hfirst : ∀ {f g : Frame N} {l l' : List (Frame N)}, f :: l <:+ g :: l' →
      g :: l' <:+ frames → f.job = g.job → f :: l = g :: l' := by
    intro f g l l' hl hl' hjob
    refine (List.suffix_cons_iff.mp hl).resolve_right fun htail => ?_
    have hcons := hnodup.sublist (hl'.sublist.map Frame.job)
    rw [List.map_cons, List.nodup_cons] at hcons
    exact hcons.1 (hjob ▸ List.mem_map_of_mem (htail.subset List.mem_cons_self))
  rcases List.suffix_or_suffix_of_suffix hn hm with hsuff | hsuff
  · cases hfirst hsuff hm rfl
    exact ⟨rfl, rfl⟩
  · cases hfirst hsuff hn rfl
    exact ⟨rfl, rfl⟩

lemma frame_node_ne (h : ThreadOk mem objs L t ⟨op, frames⟩)
    (hn : (L.stage n).isExecuting = false) : ∀ f ∈ frames, f.node ≠ n := by
  rintro f hf rfl
  simp [h.frame_stage hf] at hn

variable [DecidableEq N]

/-- The frames of other callbacks are not concerned when callback `n` changes. -/
lemma framesOk (h : ThreadOk mem objs L t ⟨op, frames⟩) (hsuff : frames' <:+ frames)
    (hne : ∀ f ∈ frames', f.node ≠ n)
    (hlisted : st.isListed = false ∨ (L.stage n).isListed = true ∨ L.winner = none)
    (hremoved : ∀ m, m ≠ n → mem'.isRemoved m = mem.isRemoved m)
    (hflags : ∀ k, k < frames'.length → mem'.flags (t, k) = mem.flags (t, k)) :
    ∀ f rest, f :: rest <:+ frames' →
      f.Ok mem'.flags mem'.isRemoved (L.set n st) t rest.length := by
  intro f rest hf
  have hmem : f ∈ frames' := hf.subset List.mem_cons_self
  have hok := h.frames f rest (hf.trans hsuff)
  have hjob : f.job.Owned t L.winner objs :=
    h.owned _ (List.mem_append_right _ (List.mem_map_of_mem (hsuff.subset hmem)))
  have hlen : rest.length < frames'.length := hf.length_le
  cases f with
  | stop cb empty =>
    have hcb : cb ≠ n := hne _ hmem
    have hw : L.winner = some t := hjob
    obtain ⟨hr, hstage, hempty⟩ := hok
    refine ⟨(hremoved cb hcb).trans hr, ?_, ?_⟩
    · rw [Life.set_stage_of_ne L st hcb, hflags _ hlen, hstage]
    · intro he m
      by_cases hm : m = n
      · subst hm
        rw [Life.set_stage]
        rcases hlisted with hl | hl | hl
        · exact hl
        · simp [hempty he m] at hl
        · simp [hw] at hl
      · rw [Life.set_stage_of_ne L st hm]
        exact hempty he m
  | push cb =>
    have hcb : cb ≠ n := hne _ hmem
    exact (Life.set_stage_of_ne L st hcb).trans hok

end ThreadOk

variable [DecidableEq N] [DecidableEq T]

namespace Coupled

variable {s : State T N} {L : Life T N} {t : T} {op op' : Option (Pc N)} {frames : List (Frame N)}

/-! ### Two kinds of steps -/

/-- A step that is no event of a callback changes the word, and `thread_id_`. -/
theorem silent (h : Coupled s L) (hc : s.control t = ⟨op, frames⟩) {w : Word} {threadId : Option T}
    {e : Option (Event T N)} (he : e = none ∨ e = some (.stopped t) ∧ L.Step (.stopped t) L)
    (hreq : stopRequested w = stopRequested s.mem.word)
    (hheld : op'.any Pc.holdsLock = true →
      isLocked w = true ∧ (op.any Pc.holdsLock = true ∨ isLocked s.mem.word = false))
    (hkept : op.any Pc.holdsLock = false → isLocked s.mem.word = true → isLocked w = true)
    (hid : ∀ u, threadId = some u → L.winner = some u)
    (hjobs : (op'.bind Pc.job).toList.Sublist (op.bind Pc.job).toList)
    (hhand : op'.bind Pc.hand = op.bind Pc.hand ∨
      ∀ n ∈ op.bind Pc.hand, (L.stage n).isCurrent = false)
    (hop : ∀ pc ∈ op', pc.Ok s.mem.flags L t frames.length) :
    Coupled (s.after t ⟨{ s.mem with word := w, threadId }, s.objs, ⟨op', frames⟩, e⟩) L := by
  have ht := h.thread t
  rw [hc] at ht
  have hsub : (⟨op', frames⟩ : Control N).jobs.Sublist (⟨op, frames⟩ : Control N).jobs :=
    hjobs.append_right _
  refine h.after ⟨?_, fun hw => .inl hw, fun _ _ _ => ⟨fun ho => ho, fun ho => ho⟩,
    fun _ _ _ => rfl, fun _ => .inl rfl⟩ ⟨hreq.trans h.requested, ?_, ?_, hid, h.list, ?_, ?_, ?_⟩
  · rcases he with rfl | ⟨rfl, hs⟩
    · exact .inl ⟨rfl, rfl⟩
    · exact .inr ⟨_, rfl, hs, trivial⟩
  · rw [hc]
    exact hheld
  · rw [hc]
    exact hkept
  · intro n
    have hn := h.node n
    exact ⟨hn.raw, hn.live, hn.taken, hn.finished, hn.marked⟩
  · exact ⟨ht.nodup.sublist hsub, fun j hj => ht.owned j (hsub.subset hj), hop, ht.frames⟩
  · intro hw n hn
    have hmem := h.mem_hands hw hn
    rw [hc] at hmem
    rcases List.mem_append.mp hmem with hmem | hmem
    · rcases hhand with hhand | hhand
      · exact List.mem_append_left _ (hhand ▸ hmem)
      · simp [hhand n (Option.mem_toList.mp hmem)] at hn
    · exact List.mem_append_right _ hmem

/-- A step about callback `n`, which takes it to stage `st`. -/
theorem changed (h : Coupled s L) (n : N) (st : Stage) {o : Outcome T N}
    (hfollows : (o.event = none ∧ L.stage n = st) ∨
      ∃ e, o.event = some e ∧ L.Step e (L.set n st) ∧ e.Owned t L.winner s.objs)
    (hreq : stopRequested o.mem.word = stopRequested s.mem.word)
    (hheld : o.control.holdsLock = true →
      isLocked o.mem.word = true ∧
        ((s.control t).holdsLock = true ∨ isLocked s.mem.word = false))
    (hkept : (s.control t).holdsLock = false → isLocked s.mem.word = true →
      isLocked o.mem.word = true)
    (hid : ∀ u, o.mem.threadId = some u → L.winner = some u)
    (hlist : o.mem.ListOk (L.set n st)) (hmem : s.mem.SameBut t n L o.mem)
    (hobjs : ∀ m, m ≠ n → o.objs m = s.objs m)
    (hobj : ∀ u, u ≠ t → (s.objs n = .constructing u → o.objs n = .constructing u) ∧
      (s.objs n = .destroying u → o.objs n = .destroying u))
    (hnode : NodeOk o.mem (o.objs n) st n)
    (hthread : ThreadOk o.mem o.objs (L.set n st) t o.control)
    (hhand : st.isCurrent = false ∨ (L.winner = some t → n ∈ o.control.hands))
    (hhands : ∀ m, m ≠ n → m ∈ (s.control t).hands → m ∈ o.control.hands) :
    Coupled (s.after t o) (L.set n st) := by
  refine h.after ⟨?_, fun hw => .inl hw, ?_, hmem.flags, ?_⟩
    ⟨hreq.trans h.requested, hheld, hkept, hid, hlist, ?_, hthread, ?_⟩
  · rcases hfollows with ⟨he, rfl⟩ | he
    · exact .inl ⟨he, L.set_self n⟩
    · exact .inr he
  · intro m u hu
    by_cases hm : m = n
    · exact hm ▸ hobj u hu
    · rw [hobjs m hm]
      exact ⟨fun ho => ho, fun ho => ho⟩
  · intro m
    by_cases hm : m = n
    · exact hm ▸ hmem.isRemoved_self
    · exact .inl (hmem.isRemoved m hm)
  · intro m
    by_cases hm : m = n
    · subst hm
      rwa [Life.set_stage]
    · have hold := h.node m
      rw [Life.set_stage_of_ne L st hm, hobjs m hm]
      refine ⟨hold.raw, hold.live, fun htaken => ?_, ?_, ?_⟩
      · rw [hmem.prev m hm htaken]
        exact hold.taken htaken
      · rw [hmem.finished m hm]
        exact hold.finished
      · rw [hmem.isRemoved m hm]
        exact hold.marked
  · intro hw m hcur
    by_cases hm : m = n
    · subst hm
      rw [Life.set_stage] at hcur
      rcases hhand with hhand | hhand
      · simp [hhand] at hcur
      · exact hhand hw
    · rw [Life.set_stage_of_ne L st hm] at hcur
      exact hhands m hm (h.mem_hands hw hcur)

/-- A step about callback `n` in the middle of a method, or from a method to the callback that it
executes and back. -/
theorem within (h : Coupled s L) {c c' : Control N} (hc : s.control t = c) (n : N) (st : Stage)
    {e : Event T N} {mem : Memory T N} (he : L.Step e (L.set n st))
    (hown : e.Owned t L.winner s.objs) (hword : mem.word = s.mem.word)
    (hheld : c'.holdsLock = true → c.holdsLock = true)
    (hid : ∀ u, mem.threadId = some u → L.winner = some u) (hlist : mem.ListOk (L.set n st))
    (hmem : s.mem.SameBut t n L mem) (hnode : NodeOk mem (s.objs n) st n)
    (hjobs : c'.jobs = c.jobs)
    (hop : ∀ pc ∈ c'.op, pc.Ok mem.flags (L.set n st) t c'.frames.length)
    (hframes : ∀ f rest, f :: rest <:+ c'.frames →
      f.Ok mem.flags mem.isRemoved (L.set n st) t rest.length)
    (hhand : st.isCurrent = false ∨ n ∈ c'.hands)
    (hhands : ∀ m, m ≠ n → m ∈ c.hands → m ∈ c'.hands) :
    Coupled (s.after t ⟨mem, s.objs, c', some e⟩) (L.set n st) := by
  have ht := h.thread t
  rw [hc] at ht
  refine h.changed n st (.inr ⟨e, rfl, he, hown⟩) (congrArg stopRequested hword) ?_ ?_ hid hlist
    hmem (fun _ _ => rfl) (fun u _ => ⟨fun ho => ho, fun ho => ho⟩) hnode
    ⟨hjobs ▸ ht.nodup, hjobs ▸ ht.owned, hop, hframes⟩ (hhand.imp_right fun hn _ => hn) ?_
  · intro hl
    have hheld' : (s.control t).holdsLock = true := hc ▸ hheld hl
    exact ⟨(congrArg isLocked hword).trans (h.exclusive.locked t hheld'), .inl hheld'⟩
  · exact fun _ hl => (congrArg isLocked hword).trans hl
  · rw [hc]
    exact hhands

/-- User code begins to construct or destroy callback `n`, which stays in its stage. -/
theorem begun (h : Coupled s L) (hc : s.control t = ⟨none, frames⟩) {n : N} {o : Obj T}
    (hlive : ∀ u, s.objs n ≠ .constructing u ∧ s.objs n ≠ .destroying u)
    (ho : o ≠ .raw ∧ o ≠ .live true) (hheld : op'.any Pc.holdsLock = false)
    (hjob : ∀ j ∈ op'.bind Pc.job, (j = .push n ∨ j = .erase n) ∧
      j.Owned t L.winner (Function.update s.objs n o))
    (hop : ∀ pc ∈ op', pc.Ok s.mem.flags L t frames.length) :
    Coupled (s.after t ⟨s.mem, Function.update s.objs n o, ⟨op', frames⟩, none⟩) L := by
  have ht := h.thread t
  have hn := h.node n
  rw [hc] at ht
  have hold : ∀ j ∈ frames.map Frame.job, j ≠ .push n ∧ j ≠ .erase n := by
    intro j hj
    have hown := ht.owned j hj
    constructor
    · rintro rfl
      exact (hlive t).1 hown
    · rintro rfl
      exact (hlive t).2 hown
  have hthread : ThreadOk s.mem (Function.update s.objs n o) L t ⟨op', frames⟩ := by
    refine ⟨?_, ?_, hop, ht.frames⟩
    · refine List.nodup_append.mpr ⟨by cases op'.bind Pc.job <;> simp, ht.nodup, ?_⟩
      intro j hj j' hj'
      rintro rfl
      rcases (hjob j (Option.mem_toList.mp hj)).1 with rfl | rfl
      · exact (hold _ hj').1 rfl
      · exact (hold _ hj').2 rfl
    · intro j hj
      rcases List.mem_append.mp hj with hj | hj
      · exact (hjob j (Option.mem_toList.mp hj)).2
      · exact Job.Owned.update (ht.owned j hj) (hold j hj).1 (hold j hj).2
  have hset := h.changed n (L.stage n) (t := t)
    (o := ⟨s.mem, Function.update s.objs n o, ⟨op', frames⟩, none⟩) (.inl ⟨rfl, rfl⟩) rfl
  rw [L.set_self n] at hset
  refine hset (fun hl => absurd hl (by simp [Control.holdsLock, hheld])) (fun _ hw => hw)
    h.threadId h.list (s.mem.sameBut_word s.mem.word) (fun m hm => Function.update_of_ne hm ..)
    ?_ ?_ hthread ?_ ?_
  · intro u _
    exact ⟨fun hobj => absurd hobj (hlive u).1, fun hobj => absurd hobj (hlive u).2⟩
  · change NodeOk s.mem (Function.update s.objs n o n) _ _
    rw [Function.update_self]
    exact ⟨fun hraw => absurd hraw ho.1, fun hlv => absurd hlv ho.2, hn.taken, hn.finished,
      hn.marked⟩
  · refine (Bool.eq_false_or_eq_true _).symm.imp_right fun hcur hw => ?_
    have hm := h.mem_hands hw hcur
    rw [hc] at hm
    exact List.mem_append_right _ hm
  · intro m _ hm
    rw [hc] at hm
    exact List.mem_append_right _ hm

/-- The thread ends a method, or a callback over it, and with it the construction or destruction of
callback `n`. -/
theorem ended (h : Coupled s L) {c : Control N} (hc : s.control t = c) {n : N} {st : Stage}
    {e : Event T N} {o : Obj T} {w : Word} {j : Job N} (hjobs : c.jobs = j :: frames.map Frame.job)
    (hj : j = .push n ∨ j = .erase n) (hhands : c.hands = frames.filterMap Frame.hand)
    (he : L.Step e (L.set n st)) (hown : e.Owned t L.winner s.objs)
    (hreq : stopRequested w = stopRequested s.mem.word)
    (hkept : c.holdsLock = true ∨ isLocked w = isLocked s.mem.word)
    (hlisted : st.isListed = (L.stage n).isListed)
    (hcur : st.isCurrent = false ∨ L.stage n = st)
    (hnode : NodeOk s.mem o st n)
    (hframes : ∀ f rest, f :: rest <:+ frames →
      f.Ok s.mem.flags s.mem.isRemoved (L.set n st) t rest.length) :
    Coupled (s.after t
      ⟨{ s.mem with word := w }, Function.update s.objs n o, ⟨none, frames⟩, some e⟩)
      (L.set n st) := by
  have ht := h.thread t
  rw [hc] at ht
  have hnodup : j ∉ frames.map Frame.job ∧ (frames.map Frame.job).Nodup := by
    have := ht.nodup
    rwa [hjobs, List.nodup_cons] at this
  have hjown : j.Owned t L.winner s.objs := ht.owned j (hjobs ▸ List.mem_cons_self)
  -- no frame is about the construction or destruction of the same callback
  have hother : ∀ j' ∈ frames.map Frame.job, j' ≠ .push n ∧ j' ≠ .erase n := by
    intro j' hj'
    have hj'own : j'.Owned t L.winner s.objs := ht.owned j' (hjobs ▸ List.mem_cons_of_mem _ hj')
    have hne : j' ≠ j := fun heq => hnodup.1 (heq ▸ hj')
    constructor
    · rintro rfl
      rcases hj with rfl | rfl
      · exact hne rfl
      · exact absurd (Eq.trans (Eq.symm hj'own) hjown) (by simp)
    · rintro rfl
      rcases hj with rfl | rfl
      · exact absurd (Eq.trans (Eq.symm hj'own) hjown) (by simp)
      · exact hne rfl
  have hobj : ∀ u, u ≠ t → s.objs n ≠ .constructing u ∧ s.objs n ≠ .destroying u := by
    intro u hu
    rcases hj with rfl | rfl
    · have hobjn : s.objs n = .constructing t := hjown
      simp [hobjn, Ne.symm hu]
    · have hobjn : s.objs n = .destroying t := hjown
      simp [hobjn, Ne.symm hu]
  refine h.changed n st (.inr ⟨e, rfl, he, hown⟩) hreq (fun hl => Bool.noConfusion hl) ?_
    h.threadId ?_ (s.mem.sameBut_word w) (fun m hm => Function.update_of_ne hm ..) ?_ ?_ ?_ ?_ ?_
  · rw [hc]
    intro hheld hl
    rcases hkept with hkept | hkept
    · simp [hheld] at hkept
    · rw [hkept, hl]
  · exact h.list.set hlisted
  · intro u hu
    exact ⟨fun ho => absurd ho (hobj u hu).1, fun ho => absurd ho (hobj u hu).2⟩
  · change NodeOk _ (Function.update s.objs n o n) _ _
    rw [Function.update_self]
    exact ⟨hnode.raw, hnode.live, hnode.taken, hnode.finished, hnode.marked⟩
  · refine ⟨hnodup.2, fun j' hj' => ?_, ?_, hframes⟩
    · exact Job.Owned.update (ht.owned j' (hjobs ▸ List.mem_cons_of_mem _ hj')) (hother j' hj').1
        (hother j' hj').2
    · rintro pc ⟨⟩
  · rcases hcur with hcur | hcur
    · exact .inl hcur
    · refine (Bool.eq_false_or_eq_true _).symm.imp_right fun hst hw => ?_
      have hm := h.mem_hands hw (hcur ▸ hst)
      rwa [hc, hhands] at hm
  · intro m _ hm
    rwa [hc, hhands] at hm

variable {pc pc' : Pc N}

/-- A thread goes on in a method. -/
theorem goesOn (h : Coupled s L) (hc : s.control t = ⟨some pc, frames⟩)
    (hheld : pc'.holdsLock = true → pc.holdsLock = true) (hjob : pc'.job = pc.job)
    (hhand : pc'.hand = pc.hand ∨ ∀ n ∈ pc.hand, (L.stage n).isCurrent = false)
    (hok : pc'.Ok s.mem.flags L t frames.length) :
    Coupled (s.after t ⟨s.mem, s.objs, ⟨some pc', frames⟩, none⟩) L := by
  refine h.silent hc (.inl rfl) rfl ?_ (fun _ hl => hl) h.threadId ?_ hhand ?_
  · exact fun hl => ⟨h.word_isLocked hc (hheld hl), .inl (hheld hl)⟩
  · rw [Option.bind_some, Option.bind_some, hjob]
  · rintro _ ⟨⟩
    exact hok

/-- A thread sets the locked bit. -/
theorem acquires (h : Coupled s L) (hc : s.control t = ⟨some pc, frames⟩) {past : Word}
    (hpast : s.mem.word = past) (hlock : isLocked past = false) (hjob : pc'.job = pc.job)
    (hhand : pc'.hand = pc.hand) (hok : pc'.Ok s.mem.flags L t frames.length) :
    Coupled (s.after t
      ⟨{ s.mem with word := locked past }, s.objs, ⟨some pc', frames⟩, none⟩) L := by
  obtain ⟨hreq, hlocked⟩ := flags_locked hlock
  rw [← hpast] at hreq hlock hlocked ⊢
  refine h.silent hc (.inl rfl) hreq (fun _ => ⟨hlocked, .inr hlock⟩) (fun _ _ => hlocked)
    h.threadId ?_ (.inl hhand) ?_
  · rw [Option.bind_some, Option.bind_some, hjob]
  · rintro _ ⟨⟩
    exact hok

/-- A thread clears the locked bit and goes on. -/
theorem releases (h : Coupled s L) (hc : s.control t = ⟨some pc, frames⟩)
    (hheld : pc.holdsLock = true) (hheld' : pc'.holdsLock = false) (hjob : pc'.job = pc.job)
    (hhand : pc'.hand = pc.hand) (hok : pc'.Ok s.mem.flags L t frames.length) :
    Coupled (s.after t
      ⟨{ s.mem with word := unlock s.mem.word }, s.objs, ⟨some pc', frames⟩, none⟩) L := by
  have hlock : isLocked s.mem.word = true := h.word_isLocked hc hheld
  refine h.silent hc (.inl rfl) (stopRequested_unlock hlock) ?_ ?_ h.threadId ?_ (.inl hhand) ?_
  · exact fun hl => absurd (hheld'.symm.trans hl) (by simp)
  · exact fun hl => absurd (hheld.symm.trans hl) (by simp)
  · rw [Option.bind_some, Option.bind_some, hjob]
  · rintro _ ⟨⟩
    exact hok

end Coupled

end StopState

end Sync
