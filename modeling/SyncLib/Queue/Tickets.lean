import SyncLib.Queue.LockFreedom

/-!
# The elements of `lock_free_queue`

What the operations construct and read, and what `pop` returns, is recorded under the numbers of
their `fetch_add`s. Where the posts are in order and the loads are whole rounds apart, a pop gets
what the push of the same number has brought, and the destructor finds what is left.
-/

namespace Sync

namespace Queue

open Core

namespace LockFree

variable {α T : Type*} {size : UInt32}

/-! ### The destructor -/

/-- The loop of the destructor, with the slots it destroys. -/
def destroyLoop (size : UInt32) (s : Shared α) : List ℕ × Shared α :=
  if s.count = 0 then ([], { s with count := s.count - 1 })
  else
    let r := destroyLoop size
      { s with
        data := Function.update s.data (s.index .pop).toNat none
        index := Function.update s.index .pop ((s.index .pop + 1) % size)
        count := s.count - 1 }
    ((s.index .pop).toNat :: r.1, r.2)
termination_by s.count.toNat
decreasing_by
  rename_i h
  have hpos : 0 < s.count.toNat := Nat.pos_of_ne_zero fun hzero => h (UInt32.toNat_inj.mp hzero)
  rw [toNat_pred hpos]
  omega

/-- A `blocking_queue` with the same slots. -/
def Shared.asBlocking (s : Shared α) : Blocking.Shared α :=
  ⟨0, 0, s.data, s.index .push, s.index .pop, s.count, [], []⟩

/-- The destructors of the two queues do the same. -/
lemma destroyLoop_eq (size : UInt32) (s : Shared α) :
    (destroyLoop size s).1 = (Blocking.destroyLoop size s.asBlocking).1 ∧
      (destroyLoop size s).2.data = (Blocking.destroyLoop size s.asBlocking).2.data := by
  induction s using destroyLoop.induct size with
  | case1 s hzero =>
    have hzero' : s.asBlocking.count = 0 := hzero
    rw [destroyLoop, if_pos hzero, Blocking.destroyLoop, if_pos hzero']
    exact ⟨rfl, rfl⟩
  | case2 s hne ih =>
    have hne' : ¬ s.asBlocking.count = 0 := hne
    rw [destroyLoop, if_neg hne, Blocking.destroyLoop, if_neg hne']
    exact ⟨congrArg (List.cons _) ih.1, ih.2⟩

/-- In a queue that holds `l` and has no call under way. -/
lemma Holds.destroyLoop {s : Shared α} {l : List α} (h : Holds size s l) :
    (destroyLoop size s).1.Nodup ∧
      (∀ i, i < size.toNat → (i ∈ (destroyLoop size s).1 ↔ (s.data i).isSome)) ∧
      ∀ i, i < size.toNat → (destroyLoop size s).2.data i = none := by
  obtain ⟨hslots, hdata⟩ := destroyLoop_eq size s
  rw [hslots, hdata]
  exact Blocking.destroyLoop_spec (s := s.asBlocking) h.ring h.count

/-! ### The record -/

/-- The element that an operation constructs or reads. -/
def Job.brings (size : UInt32) (s : Shared α) (j : Job α) : Option α :=
  match j.op with
  | .push x | .tryPush x => some x
  | .pop | .tryPop       => s.data (j.slot size)

/-- A run with the elements that the operations of each side have constructed or read so far, and
what the calls of `pop` have returned, by the numbers of their `fetch_add`s. -/
structure Record (α T : Type*) where
  config : Config T (Shared α) (Place α)
  items : Side → ℕ → Option α
  returned : ℕ → Option (Option α)

def Record.start (size : UInt32) : Record α T :=
  ⟨LockFree.start size, fun _ _ => none, fun _ => none⟩

/-- What is recorded of the work of a thread when it takes its next step. -/
def Record.next (size : UInt32) (r : Record α T) (t : T) : Side → ℕ → Option α :=
  match r.config.pc t with
  | .busy j .working =>
    Function.update r.items j.op.side
      (Function.update (r.items j.op.side) j.ticket (j.brings size r.config.shared))
  | _ => r.items

/-- What is recorded of the result of a thread when it takes its next step. -/
def Record.nextReturned (r : Record α T) (t : T) : ℕ → Option (Option α) :=
  match r.config.pc t with
  | .busy j .posting =>
    match result j with
    | .item x => Function.update r.returned j.ticket (some x)
    | _       => r.returned
  | _ => r.returned

def recorded [DecidableEq T] (size : UInt32) : Machine (Record α T) (T × Move α) where
  step r a :=
    ((code size).machine.step r.config a).map fun c => ⟨c, r.next size a.1, r.nextReturned a.1⟩

/-- A push brings what it leaves in the slot. -/
lemma Job.of_push {j : Job α} (h : j.op.side = .push) (size : UInt32) (s : Shared α) :
    ∃ x, left j.op = some x ∧ j.brings size s = some x := by
  cases hop : j.op with
  | push x | tryPush x => exact ⟨x, rfl, by rw [Job.brings, hop]⟩
  | pop | tryPop =>
    rw [hop] at h
    cases h

/-- A pop brings what it has read, and leaves nothing. -/
lemma Job.of_pop {j : Job α} (h : j.op.side = .pop) (size : UInt32) (s : Shared α) :
    left j.op = none ∧ j.brings size s = s.data (j.slot size) ∧
      (work size j s).2 = { j with item := s.data (j.slot size) } := by
  cases hop : j.op with
  | push | tryPush =>
    rw [hop] at h
    cases h
  | pop | tryPop => exact ⟨rfl, by rw [Job.brings, hop], by rw [work, hop]⟩

/-- A pop has read what is recorded. -/
def Place.HasRead (items : Side → ℕ → Option α) : Place α → Prop
  | .busy j ph => ph ≠ .working → j.op.side = .pop → j.item = items .pop j.ticket
  | _          => True

/-- What the record tells about the queue. -/
structure Told (size : UInt32) (s : Config T (Shared α) (Place α)) (items : Side → ℕ → Option α) :
    Prop where
  known : ∀ d k, (items d k).isSome ↔ k < (desk s d).claimed ∧ k ∉ (desk s d).working
  carries : Carries size.toNat s.shared.data (desk s .push) (desk s .pop) (items .push)
  fifo : ∀ k x, items .pop k = some x → items .push k = some x
  item : ∀ t, (s.pc t).HasRead items

namespace Told

variable {s s' : Config T (Shared α) (Place α)} {items : Side → ℕ → Option α}

lemma start (size : UInt32) :
    Told size (LockFree.start size : Config T (Shared α) (Place α)) (fun _ _ => none) := by
  refine ⟨fun d k => iff_of_false Bool.false_ne_true fun h => (by cases h.1), ?_, ?_, ?_⟩
  · rintro k ⟨hk, -⟩
    cases hk
  · intro k x h
    cases h
  · intro t
    exact trivial

variable [DecidableEq T] {t : T} {p : Place α} {sh : Shared α}

/-- A step that neither claims nor works. -/
lemma keep (h : Told size s items) (hclaims : sh.claims = s.shared.claims)
    (hdata : sh.data = s.shared.data) (hwork : p.atWork = (s.pc t).atWork)
    (hread : p.HasRead items) : Told size ⟨sh, Function.update s.pc t p⟩ items := by
  have hclaimed : ∀ d, (desk ⟨sh, Function.update s.pc t p⟩ d).claimed = (desk s d).claimed :=
    fun d => congrFun hclaims d
  have hworking : ∀ d, (desk ⟨sh, Function.update s.pc t p⟩ d).working = (desk s d).working :=
    working_keep hwork
  refine ⟨fun d k => ?_, ?_, h.fifo, Code.forall_update (P := fun _ => Place.HasRead items) hread
    fun u _ => h.item u⟩
  · rw [hclaimed, hworking]
    exact h.known d k
  · rintro k ⟨hk, hins, hout⟩
    rw [hclaimed, hworking] at hout
    rw [hclaimed] at hk
    rw [hworking] at hins
    simp only
    rw [hdata]
    exact h.carries k ⟨hk, hins, hout⟩

lemma claimed (h : Told size s items) {op : Op α} (hp : s.pc t = .claiming op) :
    Told size ⟨claim op.side s.shared, Function.update s.pc t
      (.busy ⟨op, s.shared.index op.side, s.shared.claims op.side, none⟩ .working)⟩ items := by
  refine ⟨fun d k => ?_, ?_, h.fifo, Code.forall_update (P := fun _ => Place.HasRead items)
    (fun hne => absurd rfl hne) fun u _ => h.item u⟩
  · rw [desk_claim hp, h.known d k]
    by_cases hd : d = op.side
    · subst hd
      rw [Function.update_self]
      simp only [Desk.claim, Set.mem_insert_iff, not_or]
      constructor
      · rintro ⟨hk, hwork⟩
        exact ⟨by omega, hk.ne, hwork⟩
      · rintro ⟨hk, hne, hwork⟩
        exact ⟨by omega, hwork⟩
    · rw [Function.update_of_ne hd]
  · rw [desk_claim hp]
    cases hside : op.side with
    | push => exact h.carries.claim_ins
    | pop => exact h.carries.claim_outs

/-- The work on a slot is recorded. -/
lemma finished [Fintype T] (h : Told size s items) (hs : SlotInv size s) {j : Job α}
    (hp : s.pc t = .busy j .working) :
    Told size ⟨(work size j s.shared).1,
      Function.update s.pc t (.busy (work size j s.shared).2 .counting)⟩
      (Function.update items j.op.side
        (Function.update (items j.op.side) j.ticket (j.brings size s.shared))) := by
  have hmem := mem_working hp
  have hj : (s.pc t).atWork = some j.toTicket := by
    rw [hp]
    rfl
  have hdesk := desk_finish size hp fun u y hy hside hnumber =>
    hs.unique u t y _ (ticket_of_atWork hy) (ticket_of_atWork hj) hside hnumber
  have hslot := hs.slot_eq hp
  have hbrings : (j.brings size s.shared).isSome := by
    cases hside : j.op.side with
    | push =>
      obtain ⟨x, -, hx⟩ := Job.of_push hside size s.shared
      rw [hx]
      rfl
    | pop =>
      rw [(Job.of_pop hside size s.shared).2.1]
      exact hs.slotLaw.pop t j hp hside
  refine ⟨fun d k => ?_, ?_, ?_, ?_⟩
  · rw [hdesk]
    by_cases hd : d = j.op.side
    · subst hd
      rw [Function.update_self, Function.update_self]
      by_cases hk : k = j.ticket
      · subst hk
        rw [Function.update_self]
        exact iff_of_true hbrings
          ⟨(hs.ordered j.op.side).working_lt _ hmem, fun hwork => hwork.2 rfl⟩
      · rw [Function.update_of_ne hk, h.known]
        simp only [Desk.finish, Set.mem_sdiff_singleton, not_and_not_right]
        exact and_congr_right fun _ =>
          ⟨fun hwork hin => absurd hin hwork, fun hwork hin => hk (hwork hin)⟩
    · rw [Function.update_of_ne hd, Function.update_of_ne hd]
      exact h.known d k
  · rw [hdesk, work_eq, hslot]
    cases hside : j.op.side with
    | push =>
      obtain ⟨x, hleft, hx⟩ := Job.of_push hside size s.shared
      rw [hleft, hx]
      exact h.carries.finish_ins hs.handoff (hside ▸ hmem) x
    | pop =>
      rw [(Job.of_pop hside size s.shared).1]
      exact h.carries.finish_outs hs.handoff (hside ▸ hmem)
  · intro k x hk
    cases hside : j.op.side with
    | push =>
      rw [hside] at hk hmem
      rw [Function.update_of_ne (by decide)] at hk
      -- the push is under way, and no pop has this number yet
      have hlt := ((h.known .pop k).mp (Option.isSome_of_eq_some hk)).1
      have hle := hs.handoff.claimed_le_of_ins hmem
      rw [Function.update_self, Function.update_of_ne (by omega)]
      exact h.fifo k x hk
    | pop =>
      rw [hside] at hk hmem
      rw [Function.update_of_ne (by decide)]
      rw [Function.update_self] at hk
      by_cases heq : k = j.ticket
      · rw [heq, Function.update_self, (Job.of_pop hside size s.shared).2.1, hslot] at hk
        rw [heq, ← h.carries.get_of_outs hs.handoff hmem]
        exact hk
      · rw [Function.update_of_ne heq] at hk
        exact h.fifo k x hk
  · refine Code.forall_update (P := fun _ => Place.HasRead _) ?_ fun u hu => ?_
    · rw [Place.HasRead, work_op]
      intro _ hside
      rw [(Job.of_pop hside size s.shared).2.2, hside, Function.update_self, Function.update_self]
      exact (Job.of_pop hside size s.shared).2.1.symm
    · have hread := h.item u
      cases hq : s.pc u with
      | outside | entering | claiming => trivial
      | busy i ph =>
        rw [hq] at hread
        intro hne hi
        rw [hread hne hi]
        cases hside : j.op.side with
        | push => rw [Function.update_of_ne (by decide)]
        | pop =>
          rw [Function.update_self, Function.update_of_ne]
          intro heq
          have hticket : (s.pc u).ticket = some i.toTicket := by
            rw [hq]
            rfl
          exact hu (hs.unique u t _ _ hticket (ticket_of_atWork hj) (hi.trans hside.symm) heq)

end Told

/-! ### The runs -/

lemma Place.HasRead.phase {items : Side → ℕ → Option α} {j : Job α} {ph ph' : Phase}
    (h : (Place.busy j ph).HasRead items) (hne : ph ≠ .working) :
    (Place.busy j ph').HasRead items :=
  fun _ hside => h hne hside

namespace Record

variable {r : Record α T} {t : T}

lemma next_of_atWork (h : (r.config.pc t).atWork = none) : r.next size t = r.items := by
  rw [Record.next]
  split
  · rename_i j hp
    rw [hp] at h
    cases h
  · rfl

lemma next_of_working {j : Job α} (hp : r.config.pc t = .busy j .working) :
    r.next size t = Function.update r.items j.op.side
      (Function.update (r.items j.op.side) j.ticket (j.brings size r.config.shared)) := by
  rw [Record.next, hp]

/-- Only the end of a `pop` records a result. -/
lemma nextReturned_cases (r : Record α T) (t : T) : r.nextReturned t = r.returned ∨
    ∃ j : Job α, r.config.pc t = .busy j .posting ∧ j.op = .pop ∧
      r.nextReturned t = Function.update r.returned j.ticket (some j.item) := by
  rw [Record.nextReturned]
  cases hp : r.config.pc t with
  | outside | entering | claiming => exact .inl rfl
  | busy j ph =>
    cases ph with
    | working | counting | loading | reducing | exchanging => exact .inl rfl
    | posting =>
      cases hop : j.op with
      | push | tryPush | tryPop => exact .inl (by simp only [result, hop])
      | pop => exact .inr ⟨j, rfl, hop, by simp only [result, hop]⟩

end Record

lemma exists_of_atWork {p : Place α} {x : Ticket} (h : p.atWork = some x) :
    ∃ j : Job α, p = .busy j .working ∧ j.toTicket = x := by
  unfold Place.atWork at h
  split at h
  · rename_i j
    exact ⟨j, rfl, Option.some.inj h⟩
  · cases h

lemma working_of_rest {s : Config T (Shared α) (Place α)} (hrest : ∀ t, (s.pc t).inFlight = 0)
    (d : Side) : (desk s d).working = ∅ := by
  refine Set.eq_empty_iff_forall_notMem.mpr ?_
  rintro k ⟨t, x, hx, -⟩
  have ht := hrest t
  cases hp : s.pc t with
  | outside | entering | claiming =>
    rw [hp] at hx
    cases hx
  | busy j ph =>
    rw [hp] at ht
    cases ht

/-- What holds of a queue and its record where the steps are orderly. -/
structure TicketInv [Fintype T] (size : UInt32) (r : Record α T) : Prop where
  slots : SlotInv size r.config
  sound : Sound size r.config
  told : Told size r.config r.items
  returned : ∀ k x, r.returned k = some x → x.isSome ∧ r.items .pop k = x

namespace TicketInv

variable [Fintype T] {r r' : Record α T}

lemma start (hsize : size ≠ 0) : TicketInv size (Record.start size : Record α T) :=
  ⟨SlotInv.start size, Sound.start hsize, Told.start size, fun k x hx => by cases hx⟩

/-! ### Between the operations -/

/-- Every claim has posted. -/
lemma claims_of_rest (h : TicketInv size r) (hrest : ∀ t, (r.config.pc t).inFlight = 0) :
    r.config.shared.slots .pop + r.config.shared.claims .pop = r.config.shared.claims .push := by
  have hclaiming : ∀ d, tally (Place.claimingOf d) r.config.pc = 0 := by
    intro d
    refine tally_eq_zero_iff.mpr fun t => ?_
    have ht := hrest t
    cases hp : r.config.pc t with
    | outside | entering | busy => rfl
    | claiming op =>
      rw [hp] at ht
      cases ht
  have hflight : tally Place.inFlight r.config.pc = 0 := tally_eq_zero_iff.mpr hrest
  have hslots := h.sound.slots
  have hpush := h.slots.tokens .push
  have hpop := h.slots.tokens .pop
  have hpush' := (h.slots.ordered .push).card_le
  have hpop' := (h.slots.ordered .pop).card_le
  simp only [hclaiming, initial, Side.other] at hpush hpop
  simp only [desk] at hpush' hpop'
  omega

/-- An index is in range, and tells the number of claims. -/
lemma index_of_rest (h : TicketInv size r) (hrest : ∀ t, (r.config.pc t).inFlight = 0) (d : Side) :
    (r.config.shared.index d).toNat = r.config.shared.claims d % size.toNat := by
  have hlt := UInt32.lt_iff_toNat_lt.mp ((h.sound.rest hrest).2 d)
  rw [← h.slots.index.law d, Nat.mod_eq_of_lt hlt]

/-- The queue holds what was pushed and not popped. -/
theorem holds_of_rest (h : TicketInv size r) (hrest : ∀ t, (r.config.pc t).inFlight = 0) :
    ∃ l, Holds size r.config.shared l ∧
      l.length + r.config.shared.claims .pop = r.config.shared.claims .push ∧
      ∀ i, i < l.length → l[i]? = r.items .push (r.config.shared.claims .pop + i) := by
  have hclaims := h.claims_of_rest hrest
  have hflight : tally Place.inFlight r.config.pc = 0 := tally_eq_zero_iff.mpr hrest
  have hslots := h.sound.slots
  have hpush := h.index_of_rest hrest .push
  have hpop := h.index_of_rest hrest .pop
  have hlive : ∀ k, Live (desk r.config .push) (desk r.config .pop) k ↔
      k < r.config.shared.claims .push ∧ r.config.shared.claims .pop ≤ k := by
    intro k
    rw [Live, working_of_rest hrest, working_of_rest hrest]
    simp [desk]
  have hsome : ∀ i, i < r.config.shared.slots .pop →
      (r.items .push (r.config.shared.claims .pop + i)).isSome := by
    intro i hi
    rw [h.told.known, working_of_rest hrest]
    simp only [desk, Set.mem_empty_iff_false, not_false_eq_true, and_true]
    omega
  obtain ⟨l, hlength, hl⟩ := exists_list hsome
  refine ⟨l, ⟨⟨?_, ?_, fun j hj => ?_⟩, ?_, ?_, ?_, hlength.symm⟩, by omega, hlength ▸ hl⟩
  · exact UInt32.lt_iff_toNat_lt.mp ((h.sound.rest hrest).2 .pop)
  · omega
  · rw [hpop, Nat.mod_add_mod]
    by_cases hjl : j < r.config.shared.slots .pop
    · rw [hl j hjl]
      exact h.told.carries _ ((hlive _).mpr ⟨by omega, Nat.le_add_right _ _⟩)
    · rw [List.getElem?_eq_none (by omega), ← Option.not_isSome_iff_eq_none]
      intro hfull
      obtain ⟨k, hk, hmod⟩ := h.slots.handoff.live _ hfull
      obtain ⟨hlt, hle⟩ := (hlive k).mp hk
      obtain ⟨i, rfl⟩ := Nat.exists_eq_add_of_le hle
      have heq := add_mod_inj (by omega) hj hmod
      omega
  · rw [(h.sound.rest hrest).1, hlength]
  · rw [hpush, hpop, Nat.mod_add_mod, hlength, Nat.add_comm, hclaims]
  · omega

/-! ### The steps -/

/-- What is recorded of the work is not changed any more. -/
lemma next_eq (h : TicketInv size r) {k : ℕ} (hk : (r.items .pop k).isSome) (t : T) :
    r.next size t .pop k = r.items .pop k := by
  cases hwork : (r.config.pc t).atWork with
  | none => rw [Record.next_of_atWork hwork]
  | some y =>
    obtain ⟨j, hp, rfl⟩ := exists_of_atWork hwork
    rw [Record.next_of_working hp]
    cases hside : j.op.side with
    | push => rw [Function.update_of_ne (by decide)]
    | pop =>
      rw [Function.update_self, Function.update_of_ne]
      rintro rfl
      have hmem := mem_working hp
      rw [hside] at hmem
      exact ((h.told.known .pop _).mp hk).2 hmem

/-- A `pop` that is about to return has an element, which is recorded. -/
lemma item_of_posting (h : TicketInv size r) {t : T} {j : Job α}
    (hp : r.config.pc t = .busy j .posting) (hside : j.op.side = .pop) :
    j.item.isSome ∧ r.items .pop j.ticket = j.item := by
  have hread := h.told.item t
  rw [hp] at hread
  have hitem : j.item = r.items .pop j.ticket := hread (by decide) hside
  have hticket : (r.config.pc t).ticket = some j.toTicket := by
    rw [hp]
    rfl
  have hfresh := h.slots.fresh t _ hticket
  rw [hitem, h.told.known]
  refine ⟨⟨hside ▸ hfresh.1, ?_⟩, rfl⟩
  rintro ⟨u, x, hx, hxside, hnumber⟩
  obtain ⟨i, hu, rfl⟩ := exists_of_atWork hx
  obtain rfl := h.slots.unique u t _ _ (ticket_of_atWork hx) hticket (hxside.trans hside.symm)
    hnumber
  rw [hp] at hu
  cases hu

lemma returned_step (h : TicketInv size r) (t : T) {k : ℕ} {x : Option α}
    (hx : r.nextReturned t k = some x) : x.isSome ∧ r.next size t .pop k = x := by
  have hknown : x.isSome ∧ r.items .pop k = x := by
    rcases Record.nextReturned_cases r t with heq | ⟨j, hp, hop, heq⟩
    · rw [heq] at hx
      exact h.returned k x hx
    · rw [heq] at hx
      by_cases hk : k = j.ticket
      · rw [hk, Function.update_self] at hx
        cases hx
        rw [hk]
        exact h.item_of_posting hp (by rw [hop]; rfl)
      · rw [Function.update_of_ne hk] at hx
        exact h.returned k x hx
  obtain ⟨hsome, hitem⟩ := hknown
  exact ⟨hsome, (h.next_eq (hitem ▸ hsome) t).trans hitem⟩

variable [DecidableEq T]

lemma told_step (h : TicketInv size r) {a : T × Move α} {c : Config T (Shared α) (Place α)}
    (hs : (code size).machine.step r.config a = some c) : Told size c (r.next size a.1) := by
  obtain ⟨t, m⟩ := a
  obtain ⟨sh, p, hstep, rfl⟩ := step_of_machine hs
  have hread := h.told.item t
  simp only at hstep ⊢
  generalize hp : r.config.pc t = q at hstep hread
  cases hstep with
  | begin | enter | giveUp | post =>
    rw [Record.next_of_atWork (by rw [hp]; rfl)]
    exact h.told.keep rfl rfl (by rw [hp]; rfl) trivial
  | claim op =>
    rw [Record.next_of_atWork (by rw [hp]; rfl)]
    exact h.told.claimed hp
  | work j =>
    rw [Record.next_of_working hp]
    exact h.told.finished h.slots hp
  | count j =>
    rw [Record.next_of_atWork (by rw [hp]; rfl)]
    refine h.told.keep ?_ ?_ (by rw [hp]; rfl) (hread.phase (by decide))
    · cases j.op.side <;> rfl
    · cases j.op.side <;> rfl
  | load | reduce | exchange | retry =>
    rw [Record.next_of_atWork (by rw [hp]; rfl)]
    exact h.told.keep rfl rfl (by rw [hp]; rfl) (hread.phase (by simp))

theorem step (hsize : size ≠ 0) (h : TicketInv size r) {a : T × Move α}
    (hok : Orderly size r.config a) (hs : (recorded size).step r a = some r') :
    TicketInv size r' := by
  obtain ⟨c, hc, rfl⟩ := Option.map_eq_some_iff.mp hs
  exact ⟨h.slots.step hok hc, h.sound.step hsize hc, h.told_step hc,
    fun k x hx => h.returned_step a.1 hx⟩

end TicketInv

/-! ### The law -/

/-- What holds of the elements of a queue. -/
structure ElementLaw (size : UInt32) (r : Record α T) : Prop where
  /-- The operations that are done with their slots are recorded. -/
  known : ∀ d k, (r.items d k).isSome ↔ k < r.config.shared.claims d ∧
    ∀ t j, r.config.pc t = .busy j .working → j.op.side = d → j.ticket ≠ k
  /-- The pop of a number gets what the push of this number has brought. -/
  fifo : ∀ k x, r.items .pop k = some x → r.items .push k = some x
  /-- An operation of this side has it in its local variable. -/
  item : ∀ t j ph, r.config.pc t = .busy j ph → ph ≠ .working → j.op.side = .pop →
    j.item = r.items .pop j.ticket
  /-- A call of `pop` returns the element that the push of its number has brought. -/
  returned : ∀ k x, r.returned k = some x → ∃ e, x = some e ∧ r.items .push k = some e
  /-- Between the operations the queue holds what was pushed and not popped, in order. -/
  rest : (∀ t, (r.config.pc t).inFlight = 0) → ∃ l, Holds size r.config.shared l ∧
    l.length + r.config.shared.claims .pop = r.config.shared.claims .push ∧
    ∀ i, i < l.length → l[i]? = r.items .push (r.config.shared.claims .pop + i)
  /-- The destructor then destroys the live elements, each once, and leaves none. -/
  destroyed : (∀ t, (r.config.pc t).inFlight = 0) →
    (destroyLoop size r.config.shared).1.Nodup ∧
    (∀ i, i < size.toNat →
      (i ∈ (destroyLoop size r.config.shared).1 ↔ (r.config.shared.data i).isSome)) ∧
    ∀ i, i < size.toNat → (destroyLoop size r.config.shared).2.data i = none

lemma TicketInv.elementLaw [Fintype T] {r : Record α T} (h : TicketInv size r) :
    ElementLaw size r := by
  refine ⟨fun d k => ?_, h.told.fifo, fun t j ph hp hne hside => ?_, fun k x hx => ?_,
    h.holds_of_rest, fun hrest => ?_⟩
  · rw [h.told.known]
    refine and_congr_right fun _ => ?_
    constructor
    · rintro hwork t j hp rfl rfl
      exact hwork (mem_working hp)
    · rintro hwork ⟨t, x, hx, hside, hnumber⟩
      obtain ⟨j, hp, rfl⟩ := exists_of_atWork hx
      exact hwork t j hp hside hnumber
  · have hread := h.told.item t
    rw [hp] at hread
    exact hread hne hside
  · obtain ⟨hsome, hitem⟩ := h.returned k x hx
    obtain ⟨e, rfl⟩ := Option.isSome_iff_exists.mp hsome
    exact ⟨e, rfl, h.told.fifo k e hitem⟩
  · obtain ⟨l, hl, -⟩ := h.holds_of_rest hrest
    exact hl.destroyLoop

variable [Fintype T] [DecidableEq T]

/-- In every run whose posts are in order and whose loads are whole rounds apart. -/
theorem element_law (hsize : size ≠ 0) {r : Record α T}
    (h : (recorded size).Runs (fun r a => Orderly size r.config a) (Record.start size) r) :
    ElementLaw size r := by
  have hinv : TicketInv size r :=
    h.invariant (TicketInv.start hsize) fun _ _ _ hu hok hs => hu.step hsize hok hs
  exact hinv.elementLaw

/-- Two pushes are at work at once, and a pop returns what the first of them brought. -/
theorem element_law_three : ∃ r : Record ℕ (Fin 3),
    (recorded 2).Runs (fun r a => Orderly 2 r.config a) (Record.start 2) r ∧
      r.config.pc 1 = .busy ⟨.tryPush 8, 1, 1, none⟩ .working ∧
      r.config.pc 2 = .outside (some (.item (some 7))) ∧ r.returned 0 = some (some 7) ∧
      ElementLaw 2 r := by
  have hrun : ((recorded 2).runWhile (fun r a => Orderly 2 r.config a)
      (Record.start 2 : Record ℕ (Fin 3))
      [(0, .call (.push 7)), (0, .proceed), (0, .proceed), (1, .call (.tryPush 8)), (1, .proceed),
        (1, .proceed), (0, .proceed), (0, .proceed), (0, .proceed), (0, .proceed), (0, .proceed),
        (0, .proceed), (2, .call .pop), (2, .proceed), (2, .proceed), (2, .proceed), (2, .proceed),
        (2, .proceed), (2, .proceed), (2, .proceed), (2, .proceed)]).any
      (fun r => r.config.pc 1 == .busy ⟨.tryPush 8, 1, 1, none⟩ .working &&
        r.config.pc 2 == .outside (some (.item (some 7))) && r.returned 0 == some (some 7)) =
      true := by
    decide +kernel
  obtain ⟨r, hr, hp⟩ := Machine.exists_runs_of_runWhile _ _ hrun
  simp only [Bool.and_eq_true, beq_iff_eq, and_assoc] at hp
  obtain ⟨hpush, hpop, hreturned⟩ := hp
  exact ⟨r, hr, hpush, hpop, hreturned, element_law (by decide) hr⟩

end LockFree

end Queue

end Sync
