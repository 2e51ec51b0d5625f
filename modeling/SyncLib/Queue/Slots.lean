import SyncLib.Core.Handoff
import SyncLib.Core.Tally
import SyncLib.Queue.LockFree

/-!
# The slots of `lock_free_queue`

The semaphores count posts and do not tell whose they are, so a post licenses the next `fetch_add`
of the other side whichever slot that claims. Where an operation posts only after those of its side
that have claimed before it are done with their slots, the slots are handed over as in
`Core.Handoff`: the desks are the two sides, and the tickets are the numbers of their `fetch_add`s.
-/

namespace Sync

namespace Queue

open Core

namespace LockFree

variable {α T : Type*}

/-- What an operation gets from its `fetch_add`: its number among those of its side, and the
index. -/
structure Ticket where
  side : Side
  number : ℕ
  index : UInt32

def Job.toTicket (j : Job α) : Ticket := ⟨j.op.side, j.ticket, j.index⟩

/-- The ticket of the operation that a thread is in. -/
def Place.ticket : Place α → Option Ticket
  | .busy j _ => some j.toTicket
  | _         => none

/-- The ticket of a thread that is not done with its slot. -/
def Place.atWork : Place α → Option Ticket
  | .busy j .working => some j.toTicket
  | _                => none

/-- Whether a thread has a token and no ticket. -/
def Place.claimingOf (d : Side) : Place α → ℕ
  | .claiming op => if op.side = d then 1 else 0
  | _            => 0

lemma ticket_of_atWork {p : Place α} {x : Ticket} (h : p.atWork = some x) : p.ticket = some x := by
  unfold Place.atWork at h
  split at h
  · exact h
  · cases h

/-- A post comes after the work of every operation of the same side that has claimed before. -/
def PostsInOrder (pc : T → Place α) : Place α → Move α → Prop
  | .busy j .posting, .proceed =>
    ∀ u, ∀ x ∈ (pc u).atWork, x.side = j.op.side → j.ticket < x.number
  | _, _ => True

/-- Posts in order, and loads that are a whole number of rounds apart. -/
def Orderly (size : UInt32) (s : Config T (Shared α) (Place α)) (a : T × Move α) : Prop :=
  WholeRounds size s.shared (s.pc a.1) a.2 ∧ PostsInOrder s.pc (s.pc a.1) a.2

/-- Who constructs an element has a slot without one, who reads and destroys an element has a slot
with one, and no two operations have the same slot. -/
structure SlotLaw (size : UInt32) (s : Config T (Shared α) (Place α)) : Prop where
  push : ∀ t j, s.pc t = .busy j .working → j.op.side = .push →
    s.shared.data (j.slot size) = none
  pop : ∀ t j, s.pc t = .busy j .working → j.op.side = .pop →
    (s.shared.data (j.slot size)).isSome
  own : ∀ t u j k, s.pc t = .busy j .working → s.pc u = .busy k .working →
    j.slot size = k.slot size → t = u

/-! ### The desks -/

/-- The numbers of the tickets at work. -/
def working (pc : T → Place α) (d : Side) : Set ℕ :=
  {k | ∃ t x, (pc t).atWork = some x ∧ x.side = d ∧ x.number = k}

def desk (s : Config T (Shared α) (Place α)) (d : Side) : Desk :=
  ⟨s.shared.claims d, working s.pc d, s.shared.posted d⟩

lemma mem_working {s : Config T (Shared α) (Place α)} {t : T} {j : Job α}
    (hp : s.pc t = .busy j .working) : j.ticket ∈ (desk s j.op.side).working :=
  ⟨t, j.toTicket, by rw [hp]; rfl, rfl, rfl⟩

/-- A desk changes, and the other one does not. -/
lemma desk_update {s : Config T (Shared α) (Place α)} {sh : Shared α} {pc : T → Place α}
    {d : Side} {D : Desk} (hclaims : sh.claims = Function.update s.shared.claims d D.claimed)
    (hwork : working pc = Function.update (working s.pc) d D.working)
    (hposted : sh.posted = Function.update s.shared.posted d D.posted) :
    desk ⟨sh, pc⟩ = Function.update (desk s) d D := by
  funext e
  rw [desk, hclaims, hwork, hposted]
  by_cases he : e = d
  · rw [he, Function.update_self, Function.update_self, Function.update_self,
      Function.update_self]
  · rw [Function.update_of_ne he, Function.update_of_ne he, Function.update_of_ne he,
      Function.update_of_ne he, desk]

section Working

variable {pc : T → Place α} {t : T} {p : Place α} {x : Ticket}

/-- Only the ticket that `t` has worked on matters. -/
lemma mem_working_others {k : ℕ} {d : Side}
    (h : ∀ x, (pc t).atWork = some x → x.side = d → x.number ≠ k) :
    (∃ u x, u ≠ t ∧ (pc u).atWork = some x ∧ x.side = d ∧ x.number = k) ↔ k ∈ working pc d := by
  constructor
  · rintro ⟨u, x, -, hx⟩
    exact ⟨u, x, hx⟩
  · rintro ⟨u, x, hx, hside, hnumber⟩
    refine ⟨u, x, ?_, hx, hside, hnumber⟩
    rintro rfl
    exact h x hx hside hnumber

variable [DecidableEq T]

lemma ticket_update {u : T} : (Function.update pc t p u).ticket = some x ↔
    u = t ∧ p.ticket = some x ∨ u ≠ t ∧ (pc u).ticket = some x := by
  by_cases hu : u = t
  · simp [hu]
  · simp [hu]

lemma working_keep (h : p.atWork = (pc t).atWork) (d : Side) :
    working (Function.update pc t p) d = working pc d := by
  simp only [working, Code.apply_update h]

lemma mem_working_update {k : ℕ} {d : Side} : k ∈ working (Function.update pc t p) d ↔
    (∃ x, p.atWork = some x ∧ x.side = d ∧ x.number = k) ∨
      ∃ u x, u ≠ t ∧ (pc u).atWork = some x ∧ x.side = d ∧ x.number = k := by
  constructor
  · rintro ⟨u, x, hx, hside, hnumber⟩
    by_cases hu : u = t
    · rw [hu, Function.update_self] at hx
      exact .inl ⟨x, hx, hside, hnumber⟩
    · rw [Function.update_of_ne hu] at hx
      exact .inr ⟨u, x, hu, hx, hside, hnumber⟩
  · rintro (⟨x, hx, hside, hnumber⟩ | ⟨u, x, hu, hx, hside, hnumber⟩)
    · exact ⟨t, x, by rwa [Function.update_self], hside, hnumber⟩
    · exact ⟨u, x, by rwa [Function.update_of_ne hu], hside, hnumber⟩

lemma working_claim (hp : (pc t).atWork = none) (hq : p.atWork = some x) :
    working (Function.update pc t p) =
      Function.update (working pc) x.side (insert x.number (working pc x.side)) := by
  funext d
  ext k
  have hothers : ∀ y, (pc t).atWork = some y → y.side = d → y.number ≠ k := by
    intro y hy
    rw [hp] at hy
    cases hy
  rw [mem_working_update, mem_working_others hothers, hq]
  by_cases hd : d = x.side
  · rw [hd, Function.update_self, Set.mem_insert_iff]
    simp [eq_comm]
  · rw [Function.update_of_ne hd]
    simp [Ne.symm hd]

lemma working_finish (hp : (pc t).atWork = some x) (hq : p.atWork = none)
    (hunique : ∀ u y, (pc u).atWork = some y → y.side = x.side → y.number = x.number → u = t) :
    working (Function.update pc t p) =
      Function.update (working pc) x.side (working pc x.side \ {x.number}) := by
  funext d
  ext k
  rw [mem_working_update, hq]
  simp only [reduceCtorEq, false_and, exists_false, false_or]
  by_cases hx : x.side = d ∧ x.number = k
  · obtain ⟨rfl, rfl⟩ := hx
    rw [Function.update_self]
    refine iff_of_false ?_ fun hk => hk.2 rfl
    rintro ⟨u, y, hu, hy, hside, hnumber⟩
    exact hu (hunique u y hy hside hnumber)
  · have hothers : ∀ y, (pc t).atWork = some y → y.side = d → y.number ≠ k := by
      intro y hy hside hnumber
      obtain rfl := Option.some.inj (hp.symm.trans hy)
      exact hx ⟨hside, hnumber⟩
    rw [mem_working_others hothers]
    by_cases hd : d = x.side
    · have hk : k ≠ x.number := fun heq => hx ⟨hd.symm, heq.symm⟩
      rw [hd, Function.update_self, Set.mem_sdiff_singleton]
      exact (and_iff_left hk).symm
    · rw [Function.update_of_ne hd]

end Working

section Sides

variable {size : UInt32} {n k : ℕ} {data : ℕ → Option α} {D : Side → Desk}

lemma handoff_claim (h : Handoff size.toNat data (D .push) (D .pop)) (d : Side)
    (hroom : (D d).claimed < (initial size : Shared α).slots d + (D d.other).posted.card) :
    Handoff size.toNat data (Function.update D d (D d).claim .push)
      (Function.update D d (D d).claim .pop) := by
  cases d with
  | push => exact h.claim_ins hroom
  | pop  => exact h.claim_outs (by simpa [initial, Side.other] using hroom)

/-- What an operation leaves in its slot. -/
def left : Op α → Option α
  | .push x | .tryPush x => some x
  | .pop | .tryPop       => none

lemma handoff_finish (h : Handoff n data (D .push) (D .pop)) {op : Op α}
    (hk : k ∈ (D op.side).working) :
    Handoff n (Function.update data (k % n) (left op))
      (Function.update D op.side ((D op.side).finish k) .push)
      (Function.update D op.side ((D op.side).finish k) .pop) := by
  cases op with
  | push x | tryPush x => exact h.finish_ins hk x
  | pop | tryPop       => exact h.finish_outs hk

lemma handoff_post (h : Handoff n data (D .push) (D .pop)) (d : Side) (hk : k < (D d).claimed)
    (hlow : ∀ w, w ∈ (D d).working → k < w) :
    Handoff n data (Function.update D d ((D d).post k) .push)
      (Function.update D d ((D d).post k) .pop) := by
  cases d with
  | push => exact h.post_ins hk hlow
  | pop  => exact h.post_outs hk hlow

end Sides

lemma work_eq (size : UInt32) (j : Job α) (s : Shared α) : (work size j s).1 =
    { s with data := Function.update s.data (j.slot size) (left j.op) } := by
  rw [work]
  cases j.op <;> rfl

section Steps

variable [DecidableEq T] {s : Config T (Shared α) (Place α)} {t : T}

lemma desk_claim {op : Op α} (hp : s.pc t = .claiming op) :
    desk ⟨claim op.side s.shared, Function.update s.pc t
      (.busy ⟨op, s.shared.index op.side, s.shared.claims op.side, none⟩ .working)⟩ =
      Function.update (desk s) op.side (desk s op.side).claim := by
  have hp' : (s.pc t).atWork = none := by
    rw [hp]
    rfl
  have hq : (Place.busy ⟨op, s.shared.index op.side, s.shared.claims op.side, none⟩
      .working).atWork = some ⟨op.side, s.shared.claims op.side, s.shared.index op.side⟩ := rfl
  exact desk_update rfl (working_claim hp' hq) (Function.update_eq_self op.side _).symm

lemma desk_finish (size : UInt32) {j : Job α} (hp : s.pc t = .busy j .working)
    (hunique : ∀ u y, (s.pc u).atWork = some y → y.side = j.op.side → y.number = j.ticket →
      u = t) :
    desk ⟨(work size j s.shared).1,
      Function.update s.pc t (.busy (work size j s.shared).2 .counting)⟩ =
      Function.update (desk s) j.op.side ((desk s j.op.side).finish j.ticket) := by
  have hj : (s.pc t).atWork = some j.toTicket := by
    rw [hp]
    rfl
  have hset := working_finish (p := .busy (work size j s.shared).2 .counting) hj rfl hunique
  refine desk_update ?_ hset ?_
  · rw [work_eq]
    exact (Function.update_eq_self j.op.side _).symm
  · rw [work_eq]
    exact (Function.update_eq_self j.op.side _).symm

end Steps

/-! ### The invariant -/

variable [Fintype T]

/-- The claims and those to come have the tokens of the constructor and of the posts. -/
def Tokens (size : UInt32) (s : Config T (Shared α) (Place α)) : Prop :=
  ∀ d, s.shared.slots d + tally (Place.claimingOf d) s.pc + s.shared.claims d =
    (initial size : Shared α).slots d + (s.shared.posted d.other).card

structure SlotInv (size : UInt32) (s : Config T (Shared α) (Place α)) : Prop where
  index : IndexInv size s
  slot : ∀ t x, (s.pc t).ticket = some x → x.index.toNat % size.toNat = x.number % size.toNat
  unique : ∀ t u x y, (s.pc t).ticket = some x → (s.pc u).ticket = some y → x.side = y.side →
    x.number = y.number → t = u
  fresh : ∀ t x, (s.pc t).ticket = some x →
    x.number < s.shared.claims x.side ∧ x.number ∉ s.shared.posted x.side
  tokens : Tokens size s
  handoff : Handoff size.toNat s.shared.data (desk s .push) (desk s .pop)

namespace SlotInv

variable {size : UInt32} {s s' : Config T (Shared α) (Place α)}

lemma start (size : UInt32) :
    SlotInv size (LockFree.start size : Config T (Shared α) (Place α)) := by
  refine ⟨indexInv_start size, ?_, ?_, ?_, ?_, ?_⟩
  · intro t x hx
    cases hx
  · intro t u x y hx
    cases hx
  · intro t x hx
    cases hx
  · intro d
    have hzero : tally (Place.claimingOf d) (LockFree.start size :
        Config T (Shared α) (Place α)).pc = 0 :=
      tally_eq_zero_iff.mpr fun _ => rfl
    rw [hzero]
    simp [LockFree.start, initial]
  · have hdesk : ∀ d, desk (LockFree.start size : Config T (Shared α) (Place α)) d =
        ⟨0, ∅, ∅⟩ := by
      intro d
      have hwork : working (LockFree.start size : Config T (Shared α) (Place α)).pc d = ∅ := by
        refine Set.eq_empty_iff_forall_notMem.mpr ?_
        rintro k ⟨t, x, hx, -⟩
        cases hx
      rw [desk, hwork]
      rfl
    rw [hdesk, hdesk]
    exact Handoff.empty size.toNat

lemma ordered (h : SlotInv size s) (d : Side) : (desk s d).Ordered := by
  cases d with
  | push => exact h.handoff.insOrdered
  | pop  => exact h.handoff.outsOrdered

lemma slot_eq (h : SlotInv size s) {t : T} {j : Job α} (hp : s.pc t = .busy j .working) :
    j.slot size = j.ticket % size.toNat := by
  rw [Job.slot, UInt32.toNat_mod]
  exact h.slot t j.toTicket (by rw [hp]; rfl)

lemma slotLaw (h : SlotInv size s) : SlotLaw size s := by
  constructor
  · intro t j hp hop
    rw [h.slot_eq hp]
    exact h.handoff.eq_none_of_ins (hop ▸ mem_working hp)
  · intro t j hp hop
    rw [h.slot_eq hp]
    exact h.handoff.isSome_of_outs (hop ▸ mem_working hp)
  · intro t u j k hp hq hslot
    rw [h.slot_eq hp, h.slot_eq hq] at hslot
    have hj := mem_working hp
    have hk := mem_working hq
    have hunique : j.op.side = k.op.side → j.ticket = k.ticket → t = u :=
      h.unique t u j.toTicket k.toTicket (by rw [hp]; rfl) (by rw [hq]; rfl)
    cases hside : j.op.side <;> cases hside' : k.op.side <;>
      simp only [hside, hside'] at hj hk hunique
    · exact hunique trivial (h.handoff.eq_of_mod_eq (h.handoff.held_of_ins hj)
        (h.handoff.held_of_ins hk) hslot)
    · exact absurd hslot (h.handoff.mod_ne hj hk)
    · exact absurd hslot.symm (h.handoff.mod_ne hk hj)
    · exact hunique trivial (h.handoff.eq_of_mod_eq (h.handoff.held_of_outs hj)
        (h.handoff.held_of_outs hk) hslot)

variable [DecidableEq T] {t : T} {p : Place α} {sh : Shared α}

lemma tokens_update (h : Tokens size s)
    (hmove : ∀ d, sh.slots d + p.claimingOf d + sh.claims d + (s.shared.posted d.other).card =
      s.shared.slots d + (s.pc t).claimingOf d + s.shared.claims d +
        (sh.posted d.other).card) :
    Tokens size ⟨sh, Function.update s.pc t p⟩ := by
  intro d
  have htally := tally_update (Place.claimingOf d) s.pc t p
  have hd := h d
  have hd' := hmove d
  simp only
  omega

/-- A step that leaves the tickets alone. -/
lemma move (h : SlotInv size s) (hindex : IndexInv size ⟨sh, Function.update s.pc t p⟩)
    (hticket : p.ticket = (s.pc t).ticket) (hclaims : sh.claims = s.shared.claims)
    (hposted : sh.posted = s.shared.posted)
    (hslots : ∀ d, sh.slots d + p.claimingOf d = s.shared.slots d + (s.pc t).claimingOf d)
    (hhandoff : Handoff size.toNat sh.data (desk ⟨sh, Function.update s.pc t p⟩ .push)
      (desk ⟨sh, Function.update s.pc t p⟩ .pop)) :
    SlotInv size ⟨sh, Function.update s.pc t p⟩ := by
  have heq := Code.apply_update hticket
  refine ⟨hindex, fun u => ?_, fun u v => ?_, fun u => ?_, tokens_update h.tokens fun d => ?_,
    hhandoff⟩
  · rw [heq u]
    exact h.slot u
  · rw [heq u, heq v]
    exact h.unique u v
  · rw [heq u, hclaims, hposted]
    exact h.fresh u
  · have hd := hslots d
    rw [hclaims, hposted]
    omega

/-- A step that leaves the slots alone, too. -/
lemma keep (h : SlotInv size s) (hindex : IndexInv size ⟨sh, Function.update s.pc t p⟩)
    (hticket : p.ticket = (s.pc t).ticket) (hwork : p.atWork = (s.pc t).atWork)
    (hsh : sh = { s.shared with slots := sh.slots, index := sh.index, count := sh.count })
    (hslots : ∀ d, sh.slots d + p.claimingOf d = s.shared.slots d + (s.pc t).claimingOf d) :
    SlotInv size ⟨sh, Function.update s.pc t p⟩ := by
  have hclaims : sh.claims = s.shared.claims := by rw [hsh]
  have hposted : sh.posted = s.shared.posted := by rw [hsh]
  have hdata : sh.data = s.shared.data := by rw [hsh]
  have hdesk : desk ⟨sh, Function.update s.pc t p⟩ = desk s := by
    funext d
    simp only [desk, hclaims, hposted, working_keep hwork]
  apply h.move hindex hticket hclaims hposted hslots
  rw [hdesk, hdata]
  exact h.handoff

/-- A token is turned into a ticket. -/
lemma claimed (h : SlotInv size s) {op : Op α} (hp : s.pc t = .claiming op)
    (hindex : IndexInv size ⟨claim op.side s.shared, Function.update s.pc t
      (.busy ⟨op, s.shared.index op.side, s.shared.claims op.side, none⟩ .working)⟩) :
    SlotInv size ⟨claim op.side s.shared, Function.update s.pc t
      (.busy ⟨op, s.shared.index op.side, s.shared.claims op.side, none⟩ .working)⟩ := by
  have hnew : ∀ u y, (s.pc u).ticket = some y → y.side = op.side →
      y.number < s.shared.claims op.side := fun u y hy hside => hside ▸ (h.fresh u y hy).1
  refine ⟨hindex, ?_, ?_, ?_, tokens_update h.tokens fun d => ?_, ?_⟩
  · intro u x hx
    rcases ticket_update.mp hx with ⟨-, hx⟩ | ⟨-, hx⟩
    · obtain rfl := Option.some.inj hx
      exact h.index.law op.side
    · exact h.slot u x hx
  · intro u v x y hx hy hside hnumber
    rcases ticket_update.mp hx with ⟨rfl, hx'⟩ | ⟨-, hx'⟩ <;>
      rcases ticket_update.mp hy with ⟨rfl, hy'⟩ | ⟨-, hy'⟩
    · rfl
    · obtain rfl := Option.some.inj hx'
      exact absurd hnumber (hnew v y hy' hside.symm).ne'
    · obtain rfl := Option.some.inj hy'
      exact absurd hnumber (hnew u x hx' hside).ne
    · exact h.unique u v x y hx' hy' hside hnumber
  · intro u x hx
    rcases ticket_update.mp hx with ⟨-, hx⟩ | ⟨-, hx⟩
    · obtain rfl := Option.some.inj hx
      refine ⟨by simp [claim, Job.toTicket], fun hposted => ?_⟩
      exact absurd ((h.ordered op.side).posted_lt _ hposted) (lt_irrefl _)
    · obtain ⟨hlt, hposted⟩ := h.fresh u x hx
      refine ⟨?_, hposted⟩
      by_cases hd : x.side = op.side
      · simp only [claim, hd, Function.update_self]
        exact Nat.lt_succ_of_lt (hnew u x hx hd)
      · simpa [claim, Function.update_of_ne hd] using hlt
  · by_cases hd : d = op.side
    · subst hd
      simp only [claim, hp, Place.claimingOf, Function.update_self, if_true]
      omega
    · simp [claim, hp, Place.claimingOf, Function.update_of_ne hd, Ne.symm hd]
  · rw [desk_claim hp]
    apply handoff_claim h.handoff op.side
    have htokens := h.tokens op.side
    have hone := le_tally (Place.claimingOf op.side) s.pc t
    rw [hp, Place.claimingOf, if_pos rfl] at hone
    simp only [desk]
    omega

/-- The work on a slot. -/
lemma finished (h : SlotInv size s) {j : Job α} (hp : s.pc t = .busy j .working)
    (hindex : IndexInv size ⟨(work size j s.shared).1,
      Function.update s.pc t (.busy (work size j s.shared).2 .counting)⟩) :
    SlotInv size ⟨(work size j s.shared).1,
      Function.update s.pc t (.busy (work size j s.shared).2 .counting)⟩ := by
  have hwork := work_eq size j s.shared
  have hticket : (work size j s.shared).2.toTicket = j.toTicket := by
    rw [work]
    cases hop : j.op <;> simp [Job.toTicket, hop]
  have hj : (s.pc t).atWork = some j.toTicket := by
    rw [hp]
    rfl
  have hdesk := desk_finish size hp fun u y hy hside hnumber =>
    h.unique u t y _ (ticket_of_atWork hy) (ticket_of_atWork hj) hside hnumber
  refine h.move hindex ?_ (by rw [hwork]) (by rw [hwork]) (fun d => by rw [hwork, hp]; rfl) ?_
  · rw [hp]
    exact congrArg some hticket
  · rw [hdesk, hwork, h.slot_eq hp]
    exact handoff_finish h.handoff (mem_working hp)

/-- A ticket is turned into a token of the other side. -/
lemma posted (h : SlotInv size s) {j : Job α} (hp : s.pc t = .busy j .posting)
    (horder : ∀ u, ∀ x ∈ (s.pc u).atWork, x.side = j.op.side → j.ticket < x.number)
    {r : Option (Result α)}
    (hindex : IndexInv size ⟨post j s.shared, Function.update s.pc t (.outside r)⟩) :
    SlotInv size ⟨post j s.shared, Function.update s.pc t (.outside r)⟩ := by
  have hj : (s.pc t).ticket = some j.toTicket := by
    rw [hp]
    rfl
  have hfresh := h.fresh t _ hj
  have hdesk : desk ⟨post j s.shared, Function.update s.pc t (.outside r)⟩ =
      Function.update (desk s) j.op.side ((desk s j.op.side).post j.ticket) := by
    refine desk_update (Function.update_eq_self j.op.side _).symm ?_ rfl
    rw [funext (working_keep (by rw [hp]; rfl))]
    exact (Function.update_eq_self j.op.side _).symm
  refine ⟨hindex, ?_, ?_, ?_, tokens_update h.tokens fun d => ?_, ?_⟩
  · intro u x hx
    rcases ticket_update.mp hx with ⟨-, hx⟩ | ⟨-, hx⟩
    · cases hx
    · exact h.slot u x hx
  · intro u v x y hx hy
    rcases ticket_update.mp hx with ⟨-, hx⟩ | ⟨-, hx⟩
    · cases hx
    · rcases ticket_update.mp hy with ⟨-, hy⟩ | ⟨-, hy⟩
      · cases hy
      · exact h.unique u v x y hx hy
  · intro u x hx
    rcases ticket_update.mp hx with ⟨-, hx⟩ | ⟨hu, hx⟩
    · cases hx
    · obtain ⟨hlt, hposted⟩ := h.fresh u x hx
      refine ⟨hlt, ?_⟩
      by_cases hd : x.side = j.op.side
      · simp only [post, hd, Function.update_self, Finset.mem_insert, not_or]
        exact ⟨fun hnumber => hu (h.unique u t x _ hx hj hd hnumber), hd ▸ hposted⟩
      · simpa [post, Function.update_of_ne hd] using hposted
  · have hcard : (insert j.ticket (s.shared.posted j.op.side)).card =
        (s.shared.posted j.op.side).card + 1 := Finset.card_insert_of_notMem hfresh.2
    rw [hp]
    by_cases hd : d.other = j.op.side
    · obtain rfl := Side.other_eq.mp hd
      simp only [post, Place.claimingOf, hd, Function.update_self, hcard]
      omega
    · have hd' : d ≠ j.op.side.other := fun heq => hd (Side.other_eq.mpr heq)
      simp [post, Place.claimingOf, Function.update_of_ne hd, Function.update_of_ne hd']
  · rw [hdesk]
    apply handoff_post h.handoff j.op.side hfresh.1
    rintro w ⟨u, x, hx, hside, rfl⟩
    exact horder u x hx hside

theorem step (h : SlotInv size s) {a : T × Move α} (hok : Orderly size s a)
    (hs : (code size).machine.step s a = some s') : SlotInv size s' := by
  have hindex := h.index.step hok.1 hs
  have horder := hok.2
  obtain ⟨t, m⟩ := a
  obtain ⟨sh, p, hstep, rfl⟩ := step_of_machine hs
  simp only at hstep hindex horder ⊢
  generalize hp : s.pc t = q at hstep horder
  cases hstep with
  | begin | giveUp | load | reduce | exchange | retry =>
    exact h.keep hindex (by rw [hp]; rfl) (by rw [hp]; rfl) rfl fun d => by rw [hp]; rfl
  | enter op hpos =>
    refine h.keep hindex (by rw [hp]; rfl) (by rw [hp]; rfl) rfl fun d => ?_
    rw [hp]
    by_cases hd : d = op.side
    · subst hd
      simp only [Function.update_self, Place.claimingOf, if_true]
      omega
    · simp [Function.update_of_ne hd, Place.claimingOf, Ne.symm hd]
  | claim op => exact h.claimed hp hindex
  | work j => exact h.finished hp hindex
  | count j =>
    refine h.keep hindex (by rw [hp]; rfl) (by rw [hp]; rfl) ?_ fun d => ?_
    · cases j.op.side <;> rfl
    · rw [hp]
      cases j.op.side <;> rfl
  | post j => exact h.posted hp horder hindex

end SlotInv

/-! ### The runs -/

variable [DecidableEq T]

/-- All along a run whose posts are in order and whose loads are whole rounds apart. -/
theorem slotLaw_of_runs {size : UInt32} {s : Config T (Shared α) (Place α)}
    (h : (code size).machine.Runs (Orderly size) (start size) s) : SlotLaw size s :=
  (h.invariant (I := SlotInv size) (SlotInv.start size)
    fun _ _ _ hu hok hs => hu.step hok hs).slotLaw

instance (pc : T → Place α) : (p : Place α) → (m : Move α) → Decidable (PostsInOrder pc p m)
  | .busy j .posting, .proceed => inferInstanceAs (Decidable
      (∀ u, ∀ x ∈ (pc u).atWork, x.side = j.op.side → j.ticket < x.number))
  | .busy _ .posting, .call _ | .busy _ .posting, .fail => .isTrue trivial
  | .busy _ .working, _ | .busy _ .counting, _ | .busy _ .loading, _ => .isTrue trivial
  | .busy _ (.reducing ..), _ | .busy _ (.exchanging ..), _ => .isTrue trivial
  | .outside _, _ | .entering _, _ | .claiming _, _ => .isTrue trivial

instance (size : UInt32) (s : Config T (Shared α) (Place α)) (a : T × Move α) :
    Decidable (Orderly size s a) :=
  inferInstanceAs (Decidable (_ ∧ _))

/-- In a queue of two slots, a push has posted, a second push and a pop are at work. -/
theorem slotLaw_of_runs_three : ∃ s : Config (Fin 3) (Shared ℕ) (Place ℕ),
    (code 2).machine.Runs (Orderly 2) (start 2) s ∧
      s.pc 1 = .busy ⟨.tryPush 8, 1, 1, none⟩ .working ∧
      s.pc 2 = .busy ⟨.pop, 0, 0, none⟩ .working ∧ SlotLaw 2 s := by
  have hrun : ((code 2).machine.runWhile (Orderly 2)
      (start 2 : Config (Fin 3) (Shared ℕ) (Place ℕ))
      [(0, .call (.push 7)), (0, .proceed), (0, .proceed), (0, .proceed), (0, .proceed),
        (0, .proceed), (0, .proceed), (0, .proceed), (1, .call (.tryPush 8)), (1, .proceed),
        (0, .proceed), (1, .proceed), (2, .call .pop), (2, .proceed), (2, .proceed)]).any
      (fun s => s.pc 1 == .busy ⟨.tryPush 8, 1, 1, none⟩ .working &&
        s.pc 2 == .busy ⟨.pop, 0, 0, none⟩ .working) = true := by
    decide +kernel
  obtain ⟨s, hs, hp⟩ := Machine.exists_runs_of_runWhile _ _ hrun
  simp only [Bool.and_eq_true, beq_iff_eq] at hp
  exact ⟨s, hs, hp.1, hp.2, slotLaw_of_runs hs⟩

/-- While the first of two pushes is at work on slot `0`, the second one posts. A pop then claims
slot `0`, which has no element, and both are at work on it. -/
theorem not_slotLaw_three : ∃ s : Config (Fin 3) (Shared ℕ) (Place ℕ),
    (code 2).machine.Reachable (start 2) s ∧
      s.pc 0 = .busy ⟨.push 7, 0, 0, none⟩ .working ∧
      s.pc 2 = .busy ⟨.pop, 0, 0, none⟩ .working ∧ s.shared.data 0 = none ∧
      ¬ SlotLaw 2 s := by
  obtain ⟨s, hs, hp⟩ := Machine.exists_reachable_of_run (M := (code 2).machine)
    (s := (start 2 : Config (Fin 3) (Shared ℕ) (Place ℕ)))
    [(0, .call (.push 7)), (0, .proceed), (0, .proceed), (1, .call (.push 8)), (1, .proceed),
      (1, .proceed), (1, .proceed), (1, .proceed), (1, .proceed), (1, .proceed), (1, .proceed),
      (1, .proceed), (2, .call .pop), (2, .proceed), (2, .proceed)]
    (fun s => s.pc 0 == .busy ⟨.push 7, 0, 0, none⟩ .working &&
      s.pc 2 == .busy ⟨.pop, 0, 0, none⟩ .working && s.shared.data 0 == none)
    (by decide +kernel)
  simp only [Bool.and_eq_true, beq_iff_eq, and_assoc] at hp
  obtain ⟨hpush, hpop, hdata⟩ := hp
  refine ⟨s, hs, hpush, hpop, hdata, fun hlaw => ?_⟩
  have hsome := hlaw.pop 2 _ hpop rfl
  have hslot : Job.slot 2 (⟨.pop, 0, 0, none⟩ : Job ℕ) = 0 := by decide
  rw [hslot, hdata] at hsome
  cases hsome

end LockFree

end Queue

end Sync
