import SyncLib.Queue.Tickets

/-!
# One producer and one consumer

Where the operations of each side of a `lock_free_queue` take turns, nobody else moves the index
that an operation has loaded. All steps are then orderly, and the queue is a bounded FIFO queue.
-/

namespace Sync

namespace Queue

open Core

namespace LockFree

variable {α T : Type*} {size : UInt32}

/-! ### Turns -/

/-- The side of the operation that a thread is in. -/
def Place.side : Place α → Option Side
  | .outside _                 => none
  | .entering op | .claiming op => some op.side
  | .busy j _                  => some j.op.side

/-- An operation begins when there is no other one at its side. -/
def TakesTurns (s : Config T (Shared α) (Place α)) (a : T × Move α) : Prop :=
  match a.2 with
  | .call op => ∀ u, (s.pc u).side ≠ some op.side
  | _        => True

/-- Nothing has moved since the loads of an operation. -/
def Place.Fresh (s : Shared α) : Place α → Prop
  | .busy j (.reducing expected seen)        =>
    s.index j.op.side = expected ∧ s.claims j.op.side = seen
  | .busy j (.exchanging expected _ between) => s.index j.op.side = expected ∧ between = 0
  | _                                        => True

lemma Place.side_of_loops {d : Side} {p : Place α} (h : p.Loops d) : p.side = some d := by
  cases p with
  | outside | entering | claiming => exact h.elim
  | busy j ph =>
    cases ph with
    | posting => exact h.elim
    | working | counting | loading | reducing | exchanging => exact congrArg some h

lemma Place.fresh_congr {s s' : Shared α} {p : Place α} (h : p.Fresh s)
    (hindex : ∀ d, p.side = some d → s'.index d = s.index d)
    (hclaims : ∀ d, p.side = some d → s'.claims d = s.claims d) : p.Fresh s' := by
  cases p with
  | outside | entering | claiming => trivial
  | busy j ph =>
    cases ph with
    | working | counting | loading | posting => trivial
    | reducing =>
      rw [Place.Fresh, hindex _ rfl, hclaims _ rfl]
      exact h
    | exchanging =>
      rw [Place.Fresh, hindex _ rfl]
      exact h

/-- At most one operation at each side, which alone moves the index. -/
structure Single (s : Config T (Shared α) (Place α)) : Prop where
  one : ∀ t u d, (s.pc t).side = some d → (s.pc u).side = some d → t = u
  fresh : ∀ t, (s.pc t).Fresh s.shared

namespace Single

variable {s s' : Config T (Shared α) (Place α)}

lemma start (size : UInt32) : Single (LockFree.start size : Config T (Shared α) (Place α)) :=
  ⟨fun t u d ht => (by cases ht), fun t => trivial⟩

/-- The next step is orderly. -/
lemma orderly [Fintype T] (h : Single s) (hs : Sound size s) (a : T × Move α) :
    Orderly size s a := by
  obtain ⟨t, m⟩ := a
  constructor
  · cases hp : s.pc t with
    | outside | entering => cases m <;> trivial
    | claiming op =>
      cases m with
      | call | fail => trivial
      | proceed =>
        intro hwrap
        rcases hs.index op.side with hlt | ⟨u, hu⟩
        · rw [UInt32.lt_iff_toNat_lt] at hlt
          have hsize := size.toNat_lt
          omega
        · -- nobody else is at this side
          obtain rfl := h.one t u op.side (by rw [hp]; rfl) (Place.side_of_loops hu)
          rw [hp] at hu
          exact hu.elim
    | busy j ph =>
      cases ph with
      | working | counting | loading | reducing | posting => cases m <;> trivial
      | exchanging expected desired between =>
        cases m with
        | call | fail => trivial
        | proceed =>
          intro _
          have hfresh := h.fresh t
          rw [hp] at hfresh
          rw [hfresh.2]
          exact dvd_zero _
  · cases hp : s.pc t with
    | outside | entering | claiming => cases m <;> trivial
    | busy j ph =>
      cases ph with
      | working | counting | loading | reducing | exchanging => cases m <;> trivial
      | posting =>
        cases m with
        | call | fail => trivial
        | proceed =>
          intro u x hx hside
          obtain ⟨i, hq, rfl⟩ := exists_of_atWork hx
          obtain rfl := h.one t u j.op.side (by rw [hp]; rfl)
            (by rw [hq]; exact congrArg some hside)
          rw [hp] at hq
          cases hq

variable [DecidableEq T]

lemma move (h : Single s) {t : T} {p : Place α} {sh : Shared α}
    (hside : ∀ d, p.side = some d → ∀ u, u ≠ t → (s.pc u).side ≠ some d)
    (hfresh : p.Fresh sh)
    (hindex : ∀ d, (s.pc t).side ≠ some d → sh.index d = s.shared.index d)
    (hclaims : ∀ d, (s.pc t).side ≠ some d → sh.claims d = s.shared.claims d) :
    Single ⟨sh, Function.update s.pc t p⟩ := by
  constructor
  · intro u v d hu hv
    simp only at hu hv
    by_cases hut : u = t <;> by_cases hvt : v = t
    · rw [hut, hvt]
    · rw [hut, Function.update_self] at hu
      rw [Function.update_of_ne hvt] at hv
      exact absurd hv (hside d hu v hvt)
    · rw [hvt, Function.update_self] at hv
      rw [Function.update_of_ne hut] at hu
      exact absurd hu (hside d hv u hut)
    · rw [Function.update_of_ne hut] at hu
      rw [Function.update_of_ne hvt] at hv
      exact h.one u v d hu hv
  · refine Code.forall_update (P := fun _ q => Place.Fresh sh q) hfresh fun u hu => ?_
    have hother : ∀ d, (s.pc u).side = some d → (s.pc t).side ≠ some d :=
      fun d hd ht => hu (h.one u t d hd ht)
    exact Place.fresh_congr (h.fresh u) (fun d hd => hindex d (hother d hd))
      fun d hd => hclaims d (hother d hd)

theorem step (h : Single s) {a : T × Move α} (hok : TakesTurns s a)
    (hs : (code size).machine.step s a = some s') : Single s' := by
  obtain ⟨t, m⟩ := a
  obtain ⟨sh, p, hstep, rfl⟩ := step_of_machine hs
  have hothers : ∀ d, (s.pc t).side = some d → ∀ u, u ≠ t → (s.pc u).side ≠ some d :=
    fun d ht u hu hd => hu (h.one u t d hd ht)
  have hfresh := h.fresh t
  simp only at hstep ⊢
  generalize hp : s.pc t = q at hstep hothers hfresh
  cases hstep with
  | begin r op =>
    refine h.move (fun d hd u _ => ?_) trivial (fun _ _ => rfl) fun _ _ => rfl
    rw [← hd]
    exact hok u
  | giveUp op r =>
    exact h.move (fun d hd => by cases hd) trivial (fun _ _ => rfl) fun _ _ => rfl
  | post j => exact h.move (fun d hd => by cases hd) trivial (fun _ _ => rfl) fun _ _ => rfl
  | enter op => exact h.move hothers trivial (fun _ _ => rfl) fun _ _ => rfl
  | retry => exact h.move hothers trivial (fun _ _ => rfl) fun _ _ => rfl
  | load j => exact h.move hothers ⟨rfl, rfl⟩ (fun _ _ => rfl) fun _ _ => rfl
  | reduce j expected seen =>
    obtain ⟨hindex, hclaims⟩ := hfresh
    refine h.move hothers ⟨hindex, ?_⟩ (fun _ _ => rfl) fun _ _ => rfl
    rw [hclaims, Nat.sub_self]
  | claim op =>
    have hside : ∀ d, (s.pc t).side ≠ some d → d ≠ op.side := by
      rw [hp]
      exact fun d hd heq => hd (congrArg some heq.symm)
    exact h.move hothers trivial (fun d hd => Function.update_of_ne (hside d hd) ..)
      fun d hd => Function.update_of_ne (hside d hd) ..
  | exchange j expected desired between heq =>
    refine h.move hothers trivial (fun d hd => Function.update_of_ne ?_ ..) fun _ _ => rfl
    rw [hp] at hd
    exact fun heq => hd (congrArg some heq.symm)
  | work j =>
    refine h.move (fun d hd => hothers d ?_) trivial (fun d _ => by rw [work_eq])
      fun d _ => by rw [work_eq]
    rw [Place.side, work_op] at hd
    exact hd
  | count j =>
    exact h.move hothers trivial (fun d _ => by cases j.op.side <;> rfl)
      fun d _ => by cases j.op.side <;> rfl

end Single

/-! ### The law -/

/-- What holds of a queue whose operations take turns at each side. -/
structure SingleLaw (size : UInt32) (r : Record α T) : Prop extends ElementLaw size r where
  /-- Who constructs or reads an element has a slot of its own, in the right state. -/
  slot : SlotLaw size r.config
  index : IndexLaw size r.config.shared
  /-- A compare-exchange does not fail, unless without a reason. -/
  exchange : ∀ t j expected desired between,
    r.config.pc t = .busy j (.exchanging expected desired between) →
    r.config.shared.index j.op.side = expected

variable [Fintype T] [DecidableEq T]

/-- In every run in which the operations of each side take turns, as with one producer and one
consumer. -/
theorem single_law (hsize : size ≠ 0) {r : Record α T}
    (h : (recorded size).Runs (fun r a => TakesTurns r.config a) (Record.start size) r) :
    SingleLaw size r := by
  have hinv : TicketInv size r ∧ Single r.config := by
    refine h.invariant (I := fun u => TicketInv size u ∧ Single u.config)
      ⟨TicketInv.start hsize, Single.start size⟩ ?_
    rintro u a u' ⟨hu, hsingle⟩ hok hs
    refine ⟨hu.step hsize (hsingle.orderly hu.sound a) hs, ?_⟩
    obtain ⟨c, hc, rfl⟩ := Option.map_eq_some_iff.mp hs
    exact hsingle.step hok hc
  refine ⟨hinv.1.elementLaw, hinv.1.slots.slotLaw, hinv.1.slots.index.law,
    fun t j _ _ _ hp => ?_⟩
  have hfresh := hinv.2.fresh t
  rw [hp] at hfresh
  exact hfresh.1

instance (s : Config T (Shared α) (Place α)) (a : T × Move α) : Decidable (TakesTurns s a) := by
  unfold TakesTurns
  split <;> infer_instance

/-- In a queue of one slot, the consumer has read the first element and the producer waits. -/
theorem single_law_two : ∃ r : Record ℕ (Fin 2),
    (recorded 1).Runs (fun r a => TakesTurns r.config a) (Record.start 1) r ∧
      r.config.pc 0 = .entering (.push 8) ∧
      r.config.pc 1 = .busy ⟨.pop, 0, 0, some 7⟩ .counting ∧ SingleLaw 1 r := by
  have hrun : ((recorded 1).runWhile (fun r a => TakesTurns r.config a)
      (Record.start 1 : Record ℕ (Fin 2))
      [(0, .call (.push 7)), (1, .call .pop), (0, .proceed), (0, .proceed), (0, .proceed),
        (0, .proceed), (0, .proceed), (0, .proceed), (0, .proceed), (0, .proceed), (1, .proceed),
        (0, .call (.push 8)), (1, .proceed), (1, .proceed)]).any
      (fun r => r.config.pc 0 == .entering (.push 8) &&
        r.config.pc 1 == .busy ⟨.pop, 0, 0, some 7⟩ .counting) = true := by
    decide +kernel
  obtain ⟨r, hr, hp⟩ := Machine.exists_runs_of_runWhile _ _ hrun
  simp only [Bool.and_eq_true, beq_iff_eq] at hp
  exact ⟨r, hr, hp.1, hp.2, single_law (by decide) hr⟩

end LockFree

end Queue

end Sync
