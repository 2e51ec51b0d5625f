import SyncLib.Queue.Sequential
import SyncLib.Queue.Slots

/-!
# What the races of `lock_free_queue` leave alone

An index may lose its slot and a slot may be taken twice, but no token is lost, `count_` tells the
tokens, the indices come back into the range of the slots, and the loops of compare-exchanges are
lock-free: one fails without reason, or because another thread got on.
-/

namespace Sync

namespace Queue

open Core

/-- Neither a call nor a failure. -/
def Move.proceeds {α : Type*} : Move α → Bool
  | .proceed => true
  | _        => false

lemma Side.eq_other_of_ne {d e : Side} (h : d ≠ e) : d = e.other := by
  cases d <;> cases e <;> first | rfl | exact absurd rfl h

namespace LockFree

variable {α T : Type*} {size : UInt32}

/-! ### Places -/

namespace Place

/-- The operation has taken a token and not posted one. -/
def inFlight : Place α → ℕ
  | .claiming _ | .busy _ _ => 1
  | _                       => 0

/-- The operation counts in `count_` and not in `full_slots_`: a push that has counted and not
posted, or a pop that has its token and has not counted. -/
def counted : Place α → ℕ
  | .claiming op => if op.side = .pop then 1 else 0
  | .busy j ph   =>
    match ph with
    | .working | .counting => if j.op.side = .pop then 1 else 0
    | _                    => if j.op.side = .push then 1 else 0
  | _            => 0

/-- The operation has moved an index and not brought it back yet. -/
def Loops (d : Side) : Place α → Prop
  | .busy _ .posting => False
  | .busy j _        => j.op.side = d
  | _                => False

/-- The index that a compare-exchange is about to write. -/
def desired : Place α → Option UInt32
  | .busy _ (.exchanging _ desired _) => some desired
  | _                                 => none

lemma inFlight_of_loops {d : Side} {p : Place α} (h : p.Loops d) : p.inFlight = 1 := by
  cases p with
  | outside | entering | claiming => exact h.elim
  | busy => rfl

lemma counted_le_inFlight (p : Place α) : p.counted ≤ p.inFlight := by
  cases p with
  | outside | entering => exact le_rfl
  | claiming op =>
    simp only [counted, inFlight]
    split_ifs <;> omega
  | busy j ph =>
    simp only [counted, inFlight]
    cases ph <;> simp only <;> split_ifs <;> omega

end Place

/-- Outside of the methods, or in front of a semaphore without tokens. -/
def Rests (s : Shared α) : Place α → Prop
  | .outside _   => True
  | .entering op => s.slots op.side = 0
  | _            => False

/-- Only a thread at rest cannot go on. -/
lemma next_eq_none_iff {s : Shared α} {p : Place α} :
    next size s p .proceed = none ↔ Rests s p := by
  cases p with
  | outside r => exact iff_of_true rfl trivial
  | entering op => simp [next, Rests]
  | claiming op => exact iff_of_false (Option.some_ne_none _) id
  | busy j ph => cases ph <;> exact iff_of_false (Option.some_ne_none _) id

/-! ### Tokens, the count and the indices -/

lemma add_of_take {f : Side → ℕ} {d : Side} (h : 0 < f d) :
    Function.update f d (f d - 1) .push + Function.update f d (f d - 1) .pop + 1 =
      f .push + f .pop := by
  cases d with
  | push =>
    rw [Function.update_self, Function.update_of_ne (by decide)]
    omega
  | pop =>
    rw [Function.update_self, Function.update_of_ne (by decide)]
    omega

lemma pop_of_take {f : Side → ℕ} {d : Side} (h : 0 < f d) :
    Function.update f d (f d - 1) .pop + (if d = .pop then 1 else 0) = f .pop := by
  cases d with
  | push =>
    rw [Function.update_of_ne (by decide)]
    rfl
  | pop =>
    rw [Function.update_self, if_pos rfl]
    omega

lemma add_of_give (f : Side → ℕ) (d : Side) :
    Function.update f d.other (f d.other + 1) .push +
      Function.update f d.other (f d.other + 1) .pop = f .push + f .pop + 1 := by
  cases d with
  | push =>
    rw [Side.other, Function.update_self, Function.update_of_ne (by decide), Nat.add_assoc]
  | pop =>
    rw [Side.other, Function.update_self, Function.update_of_ne (by decide)]
    omega

lemma pop_of_give (f : Side → ℕ) (d : Side) :
    Function.update f d.other (f d.other + 1) .pop =
      f .pop + (if d = .push then 1 else 0) := by
  cases d with
  | push => exact Function.update_self ..
  | pop => exact Function.update_of_ne (by decide) ..

variable [Fintype T]

/-- What holds of the members whatever the threads do to each other's slots. -/
structure Sound (size : UInt32) (s : Config T (Shared α) (Place α)) : Prop where
  slots : s.shared.slots .push + s.shared.slots .pop + tally Place.inFlight s.pc = size.toNat
  count : s.shared.count.toNat = s.shared.slots .pop + tally Place.counted s.pc
  desired : ∀ t, ∀ i ∈ (s.pc t).desired, i < size
  index : ∀ d, s.shared.index d < size ∨ ∃ t, (s.pc t).Loops d

namespace Sound

variable {s s' : Config T (Shared α) (Place α)}

lemma start (hsize : size ≠ 0) :
    Sound size (LockFree.start size : Config T (Shared α) (Place α)) := by
  have hzero : ∀ w : Place α → ℕ, w (.outside none) = 0 →
      tally w (LockFree.start size : Config T (Shared α) (Place α)).pc = 0 :=
    fun w hw => tally_eq_zero_iff.mpr fun _ => hw
  refine ⟨?_, ?_, fun t i h => (by cases h), fun d => .inl ?_⟩
  · rw [hzero _ rfl]
    rfl
  · rw [hzero _ rfl]
    rfl
  · exact UInt32.pos_iff_ne_zero.mpr hsize

lemma count_add_le (h : Sound size s) :
    s.shared.count.toNat + s.shared.slots .push ≤ size.toNat := by
  have hle := tally_le_tally (f := s.pc) fun t => (s.pc t).counted_le_inFlight
  have hslots := h.slots
  have hcount := h.count
  omega

lemma rest (h : Sound size s) (hrest : ∀ t, (s.pc t).inFlight = 0) :
    s.shared.count.toNat = s.shared.slots .pop ∧ ∀ d, s.shared.index d < size := by
  constructor
  · have hcounted : tally Place.counted s.pc = 0 :=
      tally_eq_zero_iff.mpr fun t => Nat.le_zero.mp (hrest t ▸ (s.pc t).counted_le_inFlight)
    rw [h.count, hcounted, Nat.add_zero]
  · intro d
    rcases h.index d with hlt | ⟨t, ht⟩
    · exact hlt
    · exact absurd (hrest t) (by rw [Place.inFlight_of_loops ht]; exact one_ne_zero)

variable [DecidableEq T] {t : T} {p : Place α} {sh : Shared α}

/-- A step, by what it does to the tokens, to `count_` and to the indices. -/
lemma move (h : Sound size s)
    (hslots : sh.slots .push + sh.slots .pop + p.inFlight =
      s.shared.slots .push + s.shared.slots .pop + (s.pc t).inFlight)
    (hcount : sh.count.toNat + s.shared.slots .pop + (s.pc t).counted =
      s.shared.count.toNat + sh.slots .pop + p.counted)
    (hdesired : ∀ i ∈ p.desired, i < size)
    (hindex : ∀ d, sh.index d < size ∨ p.Loops d ∨
      sh.index d = s.shared.index d ∧ ¬ (s.pc t).Loops d) :
    Sound size ⟨sh, Function.update s.pc t p⟩ := by
  have hflight := tally_update Place.inFlight s.pc t p
  have hcounted := tally_update Place.counted s.pc t p
  have hslots' := h.slots
  have hcount' := h.count
  refine ⟨?_, ?_, ?_, fun d => ?_⟩
  · simp only
    omega
  · simp only
    omega
  · exact Code.forall_update (P := fun _ q => ∀ i ∈ Place.desired q, i < size) hdesired
      fun u _ => h.desired u
  · rcases hindex d with hlt | hp | ⟨heq, hp⟩
    · exact .inl hlt
    · exact .inr (Code.exists_update_self s.pc t hp)
    · simp only [heq]
      exact (h.index d).imp_right (Code.exists_update p hp)

/-- A step that leaves the members alone. -/
lemma keep (h : Sound size s) (hflight : p.inFlight = (s.pc t).inFlight)
    (hcounted : p.counted = (s.pc t).counted) (hdesired : ∀ i ∈ p.desired, i < size)
    (hloops : ∀ d, (s.pc t).Loops d → p.Loops d) :
    Sound size ⟨s.shared, Function.update s.pc t p⟩ := by
  refine h.move (by rw [hflight]) (by rw [hcounted]) hdesired fun d => ?_
  by_cases hp : (s.pc t).Loops d
  · exact .inr (.inl (hloops d hp))
  · exact .inr (.inr ⟨rfl, hp⟩)

/-- `count_.fetch_add` or `count_.fetch_sub` does not wrap. -/
lemma recounted (h : Sound size s) {j : Job α} (hp : s.pc t = .busy j .counting) :
    Sound size ⟨recount j.op.side s.shared, Function.update s.pc t (.busy j .loading)⟩ := by
  have hslots := h.slots
  have hcount := h.count
  have hsize := size.toNat_lt
  -- the thread itself is what `count_` has still room for, or what it still counts
  have hflight := tally_update Place.inFlight s.pc t (.busy j .loading)
  have hcounted := tally_update Place.counted s.pc t (.busy j .loading)
  have hle := tally_le_tally (f := Function.update s.pc t (.busy j .loading))
    fun u => (Function.update s.pc t (.busy j .loading) u).counted_le_inFlight
  rw [hp] at hflight hcounted
  have hindex : ∀ d, (recount j.op.side s.shared).index d < size ∨
      (Place.busy j .loading).Loops d ∨
      (recount j.op.side s.shared).index d = s.shared.index d ∧ ¬ (s.pc t).Loops d := by
    intro d
    rw [hp]
    by_cases hd : j.op.side = d
    · exact .inr (.inl hd)
    · refine .inr (.inr ⟨?_, hd⟩)
      cases j.op.side <;> rfl
  refine h.move ?_ ?_ (fun i hi => by cases hi) hindex
  · rw [hp]
    cases j.op.side <;> rfl
  · rw [hp]
    cases hside : j.op.side with
    | push =>
      simp only [Place.inFlight, Place.counted, hside, recount] at hflight hcounted ⊢
      simp only [reduceCtorEq, if_true, if_false] at hcounted ⊢
      rw [UInt32.toNat_add, UInt32.toNat_one, Nat.mod_eq_of_lt (by omega)]
      omega
    | pop =>
      simp only [Place.inFlight, Place.counted, hside, recount] at hflight hcounted ⊢
      simp only [reduceCtorEq, if_true, if_false] at hcounted ⊢
      have hone := le_tally Place.counted s.pc t
      simp only [hp, Place.counted, hside, if_true] at hone
      rw [toNat_pred (by omega)]
      omega

theorem step (hsize : size ≠ 0) (h : Sound size s) {a : T × Move α}
    (hs : (code size).machine.step s a = some s') : Sound size s' := by
  obtain ⟨t, m⟩ := a
  obtain ⟨sh, p, hstep, rfl⟩ := step_of_machine hs
  simp only at hstep ⊢
  generalize hp : s.pc t = q at hstep
  cases hstep with
  | begin | giveUp | load | retry =>
    refine h.keep (by rw [hp]; rfl) (by rw [hp]; rfl) (fun i hi => by cases hi) fun d hd => ?_
    rw [hp] at hd
    exact hd
  | reduce j expected seen =>
    refine h.keep (by rw [hp]; rfl) (by rw [hp]; rfl) ?_ fun d hd => ?_
    · rintro i ⟨⟩
      exact UInt32.mod_lt _ (UInt32.pos_iff_ne_zero.mpr hsize)
    · rw [hp] at hd
      exact hd
  | enter op hpos =>
    have hadd := add_of_take hpos
    have hpop := pop_of_take hpos
    refine h.move ?_ ?_ (fun i hi => by cases hi) fun d => .inr (.inr ⟨rfl, by rw [hp]; exact id⟩)
    · rw [hp]
      exact hadd
    · rw [hp]
      simp only [Place.counted]
      omega
  | claim op =>
    refine h.move ?_ ?_ (fun i hi => by cases hi) fun d => ?_
    · rw [hp]
      rfl
    · rw [hp]
      rfl
    · by_cases hd : op.side = d
      · exact .inr (.inl hd)
      · refine .inr (.inr ⟨Function.update_of_ne (Ne.symm hd) _ _, ?_⟩)
        rw [hp]
        exact id
  | work j =>
    have hwork := work_eq size j s.shared
    have hop := work_op size j s.shared
    refine h.move ?_ ?_ (fun i hi => by cases hi) fun d => ?_
    · rw [hp, hwork]
      rfl
    · rw [hp, hwork]
      simp only [Place.counted, hop]
    · rw [hp, hwork]
      by_cases hd : j.op.side = d
      · exact .inr (.inl (by simpa only [Place.Loops, hop] using hd))
      · exact .inr (.inr ⟨rfl, hd⟩)
  | count j => exact h.recounted hp
  | exchange j expected desired between heq =>
    refine h.move ?_ ?_ (fun i hi => by cases hi) fun d => ?_
    · rw [hp]
      rfl
    · rw [hp]
      rfl
    · by_cases hd : j.op.side = d
      · left
        subst hd
        simp only [Function.update_self]
        exact h.desired t desired (by rw [hp]; rfl)
      · refine .inr (.inr ⟨Function.update_of_ne (Ne.symm hd) _ _, ?_⟩)
        rw [hp]
        exact hd
  | post j =>
    have hadd := add_of_give s.shared.slots j.op.side
    have hpop := pop_of_give s.shared.slots j.op.side
    refine h.move ?_ ?_ (fun i hi => by cases hi) fun d => .inr (.inr ⟨rfl, by rw [hp]; exact id⟩)
    · rw [hp]
      exact hadd
    · rw [hp]
      simp only [post, Place.counted]
      omega

end Sound

/-! ### The steps -/

/-- What a place may still cost, apart from failures: a thread moves an index twice at most, and
each time sends every other thread back by one round of its loop. -/
def rank (n : ℕ) (s : Shared α) : Place α → ℕ
  | .outside _  => 0
  | .entering _ => 6 * n + 8
  | .claiming _ => 6 * n + 7
  | .busy j ph  =>
    match ph with
    | .working                 => 3 * n + 6
    | .counting                => 3 * n + 5
    | .loading                 => 3 * n + 4
    | .reducing expected _     => 3 * n + if s.index j.op.side = expected then 3 else 6
    | .exchanging expected _ _ => 3 * n + if s.index j.op.side = expected then 2 else 5
    | .posting                 => 1

lemma rank_congr {n : ℕ} {s s' : Shared α} (h : s'.index = s.index) (p : Place α) :
    rank n s' p = rank n s p := by
  cases p with
  | busy j ph => cases ph <;> simp only [rank, h]
  | outside | entering | claiming => rfl

/-- Whoever moves an index sends a thread back by one round. -/
lemma rank_le_add (n : ℕ) (s s' : Shared α) (p : Place α) : rank n s' p ≤ rank n s p + 3 := by
  cases p with
  | busy j ph =>
    cases ph with
    | reducing | exchanging =>
      simp only [rank]
      split_ifs <;> omega
    | working | counting | loading | posting => exact Nat.le_add_right _ _
  | outside | entering | claiming => exact Nat.le_add_right _ _

/-- The steps that all threads together can still take. -/
def potential (s : Config T (Shared α) (Place α)) : ℕ :=
  tally (rank (Fintype.card T) s.shared) s.pc

section Potential

variable [DecidableEq T] {s s' : Config T (Shared α) (Place α)} {t : T} {sh : Shared α}
  {p : Place α}

lemma potential_keep (h : sh.index = s.shared.index) :
    potential ⟨sh, Function.update s.pc t p⟩ + rank (Fintype.card T) s.shared (s.pc t) =
      potential s + rank (Fintype.card T) s.shared p := by
  rw [potential, funext (rank_congr h)]
  exact tally_update _ s.pc t p

lemma potential_lt_of_keep (h : sh.index = s.shared.index)
    (hlt : rank (Fintype.card T) s.shared p < rank (Fintype.card T) s.shared (s.pc t)) :
    potential ⟨sh, Function.update s.pc t p⟩ < potential s := by
  have hkeep := potential_keep (s := s) (t := t) (p := p) h
  omega

lemma potential_le_of_keep {gain : ℕ}
    (hle : rank (Fintype.card T) s.shared p ≤ rank (Fintype.card T) s.shared (s.pc t) + gain) :
    potential ⟨s.shared, Function.update s.pc t p⟩ ≤ potential s + gain := by
  have hkeep := potential_keep (s := s) (t := t) (p := p) rfl
  omega

/-- A thread that moves an index pays for all others. -/
lemma potential_lt_of_move (hlt : rank (Fintype.card T) sh p + 3 * Fintype.card T <
      rank (Fintype.card T) sh (s.pc t)) :
    potential ⟨sh, Function.update s.pc t p⟩ < potential s := by
  have hupdate := tally_update (rank (Fintype.card T) sh) s.pc t p
  have hle : tally (rank (Fintype.card T) sh) s.pc ≤
      tally (fun q => rank (Fintype.card T) s.shared q + 3) s.pc :=
    tally_le_tally fun u => rank_le_add (Fintype.card T) s.shared sh (s.pc u)
  have hthree : tally (fun _ : Place α => 3) s.pc ≤ Fintype.card T * 3 :=
    tally_le_card_mul fun _ => le_rfl
  rw [tally_add] at hle
  simp only [potential]
  omega

/-- A step brings the potential down, unless it is a call or a failure. -/
lemma potential_lt {a : T × Move α} (hm : a.2.proceeds = true)
    (hs : (code size).machine.step s a = some s') : potential s' < potential s := by
  obtain ⟨t, m⟩ := a
  obtain ⟨sh, p, hstep, rfl⟩ := step_of_machine hs
  simp only at hm hstep ⊢
  generalize hp : s.pc t = q at hstep
  cases hstep with
  | begin | giveUp => cases hm
  | enter op hpos =>
    refine potential_lt_of_keep rfl ?_
    rw [hp]
    exact Nat.lt_succ_self _
  | claim op =>
    refine potential_lt_of_move ?_
    rw [hp]
    simp only [rank]
    omega
  | work j =>
    refine potential_lt_of_keep (by rw [work_eq]) ?_
    rw [hp]
    exact Nat.lt_succ_self _
  | count j =>
    refine potential_lt_of_keep (by cases j.op.side <;> rfl) ?_
    rw [hp]
    exact Nat.lt_succ_self _
  | load j =>
    refine potential_lt_of_keep rfl ?_
    rw [hp]
    simp only [rank, if_true]
    omega
  | reduce j expected seen =>
    refine potential_lt_of_keep rfl ?_
    rw [hp]
    simp only [rank]
    split_ifs <;> omega
  | exchange j expected desired between heq =>
    refine potential_lt_of_move ?_
    rw [hp]
    simp only [rank]
    split_ifs <;> omega
  | retry j expected desired between m hne =>
    refine potential_lt_of_keep rfl ?_
    have hproceed : m = .proceed := by
      cases m with
      | proceed => rfl
      | call | fail => cases hm
    rw [hp]
    simp only [rank, if_neg (hne hproceed)]
    omega
  | post j =>
    refine potential_lt_of_keep rfl ?_
    rw [hp]
    exact Nat.zero_lt_one

/-- A call raises it by what the call costs, and a failure by less. -/
lemma potential_le {a : T × Move α} (hm : a.2.proceeds = false)
    (hs : (code size).machine.step s a = some s') :
    potential s' ≤ potential s + (6 * Fintype.card T + 8) := by
  obtain ⟨t, m⟩ := a
  obtain ⟨sh, p, hstep, rfl⟩ := step_of_machine hs
  simp only at hm hstep ⊢
  generalize hp : s.pc t = q at hstep
  cases hstep with
  | begin r op =>
    refine potential_le_of_keep ?_
    rw [hp]
    simp only [rank]
    omega
  | giveUp op r => exact potential_le_of_keep (Nat.zero_le _)
  | retry j expected desired between m hne =>
    refine potential_le_of_keep ?_
    rw [hp]
    simp only [rank]
    split_ifs <;> omega
  | enter | claim | work | count | load | reduce | exchange | post => cases hm

end Potential

/-! ### The law -/

/-- What holds after every run, whichever slots the threads have taken from each other. -/
structure LockFreeLaw [DecidableEq T] (size : UInt32) (as : List (T × Move α))
    (s : Config T (Shared α) (Place α)) : Prop where
  /-- No token is lost, and no more operations are under way than there are slots. -/
  slots : s.shared.slots .push + s.shared.slots .pop + tally Place.inFlight s.pc = size.toNat
  /-- `count_` does not wrap. -/
  count : s.shared.count.toNat = s.shared.slots .pop + tally Place.counted s.pc
  count_le : s.shared.count ≤ size
  /-- A pop that would not wait does not find the queue empty, and a push not full. -/
  empty : s.shared.empty = true → s.shared.slots .pop = 0
  full : s.shared.full size = true → s.shared.slots .push = 0
  /-- Between the operations `size()` is right, and the indices are in range. -/
  rest : (∀ t, (s.pc t).inFlight = 0) →
    s.shared.count.toNat = s.shared.slots .pop ∧ ∀ d, s.shared.index d < size
  /-- Threads that cannot go on wait at one side, and the other side has all tokens. -/
  blocked : (∀ t, (code size).machine.step s (t, .proceed) = none) →
    ∃ d, ∀ t, (∃ r, s.pc t = .outside r) ∨ ∃ op, s.pc t = .entering op ∧ op.side = d ∧
      s.shared.slots d = 0 ∧ s.shared.slots d.other = size.toNat
  /-- Calls, and failures without reason, pay for all other steps. -/
  steps : as.countP (fun a => a.2.proceeds) ≤
    (6 * Fintype.card T + 8) * as.countP fun a => !a.2.proceeds

section

variable [DecidableEq T] {s : Config T (Shared α) (Place α)}

lemma Sound.blocked (hsize : size ≠ 0) (h : Sound size s)
    (hblocked : ∀ t, (code size).machine.step s (t, .proceed) = none) :
    ∃ d, ∀ t, (∃ r, s.pc t = .outside r) ∨ ∃ op, s.pc t = .entering op ∧ op.side = d ∧
      s.shared.slots d = 0 ∧ s.shared.slots d.other = size.toNat := by
  have hrests : ∀ t, Rests s.shared (s.pc t) := by
    intro t
    have hnone : next size s.shared (s.pc t) .proceed = none :=
      Option.map_eq_none_iff.mp (hblocked t)
    exact next_eq_none_iff.mp hnone
  have hflight : tally Place.inFlight s.pc = 0 := by
    refine tally_eq_zero_iff.mpr fun t => ?_
    have ht := hrests t
    cases hp : s.pc t with
    | outside | entering => rfl
    | claiming | busy =>
      rw [hp] at ht
      exact ht.elim
  have hslots := h.slots
  have hside : ∀ d, s.shared.slots d.other ≠ 0 → ∀ t, (∃ r, s.pc t = .outside r) ∨
      ∃ op, s.pc t = .entering op ∧ op.side = d ∧ s.shared.slots d = 0 ∧
        s.shared.slots d.other = size.toNat := by
    intro d hd t
    have ht := hrests t
    cases hp : s.pc t with
    | outside r => exact .inl ⟨r, rfl⟩
    | entering op =>
      rw [hp] at ht
      have hop : op.side = d := by
        by_contra hne
        rw [← Side.eq_other_of_ne hne] at hd
        exact hd ht
      refine .inr ⟨op, rfl, hop, hop ▸ ht, ?_⟩
      rw [Rests, hop] at ht
      cases d with
      | push =>
        rw [Side.other]
        omega
      | pop =>
        rw [Side.other]
        omega
    | claiming | busy =>
      rw [hp] at ht
      exact ht.elim
  by_cases hpush : s.shared.slots .push = 0
  · refine ⟨.push, hside .push fun hpop : s.shared.slots .pop = 0 => hsize ?_⟩
    rw [← UInt32.toNat_inj, UInt32.toNat_zero]
    omega
  · exact ⟨.pop, hside .pop hpush⟩

end

/-- In every run of a queue of any size and any number of threads. -/
theorem lock_free_law [DecidableEq T] (hsize : size ≠ 0) {as : List (T × Move α)}
    {s : Config T (Shared α) (Place α)}
    (h : (code size).machine.run (start size) as = some s) : LockFreeLaw size as s := by
  have hreach : (code size).machine.Reachable (start size) s := Machine.reachable_of_run .refl h
  have hsound : Sound size s :=
    hreach.invariant (Sound.start hsize) fun _ _ _ hu _ hs => hu.step hsize hs
  have hle := hsound.count_add_le
  refine ⟨hsound.slots, hsound.count, ?_, fun hempty => ?_, fun hfull => ?_, fun hrest => ?_,
    hsound.blocked hsize, ?_⟩
  · rw [UInt32.le_iff_toNat_le]
    omega
  · have hcount := hsound.count
    rw [eq_of_beq hempty, UInt32.toNat_zero] at hcount
    omega
  · rw [eq_of_beq hfull] at hle
    omega
  · exact hsound.rest hrest
  · have hsteps := Machine.countP_le_of_potential (Φ := potential)
      (fun _ _ _ hp hs => potential_lt hp hs) (fun _ _ _ hp hs => potential_le hp hs) h
    have hstart : potential (start size : Config T (Shared α) (Place α)) = 0 :=
      tally_eq_zero_iff.mpr fun _ => rfl
    omega

/-- The compare-exchange of a push fails, since another push moved the index, and a pop waits. -/
theorem lock_free_law_three : ∃ s : Config (Fin 3) (Shared ℕ) (Place ℕ), ∃ as,
    (code 2).machine.run (start 2) as = some s ∧ s.pc 0 = .busy ⟨.push 7, 0, 0, none⟩ .loading ∧
      s.pc 1 = .busy ⟨.tryPush 8, 1, 1, none⟩ .working ∧ s.pc 2 = .entering .pop ∧
      LockFreeLaw 2 as s := by
  have hrun : ((code 2).machine.run (start 2 : Config (Fin 3) (Shared ℕ) (Place ℕ))
      [(0, .call (.push 7)), (0, .proceed), (0, .proceed), (0, .proceed), (0, .proceed),
        (0, .proceed), (0, .proceed), (1, .call (.tryPush 8)), (1, .proceed), (1, .proceed),
        (0, .proceed), (2, .call .pop)]).any
      (fun s => s.pc 0 == .busy ⟨.push 7, 0, 0, none⟩ .loading &&
        s.pc 1 == .busy ⟨.tryPush 8, 1, 1, none⟩ .working && s.pc 2 == .entering .pop) = true := by
    decide +kernel
  obtain ⟨s, hs, hp⟩ := (Option.any_eq_true _ _).mp hrun
  simp only [Bool.and_eq_true, beq_iff_eq, and_assoc] at hp
  exact ⟨s, _, hs, hp.1, hp.2.1, hp.2.2, lock_free_law (by decide) hs⟩

end LockFree

end Queue

end Sync
