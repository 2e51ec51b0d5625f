import Mathlib.Data.Finset.Card
import Mathlib.Data.Finset.Range
import Mathlib.Data.Nat.ModEq
import Mathlib.Data.Set.Insert
import Mathlib.Tactic.Common

/-!
# Slots handed out by tickets

Two desks serve the slots of a buffer: at the first one a ticket stands for filling a slot, at the
second one for emptying it, and ticket `k` is for slot `k % n`. A ticket is claimed, worked on, and
posted; the first desk may claim as many tickets as there are slots and posts of the second one, the
second desk as many as there are posts of the first one. If no ticket is posted before a smaller one
of its desk is done, then who fills finds an empty slot, who empties finds a full one, and nobody
shares a slot.
-/

namespace Core

variable {α : Type*}

/-- The number of tickets claimed at a desk, those at work, and those posted. -/
structure Desk where
  claimed : ℕ
  working : Set ℕ
  posted : Finset ℕ

namespace Desk

def claim (d : Desk) : Desk :=
  { d with claimed := d.claimed + 1, working := insert d.claimed d.working }

def finish (d : Desk) (k : ℕ) : Desk := { d with working := d.working \ {k} }

def post (d : Desk) (k : ℕ) : Desk := { d with posted := insert k d.posted }

/-- The tickets at work and the posted ones are claimed, and the posted ones are smaller than those
at work. -/
structure Ordered (d : Desk) : Prop where
  working_lt : ∀ k, k ∈ d.working → k < d.claimed
  posted_lt : ∀ k, k ∈ d.posted → k < d.claimed
  before : ∀ k w, k ∈ d.posted → w ∈ d.working → k < w

variable {d : Desk} {k : ℕ}

lemma ordered_empty : (⟨0, ∅, ∅⟩ : Desk).Ordered :=
  ⟨fun _ hk => hk.elim, fun _ hk => absurd hk (Finset.notMem_empty _), fun _ _ _ hw => hw.elim⟩

namespace Ordered

lemma card_le_of_working (h : d.Ordered) (hk : k ∈ d.working) : d.posted.card ≤ k := by
  rw [← Finset.card_range k]
  exact Finset.card_le_card fun p hp => Finset.mem_range.mpr (h.before p k hp hk)

lemma card_le (h : d.Ordered) : d.posted.card ≤ d.claimed := by
  rw [← Finset.card_range d.claimed]
  exact Finset.card_le_card fun p hp => Finset.mem_range.mpr (h.posted_lt p hp)

lemma claim (h : d.Ordered) : d.claim.Ordered := by
  refine ⟨?_, fun k hk => Nat.lt_succ_of_lt (h.posted_lt k hk), ?_⟩
  · rintro k (rfl | hk)
    · exact Nat.lt_succ_self _
    · exact Nat.lt_succ_of_lt (h.working_lt k hk)
  · rintro k w hk (rfl | hw)
    · exact h.posted_lt k hk
    · exact h.before k w hk hw

lemma finish (h : d.Ordered) (k : ℕ) : (d.finish k).Ordered :=
  ⟨fun w hw => h.working_lt w hw.1, h.posted_lt, fun p w hp hw => h.before p w hp hw.1⟩

lemma post (h : d.Ordered) (hk : k < d.claimed) (hlow : ∀ w, w ∈ d.working → k < w) :
    (d.post k).Ordered := by
  refine ⟨h.working_lt, ?_, ?_⟩
  · intro p hp
    rcases Finset.mem_insert.mp hp with rfl | hp
    · exact hk
    · exact h.posted_lt p hp
  · intro p w hp hw
    rcases Finset.mem_insert.mp hp with rfl | hp
    · exact hlow w hw
    · exact h.before p w hp hw

end Ordered

end Desk

/-- Ticket `k` has been filled and not emptied. -/
def Live (ins outs : Desk) (k : ℕ) : Prop :=
  k < ins.claimed ∧ k ∉ ins.working ∧ (outs.claimed ≤ k ∨ k ∈ outs.working)

section Live

variable {ins outs : Desk} {j k : ℕ}

lemma live_claim_ins : Live ins.claim outs k ↔ Live ins outs k := by
  simp only [Live, Desk.claim, Set.mem_insert_iff, not_or]
  constructor
  · rintro ⟨hk, ⟨hne, hwork⟩, hout⟩
    exact ⟨by omega, hwork, hout⟩
  · rintro ⟨hk, hwork, hout⟩
    exact ⟨by omega, ⟨hk.ne, hwork⟩, hout⟩

lemma live_claim_outs : Live ins outs.claim k ↔ Live ins outs k := by
  have hle : outs.claimed + 1 ≤ k ∨ k = outs.claimed ↔ outs.claimed ≤ k := by omega
  simp only [Live, Desk.claim, Set.mem_insert_iff, ← or_assoc, hle]

lemma live_of_finish_ins (hj : Live (ins.finish k) outs j) (hne : j ≠ k) : Live ins outs j :=
  ⟨hj.1, fun hins => hj.2.1 ⟨hins, hne⟩, hj.2.2⟩

lemma live_finish_outs (hlt : k < outs.claimed) :
    Live ins (outs.finish k) j ↔ Live ins outs j ∧ j ≠ k := by
  constructor
  · rintro ⟨hj, hwork, hle | hout⟩
    · exact ⟨⟨hj, hwork, .inl hle⟩, fun hjk => absurd hlt (hjk ▸ hle).not_gt⟩
    · exact ⟨⟨hj, hwork, .inr hout.1⟩, hout.2⟩
  · rintro ⟨⟨hj, hwork, hout⟩, hne⟩
    exact ⟨hj, hwork, hout.imp_right fun hout => ⟨hout, hne⟩⟩

end Live

/-- The full slots are those of the live tickets, and the claims have their posts. -/
structure Handoff (n : ℕ) (data : ℕ → Option α) (ins outs : Desk) : Prop where
  insOrdered : ins.Ordered
  outsOrdered : outs.Ordered
  room : ins.claimed ≤ n + outs.posted.card
  supply : outs.claimed ≤ ins.posted.card
  full : ∀ k, Live ins outs k → (data (k % n)).isSome
  live : ∀ i, (data i).isSome → ∃ k, Live ins outs k ∧ k % n = i

namespace Handoff

variable {n k j : ℕ} {data : ℕ → Option α} {ins outs : Desk}

lemma empty (n : ℕ) : Handoff n (fun _ => (none : Option α)) ⟨0, ∅, ∅⟩ ⟨0, ∅, ∅⟩ := by
  refine ⟨Desk.ordered_empty, Desk.ordered_empty, Nat.zero_le _, Nat.zero_le _, ?_, ?_⟩
  · rintro k ⟨hk, -⟩
    cases hk
  · intro i hi
    cases hi

/-! ### The tickets that hold a slot -/

/-- The tickets from the number of posts that emptied a slot on. There are at most `n` of them. -/
def Held (ins outs : Desk) (k : ℕ) : Prop := outs.posted.card ≤ k ∧ k < ins.claimed

lemma eq_of_mod_eq (h : Handoff n data ins outs) (hk : Held ins outs k) (hj : Held ins outs j)
    (hmod : k % n = j % n) : k = j := by
  have hroom := h.room
  obtain ⟨hk, hk'⟩ := hk
  obtain ⟨hj, hj'⟩ := hj
  refine Nat.ModEq.eq_of_abs_lt (m := n) hmod (abs_lt.mpr ⟨?_, ?_⟩) <;> omega

lemma held_of_ins (h : Handoff n data ins outs) (hk : k ∈ ins.working) : Held ins outs k := by
  have hposted := h.insOrdered.card_le_of_working hk
  exact ⟨(h.outsOrdered.card_le.trans h.supply).trans hposted, h.insOrdered.working_lt k hk⟩

lemma held_of_outs (h : Handoff n data ins outs) (hk : k ∈ outs.working) : Held ins outs k := by
  refine ⟨h.outsOrdered.card_le_of_working hk, ?_⟩
  exact (h.outsOrdered.working_lt k hk).trans_le (h.supply.trans h.insOrdered.card_le)

lemma held_of_live (h : Handoff n data ins outs) (hk : Live ins outs k) : Held ins outs k := by
  obtain ⟨hlt, -, hle | hk⟩ := hk
  · exact ⟨h.outsOrdered.card_le.trans hle, hlt⟩
  · exact h.held_of_outs hk

/-- Nobody has a ticket to empty a slot that is still being filled. -/
lemma claimed_le_of_ins (h : Handoff n data ins outs) (hk : k ∈ ins.working) : outs.claimed ≤ k :=
  h.supply.trans (h.insOrdered.card_le_of_working hk)

lemma notMem_ins_of_outs (h : Handoff n data ins outs) (hk : k ∈ outs.working) :
    k ∉ ins.working :=
  fun hins => (h.outsOrdered.working_lt k hk).not_ge (h.claimed_le_of_ins hins)

lemma live_of_outs (h : Handoff n data ins outs) (hk : k ∈ outs.working) : Live ins outs k :=
  ⟨(h.held_of_outs hk).2, h.notMem_ins_of_outs hk, .inr hk⟩

/-! ### Who is at work -/

/-- Who empties a slot finds it full. -/
theorem isSome_of_outs (h : Handoff n data ins outs) (hk : k ∈ outs.working) :
    (data (k % n)).isSome :=
  h.full k (h.live_of_outs hk)

/-- Who fills a slot finds it empty. -/
theorem eq_none_of_ins (h : Handoff n data ins outs) (hk : k ∈ ins.working) :
    data (k % n) = none := by
  rw [← Option.not_isSome_iff_eq_none]
  intro hsome
  obtain ⟨j, hj, hmod⟩ := h.live _ hsome
  obtain rfl := h.eq_of_mod_eq (h.held_of_live hj) (h.held_of_ins hk) hmod
  exact hj.2.1 hk

/-- Who fills a slot and who empties one have different slots. -/
theorem mod_ne (h : Handoff n data ins outs) (hk : k ∈ ins.working) (hj : j ∈ outs.working) :
    k % n ≠ j % n := by
  intro hmod
  obtain rfl := h.eq_of_mod_eq (h.held_of_ins hk) (h.held_of_outs hj) hmod
  exact h.notMem_ins_of_outs hj hk

/-! ### The steps -/

theorem claim_ins (h : Handoff n data ins outs) (hroom : ins.claimed < n + outs.posted.card) :
    Handoff n data ins.claim outs :=
  ⟨h.insOrdered.claim, h.outsOrdered, hroom, h.supply,
    fun k hk => h.full k (live_claim_ins.mp hk),
    fun i hi => (h.live i hi).imp fun _ hk => hk.imp_left live_claim_ins.mpr⟩

theorem claim_outs (h : Handoff n data ins outs) (hsupply : outs.claimed < ins.posted.card) :
    Handoff n data ins outs.claim :=
  ⟨h.insOrdered, h.outsOrdered.claim, h.room, hsupply,
    fun k hk => h.full k (live_claim_outs.mp hk),
    fun i hi => (h.live i hi).imp fun _ hk => hk.imp_left live_claim_outs.mpr⟩

/-- The slot of a ticket is filled. -/
theorem finish_ins (h : Handoff n data ins outs) (hk : k ∈ ins.working) (x : α) :
    Handoff n (Function.update data (k % n) (some x)) (ins.finish k) outs := by
  refine ⟨h.insOrdered.finish k, h.outsOrdered, h.room, h.supply, ?_, ?_⟩
  · rintro j ⟨hlt, hwork, hout⟩
    by_cases hj : j % n = k % n
    · rw [hj, Function.update_self]
      rfl
    · rw [Function.update_of_ne hj]
      refine h.full j ⟨hlt, fun hins => hwork ⟨hins, ?_⟩, hout⟩
      rintro rfl
      exact hj rfl
  · intro i hi
    by_cases hik : i = k % n
    · exact ⟨k, ⟨h.insOrdered.working_lt k hk, fun hins => hins.2 rfl,
        .inl (h.claimed_le_of_ins hk)⟩, hik.symm⟩
    · rw [Function.update_of_ne hik] at hi
      obtain ⟨j, ⟨hlt, hwork, hout⟩, hmod⟩ := h.live i hi
      exact ⟨j, ⟨hlt, fun hins => hwork hins.1, hout⟩, hmod⟩

/-- The slot of a ticket is emptied. -/
theorem finish_outs (h : Handoff n data ins outs) (hk : k ∈ outs.working) :
    Handoff n (Function.update data (k % n) none) ins (outs.finish k) := by
  have hlt := h.outsOrdered.working_lt k hk
  refine ⟨h.insOrdered, h.outsOrdered.finish k, h.room, h.supply, ?_, ?_⟩
  · intro j hj
    obtain ⟨hj, hne⟩ := (live_finish_outs hlt).mp hj
    rw [Function.update_of_ne]
    · exact h.full j hj
    · exact fun hmod => hne (h.eq_of_mod_eq (h.held_of_live hj) (h.held_of_outs hk) hmod)
  · intro i hi
    by_cases hik : i = k % n
    · rw [hik, Function.update_self] at hi
      cases hi
    · rw [Function.update_of_ne hik] at hi
      obtain ⟨j, hj, hmod⟩ := h.live i hi
      refine ⟨j, (live_finish_outs hlt).mpr ⟨hj, ?_⟩, hmod⟩
      rintro rfl
      exact hik hmod.symm

theorem post_ins (h : Handoff n data ins outs) (hk : k < ins.claimed)
    (hlow : ∀ w, w ∈ ins.working → k < w) : Handoff n data (ins.post k) outs :=
  ⟨h.insOrdered.post hk hlow, h.outsOrdered, h.room,
    h.supply.trans (Finset.card_le_card (Finset.subset_insert _ _)), h.full, h.live⟩

theorem post_outs (h : Handoff n data ins outs) (hk : k < outs.claimed)
    (hlow : ∀ w, w ∈ outs.working → k < w) : Handoff n data ins (outs.post k) :=
  ⟨h.insOrdered, h.outsOrdered.post hk hlow,
    h.room.trans (Nat.add_le_add_left (Finset.card_le_card (Finset.subset_insert _ _)) _),
    h.supply, h.full, h.live⟩

end Handoff

/-! ### What is handed over -/

/-- The slots of the live tickets hold what was brought for these tickets. -/
def Carries (n : ℕ) (data : ℕ → Option α) (ins outs : Desk) (items : ℕ → Option α) : Prop :=
  ∀ k, Live ins outs k → data (k % n) = items k

namespace Carries

variable {n k : ℕ} {data items : ℕ → Option α} {ins outs : Desk}

theorem claim_ins (h : Carries n data ins outs items) : Carries n data ins.claim outs items :=
  fun k hk => h k (live_claim_ins.mp hk)

theorem claim_outs (h : Carries n data ins outs items) : Carries n data ins outs.claim items :=
  fun k hk => h k (live_claim_outs.mp hk)

/-- Something is brought for a ticket. -/
theorem finish_ins (h : Carries n data ins outs items) (hh : Handoff n data ins outs)
    (hk : k ∈ ins.working) (x : α) :
    Carries n (Function.update data (k % n) (some x)) (ins.finish k) outs
      (Function.update items k (some x)) := by
  intro j hj
  by_cases hne : j = k
  · rw [hne, Function.update_self, Function.update_self]
  · have hlive := live_of_finish_ins hj hne
    have hmod : j % n ≠ k % n :=
      fun hmod => hne (hh.eq_of_mod_eq (hh.held_of_live hlive) (hh.held_of_ins hk) hmod)
    rw [Function.update_of_ne hmod, Function.update_of_ne hne]
    exact h j hlive

/-- What was brought for a ticket is taken away. -/
theorem finish_outs (h : Carries n data ins outs items) (hh : Handoff n data ins outs)
    (hk : k ∈ outs.working) :
    Carries n (Function.update data (k % n) none) ins (outs.finish k) items := by
  intro j hj
  obtain ⟨hlive, hne⟩ := (live_finish_outs (hh.outsOrdered.working_lt k hk)).mp hj
  have hmod : j % n ≠ k % n :=
    fun hmod => hne (hh.eq_of_mod_eq (hh.held_of_live hlive) (hh.held_of_outs hk) hmod)
  rw [Function.update_of_ne hmod]
  exact h j hlive

/-- Who empties a slot finds what was brought for the same ticket. -/
theorem get_of_outs (h : Carries n data ins outs items) (hh : Handoff n data ins outs)
    (hk : k ∈ outs.working) : data (k % n) = items k :=
  h k (hh.live_of_outs hk)

end Carries

end Core
