import Mathlib.Data.Finset.Insert
import Mathlib.Data.Nat.ModEq
import SyncLib.Core.Interleaving
import SyncLib.Queue.Basic

/-!
# `lock_free_queue`

A thread takes a token of one semaphore, claims a slot by a `fetch_add` on the index of its side,
works on the slot, reduces the index modulo the size by a compare-exchange, and posts a token to the
other semaphore. What the two sides have alike is one definition with the side as a parameter.

`pop` does not compile: its first `auto item` lacks the semicolon, and both are out of scope at
`return item`. It is read as one variable that is returned.
-/

namespace Sync

namespace Queue

open Core

namespace LockFree

variable {α T : Type*}

/-- The members: `slots` are `open_slots_` for the pushes and `full_slots_` for the pops, `index`
are `push_index_` and `pop_index_`. `claims` and `posted` are not in the code: the number of
`fetch_add`s on each index, and which of the operations have posted. -/
structure Shared (α : Type*) where
  slots : Side → ℕ
  data : ℕ → Option α
  index : Side → UInt32
  count : UInt32
  claims : Side → ℕ
  posted : Side → Finset ℕ

/-- The variables of an operation after its `fetch_add`: what that returned, the element it has
read, and, not in the code, the number of `fetch_add`s before it. -/
structure Job (α : Type*) where
  op : Op α
  index : UInt32
  ticket : ℕ
  item : Option α
  deriving DecidableEq, Repr

/-- What an operation does next after its `fetch_add`. The numbers are not in the code: how many
`fetch_add`s of its side there were before the first load, and how many there are between the two
loads. -/
inductive Phase
  /-- The construction of the element, or its reading and destruction. -/
  | working
  /-- `count_.fetch_add` or `count_.fetch_sub`. -/
  | counting
  /-- `expected = push_index_.load()`. -/
  | loading
  /-- The `push_index_.load() % size_` of the compare-exchange. -/
  | reducing (expected : UInt32) (seen : ℕ)
  | exchanging (expected desired : UInt32) (between : ℕ)
  | posting
  deriving DecidableEq, Repr

/-- Where a thread is: outside of the methods, with what its last call returned, or before the
semaphore, before the `fetch_add`, or after it. -/
inductive Place (α : Type*)
  | outside (r : Option (Result α))
  | entering (op : Op α)
  | claiming (op : Op α)
  | busy (j : Job α) (ph : Phase)
  deriving DecidableEq, Repr

/-! ### The methods -/

/-- The `fetch_add` on the index. -/
def claim (d : Side) (s : Shared α) : Shared α :=
  { s with
    index := Function.update s.index d (s.index d + 1)
    claims := Function.update s.claims d (s.claims d + 1) }

def Job.slot (size : UInt32) (j : Job α) : ℕ := (j.index % size).toNat

/-- The work on the slot. -/
def work (size : UInt32) (j : Job α) (s : Shared α) : Shared α × Job α :=
  match j.op with
  | .push x | .tryPush x => ({ s with data := Function.update s.data (j.slot size) (some x) }, j)
  | .pop | .tryPop       =>
    ({ s with data := Function.update s.data (j.slot size) none },
      { j with item := s.data (j.slot size) })

/-- The `fetch_add` or `fetch_sub` on `count_`. -/
def recount (d : Side) (s : Shared α) : Shared α :=
  match d with
  | .push => { s with count := s.count + 1 }
  | .pop  => { s with count := s.count - 1 }

/-- The compare-exchange of the loop, where it does not fail without a reason. -/
def exchange (d : Side) (expected desired : UInt32) (s : Shared α) : Shared α × Phase :=
  if s.index d = expected then
    ({ s with index := Function.update s.index d desired }, .posting)
  else (s, .loading)

/-- `full_slots_.post()` or `open_slots_.post()`. -/
def post (j : Job α) (s : Shared α) : Shared α :=
  { s with
    slots := Function.update s.slots j.op.side.other (s.slots j.op.side.other + 1)
    posted := Function.update s.posted j.op.side (insert j.ticket (s.posted j.op.side)) }

/-- What an operation returns at its end. -/
def result (j : Job α) : Result α :=
  match j.op with
  | .push _            => .void
  | .tryPush _ | .tryPop => .flag true
  | .pop               => .item j.item

/-- One operation on a semaphore, an atomic or a slot. -/
def next (size : UInt32) (s : Shared α) : Place α → Move α → Option (Shared α × Place α)
  | .outside _, .call op => some (s, .entering op)
  | .entering op, .proceed =>
    if 0 < s.slots op.side then
      some ({ s with slots := Function.update s.slots op.side (s.slots op.side - 1) },
        .claiming op)
    else none
  | .entering (.tryPush _), .fail | .entering .tryPop, .fail =>
    some (s, .outside (some (.flag false)))
  | .claiming op, .proceed =>
    some (claim op.side s, .busy ⟨op, s.index op.side, s.claims op.side, none⟩ .working)
  | .busy j .working, .proceed => some ((work size j s).1, .busy (work size j s).2 .counting)
  | .busy j .counting, .proceed => some (recount j.op.side s, .busy j .loading)
  | .busy j .loading, .proceed =>
    some (s, .busy j (.reducing (s.index j.op.side) (s.claims j.op.side)))
  | .busy j (.reducing expected seen), .proceed =>
    some (s, .busy j
      (.exchanging expected (s.index j.op.side % size) (s.claims j.op.side - seen)))
  | .busy j (.exchanging expected desired _), .proceed =>
    some ((exchange j.op.side expected desired s).1,
      .busy j (exchange j.op.side expected desired s).2)
  | .busy j (.exchanging _ _ _), .fail => some (s, .busy j .loading)
  | .busy j .posting, .proceed =>
    some (post j s, .outside (some (result j)))
  | _, _ => none

/-- All threads around one queue. -/
def code (size : UInt32) : Code T (Shared α) (Place α) (Move α) := ⟨fun _ => next size⟩

/-- After the constructor. -/
def initial (size : UInt32) : Shared α where
  slots
    | .push => size.toNat
    | .pop  => 0
  data _ := none
  index _ := 0
  count := 0
  claims _ := 0
  posted _ := ∅

def start (size : UInt32) : Config T (Shared α) (Place α) :=
  ⟨initial size, fun _ => .outside none⟩

/-! ### What a step can do -/

/-- The steps of a thread, one constructor for each branch. -/
inductive Step (size : UInt32) (s : Shared α) : Move α → Place α → Shared α → Place α → Prop
  | begin (r : Option (Result α)) (op : Op α) :
      Step size s (.call op) (.outside r) s (.entering op)
  | enter (op : Op α) (h : 0 < s.slots op.side) :
      Step size s .proceed (.entering op)
        { s with slots := Function.update s.slots op.side (s.slots op.side - 1) } (.claiming op)
  | giveUp (op : Op α) (r : Result α) : Step size s .fail (.entering op) s (.outside (some r))
  | claim (op : Op α) :
      Step size s .proceed (.claiming op) (claim op.side s)
        (.busy ⟨op, s.index op.side, s.claims op.side, none⟩ .working)
  | work (j : Job α) :
      Step size s .proceed (.busy j .working) (work size j s).1
        (.busy (work size j s).2 .counting)
  | count (j : Job α) :
      Step size s .proceed (.busy j .counting) (recount j.op.side s) (.busy j .loading)
  | load (j : Job α) :
      Step size s .proceed (.busy j .loading) s
        (.busy j (.reducing (s.index j.op.side) (s.claims j.op.side)))
  | reduce (j : Job α) (expected : UInt32) (seen : ℕ) :
      Step size s .proceed (.busy j (.reducing expected seen)) s
        (.busy j (.exchanging expected (s.index j.op.side % size) (s.claims j.op.side - seen)))
  | exchange (j : Job α) (expected desired : UInt32) (between : ℕ)
      (h : s.index j.op.side = expected) :
      Step size s .proceed (.busy j (.exchanging expected desired between))
        { s with index := Function.update s.index j.op.side desired } (.busy j .posting)
  | retry (j : Job α) (expected desired : UInt32) (between : ℕ) (m : Move α)
      (h : m = .proceed → s.index j.op.side ≠ expected) :
      Step size s m (.busy j (.exchanging expected desired between)) s (.busy j .loading)
  | post (j : Job α) :
      Step size s .proceed (.busy j .posting) (post j s) (.outside (some (result j)))

lemma step_of_next {size : UInt32} {s sh : Shared α} {p q : Place α} {m : Move α}
    (h : next size s p m = some (sh, q)) : Step size s m p sh q := by
  cases p with
  | outside r =>
    cases m with
    | call op =>
      obtain ⟨rfl, rfl⟩ := Prod.mk.inj (Option.some.inj h)
      exact .begin r op
    | proceed | fail => cases h
  | entering op =>
    cases m with
    | call => cases h
    | proceed =>
      simp only [next, Option.ite_none_right_eq_some] at h
      obtain ⟨rfl, rfl⟩ := Prod.mk.inj (Option.some.inj h.2)
      exact .enter op h.1
    | fail =>
      cases op with
      | push | pop => cases h
      | tryPush | tryPop =>
        obtain ⟨rfl, rfl⟩ := Prod.mk.inj (Option.some.inj h)
        exact .giveUp _ _
  | claiming op =>
    cases m with
    | proceed =>
      obtain ⟨rfl, rfl⟩ := Prod.mk.inj (Option.some.inj h)
      exact .claim op
    | call | fail => cases h
  | busy j ph =>
    cases m with
    | call => cases ph <;> cases h
    | proceed =>
      cases ph with
      | working =>
        obtain ⟨rfl, rfl⟩ := Prod.mk.inj (Option.some.inj h)
        exact .work j
      | counting =>
        obtain ⟨rfl, rfl⟩ := Prod.mk.inj (Option.some.inj h)
        exact .count j
      | loading =>
        obtain ⟨rfl, rfl⟩ := Prod.mk.inj (Option.some.inj h)
        exact .load j
      | reducing expected seen =>
        obtain ⟨rfl, rfl⟩ := Prod.mk.inj (Option.some.inj h)
        exact .reduce j expected seen
      | exchanging expected desired between =>
        simp only [next, exchange] at h
        split_ifs at h with heq
        · obtain ⟨rfl, rfl⟩ := Prod.mk.inj (Option.some.inj h)
          exact .exchange j expected desired between heq
        · obtain ⟨rfl, rfl⟩ := Prod.mk.inj (Option.some.inj h)
          exact .retry j expected desired between _ fun _ => heq
      | posting =>
        obtain ⟨rfl, rfl⟩ := Prod.mk.inj (Option.some.inj h)
        exact .post j
    | fail =>
      cases ph with
      | exchanging expected desired between =>
        obtain ⟨rfl, rfl⟩ := Prod.mk.inj (Option.some.inj h)
        refine .retry j expected desired between _ fun hm => ?_
        cases hm
      | working | counting | loading | reducing | posting => cases h

/-- A step of the interleaving is a step of one thread. -/
lemma step_of_machine [DecidableEq T] {size : UInt32}
    {s s' : Config T (Shared α) (Place α)} {a : T × Move α}
    (h : (code size).machine.step s a = some s') :
    ∃ sh p, Step size s.shared a.2 (s.pc a.1) sh p ∧ ⟨sh, Function.update s.pc a.1 p⟩ = s' := by
  obtain ⟨sh, p, hn, hs⟩ := Code.step_eq_some.mp h
  exact ⟨sh, p, step_of_next hn, hs⟩

/-! ### The indices -/

/-- The indices tell the number of `fetch_add`s, modulo the size. -/
def IndexLaw (size : UInt32) (s : Shared α) : Prop :=
  ∀ d, (s.index d).toNat % size.toNat = s.claims d % size.toNat

/-- A `fetch_add` does not wrap, unless the size divides the range of the index, and between the two
loads of a compare-exchange that succeeds the `fetch_add`s of its side go round the ring a whole
number of times. -/
def WholeRounds (size : UInt32) (s : Shared α) : Place α → Move α → Prop
  | .claiming op, .proceed => (s.index op.side).toNat + 1 = 2 ^ 32 → size.toNat ∣ 2 ^ 32
  | .busy j (.exchanging expected _ between), .proceed =>
    s.index j.op.side = expected → size.toNat ∣ between
  | _, _ => True

/-- What an operation knows of the indices that it has loaded. -/
def Place.Knows (size : UInt32) (s : Shared α) : Place α → Prop
  | .busy j (.reducing expected seen) =>
    seen ≤ s.claims j.op.side ∧ expected.toNat % size.toNat = seen % size.toNat
  | .busy _ (.exchanging expected desired between) =>
    desired.toNat % size.toNat = (expected.toNat + between) % size.toNat
  | _ => True

/-- The indices are right, and so is what the operations have loaded of them. -/
structure IndexInv (size : UInt32) (s : Config T (Shared α) (Place α)) : Prop where
  law : IndexLaw size s.shared
  knows : ∀ t, (s.pc t).Knows size s.shared

lemma indexLaw_initial (size : UInt32) : IndexLaw size (initial size : Shared α) :=
  fun _ => rfl

/-- Only the side that moves matters. -/
lemma indexLaw_update {size : UInt32} {s sh : Shared α} (h : IndexLaw size s) {d : Side}
    {x : UInt32} {n : ℕ} (hindex : sh.index = Function.update s.index d x)
    (hclaims : sh.claims = Function.update s.claims d n) :
    IndexLaw size sh ↔ x.toNat % size.toNat = n % size.toNat := by
  rw [IndexLaw, hindex, hclaims]
  constructor
  · intro hlaw
    have hd := hlaw d
    rwa [Function.update_self, Function.update_self] at hd
  · intro hx e
    by_cases he : e = d
    · rw [he, Function.update_self, Function.update_self]
      exact hx
    · rw [Function.update_of_ne he, Function.update_of_ne he]
      exact h e

/-- The next index is one of the next slot, unless it wraps. -/
lemma toNat_add_one_mod {i n : UInt32} {c : ℕ} (h : i.toNat % n.toNat = c % n.toNat) :
    (i + 1).toNat % n.toNat = (c + 1) % n.toNat ↔
      (i.toNat + 1 = 2 ^ 32 → n.toNat ∣ 2 ^ 32) := by
  have hnext : (i.toNat + 1) % n.toNat = (c + 1) % n.toNat := Nat.ModEq.add_right 1 h
  have hlt := i.toNat_lt
  rw [UInt32.toNat_add, UInt32.toNat_one]
  by_cases hwrap : i.toNat + 1 = 2 ^ 32
  · rw [hwrap] at hnext
    rw [hwrap, Nat.mod_self, Nat.zero_mod, ← hnext, Nat.dvd_iff_mod_eq_zero]
    exact ⟨fun hzero _ => hzero.symm, fun hzero => (hzero rfl).symm⟩
  · rw [Nat.mod_eq_of_lt (show i.toNat + 1 < 2 ^ 32 by omega)]
    exact iff_of_true hnext fun heq => absurd heq hwrap

/-- A number of steps that leads to the same place is a multiple of the length of the ring. -/
lemma add_mod_eq_iff_dvd {a k n : ℕ} : (a + k) % n = a % n ↔ n ∣ k := by
  constructor
  · intro h
    exact (Nat.modEq_zero_iff_dvd).mp (Nat.ModEq.add_left_cancel' a h)
  · rintro ⟨m, rfl⟩
    rw [Nat.add_mul_mod_self_left]

lemma Place.Knows.mono {size : UInt32} {s s' : Shared α} {p : Place α} (h : p.Knows size s)
    (hle : ∀ d, s.claims d ≤ s'.claims d) : p.Knows size s' := by
  cases p with
  | outside | entering | claiming => trivial
  | busy j ph =>
    cases ph with
    | reducing expected seen => exact ⟨h.1.trans (hle _), h.2⟩
    | working | counting | loading | exchanging | posting => exact h

lemma Step.claims_le {size : UInt32} {s sh : Shared α} {p q : Place α} {m : Move α}
    (h : Step size s m p sh q) (d : Side) : s.claims d ≤ sh.claims d := by
  cases h with
  | begin | enter | giveUp | load | reduce | exchange | retry | post => exact le_rfl
  | claim op =>
    by_cases hd : d = op.side
    · simp [hd, LockFree.claim]
    · simp [LockFree.claim, Function.update_of_ne hd]
  | work j =>
    rw [LockFree.work]
    split <;> exact le_rfl
  | count j => cases j.op.side <;> exact le_rfl

/-- What the thread that moves knows afterwards. -/
lemma Step.knows {size : UInt32} {s sh : Shared α} {p q : Place α} {m : Move α}
    (h : Step size s m p sh q) (hlaw : IndexLaw size s) (hp : p.Knows size s) :
    q.Knows size sh := by
  cases h with
  | begin | enter | giveUp | claim | work | count | exchange | retry | post => trivial
  | load j => exact ⟨le_rfl, hlaw j.op.side⟩
  | reduce j expected seen =>
    obtain ⟨hle, hexpected⟩ := hp
    -- the two loads are as far apart as the numbers of `fetch_add`s before them
    have hsum : s.claims j.op.side = seen + (s.claims j.op.side - seen) := by omega
    have hsecond := hlaw j.op.side
    rw [hsum] at hsecond
    rw [Place.Knows, UInt32.toNat_mod, Nat.mod_mod, hsecond]
    exact (Nat.ModEq.add_right _ hexpected).symm

lemma indexInv_start (size : UInt32) :
    IndexInv size (start size : Config T (Shared α) (Place α)) :=
  ⟨indexLaw_initial size, fun _ => trivial⟩

variable [DecidableEq T] {size : UInt32} {s s' : Config T (Shared α) (Place α)}

/-- The indices are right after a step exactly when it is no `fetch_add` that wraps and no
compare-exchange whose two loads are apart by less or more than whole rounds. -/
lemma indexLaw_step (h : IndexInv size s) {a : T × Move α}
    (hs : (code size).machine.step s a = some s') :
    IndexLaw size s'.shared ↔ WholeRounds size s.shared (s.pc a.1) a.2 := by
  obtain ⟨t, m⟩ := a
  obtain ⟨sh, p, hstep, rfl⟩ := step_of_machine hs
  have hknows := h.knows t
  simp only at hstep ⊢
  generalize s.pc t = q at hstep hknows
  cases hstep with
  | begin | enter | giveUp | load | reduce => exact iff_of_true h.law trivial
  | count j =>
    refine iff_of_true ?_ trivial
    cases hd : j.op.side <;> exact h.law
  | work j =>
    refine iff_of_true ?_ trivial
    rw [work]
    split <;> exact h.law
  | claim op =>
    exact (indexLaw_update h.law rfl rfl).trans (toNat_add_one_mod (h.law op.side))
  | exchange j expected desired between heq =>
    refine Iff.trans (indexLaw_update h.law rfl (Function.update_eq_self j.op.side _).symm) ?_
    rw [← h.law j.op.side, heq, show desired.toNat % _ = _ from hknows, add_mod_eq_iff_dvd]
    exact ⟨fun hd _ => hd, fun hd => hd heq⟩
  | retry j expected desired between m hne =>
    refine iff_of_true h.law ?_
    cases m with
    | proceed => exact fun heq => absurd heq (hne rfl)
    | call | fail => trivial
  | post j => exact iff_of_true h.law trivial

theorem IndexInv.step (h : IndexInv size s) {a : T × Move α}
    (hok : WholeRounds size s.shared (s.pc a.1) a.2)
    (hs : (code size).machine.step s a = some s') : IndexInv size s' := by
  have hlaw := (indexLaw_step h hs).mpr hok
  obtain ⟨t, m⟩ := a
  obtain ⟨sh, p, hstep, rfl⟩ := step_of_machine hs
  refine ⟨hlaw, Code.forall_update (P := fun _ q => Place.Knows size sh q)
    (hstep.knows h.law (h.knows t)) fun u _ => (h.knows u).mono hstep.claims_le⟩

/-- The indices are right all along a run exactly when no `fetch_add` of it wraps and every
compare-exchange that succeeds has a whole number of rounds between its two loads. -/
theorem indexLaw_iff_wholeRounds {as : List (T × Move α)}
    (hrun : (code size).machine.run (start size) as = some s) :
    (∀ pre u, pre <+: as → (code size).machine.run (start size) pre = some u →
        IndexLaw size u.shared) ↔
      (code size).machine.Admits (fun u a => WholeRounds size u.shared (u.pc a.1) a.2)
        (start size) as :=
  Machine.forall_prefix_iff_admits_of_invariant (I := fun u => IndexInv size u)
    (P := fun u => IndexLaw size u.shared) hrun (indexInv_start size) (fun _ hu => hu.law)
    (fun _ _ _ hu hok hs => hu.step hok hs)
    fun _ _ _ hu hok hs hlaw => hok ((indexLaw_step hu hs).mp hlaw)

instance (size : UInt32) (s : Shared α) (p : Place α) (m : Move α) :
    Decidable (WholeRounds size s p m) := by
  unfold WholeRounds
  split <;> infer_instance

/-- In a queue of two slots, two other pushes claim between the two loads of the first one, the
index comes back to `1`, and the exchange of the first one succeeds. -/
def onceAround : List (Fin 4 × Move ℕ) :=
  [(0, .call (.push 7)), (0, .proceed), (0, .proceed), (0, .proceed), (0, .proceed),
    (0, .proceed), (1, .call (.push 8)), (1, .proceed), (1, .proceed), (1, .proceed),
    (1, .proceed), (1, .proceed), (1, .proceed), (1, .proceed), (1, .proceed), (3, .call .pop),
    (3, .proceed), (3, .proceed), (3, .proceed), (3, .proceed), (3, .proceed), (3, .proceed),
    (3, .proceed), (3, .proceed), (2, .call (.push 9)), (2, .proceed), (2, .proceed),
    (0, .proceed), (0, .proceed)]

/-- The two loads of the exchange are one round apart, so the indices are right. -/
theorem indexLaw_iff_wholeRounds_four :
    (code 2).machine.Admits (fun u a => WholeRounds 2 u.shared (u.pc a.1) a.2)
        (start 2 : Config (Fin 4) (Shared ℕ) (Place ℕ)) onceAround ∧
      ∀ pre u, pre <+: onceAround →
        (code 2).machine.run (start 2 : Config (Fin 4) (Shared ℕ) (Place ℕ)) pre = some u →
        IndexLaw 2 u.shared := by
  have hend : ((code 2).machine.runWhile (fun u a => WholeRounds 2 u.shared (u.pc a.1) a.2)
      (start 2 : Config (Fin 4) (Shared ℕ) (Place ℕ)) onceAround).any
      (fun s => s.shared.claims .push == 3 && s.pc 0 == .busy ⟨.push 7, 0, 0, none⟩ .posting) =
        true := by
    decide +kernel
  obtain ⟨s, hs, -⟩ := (Option.any_eq_true _ _).mp hend
  obtain ⟨hrun, hadmits⟩ := Machine.run_of_runWhile hs
  exact ⟨hadmits, (indexLaw_iff_wholeRounds hrun).mpr hadmits⟩

/-- Between the loads and the compare-exchange of the first of three pushes the index goes from `1`
to `2`, to `0`, and to `1` again. The exchange then sets it to `0`, where the third push has claimed
slot `0`. -/
theorem not_indexLaw_four : ∃ s : Config (Fin 4) (Shared ℕ) (Place ℕ),
    (code 2).machine.Reachable (start 2) s ∧ s.shared.index .push = 0 ∧
      s.shared.claims .push = 3 ∧ s.pc 2 = .busy ⟨.push 9, 0, 2, none⟩ .working ∧
      ¬ IndexLaw 2 s.shared := by
  obtain ⟨s, hs, hp⟩ := Machine.exists_reachable_of_run (M := (code 2).machine)
    (s := (start 2 : Config (Fin 4) (Shared ℕ) (Place ℕ)))
    [(0, .call (.push 7)), (0, .proceed), (0, .proceed), (0, .proceed), (0, .proceed),
      (0, .proceed), (1, .call (.push 8)), (1, .proceed), (1, .proceed), (1, .proceed),
      (1, .proceed), (0, .proceed), (1, .proceed), (1, .proceed), (1, .proceed), (1, .proceed),
      (3, .call .pop), (3, .proceed), (3, .proceed), (3, .proceed), (3, .proceed), (3, .proceed),
      (3, .proceed), (3, .proceed), (3, .proceed), (2, .call (.push 9)), (2, .proceed),
      (2, .proceed), (0, .proceed)]
    (fun s => s.shared.index .push == 0 && s.shared.claims .push == 3 &&
      s.pc 2 == .busy ⟨.push 9, 0, 2, none⟩ .working) (by decide +kernel)
  simp only [Bool.and_eq_true, beq_iff_eq, and_assoc] at hp
  obtain ⟨hindex, hclaims, hthird⟩ := hp
  refine ⟨s, hs, hindex, hclaims, hthird, fun hlaw => ?_⟩
  have hpush := hlaw .push
  rw [hindex, hclaims] at hpush
  exact absurd hpush (by decide)

end LockFree

end Queue

end Sync
