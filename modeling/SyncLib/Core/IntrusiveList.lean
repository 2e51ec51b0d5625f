import Mathlib.Data.List.Nodup
import Mathlib.Logic.Function.Basic
import Mathlib.Logic.Relation
import Mathlib.Tactic.Common

/-!
# Intrusive lists

A doubly linked list whose links are fields of its nodes. The back link of a node points to the
place that points to the node: the head of the list, or the `next` field of another node. `Lists`
says that the links form a given list; pushing, popping and unlinking do to the links what they
do to the list.
-/

namespace Core

/-- A place that holds a pointer to a node. -/
inductive Slot (N : Type*)
  | head
  | next (n : N)
  deriving DecidableEq, Repr

/-- The head and the fields of all nodes. -/
structure Links (N : Type*) where
  head : Option N
  next : N → Option N
  prev : N → Option (Slot N)

namespace Links

variable {N : Type*}

/-- No node is linked. -/
def empty : Links N := ⟨none, fun _ => none, fun _ => none⟩

/-- The pointer in a place. -/
def get (L : Links N) : Slot N → Option N
  | .head   => L.head
  | .next n => L.next n

/-- From a place on, the links form the list, and every node points back to where it hangs. -/
def Chain (L : Links N) : Slot N → List N → Prop
  | s, []     => L.get s = none
  | s, n :: l => L.get s = some n ∧ L.prev n = some s ∧ L.Chain (.next n) l

def Lists (L : Links N) (l : List N) : Prop := l.Nodup ∧ L.Chain .head l

lemma lists_empty : (empty : Links N).Lists [] := ⟨List.nodup_nil, rfl⟩

lemma Lists.head_eq {L : Links N} {l : List N} (h : L.Lists l) : L.head = l.head? := by
  cases l with
  | nil => exact h.2
  | cons n l => exact h.2.1

/-- A chain depends only on the place it starts from and on the fields of its nodes. -/
lemma Chain.congr {L L' : Links N} {s : Slot N} {l : List N} (h : L.Chain s l)
    (hs : L'.get s = L.get s) (hl : ∀ m ∈ l, L'.next m = L.next m ∧ L'.prev m = L.prev m) :
    L'.Chain s l := by
  induction l generalizing s with
  | nil => exact hs.trans h
  | cons n l ih =>
    obtain ⟨hget, hprev, hrest⟩ := h
    obtain ⟨hn, hp⟩ := hl n List.mem_cons_self
    refine ⟨hs.trans hget, hp.trans hprev, ih hrest hn fun m hm => ?_⟩
    exact hl m (List.mem_cons_of_mem _ hm)

/-- A node of a chain points back to the place that points to it. -/
lemma Chain.exists_back {L : Links N} {s : Slot N} {l : List N} (h : L.Chain s l) {n : N}
    (hn : n ∈ l) :
    ∃ p, L.prev n = some p ∧ L.get p = some n ∧ (p = s ∨ ∃ m ∈ l, p = .next m) := by
  induction l generalizing s with
  | nil => simp at hn
  | cons a l ih =>
    obtain ⟨hget, hprev, hrest⟩ := h
    rcases List.mem_cons.mp hn with rfl | hn
    · exact ⟨s, hprev, hget, .inl rfl⟩
    · obtain ⟨p, hp, hpn, hplace⟩ := ih hrest hn
      refine ⟨p, hp, hpn, .inr ?_⟩
      rcases hplace with rfl | ⟨m, hm, rfl⟩
      · exact ⟨a, List.mem_cons_self, rfl⟩
      · exact ⟨m, List.mem_cons_of_mem _ hm, rfl⟩

lemma Chain.prev_isSome {L : Links N} {s : Slot N} {l : List N} (h : L.Chain s l) {n : N}
    (hn : n ∈ l) : L.prev n = some s ∨ ∃ m ∈ l, L.prev n = some (.next m) := by
  obtain ⟨p, hp, -, hplace⟩ := h.exists_back hn
  rcases hplace with rfl | ⟨m, hm, rfl⟩
  · exact .inl hp
  · exact .inr ⟨m, hm, hp⟩

/-- No node of a chain hangs at itself. -/
lemma Chain.prev_ne {L : Links N} {s : Slot N} {l : List N} (h : L.Chain s l) (hnodup : l.Nodup)
    (hs : ∀ m ∈ l, s ≠ .next m) {n : N} (hn : n ∈ l) : L.prev n ≠ some (.next n) := by
  induction l generalizing s with
  | nil => simp at hn
  | cons a l ih =>
    obtain ⟨-, hprev, hrest⟩ := h
    obtain ⟨ha, hl⟩ := List.nodup_cons.mp hnodup
    rcases List.mem_cons.mp hn with rfl | hn
    · rw [hprev]
      exact fun h => hs n List.mem_cons_self (Option.some.inj h)
    · refine ih hrest hl (fun m hm hma => ?_) hn
      exact ha (Slot.next.inj hma ▸ hm)

lemma Chain.next_mem {L : Links N} {s : Slot N} {l : List N} (h : L.Chain s l) {n m : N}
    (hn : n ∈ l) (hm : L.next n = some m) : m ∈ l := by
  induction l generalizing s with
  | nil => simp at hn
  | cons a l ih =>
    obtain ⟨-, -, hrest⟩ := h
    rcases List.mem_cons.mp hn with rfl | hn
    · cases l with
      | nil =>
        have hnone : L.next n = none := hrest
        simp [hnone] at hm
      | cons b l =>
        have hb : L.next n = some b := hrest.1
        obtain rfl : b = m := Option.some.inj (hb.symm.trans hm)
        exact List.mem_cons_of_mem _ List.mem_cons_self
    · exact List.mem_cons_of_mem _ (ih hrest hn)

/-- From a place on, the links form one list only. -/
lemma Chain.unique {L : Links N} {s : Slot N} {l l' : List N} (h : L.Chain s l)
    (h' : L.Chain s l') : l = l' := by
  induction l generalizing s l' with
  | nil =>
    cases l' with
    | nil => rfl
    | cons b l' => exact absurd (h.symm.trans h'.1) (Option.some_ne_none b).symm
  | cons a l ih =>
    cases l' with
    | nil => exact absurd (h.1.symm.trans h') (Option.some_ne_none a)
    | cons b l' =>
      obtain rfl : a = b := Option.some.inj (h.1.symm.trans h'.1)
      rw [ih h.2.2 h'.2.2]

lemma Lists.unique {L : Links N} {l l' : List N} (h : L.Lists l) (h' : L.Lists l') : l = l' :=
  h.2.unique h'.2

/-- A node of the list hangs somewhere, and not at itself. -/
lemma Lists.exists_prev {L : Links N} {l : List N} {n : N} (h : L.Lists l) (hn : n ∈ l) :
    ∃ p, L.prev n = some p ∧ p ≠ .next n := by
  have hne := h.2.prev_ne h.1 (by simp) hn
  rcases h.2.prev_isSome hn with hp | ⟨m, -, hp⟩
  · exact ⟨_, hp, by simp⟩
  · exact ⟨_, hp, fun h => hne (hp.trans (congrArg some h))⟩

/-! ### Following the links -/

/-- The nodes that one comes to from a place by following `next`. -/
inductive Reaches (L : Links N) (s : Slot N) : N → Prop
  | first {n : N} (h : L.get s = some n) : L.Reaches s n
  | next {m n : N} (h : L.Reaches s m) (hn : L.next m = some n) : L.Reaches s n

lemma Reaches.cons {L : Links N} {s : Slot N} {a n : N} (ha : L.get s = some a)
    (h : L.Reaches (.next a) n) : L.Reaches s n := by
  induction h with
  | first h => exact .next (.first ha) h
  | next _ hn ih => exact .next ih hn

/-- From where a chain starts one comes to its nodes. -/
lemma Chain.reaches_iff {L : Links N} {s : Slot N} {l : List N} (h : L.Chain s l) {n : N} :
    L.Reaches s n ↔ n ∈ l := by
  constructor
  · intro hr
    induction hr with
    | first hget =>
      cases l with
      | nil => exact absurd (h.symm.trans hget) (Option.some_ne_none _).symm
      | cons a l =>
        obtain rfl := Option.some.inj (h.1.symm.trans hget)
        exact List.mem_cons_self
    | next _ hn ih => exact h.next_mem ih hn
  · intro hn
    induction l generalizing s with
    | nil => simp at hn
    | cons a l ih =>
      rcases List.mem_cons.mp hn with rfl | hn
      · exact .first h.1
      · exact (ih h.2.2 hn).cons h.1

/-- By following `next` one comes back to no node of a chain. -/
lemma Chain.not_transGen {L : Links N} {s : Slot N} {l : List N} (h : L.Chain s l)
    (hnodup : l.Nodup) {n : N} (hn : n ∈ l) :
    ¬ Relation.TransGen (fun a b => L.next a = some b) n n := by
  induction l generalizing s with
  | nil => simp at hn
  | cons a l ih =>
    obtain ⟨ha, hl⟩ := List.nodup_cons.mp hnodup
    rcases List.mem_cons.mp hn with rfl | hn
    · -- what comes after the first node is in the rest
      have hrest : ∀ m, Relation.TransGen (fun a b => L.next a = some b) n m → m ∈ l := by
        intro m hm
        induction hm with
        | single hm => exact h.2.2.reaches_iff.mp (.first hm)
        | tail _ hm ih => exact h.2.2.next_mem ih hm
      exact fun hcycle => ha (hrest n hcycle)
    · exact ih h.2.2 hl hn

variable [DecidableEq N]

/-! ### Operations -/

def set (L : Links N) (s : Slot N) (v : Option N) : Links N :=
  match s with
  | .head   => { L with head := v }
  | .next n => { L with next := Function.update L.next n v }

def setPrev (L : Links N) (n : N) (p : Option (Slot N)) : Links N :=
  { L with prev := Function.update L.prev n p }

/-- Set the back link of a node, if there is one. -/
def setPrevOf (L : Links N) : Option N → Option (Slot N) → Links N
  | none, _   => L
  | some n, p => L.setPrev n p

/-- Put a node in front of the list. -/
def push (L : Links N) (n : N) : Links N :=
  let L := L.set (.next n) L.head
  let L := L.setPrevOf (L.next n) (some (.next n))
  let L := L.setPrev n (some .head)
  L.set .head (some n)

/-- Take the first node off the list. -/
def pop (L : Links N) : Option (N × Links N) :=
  match L.head with
  | none   => none
  | some n =>
    let L := L.set .head (L.next n)
    let L := L.setPrevOf L.head (some .head)
    some (n, L.setPrev n none)

/-- Take a node that hangs at `s` out of the list. -/
def unlink (L : Links N) (n : N) (s : Slot N) : Links N :=
  let L := L.set s (L.next n)
  L.setPrevOf (L.next n) (L.prev n)

@[simp] lemma set_prev (L : Links N) (s : Slot N) (v : Option N) : (L.set s v).prev = L.prev := by
  cases s <;> rfl

@[simp] lemma set_next (L : Links N) (n : N) (v : Option N) :
    (L.set (.next n) v).next = Function.update L.next n v := rfl

@[simp] lemma set_head (L : Links N) (v : Option N) : (L.set .head v).head = v := rfl

@[simp] lemma set_head_next (L : Links N) (v : Option N) : (L.set .head v).next = L.next := rfl

@[simp] lemma setPrevOf_head (L : Links N) (o : Option N) (p : Option (Slot N)) :
    (L.setPrevOf o p).head = L.head := by
  cases o <;> rfl

@[simp] lemma setPrevOf_next (L : Links N) (o : Option N) (p : Option (Slot N)) :
    (L.setPrevOf o p).next = L.next := by
  cases o <;> rfl

lemma setPrevOf_prev (L : Links N) (o : Option N) (p : Option (Slot N)) (m : N) :
    (L.setPrevOf o p).prev m = if o = some m then p else L.prev m := by
  cases o with
  | none => simp [setPrevOf]
  | some n =>
    by_cases hm : m = n
    · simp [setPrevOf, setPrev, hm]
    · simp [setPrevOf, setPrev, hm, Ne.symm hm]

lemma get_set_of_ne (L : Links N) {s s' : Slot N} (v : Option N) (h : s' ≠ s) :
    (L.set s v).get s' = L.get s' := by
  cases s <;> cases s' <;> simp_all [set, get]

@[simp] lemma get_set (L : Links N) (s : Slot N) (v : Option N) : (L.set s v).get s = v := by
  cases s <;> simp [set, get]

@[simp] lemma get_setPrevOf (L : Links N) (o : Option N) (p : Option (Slot N)) (s : Slot N) :
    (L.setPrevOf o p).get s = L.get s := by
  cases s <;> simp [get]

/-! ### What the operations do -/

/-- The back link of the pushed node and of the former first one change. -/
lemma push_prev (L : Links N) (n m : N) (hm : m ≠ n) :
    (L.push n).prev m = if L.head = some m then some (.next n) else L.prev m := by
  simp [push, setPrev, set, hm, setPrevOf_prev]

theorem Lists.push {L : Links N} {l : List N} {n : N} (h : L.Lists l) (hn : n ∉ l) :
    (L.push n).Lists (n :: l) := by
  obtain ⟨hnodup, hchain⟩ := h
  refine ⟨List.nodup_cons.mpr ⟨hn, hnodup⟩, ?_⟩
  have hnext : ∀ m, m ≠ n → (L.push n).next m = L.next m := fun m hm => by
    simp [Links.push, setPrev, hm]
  refine ⟨rfl, by simp [Links.push, setPrev], ?_⟩
  cases l with
  | nil =>
    have hhead : L.head = none := hchain
    simp [Chain, get, Links.push, setPrev, hhead]
  | cons a l =>
    have ha : a ≠ n := fun h => hn (h ▸ List.mem_cons_self)
    obtain ⟨hhead, -, hrest⟩ := hchain
    change L.head = some a at hhead
    refine ⟨by simp [get, Links.push, setPrev, hhead], by rw [push_prev L n a ha, if_pos hhead], ?_⟩
    refine hrest.congr (hnext a ha) fun m hm => ?_
    have hmn : m ≠ n := fun h => hn (h ▸ List.mem_cons_of_mem _ hm)
    have hma : m ≠ a := fun h => (List.nodup_cons.mp hnodup).1 (h ▸ hm)
    refine ⟨hnext m hmn, ?_⟩
    rw [push_prev L n m hmn, hhead, if_neg fun h => hma (Option.some.inj h).symm]

lemma pop_prev {L L' : Links N} {n : N} (h : L.pop = some (n, L')) (m : N) (hm : m ≠ n) :
    L'.prev m = if L.next n = some m then some .head else L.prev m := by
  simp only [pop] at h
  cases hhead : L.head <;> simp only [hhead, Option.some.injEq, Prod.mk.injEq, reduceCtorEq] at h
  obtain ⟨rfl, rfl⟩ := h
  simp [setPrev, hm, setPrevOf_prev]

lemma pop_eq_none_iff {L : Links N} {l : List N} (h : L.Lists l) : L.pop = none ↔ l = [] := by
  cases l with
  | nil => simp [pop, h.head_eq]
  | cons a l => simp [pop, h.head_eq]

theorem Lists.pop {L L' : Links N} {l : List N} {n : N} (h : L.Lists l)
    (hpop : L.pop = some (n, L')) :
    ∃ l', l = n :: l' ∧ L'.Lists l' ∧ L'.prev n = none ∧ L'.head = L.next n := by
  have hprev := pop_prev hpop
  obtain ⟨hnodup, hchain⟩ := h
  cases l with
  | nil =>
    have hhead : L.head = none := hchain
    simp [Links.pop, hhead] at hpop
  | cons a l =>
    obtain ⟨hhead, -, hrest⟩ := hchain
    change L.head = some a at hhead
    simp only [Links.pop, hhead, Option.some.injEq, Prod.mk.injEq] at hpop
    obtain ⟨rfl, rfl⟩ := hpop
    obtain ⟨ha, hl⟩ := List.nodup_cons.mp hnodup
    refine ⟨l, rfl, ⟨hl, ?_⟩, by simp [setPrev], by simp [setPrev]⟩
    cases l with
    | nil =>
      have hnext : L.next a = none := hrest
      simp [Chain, get, setPrev, hnext]
    | cons b l =>
      obtain ⟨hnext, -, hrest⟩ := hrest
      change L.next a = some b at hnext
      have hba : b ≠ a := fun h => ha (h ▸ List.mem_cons_self)
      refine ⟨by simp [get, setPrev, hnext], by rw [hprev b hba, if_pos hnext], ?_⟩
      refine hrest.congr (by simp [get, setPrev]) fun m hm => ?_
      have hma : m ≠ a := fun h => ha (h ▸ List.mem_cons_of_mem _ hm)
      have hmb : m ≠ b := fun h => (List.nodup_cons.mp hl).1 (h ▸ hm)
      refine ⟨by simp [setPrev], ?_⟩
      rw [hprev m hma, hnext, if_neg fun h => hmb (Option.some.inj h).symm]

lemma unlink_prev (L : Links N) {n : N} {s : Slot N} (hs : s ≠ .next n) (m : N) :
    (L.unlink n s).prev m = if L.next n = some m then L.prev n else L.prev m := by
  have hnext : (L.set s (L.next n)).next n = L.next n := by
    have := get_set_of_ne L (L.next n) (Ne.symm hs)
    exact this
  simp [unlink, setPrevOf_prev, hnext]

lemma unlink_get (L : Links N) {n : N} {s s' : Slot N} (hs : s' ≠ s) :
    (L.unlink n s).get s' = L.get s' := by
  simp [unlink, get_set_of_ne L _ hs]

lemma Chain.unlink {L : Links N} {s p : Slot N} {l : List N} {n : N} (h : L.Chain s l)
    (hnodup : l.Nodup) (hs : ∀ m ∈ l, s ≠ .next m) (hn : n ∈ l) (hp : L.prev n = some p) :
    (L.unlink n p).Chain s (l.erase n) := by
  induction l generalizing s with
  | nil => simp at hn
  | cons a l ih =>
    obtain ⟨ha, hl⟩ := List.nodup_cons.mp hnodup
    obtain ⟨hget, hprev, hrest⟩ := h
    by_cases hna : n = a
    · subst hna
      obtain rfl : s = p := Option.some.inj (hprev.symm.trans hp)
      have hsn := hs n List.mem_cons_self
      rw [List.erase_cons_head]
      cases l with
      | nil =>
        have hnext : L.next n = none := hrest
        simp [Chain, Links.unlink, hnext]
      | cons b l =>
        obtain ⟨hnext, -, hrest⟩ := hrest
        change L.next n = some b at hnext
        have hsb := hs b (List.mem_cons_of_mem _ List.mem_cons_self)
        refine ⟨by simp [Links.unlink, hnext], ?_, ?_⟩
        · rw [unlink_prev L hsn, if_pos hnext, hp]
        · refine hrest.congr (unlink_get L hsb.symm) fun m hm => ⟨?_, ?_⟩
          · have hsm := hs m (List.mem_cons_of_mem _ (List.mem_cons_of_mem _ hm))
            exact unlink_get L hsm.symm
          · have hmb : m ≠ b := fun h => (List.nodup_cons.mp hl).1 (h ▸ hm)
            rw [unlink_prev L hsn, hnext, if_neg fun h => hmb (Option.some.inj h).symm]
    · -- the node is further down, and hangs at a place of the rest
      have hnl : n ∈ l := (List.mem_cons.mp hn).resolve_left hna
      have hpslot : p = .next a ∨ ∃ m ∈ l, p = .next m := by
        rcases hrest.prev_isSome hnl with h | ⟨m, hm, h⟩
        · exact .inl (Option.some.inj (hp.symm.trans h))
        · exact .inr ⟨m, hm, Option.some.inj (hp.symm.trans h)⟩
      have hps : s ≠ p := by
        rcases hpslot with rfl | ⟨m, hm, rfl⟩
        · exact hs a List.mem_cons_self
        · exact hs m (List.mem_cons_of_mem _ hm)
      have hpn : p ≠ .next n := by
        rintro rfl
        refine hrest.prev_ne hl (fun m hm hma => ?_) hnl hp
        exact ha (Slot.next.inj hma ▸ hm)
      rw [List.erase_cons_tail (by simpa using Ne.symm hna)]
      refine ⟨(unlink_get L hps).trans hget, ?_, ih hrest hl ?_ hnl⟩
      · rw [unlink_prev L hpn, if_neg fun h => ha (hrest.next_mem hnl h)]
        exact hprev
      · intro m hm hma
        exact ha (Slot.next.inj hma ▸ hm)

/-- Unlinking a node of the list takes it out. -/
theorem Lists.unlink {L : Links N} {l : List N} {n : N} {p : Slot N} (h : L.Lists l) (hn : n ∈ l)
    (hp : L.prev n = some p) : (L.unlink n p).Lists (l.erase n) :=
  ⟨h.1.erase n, h.2.unlink h.1 (by simp) hn hp⟩

/-! ### What the operations leave alone -/

lemma Lists.push_prev {L : Links N} {l : List N} {n m : N} (h : L.Lists l) (hm : m ∉ n :: l) :
    (L.push n).prev m = L.prev m := by
  obtain ⟨hmn, hml⟩ := not_or.mp (List.mem_cons.not.mp hm)
  rw [Links.push_prev L n m hmn, if_neg]
  intro hhead
  cases l with
  | nil =>
    have hnone : L.head = none := h.2
    simp [hnone] at hhead
  | cons a l =>
    have ha : L.head = some a := h.2.1
    obtain rfl : a = m := Option.some.inj (ha.symm.trans hhead)
    exact hml List.mem_cons_self

lemma Lists.pop_prev {L L' : Links N} {l : List N} {n m : N} (h : L.Lists l)
    (hpop : L.pop = some (n, L')) (hm : m ∉ l) : L'.prev m = L.prev m := by
  obtain ⟨l', rfl, -⟩ := h.pop hpop
  have hmn : m ≠ n := fun hmn => hm (hmn ▸ List.mem_cons_self)
  rw [Links.pop_prev hpop m hmn, if_neg]
  exact fun hnext => hm (h.2.next_mem List.mem_cons_self hnext)

lemma Lists.unlink_prev {L : Links N} {l : List N} {n m : N} {p : Slot N} (h : L.Lists l)
    (hn : n ∈ l) (hp : L.prev n = some p) (hm : m ∉ l) : (L.unlink n p).prev m = L.prev m := by
  obtain ⟨q, hq, hne⟩ := h.exists_prev hn
  obtain rfl : q = p := Option.some.inj (hq.symm.trans hp)
  rw [Links.unlink_prev L hne, if_neg]
  exact fun hnext => hm (h.2.next_mem hn hnext)

end Links

end Core
