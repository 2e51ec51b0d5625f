import SyncLib.Queue.Blocking
import SyncLib.Queue.LockFree

/-!
# The two bounded queues, one call after the other

Calls that do not overlap, on a `blocking_queue` and on a `lock_free_queue` of the same size. Both
keep the elements of a FIFO queue; they differ in what `try_pop` returns.
-/

namespace Sync

namespace Queue

open Core

variable {α : Type*}

/-! ### The purpose -/

/-- A call on a bounded FIFO queue with room for `n` elements, `none` where it has to wait. A `pop`
is left out: it returns an element in one queue and an `optional` in the other. -/
def fifo (n : ℕ) (l : List α) : Op α → Option (List α × Result α)
  | .push x    => if l.length < n then some (l ++ [x], .void) else none
  | .tryPush x => if l.length < n then some (l ++ [x], .flag true) else some (l, .flag false)
  | .pop       => none
  | .tryPop    =>
    match l with
    | []     => some ([], .item none)
    | x :: l => some (l, .item (some x))

/-! ### `blocking_queue` -/

namespace Blocking

def Shared.empty (s : Shared α) : Bool := s.count == 0

def Shared.full (size : UInt32) (s : Shared α) : Bool := s.count == size

def Shared.size (s : Shared α) : UInt32 := s.count

/-- A call that nobody interferes with, `none` where it has to wait. A `wait_for` of no time fails
where there is no token. -/
def runCall (size : UInt32) (op : Op α) (s : Shared α) : Option (Shared α × Result α) :=
  match wait op.side s with
  | some s' => some (post op.side (critical size op s').1, result op (critical size op s').2)
  | none    =>
    match op with
    | .push _ | .pop => none
    | .tryPush _     => some (s, .flag false)
    | .tryPop        => some (s, .item none)

end Blocking

/-! ### `lock_free_queue` -/

namespace LockFree

def Shared.empty (s : Shared α) : Bool := s.count == 0

def Shared.full (size : UInt32) (s : Shared α) : Bool := s.count == size

def Shared.size (s : Shared α) : UInt32 := s.count

/-- The token is taken. -/
def enter (d : Side) (s : Shared α) : Shared α :=
  { s with slots := Function.update s.slots d (s.slots d - 1) }

/-- A call from its `fetch_add` to its end: the compare-exchange finds the index as it was
loaded. -/
def finish (size : UInt32) (op : Op α) (s : Shared α) : Shared α × Result α :=
  let r := work size ⟨op, s.index op.side, s.claims op.side, none⟩ (claim op.side s)
  let s' := recount op.side r.1
  (post r.2 (exchange op.side (s'.index op.side) (s'.index op.side % size) s').1, result r.2)

/-- A call that nobody interferes with, `none` where it has to wait. -/
def runCall (size : UInt32) (op : Op α) (s : Shared α) : Option (Shared α × Result α) :=
  if 0 < s.slots op.side then some (finish size op (enter op.side s))
  else
    match op with
    | .push _ | .pop      => none
    | .tryPush _ | .tryPop => some (s, .flag false)

/-- What the caller sees: the `bool` that `try_pop` returns becomes an element. -/
def seen (ofBool : Bool → α) : Op α → Result α → Result α
  | .tryPop, .flag b => .item (some (ofBool b))
  | _, r             => r

end LockFree

/-! ### Both queues -/

/-- The elements that the queues should hold, the queues, and the last call with what it should
return and what the two queues returned. -/
structure Pair (α : Type*) where
  content : List α
  blocking : Blocking.Shared α
  lockFree : LockFree.Shared α
  last : Option (Op α × Result α × Result α × Result α)

namespace Pair

/-- A call on both queues, where it need not wait. -/
def step (size : UInt32) (s : Pair α) (op : Op α) : Option (Pair α) :=
  (fifo size.toNat s.content op).bind fun r =>
    (Blocking.runCall size op s.blocking).bind fun b =>
      (LockFree.runCall size op s.lockFree).map fun f =>
        ⟨r.1, b.1, f.1, some (op, r.2, b.2, f.2)⟩

def machine (size : UInt32) : Machine (Pair α) (Op α) := ⟨step size⟩

def start (size : UInt32) : Pair α := ⟨[], Blocking.initial size, LockFree.initial size, none⟩

end Pair

/-! ### Calls are runs of a thread -/

variable {T : Type*} {size : UInt32} {op : Op α} {r : Result α}

lemma LockFree.exchange_self (d : Side) (x : UInt32) (s : LockFree.Shared α) :
    LockFree.exchange d (s.index d) x s =
      ({ s with index := Function.update s.index d x }, .posting) :=
  if_pos rfl

lemma LockFree.work_op (size : UInt32) (j : LockFree.Job α) (s : LockFree.Shared α) :
    (LockFree.work size j s).2.op = j.op := by
  unfold LockFree.work
  split <;> rfl

/-- From the `fetch_add` on. -/
lemma LockFree.run_finish (size : UInt32) (op : Op α) (t : T) (s : LockFree.Shared α) :
    ((LockFree.code size).alone t).run (s, .claiming op)
        [.proceed, .proceed, .proceed, .proceed, .proceed, .proceed, .proceed] =
      some ((LockFree.finish size op s).1, .outside (some (LockFree.finish size op s).2)) := by
  have hop := LockFree.work_op size ⟨op, s.index op.side, s.claims op.side, none⟩
    (LockFree.claim op.side s)
  simp only [Machine.run_cons, Machine.run_nil, Code.alone, LockFree.code, LockFree.next,
    Option.bind_some, LockFree.finish, hop, LockFree.exchange_self]

variable [DecidableEq T]

/-- The thread of a call takes its steps one after the other. -/
theorem Blocking.reachable_of_runCall {s : Config T (Blocking.Shared α) (Blocking.Place α)}
    {t : T} {r₀ : Option (Result α)} (ht : s.pc t = .outside r₀) {sh : Blocking.Shared α}
    (h : Blocking.runCall size op s.shared = some (sh, r)) :
    (Blocking.code size).machine.Reachable s
      ⟨sh, Function.update s.pc t (.outside (some r))⟩ := by
  have halone : ∃ ms, ((Blocking.code size).alone t).run (s.shared, s.pc t) ms =
      some (sh, .outside (some r)) := by
    rw [ht]
    cases hw : Blocking.wait op.side s.shared with
    | some s' =>
      simp only [Blocking.runCall, hw, Option.some.injEq, Prod.mk.injEq] at h
      obtain ⟨rfl, rfl⟩ := h
      refine ⟨[.call op, .proceed, .proceed, .proceed], ?_⟩
      simp [Machine.run_cons, Code.alone, Blocking.code, Blocking.next, hw]
    | none =>
      refine ⟨[.call op, .fail], ?_⟩
      cases op with
      | push | pop => simp [Blocking.runCall, hw] at h
      | tryPush | tryPop =>
        simp only [Blocking.runCall, hw, Option.some.injEq, Prod.mk.injEq] at h
        obtain ⟨rfl, rfl⟩ := h
        rfl
  obtain ⟨ms, hms⟩ := halone
  exact Machine.reachable_of_run .refl (Code.run_of_alone hms)

/-- The thread of a call takes its steps one after the other. -/
theorem LockFree.reachable_of_runCall {s : Config T (LockFree.Shared α) (LockFree.Place α)}
    {t : T} {r₀ : Option (Result α)} (ht : s.pc t = .outside r₀) {sh : LockFree.Shared α}
    (h : LockFree.runCall size op s.shared = some (sh, r)) :
    (LockFree.code size).machine.Reachable s
      ⟨sh, Function.update s.pc t (.outside (some r))⟩ := by
  have halone : ∃ ms, ((LockFree.code size).alone t).run (s.shared, s.pc t) ms =
      some (sh, .outside (some r)) := by
    rw [ht]
    by_cases hpos : 0 < s.shared.slots op.side
    · simp only [LockFree.runCall, hpos, if_true, Option.some.injEq] at h
      refine ⟨[.call op, .proceed, .proceed, .proceed, .proceed, .proceed, .proceed, .proceed,
        .proceed], ?_⟩
      have hfinish := LockFree.run_finish size op t (LockFree.enter op.side s.shared)
      rw [h] at hfinish
      have hcall : ((LockFree.code size).alone t).step (s.shared, .outside r₀) (.call op) =
          some (s.shared, .entering op) := rfl
      have henter : ((LockFree.code size).alone t).step (s.shared, .entering op) .proceed =
          some (LockFree.enter op.side s.shared, .claiming op) := if_pos hpos
      rw [Machine.run_cons, hcall, Option.bind_some, Machine.run_cons, henter, Option.bind_some]
      exact hfinish
    · refine ⟨[.call op, .fail], ?_⟩
      cases op with
      | push | pop => simp [LockFree.runCall, hpos] at h
      | tryPush | tryPop =>
        simp only [LockFree.runCall, hpos, if_false, Option.some.injEq, Prod.mk.injEq] at h
        obtain ⟨rfl, rfl⟩ := h
        rfl
  obtain ⟨ms, hms⟩ := halone
  exact Machine.reachable_of_run .refl (Code.run_of_alone hms)

/-! ### What the queues hold -/

namespace Blocking

/-- The queue holds `l` and no call is under way. -/
def Holds (size : UInt32) (s : Shared α) (l : List α) : Prop :=
  Inv size (⟨s, fun _ => .outside none⟩ : Config Unit (Shared α) (Place α)) l

namespace Holds

variable {s s' : Shared α} {l l' : List α}

lemma of_update {pc : Unit → Place α}
    (h : Inv size ⟨s, Function.update pc () (.outside none)⟩ l) : Holds size s l := by
  have hpc : Function.update pc () (.outside none) = fun _ => .outside none :=
    funext fun _ => Function.update_self ..
  rwa [hpc] at h

lemma tokens (h : Holds size s l) :
    s.openSlots + l.length = size.toNat ∧ s.fullSlots = l.length := by
  have hzero : ∀ w : Place α → ℕ, w (.outside none) = 0 →
      total w (⟨s, fun _ => .outside none⟩ : Config Unit (Shared α) (Place α)) = 0 :=
    fun w hw => tally_eq_zero_iff.mpr fun _ => hw
  have hopen := h.openSlots
  have hfull := h.fullSlots
  rw [hzero _ rfl, hzero _ rfl] at hopen hfull
  exact ⟨hopen, hfull⟩

/-- The thread of a call after it has taken its token. -/
lemma waited (h : Holds size s l) (op : Op α) (hw : wait op.side s = some s') :
    Inv size (⟨s', fun _ => .inside op⟩ : Config Unit (Shared α) (Place α)) l := by
  have hentering : Inv size (⟨s, Function.update (fun _ => .outside none) () (.entering op)⟩ :
      Config Unit (Shared α) (Place α)) l := h.keep rfl rfl rfl
  have hinside := hentering.waited (t := ()) (by simp) hw
  have hpc : Function.update (Function.update (fun _ : Unit => Place.outside none) ()
      (.entering op)) () (.inside op) = fun _ => .inside op :=
    funext fun _ => Function.update_self ..
  rwa [hpc] at hinside

lemma posted {pc : Unit → Place α} {opt : Option α}
    (h : Inv size ⟨s, Function.update pc () (.posting op opt)⟩ l) :
    Holds size (post op.side s) l :=
  of_update (h.posted (show _ = Place.posting op opt from Function.update_self () _ pc) none)

/-- The queue does what a FIFO queue does. -/
theorem runCall (h : Holds size s l) (hf : fifo size.toNat l op = some (l', r)) :
    ∃ s', runCall size op s = some (s', r) ∧ Holds size s' l' := by
  obtain ⟨hopen, hfull⟩ := h.tokens
  cases op with
  | push x =>
    simp only [fifo, Option.ite_none_right_eq_some, Option.some.injEq, Prod.mk.injEq] at hf
    obtain ⟨hlt, rfl, rfl⟩ := hf
    have hw : wait .push s = some { s with openSlots := s.openSlots - 1 } := if_pos (by omega)
    refine ⟨_, by simp only [Blocking.runCall, Op.side, hw]; rfl, ?_⟩
    exact posted (((h.waited (.push x) hw).pushed (t := ()) rfl rfl x none))
  | tryPush x =>
    simp only [fifo] at hf
    split_ifs at hf with hlt
    · simp only [Option.some.injEq, Prod.mk.injEq] at hf
      obtain ⟨rfl, rfl⟩ := hf
      have hw : wait .push s = some { s with openSlots := s.openSlots - 1 } := if_pos (by omega)
      refine ⟨_, by simp only [Blocking.runCall, Op.side, hw]; rfl, ?_⟩
      exact posted (((h.waited (.tryPush x) hw).pushed (t := ()) rfl rfl x none))
    · simp only [Option.some.injEq, Prod.mk.injEq] at hf
      obtain ⟨rfl, rfl⟩ := hf
      have hle := h.ring.length_le
      have hw : wait .push s = none := if_neg (by omega)
      exact ⟨s, by simp only [Blocking.runCall, Op.side, hw], h⟩
  | pop => cases hf
  | tryPop =>
    cases l with
    | nil =>
      simp only [fifo, Option.some.injEq, Prod.mk.injEq] at hf
      obtain ⟨rfl, rfl⟩ := hf
      have hw : wait .pop s = none := if_neg (by rw [hfull]; exact Nat.lt_irrefl 0)
      exact ⟨s, by simp only [Blocking.runCall, Op.side, hw], h⟩
    | cons x l =>
      simp only [fifo, Option.some.injEq, Prod.mk.injEq] at hf
      obtain ⟨rfl, rfl⟩ := hf
      have hw : wait .pop s = some { s with fullSlots := s.fullSlots - 1 } :=
        if_pos (by rw [hfull]; exact Nat.succ_pos _)
      have hx : s.data s.popIndex.toNat = some x := h.ring.get_start
      refine ⟨_, by simp only [Blocking.runCall, Op.side, hw, critical, result, hx]; rfl, ?_⟩
      exact posted ((h.waited .tryPop hw).popped (t := ()) rfl rfl (some x))

end Holds

end Blocking

namespace LockFree

/-- The queue holds `l` and no call is under way. -/
structure Holds (size : UInt32) (s : Shared α) (l : List α) : Prop where
  ring : Ring size.toNat s.data (s.index .pop).toNat l
  count : s.count.toNat = l.length
  index : (s.index .push).toNat = ((s.index .pop).toNat + l.length) % size.toNat
  openSlots : s.slots .push + l.length = size.toNat
  fullSlots : s.slots .pop = l.length

section

variable (s : Shared α)

lemma finish_index : (finish size op s).1.index =
    Function.update s.index op.side ((s.index op.side + 1) % size) := by
  rw [finish, exchange_self]
  cases op <;> simp [post, recount, work, claim, Op.side]

lemma finish_count : (finish size op s).1.count = (recount op.side s).count := by
  rw [finish, exchange_self]
  cases op <;> rfl

lemma finish_slots : (finish size op s).1.slots =
    Function.update s.slots op.side.other (s.slots op.side.other + 1) := by
  rw [finish, exchange_self]
  cases op <;> rfl

lemma finish_data : (finish size op s).1.data =
    (work size ⟨op, s.index op.side, s.claims op.side, none⟩ s).1.data := by
  rw [finish, exchange_self]
  cases op <;> rfl

end

namespace Holds

variable {s s' : Shared α} {l l' : List α} {x : α}

lemma initial (hsize : size ≠ 0) : Holds size (initial size : Shared α) [] := by
  have hpos : 0 < size.toNat := Nat.pos_of_ne_zero fun hzero => hsize (UInt32.toNat_inj.mp hzero)
  exact ⟨Ring.empty hpos, rfl, (Nat.zero_mod _).symm, rfl, rfl⟩

lemma index_lt (h : Holds size s l) : (s.index .push).toNat < size.toNat := by
  rw [h.index]
  exact Nat.mod_lt _ (Nat.zero_lt_of_lt h.ring.start_lt)

/-- A call at the push end. -/
lemma pushed (h : Holds size s l) (hlt : l.length < size.toNat)
    (hop : op = .push x ∨ op = .tryPush x) :
    Holds size (finish size op (enter op.side s)).1 (l ++ [x]) := by
  have hslot : (s.index .push % size).toNat = (s.index .push).toNat := by
    rw [UInt32.toNat_mod, Nat.mod_eq_of_lt h.index_lt]
  have hside : op.side = .push := by rcases hop with rfl | rfl <;> rfl
  have hdata : (finish size op (enter op.side s)).1.data =
      Function.update s.data (s.index .push).toNat (some x) := by
    rw [finish_data, ← hslot]
    rcases hop with rfl | rfl <;> rfl
  have hopen := h.openSlots
  constructor
  · rw [hdata, finish_index, hside, Function.update_of_ne (by decide), h.index]
    exact h.ring.push hlt
  · rw [finish_count, hside, List.length_append, List.length_singleton, ← h.count]
    exact toNat_succ (h.count.trans_lt hlt)
  · rw [finish_index, hside, Function.update_self, Function.update_of_ne (by decide)]
    show ((s.index .push + 1) % size).toNat = _
    rw [toNat_next h.index_lt, h.index, Nat.mod_add_mod, List.length_append,
      List.length_singleton, Nat.add_assoc]
    rfl
  · rw [finish_slots, hside, Function.update_of_ne (by decide), List.length_append,
      List.length_singleton]
    simp only [enter, Function.update_self]
    omega
  · rw [finish_slots, hside, List.length_append, List.length_singleton, ← h.fullSlots]
    rfl

/-- A call at the pop end. -/
lemma popped (h : Holds size s (x :: l)) :
    Holds size (finish size .tryPop (enter .pop s)).1 l := by
  have hslot : (s.index .pop % size).toNat = (s.index .pop).toNat := by
    rw [UInt32.toNat_mod, Nat.mod_eq_of_lt h.ring.start_lt]
  have hnext := toNat_next h.ring.start_lt
  have hcount := h.count
  have hopen := h.openSlots
  have hfull := h.fullSlots
  rw [List.length_cons] at hcount hopen hfull
  have hside : (Op.tryPop : Op α).side = .pop := rfl
  have hdata : (finish size .tryPop (enter .pop s)).1.data =
      Function.update s.data (s.index .pop).toNat none := by
    rw [finish_data, ← hslot]
    rfl
  have hindex : ((finish size .tryPop (enter .pop s)).1.index .pop).toNat =
      ((s.index .pop).toNat + 1) % size.toNat := by
    rw [finish_index, hside, Function.update_self]
    exact hnext
  constructor
  · rw [hdata, hindex]
    exact h.ring.pop
  · rw [finish_count]
    show (s.count - 1).toNat = l.length
    rw [toNat_pred (by omega), hcount, Nat.add_sub_cancel]
  · rw [hindex, finish_index, hside, Function.update_of_ne (by decide), Nat.mod_add_mod]
    refine h.index.trans ?_
    rw [List.length_cons, Nat.add_assoc, Nat.add_comm 1]
  · rw [finish_slots]
    show s.slots .push + 1 + l.length = size.toNat
    omega
  · rw [finish_slots, hside, Function.update_of_ne (by decide)]
    show s.slots .pop - 1 = l.length
    omega

/-- The queue holds what a FIFO queue holds. The caller sees what a FIFO queue returns unless it
calls `try_pop`: then it sees the element that `true` becomes, or `false` on an empty queue. -/
theorem runCall (h : Holds size s l) (hf : fifo size.toNat l op = some (l', r)) :
    ∃ s' f, runCall size op s = some (s', f) ∧ Holds size s' l' ∧
      ∀ ofBool : Bool → α, seen ofBool op f = r ↔
        (op = .tryPop → l.head? = some (ofBool true)) := by
  have hopen := h.openSlots
  have hfull := h.fullSlots
  cases op with
  | push x =>
    simp only [fifo, Option.ite_none_right_eq_some, Option.some.injEq, Prod.mk.injEq] at hf
    obtain ⟨hlt, rfl, rfl⟩ := hf
    have hpos : 0 < s.slots (Op.push x).side := by
      show 0 < s.slots .push
      omega
    refine ⟨_, _, if_pos hpos, h.pushed hlt (.inl rfl), fun ofBool => ?_⟩
    exact iff_of_true rfl fun heq => by cases heq
  | tryPush x =>
    simp only [fifo] at hf
    split_ifs at hf with hlt
    · simp only [Option.some.injEq, Prod.mk.injEq] at hf
      obtain ⟨rfl, rfl⟩ := hf
      have hpos : 0 < s.slots (Op.tryPush x).side := by
        show 0 < s.slots .push
        omega
      refine ⟨_, _, if_pos hpos, h.pushed hlt (.inr rfl), fun ofBool => ?_⟩
      exact iff_of_true rfl fun heq => by cases heq
    · simp only [Option.some.injEq, Prod.mk.injEq] at hf
      obtain ⟨rfl, rfl⟩ := hf
      have hzero : ¬ 0 < s.slots (Op.tryPush x).side := by
        show ¬ 0 < s.slots .push
        omega
      refine ⟨s, .flag false, if_neg hzero, h, fun ofBool => ?_⟩
      exact iff_of_true rfl fun heq => by cases heq
  | pop => cases hf
  | tryPop =>
    cases l with
    | nil =>
      simp only [fifo, Option.some.injEq, Prod.mk.injEq] at hf
      obtain ⟨rfl, rfl⟩ := hf
      have hzero : ¬ 0 < s.slots (Op.tryPop : Op α).side := by
        show ¬ 0 < s.slots .pop
        rw [hfull]
        exact Nat.lt_irrefl 0
      refine ⟨s, .flag false, if_neg hzero, h, fun ofBool => ?_⟩
      simp [seen]
    | cons x l =>
      simp only [fifo, Option.some.injEq, Prod.mk.injEq] at hf
      obtain ⟨rfl, rfl⟩ := hf
      have hpos : 0 < s.slots (Op.tryPop : Op α).side := by
        show 0 < s.slots .pop
        rw [hfull]
        exact Nat.succ_pos _
      refine ⟨_, .flag true, if_pos hpos, h.popped, fun ofBool => ?_⟩
      simp [seen, eq_comm]

end Holds

end LockFree

/-! ### Both queues along a sequence of calls -/

namespace Pair

/-- The observers of the two queues tell the same, and so did the last call. A call that need not
wait goes through on both. -/
structure Agree (ofBool : Bool → α) (size : UInt32) (s : Pair α) : Prop where
  answers : ∀ op r b f, s.last = some (op, r, b, f) → b = r ∧ LockFree.seen ofBool op f = r
  goesOn : ∀ op r, fifo size.toNat s.content op = some r → (machine size).step s op ≠ none
  empty : s.lockFree.empty = s.blocking.empty
  full : s.lockFree.full size = s.blocking.full size
  size : s.lockFree.size = s.blocking.size
  length : s.blocking.size.toNat = s.content.length

/-- A `try_pop` finds the element that `true` becomes. -/
def Fits (ofBool : Bool → α) (s : Pair α) (op : Op α) : Prop :=
  op = .tryPop → s.content.head? = some (ofBool true)

structure Sound (size : UInt32) (s : Pair α) : Prop where
  blocking : Blocking.Holds size s.blocking s.content
  lockFree : LockFree.Holds size s.lockFree s.content

variable {s s' : Pair α} {ofBool : Bool → α}

lemma sound_start (hsize : size ≠ 0) : Sound size (start size : Pair α) :=
  ⟨Blocking.Inv.start hsize, LockFree.Holds.initial hsize⟩

namespace Sound

variable (h : Sound size s)

include h

lemma agree (hanswers : ∀ op r b f, s.last = some (op, r, b, f) →
    b = r ∧ LockFree.seen ofBool op f = r) : Agree ofBool size s := by
  have hcount : s.lockFree.count = s.blocking.count :=
    UInt32.toNat_inj.mp (h.lockFree.count.trans h.blocking.count.symm)
  refine ⟨hanswers, fun op r hr => ?_, ?_, ?_, hcount, h.blocking.count⟩
  · obtain ⟨b, hb, -⟩ := h.blocking.runCall hr
    obtain ⟨f, _, hf, -⟩ := h.lockFree.runCall hr
    simp [machine, step, hr, hb, hf]
  · rw [LockFree.Shared.empty, Blocking.Shared.empty, hcount]
  · rw [LockFree.Shared.full, Blocking.Shared.full, hcount]

/-- A call keeps what the queues hold; both callers see the same where the call fits. -/
theorem step {op : Op α} (hs : (machine size).step s op = some s') :
    Sound size s' ∧ ∃ r f, s'.last = some (op, r, r, f) ∧
      ∀ ofBool : Bool → α, LockFree.seen ofBool op f = r ↔ Fits ofBool s op := by
  simp only [machine, Pair.step, Option.bind_eq_some_iff, Option.map_eq_some_iff] at hs
  obtain ⟨⟨l, r⟩, hr, b, hb, f, hf, rfl⟩ := hs
  obtain ⟨b', hb', hblocking⟩ := h.blocking.runCall hr
  obtain ⟨f', f₂, hf', hlockFree, hseen⟩ := h.lockFree.runCall hr
  obtain rfl : b = (b', r) := Option.some.inj (hb.symm.trans hb')
  obtain rfl : f = (f', f₂) := Option.some.inj (hf.symm.trans hf')
  exact ⟨⟨hblocking, hlockFree⟩, r, f₂, rfl, hseen⟩

end Sound

/-- After every call the two queues agree with each other and with a FIFO queue, exactly when every
`try_pop` finds the element that `true` becomes. -/
theorem agree_iff_fits (hsize : size ≠ 0) {ops : List (Op α)}
    (hrun : (machine size).run (start size) ops = some s) :
    (∀ pre u, pre <+: ops → (machine size).run (start size) pre = some u →
        Agree ofBool size u) ↔ (machine size).Admits (Fits ofBool) (start size) ops := by
  refine Machine.forall_prefix_iff_admits_of_invariant
    (I := fun u => Sound size u ∧ Agree ofBool size u) hrun ?_ (fun _ h => h.2) ?_ ?_
  · have hsound := sound_start (α := α) hsize
    exact ⟨hsound, hsound.agree fun _ _ _ _ hlast => by cases hlast⟩
  · rintro u op u' ⟨hsound, -⟩ hfits hs
    obtain ⟨hsound', r, f, hlast, hseen⟩ := hsound.step hs
    refine ⟨hsound', hsound'.agree fun op' r' b' f' hlast' => ?_⟩
    rw [hlast] at hlast'
    cases hlast'
    exact ⟨rfl, (hseen ofBool).mpr hfits⟩
  · rintro u op u' ⟨hsound, -⟩ hfits hs hagree
    obtain ⟨-, r, f, hlast, hseen⟩ := hsound.step hs
    exact hfits ((hseen ofBool).mp (hagree.answers _ _ _ _ hlast).2)

/-- The conversion of `bool` to `int`. -/
def intOfBool (b : Bool) : ℤ := if b then 1 else 0

/-- `7` is pushed and popped: the caller of the `lock_free_queue` sees `1`, and on the empty queue
`0`. -/
theorem tryPop_disagrees :
    ∃ s s' : Pair ℤ, (machine 1).run (start 1) [.push 7, .tryPop] = some s ∧
      s.last = some (.tryPop, .item (some 7), .item (some 7), .flag true) ∧
      LockFree.seen intOfBool .tryPop (.flag true) = .item (some 1) ∧ ¬ Agree intOfBool 1 s ∧
      (machine 1).run (start 1) [.tryPop] = some s' ∧
      s'.last = some (.tryPop, .item none, .item none, .flag false) ∧
      LockFree.seen intOfBool .tryPop (.flag false) = .item (some 0) ∧ ¬ Agree intOfBool 1 s' := by
  refine ⟨_, _, rfl, rfl, rfl, fun h => ?_, rfl, rfl, rfl, fun h => ?_⟩
  · exact absurd (h.answers _ _ _ _ rfl).2 (by decide)
  · exact absurd (h.answers _ _ _ _ rfl).2 (by decide)

instance [DecidableEq α] (ofBool : Bool → α) (s : Pair α) (op : Op α) :
    Decidable (Fits ofBool s op) :=
  inferInstanceAs (Decidable (_ → _))

/-- A queue of one slot, and the only element that `try_pop` returns: the two queues agree. -/
theorem agree_iff_fits_one :
    (machine 1).Admits (Fits intOfBool) (start 1) [.push 1, .tryPush 5, .tryPop] ∧
      ∀ pre u, pre <+: [.push 1, .tryPush 5, .tryPop] →
        (machine 1).run (start 1) pre = some u → Agree intOfBool 1 u := by
  obtain ⟨s, hs⟩ := Option.isSome_iff_exists.mp (show ((machine 1).runWhile (Fits intOfBool)
    (start 1) [.push 1, .tryPush 5, .tryPop]).isSome = true by decide)
  obtain ⟨hrun, hadmits⟩ := Machine.run_of_runWhile hs
  exact ⟨hadmits, (agree_iff_fits (by decide) hrun).mpr hadmits⟩

end Pair

end Queue

end Sync
