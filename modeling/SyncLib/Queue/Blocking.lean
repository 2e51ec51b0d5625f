import SyncLib.Core.Interleaving
import SyncLib.Core.Ring
import SyncLib.Queue.Basic

/-!
# `blocking_queue`

A thread takes a token of one semaphore, works on the ring under `mutex_`, and posts a token to the
other semaphore. `Semaphore` is a counting semaphore whose `wait_for` may time out at any moment,
and a section under `mutex_` is one step.
-/

namespace Sync

namespace Queue

open Core

namespace Blocking

variable {α T : Type*}

/-- The members. `pushed` and `popped` are not in the code: the elements in the order of the
sections that construct and remove them. -/
structure Shared (α : Type*) where
  openSlots : ℕ
  fullSlots : ℕ
  data : ℕ → Option α
  pushIndex : UInt32
  popIndex : UInt32
  count : UInt32
  pushed : List α
  popped : List α

/-- Where a thread is: outside of the methods, with what its last call returned; before the first
semaphore, before the section, or after it. -/
inductive Place (α : Type*)
  | outside (r : Option (Result α))
  | entering (op : Op α)
  | inside (op : Op α)
  | posting (op : Op α) (opt : Option α)
  deriving DecidableEq, Repr

/-! ### The methods -/

/-- `open_slots_.wait()` or `full_slots_.wait()`, `none` without a token. -/
def wait : Side → Shared α → Option (Shared α)
  | .push, s => if 0 < s.openSlots then some { s with openSlots := s.openSlots - 1 } else none
  | .pop, s  => if 0 < s.fullSlots then some { s with fullSlots := s.fullSlots - 1 } else none

/-- `full_slots_.post()` or `open_slots_.post()`. -/
def post : Side → Shared α → Shared α
  | .push, s => { s with fullSlots := s.fullSlots + 1 }
  | .pop, s  => { s with openSlots := s.openSlots + 1 }

/-- The section of `push` and `try_push`. -/
def pushSection (size : UInt32) (x : α) (s : Shared α) : Shared α :=
  { s with
    data := Function.update s.data s.pushIndex.toNat (some x)
    pushIndex := (s.pushIndex + 1) % size
    count := s.count + 1
    pushed := s.pushed ++ [x] }

/-- The section of `pop` and `try_pop`, after `opt` was read. -/
def popSection (size : UInt32) (s : Shared α) : Shared α :=
  { s with
    data := Function.update s.data s.popIndex.toNat none
    popIndex := (s.popIndex + 1) % size
    count := s.count - 1
    popped := s.popped ++ (s.data s.popIndex.toNat).toList }

/-- The section of an operation, with what `opt` is after it. -/
def critical (size : UInt32) : Op α → Shared α → Shared α × Option α
  | .push x, s | .tryPush x, s => (pushSection size x s, none)
  | .pop, s | .tryPop, s       => (popSection size s, s.data s.popIndex.toNat)

/-- What an operation returns at its end; `pop` has no `return`. -/
def result : Op α → Option α → Result α
  | .push _, _    => .void
  | .tryPush _, _ => .flag true
  | .pop, _       => .missing
  | .tryPop, opt  => .item opt

/-- One operation on a semaphore or one section. -/
def next (size : UInt32) (s : Shared α) : Place α → Move α → Option (Shared α × Place α)
  | .outside _, .call op            => some (s, .entering op)
  | .entering op, .proceed          => (wait op.side s).map fun s' => (s', .inside op)
  | .entering (.tryPush _), .fail => some (s, .outside (some (.flag false)))
  | .entering .tryPop, .fail     => some (s, .outside (some (.item none)))
  | .inside op, .proceed            =>
    some ((critical size op s).1, .posting op (critical size op s).2)
  | .posting op opt, .proceed       => some (post op.side s, .outside (some (result op opt)))
  | _, _                            => none

/-- What a step of a thread can do. -/
inductive Effect (size : UInt32) (s : Shared α) : Place α → Shared α → Place α → Prop
  | call (r : Option (Result α)) (op : Op α) : Effect size s (.outside r) s (.entering op)
  | wait (op : Op α) {s' : Shared α} (hw : wait op.side s = some s') :
      Effect size s (.entering op) s' (.inside op)
  | refusePush (x : α) : Effect size s (.entering (.tryPush x)) s (.outside (some (.flag false)))
  | refusePop : Effect size s (.entering .tryPop) s (.outside (some (.item none)))
  | enter (op : Op α) : Effect size s (.inside op) (critical size op s).1
      (.posting op (critical size op s).2)
  | post (op : Op α) (opt : Option α) : Effect size s (.posting op opt) (post op.side s)
      (.outside (some (result op opt)))

lemma Effect.of_next {size : UInt32} {s s' : Shared α} {p p' : Place α} {m : Move α}
    (h : next size s p m = some (s', p')) : Effect size s p s' p' := by
  rw [next.eq_def] at h
  cases p with
  | outside r =>
    cases m with
    | call op =>
      cases h
      exact .call r op
    | proceed | fail => cases h
  | entering op =>
    cases m with
    | call => cases h
    | proceed =>
      simp only [Option.map_eq_some_iff, Prod.mk.injEq] at h
      obtain ⟨s', hw, rfl, rfl⟩ := h
      exact .wait op hw
    | fail =>
      cases op with
      | push | pop => cases h
      | tryPush x =>
        cases h
        exact .refusePush x
      | tryPop =>
        cases h
        exact .refusePop
  | inside op =>
    cases m with
    | proceed =>
      cases h
      exact .enter op
    | call | fail => cases h
  | posting op opt =>
    cases m with
    | proceed =>
      cases h
      exact .post op opt
    | call | fail => cases h

/-- All threads around one queue. -/
def code (size : UInt32) : Code T (Shared α) (Place α) (Move α) := ⟨fun _ => next size⟩

/-- After the constructor. -/
def initial (size : UInt32) : Shared α :=
  ⟨size.toNat, 0, fun _ => none, 0, 0, 0, [], []⟩

def start (size : UInt32) : Config T (Shared α) (Place α) :=
  ⟨initial size, fun _ => .outside none⟩

/-- The loop of the destructor, with the slots it destroys. -/
def destroyLoop (size : UInt32) (s : Shared α) : List ℕ × Shared α :=
  if s.count = 0 then ([], { s with count := s.count - 1 })
  else
    let r := destroyLoop size
      { s with
        data := Function.update s.data s.popIndex.toNat none
        popIndex := (s.popIndex + 1) % size
        count := s.count - 1 }
    (s.popIndex.toNat :: r.1, r.2)
termination_by s.count.toNat
decreasing_by
  rename_i h
  have hpos : 0 < s.count.toNat := Nat.pos_of_ne_zero fun hzero => h (UInt32.toNat_inj.mp hzero)
  rw [toNat_pred hpos]
  omega

/-! ### The invariant -/

namespace Place

/-- The thread has a token and is before its section, at one side of the queue. -/
def insideOf (d : Side) : Place α → ℕ
  | .inside op => if op.side = d then 1 else 0
  | _          => 0

/-- The thread is after its section, at one side of the queue. -/
def postingOf (d : Side) : Place α → ℕ
  | .posting op _ => if op.side = d then 1 else 0
  | _             => 0

/-- The operation has taken a token and not posted one. -/
def inFlight : Place α → ℕ
  | .inside _ | .posting _ _ => 1
  | _                        => 0

lemma inFlight_eq (p : Place α) : p.inFlight = p.insideOf .push + p.insideOf .pop +
    p.postingOf .push + p.postingOf .pop := by
  cases p with
  | inside op => cases op <;> rfl
  | posting op opt => cases op <;> rfl
  | outside | entering => rfl

end Place

variable [Fintype T]

abbrev total (w : Place α → ℕ) (s : Config T (Shared α) (Place α)) : ℕ := tally w s.pc

/-- The ring holds `l`, the elements pushed and not popped, and the tokens that are missing are
those of the operations in flight. -/
structure Inv (size : UInt32) (s : Config T (Shared α) (Place α)) (l : List α) : Prop where
  ring : Ring size.toNat s.shared.data s.shared.popIndex.toNat l
  count : s.shared.count.toNat = l.length
  index : s.shared.pushIndex.toNat = (s.shared.popIndex.toNat + l.length) % size.toNat
  history : s.shared.pushed = s.shared.popped ++ l
  openSlots : s.shared.openSlots + total (Place.insideOf .push) s + l.length +
    total (Place.postingOf .pop) s = size.toNat
  fullSlots : s.shared.fullSlots + total (Place.insideOf .pop) s +
    total (Place.postingOf .push) s = l.length

lemma total_start (size : UInt32) {w : Place α → ℕ} (hw : w (.outside none) = 0) :
    total w (start size : Config T (Shared α) (Place α)) = 0 :=
  tally_eq_zero_iff.mpr fun _ => hw

namespace Inv

variable {size : UInt32} {s s' : Config T (Shared α) (Place α)} {l : List α} {t : T} {op : Op α}

lemma start (hsize : size ≠ 0) : Inv size (start size : Config T (Shared α) (Place α)) [] := by
  have hpos : 0 < size.toNat := Nat.pos_of_ne_zero fun hzero => hsize (UInt32.toNat_inj.mp hzero)
  refine ⟨Ring.empty hpos, rfl, ?_, rfl, ?_, ?_⟩
  · exact (Nat.zero_mod _).symm
  · rw [total_start size rfl, total_start size rfl]
    rfl
  · rw [total_start size rfl, total_start size rfl]
    rfl

lemma inside_pos (hp : s.pc t = .inside op) : 0 < total (Place.insideOf op.side) s := by
  have hle := le_tally (Place.insideOf op.side) s.pc t
  rw [hp] at hle
  simp only [Place.insideOf, if_true] at hle
  exact hle

/-- A push before its section finds a free slot. -/
lemma get_pushIndex (h : Inv size s l) (hp : s.pc t = .inside op) (hop : op.side = .push) :
    l.length < size.toNat ∧ s.shared.data s.shared.pushIndex.toNat = none := by
  have hpos := inside_pos hp
  have hopen := h.openSlots
  rw [hop] at hpos
  have hlt : l.length < size.toNat := by omega
  refine ⟨hlt, ?_⟩
  rw [h.index]
  exact h.ring.get_end hlt

/-- A pop before its section finds an element, the oldest one. -/
lemma get_popIndex (h : Inv size s l) (hp : s.pc t = .inside op) (hop : op.side = .pop) :
    ∃ x l', l = x :: l' ∧ s.shared.data s.shared.popIndex.toNat = some x := by
  have hpos := inside_pos hp
  have hfull := h.fullSlots
  rw [hop] at hpos
  cases l with
  | nil =>
    rw [List.length_nil] at hfull
    omega
  | cons x l' => exact ⟨x, l', rfl, h.ring.get_start⟩

variable [DecidableEq T]

/-- A step keeps the invariant if the tokens change by what the thread has more or less of them and
the ring by one element. -/
lemma move (h : Inv size s l) {p : Place α} {sh : Shared α} {l' : List α}
    (hring : Ring size.toNat sh.data sh.popIndex.toNat l') (hcount : sh.count.toNat = l'.length)
    (hindex : sh.pushIndex.toNat = (sh.popIndex.toNat + l'.length) % size.toNat)
    (hhistory : sh.pushed = sh.popped ++ l')
    (hopen : sh.openSlots + p.insideOf .push + l'.length + p.postingOf .pop =
      s.shared.openSlots + (s.pc t).insideOf .push + l.length + (s.pc t).postingOf .pop)
    (hfull : sh.fullSlots + p.insideOf .pop + p.postingOf .push + l.length =
      s.shared.fullSlots + (s.pc t).insideOf .pop + (s.pc t).postingOf .push + l'.length) :
    Inv size ⟨sh, Function.update s.pc t p⟩ l' := by
  have hinside := fun d => tally_update (Place.insideOf d) s.pc t p
  have hposting := fun d => tally_update (Place.postingOf d) s.pc t p
  have hopen' := h.openSlots
  have hfull' := h.fullSlots
  refine ⟨hring, hcount, hindex, hhistory, ?_, ?_⟩
  · have hpush := hinside .push
    have hpop := hposting .pop
    simp only [total] at hopen' ⊢
    omega
  · have hpop := hinside .pop
    have hpush := hposting .push
    simp only [total] at hfull' ⊢
    omega

/-- A step that leaves the ring alone. -/
lemma keep (h : Inv size s l) {p : Place α} {sh : Shared α}
    (hsh : sh = { s.shared with openSlots := sh.openSlots, fullSlots := sh.fullSlots })
    (hopen : sh.openSlots + p.insideOf .push + p.postingOf .pop =
      s.shared.openSlots + (s.pc t).insideOf .push + (s.pc t).postingOf .pop)
    (hfull : sh.fullSlots + p.insideOf .pop + p.postingOf .push =
      s.shared.fullSlots + (s.pc t).insideOf .pop + (s.pc t).postingOf .push) :
    Inv size ⟨sh, Function.update s.pc t p⟩ l := by
  rw [hsh]
  exact h.move h.ring h.count h.index h.history (by simp only; omega) (by simp only; omega)

/-- A token is taken. -/
lemma waited (h : Inv size s l) (hp : s.pc t = .entering op) {sh : Shared α}
    (hw : wait op.side s.shared = some sh) :
    Inv size ⟨sh, Function.update s.pc t (.inside op)⟩ l := by
  cases hop : op.side with
  | push =>
    rw [hop] at hw
    simp only [wait, Option.ite_none_right_eq_some, Option.some.injEq] at hw
    obtain ⟨hpos, rfl⟩ := hw
    apply h.keep rfl
    · simp only [hp, hop, Place.insideOf, Place.postingOf, if_true]
      omega
    · simp [hp, hop, Place.insideOf, Place.postingOf]
  | pop =>
    rw [hop] at hw
    simp only [wait, Option.ite_none_right_eq_some, Option.some.injEq] at hw
    obtain ⟨hpos, rfl⟩ := hw
    apply h.keep rfl
    · simp [hp, hop, Place.insideOf, Place.postingOf]
    · simp only [hp, hop, Place.insideOf, Place.postingOf, if_true]
      omega

/-- A token is posted. -/
lemma posted (h : Inv size s l) {opt : Option α} (hp : s.pc t = .posting op opt)
    (r : Option (Result α)) :
    Inv size ⟨post op.side s.shared, Function.update s.pc t (.outside r)⟩ l := by
  cases hop : op.side with
  | push =>
    apply h.keep rfl
    · simp [hp, hop, post, Place.insideOf, Place.postingOf]
    · simp [hp, hop, post, Place.insideOf, Place.postingOf]
  | pop =>
    apply h.keep rfl
    · simp [hp, hop, post, Place.insideOf, Place.postingOf]
    · simp [hp, hop, post, Place.insideOf, Place.postingOf]

/-- An element is constructed. -/
lemma pushed (h : Inv size s l) (hp : s.pc t = .inside op) (hop : op.side = .push) (x : α)
    (opt : Option α) :
    Inv size ⟨pushSection size x s.shared, Function.update s.pc t (.posting op opt)⟩
      (l ++ [x]) := by
  obtain ⟨hlt, -⟩ := h.get_pushIndex hp hop
  have hring := h.ring.push (x := x) hlt
  rw [← h.index] at hring
  have hindex : s.shared.pushIndex.toNat < size.toNat := by
    rw [h.index]
    exact Nat.mod_lt _ (Nat.zero_lt_of_lt hlt)
  apply h.move hring
  · simp only [pushSection, List.length_append, List.length_singleton]
    rw [toNat_succ (h.count.trans_lt hlt), h.count]
  · simp only [pushSection, List.length_append, List.length_singleton]
    rw [toNat_next hindex, h.index, Nat.mod_add_mod, Nat.add_assoc]
  · simp only [pushSection, h.history, List.append_assoc]
  · simp only [hp, hop, pushSection, Place.insideOf, Place.postingOf, List.length_append,
      List.length_singleton, if_true, reduceCtorEq, if_false]
    omega
  · simp only [hp, hop, pushSection, Place.insideOf, Place.postingOf, List.length_append,
      List.length_singleton, if_true, reduceCtorEq, if_false]
    omega

/-- The oldest element is removed. -/
lemma popped {x : α} (h : Inv size s (x :: l)) (hp : s.pc t = .inside op)
    (hop : op.side = .pop) (opt : Option α) :
    Inv size ⟨popSection size s.shared, Function.update s.pc t (.posting op opt)⟩ l := by
  have hcount := h.count
  rw [List.length_cons] at hcount
  have hring := h.ring.pop
  rw [← toNat_next h.ring.start_lt] at hring
  apply h.move hring
  · simp only [popSection]
    rw [toNat_pred (by omega), hcount, Nat.add_sub_cancel]
  · simp only [popSection]
    rw [h.index, toNat_next h.ring.start_lt, Nat.mod_add_mod, List.length_cons, Nat.add_assoc,
      Nat.add_comm 1]
  · simp only [popSection, h.history, h.ring.get_start, Option.toList_some, List.append_assoc,
      List.singleton_append]
  · simp only [hp, hop, popSection, Place.insideOf, Place.postingOf, List.length_cons, if_true,
      reduceCtorEq, if_false]
    omega
  · simp only [hp, hop, popSection, Place.insideOf, Place.postingOf, List.length_cons, if_true,
      reduceCtorEq, if_false]
    omega

theorem step (h : Inv size s l) {a : T × Move α} (hs : (code size).machine.step s a = some s') :
    ∃ l', Inv size s' l' := by
  obtain ⟨t, m⟩ := a
  obtain ⟨sh, p, hn, rfl⟩ := Code.step_eq_some.mp hs
  have heffect := Effect.of_next hn
  generalize hp : s.pc t = q at heffect
  cases heffect with
  | call r op => exact ⟨l, h.keep rfl (by rw [hp]; rfl) (by rw [hp]; rfl)⟩
  | wait op hw => exact ⟨l, h.waited hp hw⟩
  | refusePush x => exact ⟨l, h.keep rfl (by rw [hp]; rfl) (by rw [hp]; rfl)⟩
  | refusePop => exact ⟨l, h.keep rfl (by rw [hp]; rfl) (by rw [hp]; rfl)⟩
  | enter op =>
    cases op with
    | push x => exact ⟨_, h.pushed hp rfl x _⟩
    | tryPush x => exact ⟨_, h.pushed hp rfl x _⟩
    | pop =>
      obtain ⟨x, l', rfl, -⟩ := h.get_popIndex hp rfl
      exact ⟨_, h.popped hp rfl _⟩
    | tryPop =>
      obtain ⟨x, l', rfl, -⟩ := h.get_popIndex hp rfl
      exact ⟨_, h.popped hp rfl _⟩
  | post op opt => exact ⟨l, h.posted hp _⟩

theorem of_reachable (hsize : size ≠ 0)
    (h : (code size).machine.Reachable (Blocking.start size) s) :
    ∃ l, Inv size s l :=
  h.invariant (I := fun u => ∃ l, Inv size u l) ⟨[], start hsize⟩
    fun _ _ _ ⟨_, hu⟩ _ hs => hu.step hs

end Inv

/-! ### The destructor -/

/-- The destructor destroys the live elements, each once, and leaves none. -/
theorem destroyLoop_spec {size : UInt32} {s : Shared α} {l : List α}
    (hring : Ring size.toNat s.data s.popIndex.toNat l) (hcount : s.count.toNat = l.length) :
    (destroyLoop size s).1.Nodup ∧
      (∀ i, i < size.toNat → (i ∈ (destroyLoop size s).1 ↔ (s.data i).isSome)) ∧
      ∀ i, i < size.toNat → (destroyLoop size s).2.data i = none := by
  induction l generalizing s with
  | nil =>
    have hzero : s.count = 0 := UInt32.toNat_inj.mp hcount
    have hdead : ∀ i, i < size.toNat → s.data i = none := by
      intro i hi
      rw [← Option.not_isSome_iff_eq_none, hring.isSome_iff hi]
      rintro ⟨j, hj, -⟩
      cases hj
    rw [destroyLoop, if_pos hzero]
    refine ⟨List.nodup_nil, fun i hi => ?_, hdead⟩
    simp [hdead i hi]
  | cons x l ih =>
    rw [List.length_cons] at hcount
    have hne : s.count ≠ 0 := by
      rintro hzero
      rw [hzero, UInt32.toNat_zero] at hcount
      omega
    have hpop := hring.pop
    rw [← toNat_next hring.start_lt] at hpop
    have hpred : (s.count - 1).toNat = l.length := by
      rw [toNat_pred (by omega), hcount, Nat.add_sub_cancel]
    obtain ⟨hnodup, hmem, hdead⟩ := ih (s := { s with
      data := Function.update s.data s.popIndex.toNat none
      popIndex := (s.popIndex + 1) % size
      count := s.count - 1 }) hpop hpred
    simp only at hmem
    rw [destroyLoop, if_neg hne]
    refine ⟨List.nodup_cons.mpr ⟨?_, hnodup⟩, fun i hi => ?_, hdead⟩
    · rw [hmem _ hring.start_lt, Function.update_self]
      exact Bool.false_ne_true
    · rw [List.mem_cons, hmem i hi]
      by_cases hhead : i = s.popIndex.toNat
      · simp [hhead, hring.get_start]
      · simp [hhead]

/-! ### The law -/

/-- The indices, the count, the live slots and the tokens agree, no section meets a slot in the
wrong state, and the destructor would destroy the live elements. -/
structure QueueLaw (size : UInt32) (s : Config T (Shared α) (Place α)) : Prop where
  index : s.shared.pushIndex.toNat =
    (s.shared.popIndex.toNat + s.shared.count.toNat) % size.toNat
  count_le : s.shared.count ≤ size
  live : ∀ i, i < size.toNat → ((s.shared.data i).isSome ↔
    ∃ j, j < s.shared.count.toNat ∧ i = (s.shared.popIndex.toNat + j) % size.toNat)
  slots : s.shared.openSlots + s.shared.fullSlots + total Place.inFlight s = size.toNat
  push : ∀ t op, s.pc t = .inside op → op.side = .push →
    s.shared.data s.shared.pushIndex.toNat = none
  pop : ∀ t op, s.pc t = .inside op → op.side = .pop →
    (s.shared.data s.shared.popIndex.toNat).isSome
  destroyed : (destroyLoop size s.shared).1.Nodup ∧
    (∀ i, i < size.toNat →
      (i ∈ (destroyLoop size s.shared).1 ↔ (s.shared.data i).isSome)) ∧
    ∀ i, i < size.toNat → (destroyLoop size s.shared).2.data i = none

lemma Inv.queueLaw {size : UInt32} {s : Config T (Shared α) (Place α)} {l : List α}
    (h : Inv size s l) : QueueLaw size s := by
  have hcount := h.count
  refine ⟨?_, ?_, ?_, ?_, fun t op hp hop => (h.get_pushIndex hp hop).2, fun t op hp hop => ?_,
    destroyLoop_spec h.ring h.count⟩
  · rw [hcount]
    exact h.index
  · rw [UInt32.le_iff_toNat_le, hcount]
    exact h.ring.length_le
  · rw [hcount]
    exact fun i hi => h.ring.isSome_iff hi
  · have hsplit : total Place.inFlight s = total (Place.insideOf .push) s +
        total (Place.insideOf .pop) s + total (Place.postingOf .push) s +
        total (Place.postingOf .pop) s := by
      rw [total, total, total, total, total, ← tally_add, ← tally_add, ← tally_add]
      exact tally_congr fun t => (s.pc t).inFlight_eq
    have hopen := h.openSlots
    have hfull := h.fullSlots
    omega
  · obtain ⟨x, -, -, hx⟩ := h.get_popIndex hp hop
    rw [hx]
    rfl

variable [DecidableEq T]

/-- In every reachable state of a queue of any size and any number of threads. -/
theorem queue_law {size : UInt32} (hsize : size ≠ 0) {s : Config T (Shared α) (Place α)}
    (h : (code size).machine.Reachable (start size) s) : QueueLaw size s := by
  obtain ⟨l, hinv⟩ := Inv.of_reachable hsize h
  exact hinv.queueLaw

/-- In a queue of two slots, a `push` after its section, a `try_push` before it, and a `pop` that
waits. -/
theorem queue_law_three : ∃ s : Config (Fin 3) (Shared ℕ) (Place ℕ),
    (code 2).machine.Reachable (start 2) s ∧ s.pc 0 = .posting (.push 7) none ∧
      s.pc 1 = .inside (.tryPush 8) ∧ s.pc 2 = .entering .pop ∧ QueueLaw 2 s := by
  obtain ⟨s, hs, hp⟩ := Machine.exists_reachable_of_run (M := (code 2).machine)
    (s := (start 2 : Config (Fin 3) (Shared ℕ) (Place ℕ)))
    [(0, .call (.push 7)), (0, .proceed), (1, .call (.tryPush 8)), (2, .call .pop), (1, .proceed),
      (0, .proceed)]
    (fun s => s.pc 0 == .posting (.push 7) none && s.pc 1 == .inside (.tryPush 8) &&
      s.pc 2 == .entering .pop) (by decide +kernel)
  simp only [Bool.and_eq_true, beq_iff_eq, and_assoc] at hp
  exact ⟨s, hs, hp.1, hp.2.1, hp.2.2, queue_law (by decide) hs⟩

end Blocking

end Queue

end Sync
