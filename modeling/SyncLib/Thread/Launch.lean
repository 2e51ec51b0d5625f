import Mathlib.Data.Sum.Basic
import SyncLib.Core.Ledger
import SyncLib.Core.Machine

/-!
# How a `thread` gets its function

The constructor of `thread` packs copies of the callable and of the arguments into a tuple on the
heap, releases the tuple to the new thread, and that thread takes it over, calls the callable and
frees the tuple. In between others may write to the variables that were passed as arguments.
`pthread_create` is taken to succeed. The callable gets the elements of the tuple as rvalues, and
may leave anything in them.
-/

namespace Sync

open Core

namespace Launch

/-! ### Tuples and threads -/

/-- `std::tuple<std::decay_t<Fn>, std::decay_t<Args>...>`. -/
structure Tup (F V : Type*) where
  f : F
  args : List V
  deriving DecidableEq, Repr

/-- Where a started thread is in `void_callable`. -/
inductive Stage
  /-- The tuple is a `void*` still. -/
  | entered
  | owning
  | calling
  | ended
  deriving DecidableEq, Repr

/-- A started thread, with the address that it was passed. -/
structure Routine where
  tuple : ℕ
  stage : Stage
  deriving DecidableEq, Repr

/-- The tuple that the thread has still to free. -/
def Routine.owned (r : Routine) : Option ℕ := if r.stage = .ended then none else some r.tuple

/-- A call of `std::invoke` by a started thread. -/
structure Call (F V : Type*) where
  thread : ℕ
  tup : Tup F V
  deriving DecidableEq, Repr

/-- The variables, the tuples on the heap, the tuples that the constructors `C` hold in their `ptr`,
and the started threads. The tuples as they were packed, the calls, and the addresses that were
freed are logs; `faulty` tells that a tuple was used that is not there. -/
structure State (C F L V : Type*) where
  store : L → V
  heap : ℕ → Option (Tup F V)
  ptr : C → Option ℕ
  started : ℕ
  routine : ℕ → Option Routine
  packed : List (Tup F V)
  calls : List (Call F V)
  freed : List ℕ
  faulty : Bool

/-- A step of a constructor, a write to a variable, or a step of a started thread; `left` is what
the call leaves in the tuple. -/
inductive Move (C F L V : Type*)
  | pack (c : C) (f : F) (args : List L)
  | create (c : C)
  | write (l : L) (v : V)
  | adopt (n : ℕ)
  | invoke (n : ℕ) (left : Tup F V)
  | finish (n : ℕ)

variable {C F L V : Type*}

namespace State

/-- The started thread `n` is at `stage` now. -/
def goTo (s : State C F L V) (n i : ℕ) (stage : Stage) : ℕ → Option Routine :=
  Function.update s.routine n (some ⟨i, stage⟩)

variable [DecidableEq C] [DecidableEq L]

def step (s : State C F L V) : Move C F L V → Option (State C F L V)
  | .pack c f args =>
    match s.ptr c with
    | none =>
      let tup : Tup F V := ⟨f, args.map s.store⟩
      some { s with
        heap := Function.update s.heap s.packed.length (some tup)
        ptr := Function.update s.ptr c (some s.packed.length)
        packed := s.packed ++ [tup] }
    | some _ => none
  | .create c =>
    match s.ptr c with
    | some i => some { s with
        ptr := Function.update s.ptr c none
        started := s.started + 1
        routine := s.goTo s.started i .entered }
    | none => none
  | .write l v => some { s with store := Function.update s.store l v }
  | .adopt n =>
    match s.routine n with
    | some ⟨i, .entered⟩ => some { s with routine := s.goTo n i .owning }
    | _ => none
  | .invoke n left =>
    match s.routine n with
    | some ⟨i, .owning⟩ =>
      match s.heap i with
      | some tup => some { s with
          routine := s.goTo n i .calling
          heap := Function.update s.heap i (some left)
          calls := ⟨n, tup⟩ :: s.calls }
      | none => some { s with faulty := true }
    | _ => none
  | .finish n =>
    match s.routine n with
    | some ⟨i, .calling⟩ =>
      match s.heap i with
      | some _ => some { s with
          routine := s.goTo n i .ended
          heap := Function.update s.heap i none
          freed := i :: s.freed }
      | none => some { s with faulty := true }
    | _ => none

end State

/-- Constructors, writes and started threads in any order. -/
def machine [DecidableEq C] [DecidableEq L] : Machine (State C F L V) (Move C F L V) := ⟨State.step⟩

/-- No thread has been started. -/
def start (store : L → V) : State C F L V :=
  ⟨store, fun _ => none, fun _ => none, 0, fun _ => none, [], [], [], false⟩

/-! ### Custody of the tuples -/

/-- The tuples as tokens, held by the constructors and by the started threads. -/
def ledger (s : State C F L V) : Ledger (C ⊕ ℕ) where
  issued := s.packed.length
  holder := Sum.elim s.ptr fun n => (s.routine n).bind Routine.owned
  given := []
  spent := s.freed

/-- The calls of one thread. -/
def callsOf (n : ℕ) (calls : List (Call F V)) : List (Tup F V) :=
  (calls.filter fun c => c.thread = n).map Call.tup

/-- The calls that a thread has made, when `tup` was packed for it. -/
def Stage.calls (tup : Option (Tup F V)) : Stage → List (Tup F V)
  | .entered | .owning => []
  | .calling | .ended  => tup.toList

@[simp] lemma callsOf_cons_self (n : ℕ) (tup : Tup F V) (calls : List (Call F V)) :
    callsOf n (⟨n, tup⟩ :: calls) = tup :: callsOf n calls := by
  simp [callsOf]

lemma callsOf_cons_of_ne {n m : ℕ} (h : m ≠ n) (tup : Tup F V) (calls : List (Call F V)) :
    callsOf n (⟨m, tup⟩ :: calls) = callsOf n calls := by
  simp [callsOf, h]

/-- What is known of the started threads: each one was passed a tuple of its own, and has called
what was packed into it. -/
structure Told (started : ℕ) (routine : ℕ → Option Routine) (packed : List (Tup F V))
    (calls : List (Call F V)) : Prop where
  fresh : ∀ n, started ≤ n → routine n = none
  tuple_lt : ∀ n r, routine n = some r → r.tuple < packed.length
  apart : ∀ n m r r', routine n = some r → routine m = some r' → r.tuple = r'.tuple → n = m
  calls : ∀ n, callsOf n calls =
    match routine n with
    | some r => r.stage.calls packed[r.tuple]?
    | none   => []

namespace Told

variable {started started' : ℕ} {routine : ℕ → Option Routine} {packed : List (Tup F V)}
  {calls calls' : List (Call F V)}

/-- Another tuple is packed. -/
lemma append (h : Told started routine packed calls) (tup : Tup F V) :
    Told started routine (packed ++ [tup]) calls := by
  refine ⟨h.fresh, fun n r hr => ?_, h.apart, fun n => ?_⟩
  · rw [List.length_append]
    exact (h.tuple_lt n r hr).trans_le (Nat.le_add_right _ _)
  · rw [h.calls n]
    cases hr : routine n with
    | none => rfl
    | some r =>
      simp only
      rw [List.getElem?_append_left (h.tuple_lt n r hr)]

/-- A thread goes on, or a new one begins. -/
lemma goTo (h : Told started routine packed calls) {n i : ℕ} {stage : Stage} (hn : n < started')
    (hle : started ≤ started') (hi : i < packed.length)
    (hown : ∀ m r, routine m = some r → r.tuple = i → m = n)
    (hself : callsOf n calls' = stage.calls packed[i]?)
    (hother : ∀ m, m ≠ n → callsOf m calls' = callsOf m calls) :
    Told started' (Function.update routine n (some ⟨i, stage⟩)) packed calls' := by
  refine ⟨fun m hm => ?_, fun m r hr => ?_, fun m m' r r' hr hr' heq => ?_, fun m => ?_⟩
  · rw [Function.update_of_ne (hn.trans_le hm).ne']
    exact h.fresh m (hle.trans hm)
  · by_cases hm : m = n
    · subst hm
      rw [Function.update_self, Option.some.injEq] at hr
      rwa [← hr]
    · rw [Function.update_of_ne hm] at hr
      exact h.tuple_lt m r hr
  · by_cases hm : m = n
    · subst hm
      by_contra hne
      rw [Function.update_self, Option.some.injEq] at hr
      rw [Function.update_of_ne (Ne.symm hne)] at hr'
      exact hne (hown m' r' hr' (by rw [← heq, ← hr])).symm
    · rw [Function.update_of_ne hm] at hr
      by_cases hm' : m' = n
      · subst hm'
        rw [Function.update_self, Option.some.injEq] at hr'
        exact hown m r hr (by rw [heq, ← hr'])
      · rw [Function.update_of_ne hm'] at hr'
        exact h.apart m m' r r' hr hr' heq
  · by_cases hm : m = n
    · subst hm
      rw [Function.update_self]
      exact hself
    · rw [Function.update_of_ne hm, hother m hm]
      exact h.calls m

lemma lt_of_routine (h : Told started routine packed calls) {n : ℕ} {r : Routine}
    (hr : routine n = some r) : n < started := by
  by_contra hle
  rw [h.fresh n (not_lt.mp hle)] at hr
  cases hr

/-- What a thread has called. -/
lemma calls_eq (h : Told started routine packed calls) {n : ℕ} {r : Routine}
    (hr : routine n = some r) : callsOf n calls = r.stage.calls packed[r.tuple]? := by
  rw [h.calls n, hr]

end Told

/-- No thread has called what is in tuple `i`. -/
def Uncalled (routine : ℕ → Option Routine) (i : ℕ) : Prop :=
  ∀ n r, routine n = some r → r.tuple = i → r.stage = .entered ∨ r.stage = .owning

/-- Every tuple is with one owner until it is freed, as it was packed until it is called, and every
thread has called what was packed for it. -/
structure Inv (s : State C F L V) : Prop where
  balanced : (ledger s).Balanced
  heap : ∀ i, (s.heap i).isSome ↔ i < s.packed.length ∧ i ∉ s.freed
  intact : ∀ i, Uncalled s.routine i → s.heap i = s.packed[i]?
  told : Told s.started s.routine s.packed s.calls
  freed_iff : ∀ i, i ∈ s.freed ↔ ∃ n, s.routine n = some ⟨i, .ended⟩
  sound : s.faulty = false

variable {s s' : State C F L V}

lemma inv_start (store : L → V) : Inv (start store : State C F L V) := by
  refine ⟨?_, fun i => ?_, fun _ _ => rfl, ⟨fun _ _ => rfl, ?_, ?_, fun _ => rfl⟩, fun i => ?_, rfl⟩
  · constructor <;> simp [ledger, start]
  · simp [start]
  · intro n r hr
    cases hr
  · intro n m r r' hr
    cases hr
  · simp [start]

/-- A tuple that somebody owns is on the heap. -/
lemma Inv.exists_tup (h : Inv s) {o : C ⊕ ℕ} {i : ℕ} (ho : (ledger s).holder o = some i) :
    ∃ tup, s.heap i = some tup :=
  Option.isSome_iff_exists.mp ((h.heap i).mpr
    ⟨h.balanced.held_lt o i ho, List.count_eq_zero.mp (h.balanced.held ho).2.2⟩)

/-- The tuple that a constructor holds is not one of a started thread. -/
lemma Inv.tuple_ne_of_ptr (h : Inv s) {c : C} {n i : ℕ} (hc : s.ptr c = some i) {r : Routine}
    (hr : s.routine n = some r) : r.tuple ≠ i := by
  rintro rfl
  have hheld := h.balanced.held (o := .inl c) hc
  by_cases hended : r.stage = .ended
  · have hfreed : r.tuple ∈ s.freed := (h.freed_iff _).mpr ⟨n, by rw [hr, ← hended]⟩
    exact absurd hheld.2.2 (List.count_pos_iff.mpr hfreed).ne'
  · have hholds : (ledger s).holder (.inr n) = some r.tuple := by
      simp [ledger, hr, Routine.owned, hended]
    exact Sum.inl_ne_inr (h.balanced.eq_of_holder (o := .inl c) hc hholds)

/-- Who has ended, when a thread is at another stage now. -/
lemma ended_goTo {n i : ℕ} {stage : Stage} (hn : ∀ j, s.routine n ≠ some ⟨j, .ended⟩) (j : ℕ) :
    (∃ m, s.goTo n i stage m = some ⟨j, .ended⟩) ↔
      (j = i ∧ stage = .ended) ∨ ∃ m, s.routine m = some ⟨j, .ended⟩ := by
  constructor
  · rintro ⟨m, hm⟩
    by_cases hmn : m = n
    · subst hmn
      rw [State.goTo, Function.update_self, Option.some.injEq, Routine.mk.injEq] at hm
      exact .inl ⟨hm.1.symm, hm.2⟩
    · rw [State.goTo, Function.update_of_ne hmn] at hm
      exact .inr ⟨m, hm⟩
  · rintro (⟨rfl, rfl⟩ | ⟨m, hm⟩)
    · exact ⟨n, Function.update_self ..⟩
    · refine ⟨m, ?_⟩
      rw [State.goTo, Function.update_of_ne]
      · exact hm
      · rintro rfl
        exact hn j hm

/-- What is uncalled after a thread went on was uncalled before. -/
lemma Uncalled.of_goTo {n i j : ℕ} {stage : Stage} (h : Uncalled (s.goTo n i stage) j)
    (hn : ∀ r, s.routine n = some r → r.tuple = j → r.stage = .entered ∨ r.stage = .owning) :
    Uncalled s.routine j := by
  intro m r hr hj
  by_cases hm : m = n
  · subst hm
    exact hn r hr hj
  · refine h m r ?_ hj
    rw [State.goTo, Function.update_of_ne hm]
    exact hr

/-- Where a thread has called, what is uncalled is not its tuple and was uncalled before. -/
lemma Uncalled.of_goTo_called {n i j : ℕ} {stage stage' : Stage}
    (h : Uncalled (s.goTo n i stage') j) (hr : s.routine n = some ⟨i, stage⟩)
    (hstage' : stage' = .calling ∨ stage' = .ended) : j ≠ i ∧ Uncalled s.routine j := by
  have hne : j ≠ i := by
    rintro rfl
    rcases h n ⟨j, stage'⟩ (Function.update_self ..) rfl with heq | heq <;>
      rcases hstage' with rfl | rfl <;> cases heq
  refine ⟨hne, h.of_goTo fun r hr' hj => ?_⟩
  obtain rfl := Option.some.inj (hr.symm.trans hr')
  exact absurd hj hne.symm

lemma holder_goTo [DecidableEq C] (s : State C F L V) (ptr : C → Option ℕ) (n i : ℕ)
    (stage : Stage) : Sum.elim ptr (fun m => (s.goTo n i stage m).bind Routine.owned) =
      Function.update (Sum.elim ptr fun m => (s.routine m).bind Routine.owned) (.inr n)
        (Routine.owned ⟨i, stage⟩) := by
  rw [Sum.update_elim_inr]
  congr 1
  funext m
  by_cases hm : m = n
  · subst hm
    simp [State.goTo]
  · simp [State.goTo, Function.update_of_ne hm]

namespace Inv

variable [DecidableEq C] {c : C} {n i : ℕ}

/-- A constructor packs a tuple. -/
lemma pack (h : Inv s) (hc : s.ptr c = none) (tup : Tup F V) :
    Inv { s with
      heap := Function.update s.heap s.packed.length (some tup)
      ptr := Function.update s.ptr c (some s.packed.length)
      packed := s.packed ++ [tup] } := by
  have hlast : s.packed.length ∉ s.freed := fun hmem =>
    lt_irrefl _ (h.balanced.gone_lt _ (.inr hmem))
  refine ⟨?_, fun i => ?_, fun i hi => ?_, h.told.append tup, h.freed_iff, h.sound⟩
  · have hb := h.balanced.issue (o := .inl c) hc
    unfold ledger at hb ⊢
    rw [Sum.update_elim_inl] at hb
    rw [List.length_append]
    exact hb
  · simp only [List.length_append, List.length_singleton]
    by_cases hi : i = s.packed.length
    · subst hi
      rw [Function.update_self]
      exact iff_of_true rfl ⟨Nat.lt_succ_self _, hlast⟩
    · rw [Function.update_of_ne hi, h.heap i]
      exact and_congr_left fun _ => by omega
  · simp only
    by_cases hlen : i = s.packed.length
    · subst hlen
      simp
    · rw [Function.update_of_ne hlen, h.intact i hi, List.getElem?_append]
      split_ifs with hlt
      · rfl
      · rw [List.getElem?_eq_none (not_lt.mp hlt), List.getElem?_eq_none]
        rw [List.length_singleton]
        omega

/-- The tuple goes over to a new thread. -/
lemma create (h : Inv s) (hc : s.ptr c = some i) :
    Inv { s with
      ptr := Function.update s.ptr c none
      started := s.started + 1
      routine := s.goTo s.started i .entered } := by
  have hfresh := h.told.fresh s.started le_rfl
  have hcalls := h.told.calls s.started
  rw [hfresh] at hcalls
  have hnone' : ∀ j, s.routine s.started ≠ some ⟨j, .ended⟩ := by simp [hfresh]
  refine ⟨?_, h.heap, fun j hj => h.intact j (hj.of_goTo (by simp [hfresh])), ?_, fun j => ?_,
    h.sound⟩
  · have hb := h.balanced.exchange (.inl c) (.inr s.started)
    have hnone : (ledger s).holder (.inr s.started) = none := by simp [ledger, hfresh]
    have hsome : (ledger s).holder (.inl c) = some i := hc
    rw [hnone, hsome] at hb
    unfold ledger at hb ⊢
    rw [Sum.update_elim_inl] at hb
    rw [holder_goTo]
    exact hb
  · refine h.told.goTo (Nat.lt_succ_self _) (Nat.le_succ _) (h.balanced.held_lt (.inl c) i hc)
      (fun m r hr hi => absurd hi (h.tuple_ne_of_ptr hc hr)) hcalls fun _ _ => rfl
  · rw [h.freed_iff, ended_goTo hnone']
    simp

/-- The thread goes on with its tuple. -/
lemma goTo (h : Inv s) {stage stage' : Stage} {heap : ℕ → Option (Tup F V)}
    {calls : List (Call F V)} (hr : s.routine n = some ⟨i, stage⟩) (hstage : stage ≠ .ended)
    (hstage' : stage' ≠ .ended) (hheap : ∀ j, (heap j).isSome = (s.heap j).isSome)
    (hintact : ∀ j, Uncalled (s.goTo n i stage') j → heap j = s.packed[j]?)
    (hself : callsOf n calls = stage'.calls s.packed[i]?)
    (hother : ∀ m, m ≠ n → callsOf m calls = callsOf m s.calls) :
    Inv { s with routine := s.goTo n i stage', heap := heap, calls := calls } := by
  refine ⟨?_, fun j => ?_, hintact, ?_, fun j => ?_, h.sound⟩
  · have hb := h.balanced
    unfold ledger at hb ⊢
    rw [holder_goTo, Function.update_eq_self_iff.mpr]
    · exact hb
    · simp [hr, Routine.owned, hstage, hstage']
  · simp only
    rw [hheap]
    exact h.heap j
  · exact h.told.goTo (h.told.lt_of_routine hr) le_rfl (h.told.tuple_lt n _ hr)
      (fun m r hr' hi => h.told.apart m n r _ hr' hr hi) hself hother
  · rw [h.freed_iff, ended_goTo (by simp [hr, hstage])]
    simp [hstage']

lemma adopt (h : Inv s) (hr : s.routine n = some ⟨i, .entered⟩) :
    Inv { s with routine := s.goTo n i .owning } := by
  refine h.goTo hr (by simp) (by simp) (fun _ => rfl) (fun j hj => h.intact j (hj.of_goTo ?_))
    (h.told.calls_eq hr) fun _ _ => rfl
  simp [hr]

/-- The thread calls what was packed, whatever that leaves in the tuple. -/
lemma invoke (h : Inv s) (hr : s.routine n = some ⟨i, .owning⟩) {tup : Tup F V}
    (hheap : s.heap i = some tup) (left : Tup F V) :
    Inv { s with
      routine := s.goTo n i .calling
      heap := Function.update s.heap i (some left)
      calls := ⟨n, tup⟩ :: s.calls } := by
  have huncalled : Uncalled s.routine i := by
    intro m r hm hi
    obtain rfl := h.told.apart m n r _ hm hr hi
    obtain rfl := Option.some.inj (hr.symm.trans hm)
    exact .inr rfl
  refine h.goTo hr (by simp) (by simp) (fun j => ?_) (fun j hj => ?_) ?_ fun m hm =>
    callsOf_cons_of_ne (Ne.symm hm) tup s.calls
  · by_cases hj : j = i
    · rw [hj, Function.update_self, hheap]
      rfl
    · rw [Function.update_of_ne hj]
  · obtain ⟨hne, hj⟩ := hj.of_goTo_called hr (.inl rfl)
    rw [Function.update_of_ne hne]
    exact h.intact j hj
  · rw [callsOf_cons_self, h.told.calls_eq hr, ← h.intact i huncalled, hheap]
    rfl

/-- The thread frees its tuple and ends. -/
lemma finish (h : Inv s) (hr : s.routine n = some ⟨i, .calling⟩) :
    Inv { s with
      routine := s.goTo n i .ended
      heap := Function.update s.heap i none
      freed := i :: s.freed } := by
  have hholds : (ledger s).holder (.inr n) = some i := by simp [ledger, hr, Routine.owned]
  refine ⟨?_, fun j => ?_, fun j hj => ?_, ?_, fun j => ?_, h.sound⟩
  · have hb := h.balanced.spend hholds
    unfold ledger at hb ⊢
    rw [holder_goTo]
    exact hb
  · simp only
    by_cases hj : j = i
    · subst hj
      simp
    · rw [Function.update_of_ne hj, h.heap j]
      simp [hj]
  · obtain ⟨hne, hj⟩ := hj.of_goTo_called hr (.inr rfl)
    simp only
    rw [Function.update_of_ne hne]
    exact h.intact j hj
  · exact h.told.goTo (h.told.lt_of_routine hr) le_rfl (h.told.tuple_lt n _ hr)
      (fun m r hr' hi => h.told.apart m n r _ hr' hr hi) (h.told.calls_eq hr) fun _ _ => rfl
  · rw [List.mem_cons, h.freed_iff, ended_goTo (by simp [hr])]
    simp

variable [DecidableEq L]

theorem step (h : Inv s) {m : Move C F L V} (hs : machine.step s m = some s') : Inv s' := by
  change s.step m = some s' at hs
  cases m with
  | pack c f args =>
    cases hc : s.ptr c with
    | none =>
      simp only [State.step, hc, Option.some.injEq] at hs
      subst hs
      exact h.pack hc _
    | some i => simp [State.step, hc] at hs
  | create c =>
    cases hc : s.ptr c with
    | none => simp [State.step, hc] at hs
    | some i =>
      simp only [State.step, hc, Option.some.injEq] at hs
      subst hs
      exact h.create hc
  | write l v =>
    cases hs
    exact ⟨h.balanced, h.heap, h.intact, h.told, h.freed_iff, h.sound⟩
  | adopt n =>
    simp only [State.step] at hs
    split at hs
    · rename_i i hr
      cases hs
      exact h.adopt hr
    · cases hs
  | invoke n left =>
    simp only [State.step] at hs
    split at hs
    · rename_i i hr
      have hholds : (ledger s).holder (.inr n) = some i := by simp [ledger, hr, Routine.owned]
      obtain ⟨tup, hheap⟩ := h.exists_tup hholds
      simp only [hheap, Option.some.injEq] at hs
      subst hs
      exact h.invoke hr hheap left
    · cases hs
  | finish n =>
    simp only [State.step] at hs
    split at hs
    · rename_i i hr
      have hholds : (ledger s).holder (.inr n) = some i := by simp [ledger, hr, Routine.owned]
      obtain ⟨tup, hheap⟩ := h.exists_tup hholds
      simp only [hheap, Option.some.injEq] at hs
      subst hs
      exact h.finish hr
    · cases hs

end Inv

/-! ### The law -/

/-- What becomes of the tuples and of the threads. -/
structure Law (s : State C F L V) : Prop where
  /-- No thread uses a tuple that has been freed. -/
  sound : s.faulty = false
  /-- A tuple is with one constructor or thread, or it has been freed once. -/
  tuples : ∀ i < s.packed.length,
    (∃! o, (ledger s).holder o = some i) ∧ (s.heap i).isSome ∧ s.freed.count i = 0 ∨
      (∀ o, (ledger s).holder o ≠ some i) ∧ s.heap i = none ∧ s.freed.count i = 1
  /-- Until its thread calls, it is as it was packed. -/
  intact : ∀ i, Uncalled s.routine i → s.heap i = s.packed[i]?
  /-- Two threads have two tuples. -/
  apart : ∀ n m r r', s.routine n = some r → s.routine m = some r' → r.tuple = r'.tuple → n = m
  /-- A thread calls once, and what was packed for it. -/
  called : ∀ n r, s.routine n = some r → ∃ tup, s.packed[r.tuple]? = some tup ∧
    callsOf n s.calls = if r.stage = .calling ∨ r.stage = .ended then [tup] else []
  /-- A thread frees its tuple when it ends, and not before. -/
  freed : ∀ n r, s.routine n = some r → (r.tuple ∈ s.freed ↔ r.stage = .ended)
  /-- When nobody is under way, nothing is left on the heap, and everything that was packed has been
  called by one thread. -/
  at_rest : (∀ c, s.ptr c = none) → (∀ n r, s.routine n = some r → r.stage = .ended) →
    (∀ i, s.heap i = none) ∧ ∀ i (hi : i < s.packed.length),
      ∃! n, callsOf n s.calls = [s.packed[i]] ∧ ∃ r, s.routine n = some r ∧ r.tuple = i

namespace Inv

lemma freed_iff_ended (h : Inv s) {n : ℕ} {r : Routine} (hr : s.routine n = some r) :
    r.tuple ∈ s.freed ↔ r.stage = .ended := by
  rw [h.freed_iff]
  constructor
  · rintro ⟨m, hm⟩
    obtain rfl := h.told.apart m n _ r hm hr rfl
    rw [hr, Option.some.injEq] at hm
    rw [hm]
  · intro hended
    exact ⟨n, by rw [hr, ← hended]⟩

lemma called (h : Inv s) {n : ℕ} {r : Routine} (hr : s.routine n = some r) :
    ∃ tup, s.packed[r.tuple]? = some tup ∧
      callsOf n s.calls = if r.stage = .calling ∨ r.stage = .ended then [tup] else [] := by
  have hlt := h.told.tuple_lt n r hr
  have hcalls := h.told.calls_eq hr
  rw [List.getElem?_eq_getElem hlt] at hcalls ⊢
  refine ⟨_, rfl, ?_⟩
  rw [hcalls]
  cases r.stage <;> rfl

/-- Everything has been freed, by a thread that has called it. -/
lemma at_rest (h : Inv s) (hptr : ∀ c, s.ptr c = none)
    (hended : ∀ n r, s.routine n = some r → r.stage = .ended) :
    (∀ i, s.heap i = none) ∧ ∀ i (hi : i < s.packed.length),
      ∃! n, callsOf n s.calls = [s.packed[i]] ∧ ∃ r, s.routine n = some r ∧ r.tuple = i := by
  have hnone : ∀ o i, (ledger s).holder o ≠ some i := by
    rintro (c | n) i ho
    · simp [ledger, hptr c] at ho
    · obtain ⟨r, hr, howned⟩ := Option.bind_eq_some_iff.mp ho
      simp [Routine.owned, hended n r hr] at howned
  have hfreed : ∀ i < s.packed.length, i ∈ s.freed := by
    intro i hi
    rcases h.balanced.accounted i hi with hheld | ⟨-, ⟨hgiven, -⟩ | ⟨-, hcount⟩⟩
    · obtain ⟨o, ho, -⟩ := hheld.1
      exact absurd ho (hnone o i)
    · cases hgiven
    · exact List.count_pos_iff.mp (hcount ▸ Nat.one_pos)
  refine ⟨fun i => ?_, fun i hi => ?_⟩
  · rw [← Option.not_isSome_iff_eq_none, h.heap i]
    rintro ⟨hlt, hmem⟩
    exact hmem (hfreed i hlt)
  · obtain ⟨n, hn⟩ := (h.freed_iff i).mp (hfreed i hi)
    refine ⟨n, ⟨?_, _, hn, rfl⟩, ?_⟩
    · rw [h.told.calls_eq hn, List.getElem?_eq_getElem hi]
      rfl
    · rintro m ⟨-, r, hr, hri⟩
      exact h.told.apart m n r _ hr hn hri

lemma law (h : Inv s) : Law s := by
  refine ⟨h.sound, fun i hi => ?_, h.intact, h.told.apart, fun n r => h.called,
    fun n r => h.freed_iff_ended, h.at_rest⟩
  rcases h.balanced.accounted i hi with ⟨howner, -, hcount⟩ | ⟨hnone, hgone⟩
  · exact .inl ⟨howner, (h.heap i).mpr ⟨hi, List.count_eq_zero.mp hcount⟩, hcount⟩
  · rcases hgone with ⟨hgiven, -⟩ | ⟨-, hcount⟩
    · cases hgiven
    · have hfreed : i ∈ s.freed := List.count_pos_iff.mp (hcount ▸ Nat.one_pos)
      refine .inr ⟨hnone, ?_, hcount⟩
      rw [← Option.not_isSome_iff_eq_none, h.heap i]
      exact fun hheap => hheap.2 hfreed

end Inv

/-- In every order of the steps of constructors and started threads, and of writes to the variables:
every tuple is freed once, by the thread that it was packed for, after that thread has called the
callable once, on the values that the arguments had when they were packed. -/
theorem launch_law [DecidableEq C] [DecidableEq L] {store : L → V}
    (h : machine.Reachable (start store : State C F L V) s) : Law s := by
  have hinv : Inv s := h.invariant (inv_start store) fun _ _ _ hu _ hs => hu.step hs
  exact hinv.law

/-- Two constructors pack the variable `0`, which is written to in between and afterwards. The
thread of the second one has moved its argument away and ended, and the first one has not started
its thread yet. -/
theorem launch_law_two : ∃ s : State (Fin 2) String ℕ ℕ, s.ptr 0 = some 0 ∧
    s.heap 0 = some ⟨"f", [1]⟩ ∧ s.heap 1 = none ∧ s.calls = [⟨0, "g", [2]⟩] ∧ Law s := by
  obtain ⟨s, hs, hp⟩ := Machine.exists_reachable_of_run
    (s := (start fun _ => 1 : State (Fin 2) String ℕ ℕ)) (M := machine)
    [.pack 0 "f" [0], .write 0 2, .pack 1 "g" [0], .write 0 3, .create 1, .adopt 0,
      .invoke 0 ⟨"g", [0]⟩, .finish 0]
    (fun s => s.ptr 0 == some 0 && s.heap 0 == some ⟨"f", [1]⟩ && s.heap 1 == none &&
      s.calls == [⟨0, "g", [2]⟩]) (by decide +kernel)
  simp only [Bool.and_eq_true, beq_iff_eq, and_assoc] at hp
  exact ⟨s, hp.1, hp.2.1, hp.2.2.1, hp.2.2.2, launch_law hs⟩

end Launch

end Sync
