import SyncLib.Queue.Blocking

/-!
# What the callers of a `blocking_queue` receive

The elements leave the ring in the order in which they were pushed, and `try_pop` hands each of
them to its caller. `pop` ends without a `return`, so the element that it has taken out is lost.
-/

namespace Sync

namespace Queue

open Core

namespace Blocking

variable {α T : Type*}

/-! ### Receipts -/

/-- An element that was removed: the thread that did it, and what its call has returned since. -/
structure Receipt (T α : Type*) where
  tid : T
  returned : Option (Result α)

/-- The queue and its threads, and the receipts in the order of the sections. They are not in the
code. -/
structure Traced (T α : Type*) where
  config : Config T (Shared α) (Place α)
  receipts : List (Receipt T α)

namespace Place

/-- What the last call returned. -/
def returned : Place α → Option (Result α)
  | .outside r => r
  | _          => none

/-- The variable `opt` of a thread after a section that removed an element. -/
def carries : Place α → Option (Option α)
  | .posting op opt => if op.side = .pop then some opt else none
  | _               => none

end Place

section

variable [DecidableEq T]

/-- The call of `t` that is under way has returned `r`. -/
def settle (t : T) (r : Option (Result α)) (l : List (Receipt T α)) : List (Receipt T α) :=
  l.map fun m => if m.tid = t ∧ m.returned.isNone then { m with returned := r } else m

/-- The receipts after thread `t` went from `p` to `q`. -/
def record (t : T) (p q : Place α) (l : List (Receipt T α)) : List (Receipt T α) :=
  match p with
  | .inside op    => if op.side = .pop then l ++ [⟨t, none⟩] else l
  | .posting op _ => if op.side = .pop then settle t q.returned l else l
  | _             => l

/-- The interleaving of the threads, with the receipts. -/
def tracing (size : UInt32) : Machine (Traced T α) (T × Move α) where
  step s a := ((code size).machine.step s.config a).map fun u =>
    ⟨u, record a.1 (s.config.pc a.1) (u.pc a.1) s.receipts⟩

def Traced.start (size : UInt32) : Traced T α := ⟨Blocking.start size, []⟩

/-- A step of the tracing machine is a step of one thread. -/
lemma step_of_tracing {size : UInt32} {s s' : Traced T α} {a : T × Move α}
    (hs : (tracing size).step s a = some s') :
    ∃ sh p, next size s.config.shared (s.config.pc a.1) a.2 = some (sh, p) ∧
      s' = ⟨⟨sh, Function.update s.config.pc a.1 p⟩,
        record a.1 (s.config.pc a.1) p s.receipts⟩ := by
  simp only [tracing, Option.map_eq_some_iff] at hs
  obtain ⟨u, hu, rfl⟩ := hs
  obtain ⟨sh, p, hn, rfl⟩ := Code.step_eq_some.mp hu
  exact ⟨sh, p, hn, by simp only [Function.update_self]⟩

end

/-! ### The law -/

/-- The elements are removed in the order in which they were pushed, and a call that has removed
one returns it. -/
structure DeliveryLaw (s : Traced T α) : Prop where
  removed : s.receipts.length = s.config.shared.popped.length
  order : s.config.shared.popped <+: s.config.shared.pushed
  delivered : ∀ (k : ℕ) (m : Receipt T α) r, s.receipts[k]? = some m → m.returned = some r →
    ∃ x, s.config.shared.popped[k]? = some x ∧ r = .item (some x)

/-- `try_push` returns `false` and `try_pop` nothing. -/
def Refused : Option (Result α) → Prop
  | some (.flag false) | some (.item none) => True
  | _                                     => False

/-- Along a run the elements are delivered, and a call that is refused has not been in its section
and leaves the queue as it is. -/
structure Delivers [DecidableEq T] (size : UInt32) (as : List (T × Move α)) : Prop where
  law : ∀ pre u, pre <+: as → (tracing size).run (.start size) pre = some u → DeliveryLaw u
  refused : ∀ pre a u v, pre ++ [a] <+: as → (tracing size).run (.start size) pre = some u →
    (tracing size).step u a = some v → Refused (v.config.pc a.1).returned →
    (∃ op, u.config.pc a.1 = .entering op) ∧ v.config.shared = u.config.shared

/-- The step is not the end of a `pop`. -/
def NotEndOfPop (s : Traced T α) (a : T × Move α) : Prop :=
  ∀ opt, s.config.pc a.1 ≠ .posting .pop opt

/-! ### What the receipts tell -/

variable [Fintype T]

/-- The elements that were removed are in the hands of the threads or have been returned. -/
structure Tracked (size : UInt32) (s : Traced T α) : Prop where
  inv : ∃ l, Inv size s.config l
  removed : s.receipts.length = s.config.shared.popped.length
  delivered : ∀ (k : ℕ) (m : Receipt T α) r, s.receipts[k]? = some m → m.returned = some r →
    ∃ x, s.config.shared.popped[k]? = some x ∧ r = .item (some x)
  pending : ∀ (k : ℕ) (m : Receipt T α), s.receipts[k]? = some m → m.returned = none →
    (s.config.pc m.tid).carries = some s.config.shared.popped[k]?
  carried : ∀ t opt, (s.config.pc t).carries = some opt →
    ∃ k : ℕ, s.receipts[k]? = some ⟨t, none⟩

namespace Tracked

variable {size : UInt32} {s s' : Traced T α}

lemma deliveryLaw (h : Tracked size s) : DeliveryLaw s := by
  obtain ⟨l, hinv⟩ := h.inv
  exact ⟨h.removed, ⟨l, hinv.history.symm⟩, h.delivered⟩

lemma start (hsize : size ≠ 0) [DecidableEq T] : Tracked size (Traced.start size : Traced T α) := by
  refine ⟨⟨[], Inv.start hsize⟩, rfl, ?_, ?_, ?_⟩
  · intro k m r hm
    cases hm
  · intro k m hm
    cases hm
  · intro t opt ht
    cases ht

variable [DecidableEq T]

/-- A step that removes no element and returns none. -/
lemma keep (h : Tracked size s) {t : T} {p : Place α} {sh : Shared α}
    (hinv : ∃ l, Inv size ⟨sh, Function.update s.config.pc t p⟩ l)
    (hpopped : sh.popped = s.config.shared.popped) (hp : (s.config.pc t).carries = none)
    (hq : p.carries = none) :
    Tracked size ⟨⟨sh, Function.update s.config.pc t p⟩, s.receipts⟩ := by
  have hcarries : ∀ u, (Function.update s.config.pc t p u).carries = (s.config.pc u).carries := by
    intro u
    by_cases hut : u = t
    · rw [hut, Function.update_self, hq, hp]
    · rw [Function.update_of_ne hut]
  refine ⟨hinv, ?_, ?_, ?_, ?_⟩
  · rw [hpopped]
    exact h.removed
  · rw [hpopped]
    exact h.delivered
  · intro k m hm hr
    rw [hpopped, hcarries]
    exact h.pending k m hm hr
  · intro u opt hu
    rw [hcarries] at hu
    exact h.carried u opt hu

/-- The section of `t` removes `x`. -/
lemma remove (h : Tracked size s) {t : T} {p : Place α} {sh : Shared α} {x : α}
    (hinv : ∃ l, Inv size ⟨sh, Function.update s.config.pc t p⟩ l)
    (hpopped : sh.popped = s.config.shared.popped ++ [x])
    (hp : (s.config.pc t).carries = none) (hq : p.carries = some (some x)) :
    Tracked size ⟨⟨sh, Function.update s.config.pc t p⟩, s.receipts ++ [⟨t, none⟩]⟩ := by
  have hold : ∀ {k : ℕ} {m : Receipt T α}, (s.receipts ++ [⟨t, none⟩])[k]? = some m →
      s.receipts[k]? = some m ∧ sh.popped[k]? = s.config.shared.popped[k]? ∨
        k = s.receipts.length ∧ m = ⟨t, none⟩ := by
    intro k m hm
    rcases lt_trichotomy k s.receipts.length with hk | rfl | hk
    · rw [List.getElem?_append_left hk] at hm
      rw [h.removed] at hk
      exact .inl ⟨hm, by rw [hpopped, List.getElem?_append_left hk]⟩
    · rw [List.getElem?_concat_length] at hm
      exact .inr ⟨rfl, (Option.some.inj hm).symm⟩
    · rw [List.getElem?_eq_none (by rw [List.length_append]; exact hk)] at hm
      cases hm
  refine ⟨hinv, ?_, ?_, ?_, ?_⟩
  · rw [hpopped, List.length_append, List.length_append, h.removed]
    rfl
  · intro k m r hm hr
    rcases hold hm with ⟨hm, heq⟩ | ⟨-, rfl⟩
    · rw [heq]
      exact h.delivered k m r hm hr
    · cases hr
  · intro k m hm hr
    rcases hold hm with ⟨hm, heq⟩ | ⟨rfl, rfl⟩
    · have hpend := h.pending k m hm hr
      -- whoever carries an element is not about to remove one
      have hne : m.tid ≠ t := by
        intro hmt
        rw [hmt, hp] at hpend
        cases hpend
      simp only
      rw [Function.update_of_ne hne, heq]
      exact hpend
    · simp only
      rw [Function.update_self, hq, hpopped, h.removed, List.getElem?_concat_length]
  · intro u opt hu
    by_cases hut : u = t
    · exact ⟨s.receipts.length, by rw [hut, List.getElem?_concat_length]⟩
    · simp only [Function.update_of_ne hut] at hu
      obtain ⟨k, hk⟩ := h.carried u opt hu
      have hlt := (List.getElem?_eq_some_iff.mp hk).1
      exact ⟨k, by rw [List.getElem?_append_left hlt, hk]⟩

/-- The call of `t` returns the element. -/
lemma deliver (h : Tracked size s) {t : T} {sh : Shared α} {opt : Option α}
    (hinv : ∃ l, Inv size ⟨sh, Function.update s.config.pc t (.outside (some (.item opt)))⟩ l)
    (hpopped : sh.popped = s.config.shared.popped) (hp : (s.config.pc t).carries = some opt) :
    Tracked size ⟨⟨sh, Function.update s.config.pc t (.outside (some (.item opt)))⟩,
      settle t (some (.item opt)) s.receipts⟩ := by
  have hsettle : ∀ {k : ℕ} {m' : Receipt T α},
      (settle t (some (.item opt)) s.receipts)[k]? = some m' →
      ∃ m, s.receipts[k]? = some m ∧ (m.tid = t ∧ m.returned = none ∧
        m' = ⟨t, some (.item opt)⟩ ∨ ¬ (m.tid = t ∧ m.returned = none) ∧ m' = m) := by
    intro k m' hm'
    simp only [settle, List.getElem?_map, Option.map_eq_some_iff, Option.isNone_iff_eq_none] at hm'
    obtain ⟨m, hm, rfl⟩ := hm'
    refine ⟨m, hm, ?_⟩
    split_ifs with hc
    · exact .inl ⟨hc.1, hc.2, by rw [hc.1]⟩
    · exact .inr ⟨hc, rfl⟩
  refine ⟨hinv, ?_, ?_, ?_, ?_⟩
  · rw [hpopped, settle, List.length_map]
    exact h.removed
  · intro k m' r hm' hr
    rw [hpopped]
    obtain ⟨m, hm, ⟨hmt, hnone, rfl⟩ | ⟨-, rfl⟩⟩ := hsettle hm'
    · cases hr
      have hpend := h.pending k m hm hnone
      rw [hmt, hp] at hpend
      have hk : k < s.config.shared.popped.length :=
        h.removed ▸ (List.getElem?_eq_some_iff.mp hm).1
      refine ⟨s.config.shared.popped[k], List.getElem?_eq_getElem hk, ?_⟩
      rw [Option.some.inj hpend, List.getElem?_eq_getElem hk]
    · exact h.delivered k _ r hm hr
  · intro k m' hm' hr
    rw [hpopped]
    obtain ⟨m, hm, ⟨-, -, rfl⟩ | ⟨hc, rfl⟩⟩ := hsettle hm'
    · cases hr
    · have hne : m'.tid ≠ t := fun hmt => hc ⟨hmt, hr⟩
      simp only
      rw [Function.update_of_ne hne]
      exact h.pending k _ hm hr
  · intro u opt' hu
    by_cases hut : u = t
    · simp only [hut, Function.update_self] at hu
      cases hu
    · simp only [Function.update_of_ne hut] at hu
      obtain ⟨k, hk⟩ := h.carried u opt' hu
      refine ⟨k, ?_⟩
      rw [settle, List.getElem?_map, hk, Option.map_some, if_neg (fun hc => hut hc.1)]

lemma inv_of_tracing (h : Tracked size s) {a : T × Move α}
    (hs : (tracing size).step s a = some s') : ∃ l, Inv size s'.config l := by
  simp only [tracing, Option.map_eq_some_iff] at hs
  obtain ⟨u, hu, rfl⟩ := hs
  obtain ⟨l, hinv⟩ := h.inv
  exact hinv.step hu

/-- Every step but the end of a `pop` keeps the elements accounted for. -/
theorem step (h : Tracked size s) {a : T × Move α} (hs : (tracing size).step s a = some s')
    (hok : NotEndOfPop s a) : Tracked size s' := by
  have hinv := h.inv_of_tracing hs
  obtain ⟨sh, p, hn, rfl⟩ := step_of_tracing hs
  obtain ⟨t, m⟩ := a
  simp only [NotEndOfPop] at hok hn hinv ⊢
  have heffect := Effect.of_next hn
  generalize hp : s.config.pc t = q at heffect ⊢
  cases heffect with
  | call r op => exact h.keep hinv rfl (by rw [hp]; rfl) rfl
  | wait op hw =>
    have hpopped : sh.popped = s.config.shared.popped := by
      cases hop : op.side <;>
        simp only [hop, wait, Option.ite_none_right_eq_some, Option.some.injEq] at hw <;>
        rw [← hw.2]
    exact h.keep hinv hpopped (by rw [hp]; rfl) rfl
  | refusePush x => exact h.keep hinv rfl (by rw [hp]; rfl) rfl
  | refusePop => exact h.keep hinv rfl (by rw [hp]; rfl) rfl
  | enter op =>
    have hcarries : (s.config.pc t).carries = none := by rw [hp]; rfl
    obtain ⟨l, hl⟩ := h.inv
    cases op with
    | push x | tryPush x => exact h.keep hinv rfl hcarries rfl
    | pop | tryPop =>
      obtain ⟨x, l', -, hx⟩ := hl.get_popIndex hp rfl
      refine h.remove (x := x) hinv ?_ hcarries ?_
      · simp [critical, popSection, hx]
      · simp [critical, Place.carries, hx, Op.side]
  | post op opt =>
    cases op with
    | push x | tryPush x => exact h.keep hinv rfl (by rw [hp]; rfl) rfl
    | pop => exact absurd hp (hok opt)
    | tryPop => exact h.deliver hinv rfl (by rw [hp]; rfl)

/-- The end of a `pop` returns nothing to the caller for an element that was removed. -/
lemma not_deliveryLaw (h : Tracked size s) {a : T × Move α}
    (hs : (tracing size).step s a = some s') (hok : ¬ NotEndOfPop s a) : ¬ DeliveryLaw s' := by
  obtain ⟨sh, p, hn, rfl⟩ := step_of_tracing hs
  obtain ⟨t, m⟩ := a
  simp only [NotEndOfPop, not_forall, not_not] at hok
  obtain ⟨opt, hp⟩ := hok
  simp only [hp] at hn ⊢
  cases m with
  | call | fail => cases hn
  | proceed =>
    obtain ⟨rfl, rfl⟩ := Prod.mk.inj (Option.some.inj hn)
    intro hlaw
    obtain ⟨k, hk⟩ := h.carried t opt (by rw [hp]; rfl)
    have hsettled : (settle t (some .missing) s.receipts)[k]? = some ⟨t, some .missing⟩ := by
      rw [settle, List.getElem?_map, hk]
      simp
    obtain ⟨x, -, hx⟩ := hlaw.delivered k _ .missing hsettled rfl
    cases hx

/-- A call that is refused leaves the queue as it is. -/
lemma refused (h : Tracked size s) {a : T × Move α} (hs : (tracing size).step s a = some s')
    (hr : Refused (s'.config.pc a.1).returned) :
    (∃ op, s.config.pc a.1 = .entering op) ∧ s'.config.shared = s.config.shared := by
  obtain ⟨sh, p, hn, rfl⟩ := step_of_tracing hs
  obtain ⟨t, m⟩ := a
  simp only [Function.update_self] at hn hr ⊢
  have heffect := Effect.of_next hn
  generalize hp : s.config.pc t = q at heffect ⊢
  cases heffect with
  | call | wait | enter => exact hr.elim
  | refusePush x => exact ⟨⟨_, rfl⟩, rfl⟩
  | refusePop => exact ⟨⟨_, rfl⟩, rfl⟩
  | post op opt =>
    cases op with
    | push | tryPush | pop => exact hr.elim
    | tryPop =>
      -- the thread carries the element that it removed
      have hcarries : (s.config.pc t).carries = some opt := by rw [hp]; rfl
      obtain ⟨k, hk⟩ := h.carried t opt hcarries
      have hpend := h.pending k _ hk rfl
      have hlt := (List.getElem?_eq_some_iff.mp hk).1
      rw [h.removed] at hlt
      simp only at hpend
      rw [hcarries, List.getElem?_eq_getElem hlt] at hpend
      cases hpend
      exact hr.elim

end Tracked

/-- In any run of any number of threads the elements that were removed are the first that were
pushed, each is returned to the caller that removed it, and refused calls leave the queue as it is,
exactly when no `pop` gets to its end. -/
theorem delivers_iff [DecidableEq T] {size : UInt32} (hsize : size ≠ 0) {as : List (T × Move α)}
    {s : Traced T α} (hrun : (tracing size).run (.start size) as = some s) :
    Delivers size as ↔ (tracing size).Admits NotEndOfPop (.start size) as := by
  have hlaw := Machine.forall_prefix_iff_admits_of_invariant (P := DeliveryLaw) hrun
    (Tracked.start hsize) (fun _ hu => hu.deliveryLaw) (fun _ _ _ hu hok hs => hu.step hs hok)
    fun _ _ _ hu hok hs => hu.not_deliveryLaw hs hok
  constructor
  · intro h
    exact hlaw.mp h.law
  · intro h
    refine ⟨hlaw.mpr h, fun pre a u v hpre hu hs hr => ?_⟩
    have hadm : (tracing size).Admits NotEndOfPop (.start size) pre := by
      intro pre' b w hpre' hw
      exact h pre' b w (hpre'.trans ((List.prefix_append _ _).trans hpre)) hw
    have htracked := hadm.invariant hu (Tracked.start hsize) fun _ _ _ hv hok hs => hv.step hs hok
    exact htracked.refused hs hr

/-- A push and a `pop` on a queue of one slot: `7` is removed, and the caller gets nothing. -/
theorem pop_delivers_nothing :
    ∃ s : Traced (Fin 1) ℕ, (tracing 1).run (.start 1)
        [(0, .call (.push 7)), (0, .proceed), (0, .proceed), (0, .proceed), (0, .call .pop),
          (0, .proceed), (0, .proceed), (0, .proceed)] = some s ∧
      s.config.shared.popped = [7] ∧ s.config.pc 0 = .outside (some .missing) ∧
      ¬ Delivers (T := Fin 1) (α := ℕ) 1
        [(0, .call (.push 7)), (0, .proceed), (0, .proceed), (0, .proceed), (0, .call .pop),
          (0, .proceed), (0, .proceed), (0, .proceed)] := by
  obtain ⟨s, hs, hp⟩ := Option.any_eq_true _ _ |>.mp (show Option.any
      (fun s : Traced (Fin 1) ℕ => s.config.shared.popped == [7] &&
        s.config.pc 0 == .outside (some .missing) &&
        s.receipts.map (·.returned) == [some .missing])
      ((tracing 1).run (.start 1) [(0, .call (.push 7)), (0, .proceed), (0, .proceed),
        (0, .proceed), (0, .call .pop), (0, .proceed), (0, .proceed), (0, .proceed)]) = true by
    decide +kernel)
  simp only [Bool.and_eq_true, beq_iff_eq, and_assoc] at hp
  obtain ⟨hpopped, hpc, hreceipts⟩ := hp
  refine ⟨s, hs, hpopped, hpc, fun h => ?_⟩
  obtain ⟨m, hm, hr⟩ : ∃ m, s.receipts = [m] ∧ m.returned = some .missing := by
    obtain ⟨m, hm, hr⟩ := List.map_eq_singleton_iff.mp hreceipts
    exact ⟨m, hm, hr⟩
  obtain ⟨x, -, hx⟩ := (h.law _ s (List.prefix_refl _) hs).delivered 0 m _ (by rw [hm]; rfl) hr
  cases hx

instance (s : Traced T α) (a : T × Move α) : Decidable (NotEndOfPop s a) := by
  unfold NotEndOfPop
  cases s.config.pc a.1 with
  | posting op opt =>
    cases op with
    | pop => exact isFalse fun h => h opt rfl
    | push | tryPush | tryPop => exact isTrue fun opt h => by cases h
  | outside | entering | inside => exact isTrue fun opt h => by cases h

/-- A push, a `try_pop`, and a `pop` that waits, on a queue of one slot: what is removed is
delivered. -/
theorem delivers_iff_tryPop :
    (tracing 1).Admits NotEndOfPop (.start 1 : Traced (Fin 2) ℕ)
        [(0, .call (.push 7)), (0, .proceed), (0, .proceed), (0, .proceed), (1, .call .pop),
          (0, .call .tryPop), (0, .proceed), (0, .proceed), (0, .proceed)] ∧
      Delivers (T := Fin 2) (α := ℕ) 1
        [(0, .call (.push 7)), (0, .proceed), (0, .proceed), (0, .proceed), (1, .call .pop),
          (0, .call .tryPop), (0, .proceed), (0, .proceed), (0, .proceed)] := by
  have hend : ((tracing 1).runWhile NotEndOfPop (.start 1 : Traced (Fin 2) ℕ)
      [(0, .call (.push 7)), (0, .proceed), (0, .proceed), (0, .proceed), (1, .call .pop),
        (0, .call .tryPop), (0, .proceed), (0, .proceed), (0, .proceed)]).isSome = true := by
    decide +kernel
  obtain ⟨s, hs⟩ := Option.isSome_iff_exists.mp hend
  obtain ⟨hrun, hadmits⟩ := Machine.run_of_runWhile hs
  exact ⟨hadmits, (delivers_iff (by decide) hrun).mpr hadmits⟩

end Blocking

end Queue

end Sync
