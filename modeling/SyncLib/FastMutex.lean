import SyncLib.Core.Interleaving

/-!
# `fast_mutex`

`state_` is `0` for a free mutex, `1` for one that is held, and `2` for one that is held and has
somebody asleep. A newcomer overwrites the `2` by its first exchange and restores it by the second
one, so a sleeper without the mark still has a thread under way that will wake it or be its
successor. The event is read as an auto-reset event.
-/

namespace Sync

open Core

namespace FastMutex

/-! ### The threads -/

inductive Place
  | idle
  /-- In `lock`, after an `exchange(1)` that did not return `0`. -/
  | contending
  /-- In `event_.wait()`. -/
  | waiting
  /-- In `lock`, after `event_.wait()`. -/
  | woken
  | holding
  /-- In `unlock`, after an `exchange(0)` that returned `2`. -/
  | signaling
  deriving DecidableEq, Repr

/-- A call, up to its first operation on `state_`, or the next operation of a call; `ok` is false
where the weak compare-exchange fails without a reason. -/
inductive Move
  | lock
  | tryLock (ok : Bool)
  | unlock
  | proceed
  deriving DecidableEq, Repr

/-- `state_` and the flag of `event_`. -/
structure Shared where
  state : ℕ
  signaled : Bool
  deriving DecidableEq, Repr

/-- The condition of the loop of `lock`. -/
def exchangeTwo (s : Shared) : Shared × Place :=
  ({ s with state := 2 }, if s.state ≠ 0 then .waiting else .holding)

/-- One operation on `state_` or `event_`. -/
def next (s : Shared) : Place → Move → Option (Shared × Place)
  | .idle, .lock => some ({ s with state := 1 }, if s.state ≠ 0 then .contending else .holding)
  | .contending, .proceed | .woken, .proceed => some (exchangeTwo s)
  | .waiting, .proceed => if s.signaled then some ({ s with signaled := false }, .woken) else none
  | .idle, .tryLock ok =>
    if ok ∧ s.state = 0 then some ({ s with state := 1 }, .holding) else some (s, .idle)
  | .holding, .unlock => some ({ s with state := 0 }, if s.state = 2 then .signaling else .idle)
  | .signaling, .proceed => some ({ s with signaled := true }, .idle)
  | _, _ => none

variable {T : Type*}

/-- All threads around one mutex. -/
def code : Code T Shared Place Move := ⟨fun _ => next⟩

def start : Config T Shared Place := ⟨⟨0, false⟩, fun _ => .idle⟩

/-! ### The law -/

/-- A thread that will execute its `exchange(2)`, or signal. -/
def Place.underWay : Place → Bool
  | .contending | .woken | .signaling => true
  | _                                 => false

/-- One thread holds the mutex when `state_` is not `0`, and as long as somebody sleeps without a
signal, the mark is set or somebody is under way. -/
structure Law (s : Config T Shared Place) : Prop where
  exclusive : ∀ t u, s.pc t = .holding → s.pc u = .holding → t = u
  held_iff : s.shared.state ≠ 0 ↔ ∃ t, s.pc t = .holding
  awake : ∀ t, s.pc t = .waiting → s.shared.signaled = false →
    s.shared.state = 2 ∨ ∃ u, (s.pc u).underWay = true

lemma law_start : Law (start : Config T Shared Place) := by
  constructor <;> simp [start]

variable [DecidableEq T] {s s' : Config T Shared Place}

namespace Law

/-- The mutex is taken by a thread that finds `state_` at `0`. -/
lemma take (h : Law s) (t : T) (hfree : s.shared.state = 0) {n : ℕ} (hn : n ≠ 0)
    (hawake : n = 2 ∨ (s.pc t).underWay = false) :
    Law ⟨{ s.shared with state := n }, Function.update s.pc t .holding⟩ := by
  have hnone : ∀ u, s.pc u ≠ .holding := by
    intro u hu
    exact h.held_iff.mpr ⟨u, hu⟩ hfree
  refine ⟨?_, ?_, ?_⟩
  · intro u v hu hv
    simp only at hu hv
    by_contra huv
    by_cases hut : u = t
    · rw [Function.update_of_ne (hut ▸ Ne.symm huv)] at hv
      exact hnone v hv
    · rw [Function.update_of_ne hut] at hu
      exact hnone u hu
  · exact ⟨fun _ => ⟨t, Function.update_self ..⟩, fun _ => hn⟩
  · intro u hu hs
    simp only at hu hs ⊢
    have hut : u ≠ t := by
      rintro rfl
      simp at hu
    rw [Function.update_of_ne hut] at hu
    rcases hawake with rfl | hunder
    · exact .inl rfl
    · have ht : ¬ (s.pc t).underWay = true := by simp [hunder]
      refine .inr (Code.exists_update (P := fun p : Place => p.underWay = true) _ ht ?_)
      apply (h.awake u hu hs).resolve_left
      simp [hfree]

/-- A step between places without the mutex. -/
lemma move (h : Law s) (t : T) (hp : s.pc t ≠ .holding) {p : Place} (hp' : p ≠ .holding)
    {sh : Shared} (hstate : sh.state ≠ 0 ↔ s.shared.state ≠ 0)
    (hawake : ∀ u, Function.update s.pc t p u = .waiting → sh.signaled = false →
      sh.state = 2 ∨ ∃ v, (Function.update s.pc t p v).underWay = true) :
    Law ⟨sh, Function.update s.pc t p⟩ := by
  have hiff : ∀ u, Function.update s.pc t p u = .holding ↔ s.pc u = .holding := by
    intro u
    by_cases hut : u = t
    · subst hut
      rw [Function.update_self]
      exact iff_of_false hp' hp
    · rw [Function.update_of_ne hut]
  refine ⟨?_, ?_, hawake⟩
  · simpa only [hiff] using h.exclusive
  · simpa only [hiff, hstate] using h.held_iff

/-- The holder gives the mutex back, and goes on to signal if it found the mark. -/
lemma release (h : Law s) {t : T} (hp : s.pc t = .holding) :
    Law ⟨{ s.shared with state := 0 },
      Function.update s.pc t (if s.shared.state = 2 then .signaling else .idle)⟩ := by
  have hnone : ∀ u, Function.update s.pc t (if s.shared.state = 2 then .signaling else .idle) u
      ≠ .holding := by
    refine Code.forall_update (P := fun _ p => p ≠ Place.holding) ?_ fun u hut hu => ?_
    · split_ifs <;> decide
    · exact hut (h.exclusive u t hu hp)
  refine ⟨fun u _ hu => absurd hu (hnone u), ?_, ?_⟩
  · exact ⟨fun h0 => absurd rfl h0, fun ⟨u, hu⟩ => absurd hu (hnone u)⟩
  · intro u hu hs
    simp only at hu hs ⊢
    right
    split_ifs at hu ⊢ with hmark
    · exact Code.exists_update_self (P := fun p : Place => p.underWay = true) _ _ rfl
    · -- without the mark the sleeper had somebody under way, who was not the holder
      have hut : u ≠ t := by
        rintro rfl
        simp at hu
      rw [Function.update_of_ne hut] at hu
      refine Code.exists_update (P := fun p : Place => p.underWay = true) _ (by rw [hp]; decide) ?_
      exact (h.awake u hu hs).resolve_left hmark

/-- The exchange of the loop sets the mark. -/
lemma exchangeTwo (h : Law s) (t : T) (hp : s.pc t ≠ .holding) :
    Law ⟨(FastMutex.exchangeTwo s.shared).1,
      Function.update s.pc t (FastMutex.exchangeTwo s.shared).2⟩ := by
  simp only [FastMutex.exchangeTwo]
  split_ifs with hfree
  · exact h.move t hp (by decide) (by simpa using hfree) fun _ _ _ => .inl rfl
  · rw [not_not] at hfree
    exact h.take t hfree (by decide) (.inl rfl)

theorem step (h : Law s) {a : T × Move} (hs : code.machine.step s a = some s') : Law s' := by
  obtain ⟨t, m⟩ := a
  obtain ⟨sh, p, hn, rfl⟩ := Code.step_eq_some.mp hs
  simp only [code] at hn ⊢
  rw [next.eq_def] at hn
  cases hp : s.pc t with
  | idle =>
    rw [hp] at hn
    cases m with
    | lock =>
      cases hn
      split_ifs with hfree
      · refine h.move t (by simp [hp]) (by decide) (by simpa using hfree) fun u _ _ => .inr ?_
        exact Code.exists_update_self (P := fun p : Place => p.underWay = true) _ _ rfl
      · rw [not_not] at hfree
        exact h.take t hfree (by decide) (.inr (by rw [hp]; rfl))
    | tryLock ok =>
      simp only at hn
      split_ifs at hn with hok
      · cases hn
        exact h.take t hok.2 (by decide) (.inr (by rw [hp]; rfl))
      · cases hn
        rw [← hp, Function.update_eq_self]
        exact h
    | unlock => cases hn
    | proceed => cases hn
  | contending =>
    rw [hp] at hn
    cases m with
    | proceed => cases hn; exact h.exchangeTwo t (by simp [hp])
    | _ => cases hn
  | woken =>
    rw [hp] at hn
    cases m with
    | proceed => cases hn; exact h.exchangeTwo t (by simp [hp])
    | _ => cases hn
  | waiting =>
    rw [hp] at hn
    cases m with
    | proceed =>
      simp only [Option.ite_none_right_eq_some, Option.some.injEq, Prod.mk.injEq] at hn
      obtain ⟨-, rfl, rfl⟩ := hn
      refine h.move t (by simp [hp]) (by decide) Iff.rfl fun u _ _ => .inr ?_
      exact Code.exists_update_self (P := fun p : Place => p.underWay = true) _ _ rfl
    | _ => cases hn
  | holding =>
    rw [hp] at hn
    cases m with
    | unlock =>
      cases hn
      exact h.release hp
    | _ => cases hn
  | signaling =>
    rw [hp] at hn
    cases m with
    | proceed =>
      cases hn
      exact h.move t (by simp [hp]) (by decide) Iff.rfl fun u _ hs => by simp at hs
    | _ => cases hn

end Law

/-- In every reachable state at most one thread holds the mutex, `state_` says whether one does,
and as long as a thread sleeps in `event_.wait()` without a signal, the mark is set, or somebody
will execute its `exchange(2)` after an `exchange(1)` or after its sleep, or somebody will
signal. -/
theorem sleeper_law (h : code.machine.Reachable start s) :
    (∀ t u, s.pc t = .holding → s.pc u = .holding → t = u) ∧
      (s.shared.state ≠ 0 ↔ ∃ t, s.pc t = .holding) ∧
      ∀ t, s.pc t = .waiting → s.shared.signaled = false →
        s.shared.state = 2 ∨ (∃ u, s.pc u = .contending) ∨ (∃ u, s.pc u = .woken) ∨
          ∃ u, s.pc u = .signaling := by
  have hlaw : Law s := h.invariant (I := Law) law_start fun _ _ _ hu _ hs => hu.step hs
  refine ⟨hlaw.exclusive, hlaw.held_iff, fun t ht hs => (hlaw.awake t ht hs).imp_right ?_⟩
  rintro ⟨u, hu⟩
  cases hp : s.pc u with
  | contending => exact .inl ⟨u, hp⟩
  | woken => exact .inr (.inl ⟨u, hp⟩)
  | signaling => exact .inr (.inr ⟨u, hp⟩)
  | idle | waiting | holding => rw [hp] at hu; cases hu

/-- The first of three threads holds the mutex, the second one sleeps, and the third one has just
erased the mark. -/
theorem sleeper_law_three : ∃ s : Config (Fin 3) Shared Place,
    code.machine.Reachable start s ∧ s.pc 1 = .waiting ∧ s.shared.state = 1 ∧
      (∀ t u, s.pc t = .holding → s.pc u = .holding → t = u) ∧
      (s.shared.state ≠ 0 ↔ ∃ t, s.pc t = .holding) ∧
      ∀ t, s.pc t = .waiting → s.shared.signaled = false →
        s.shared.state = 2 ∨ (∃ u, s.pc u = .contending) ∨ (∃ u, s.pc u = .woken) ∨
          ∃ u, s.pc u = .signaling := by
  obtain ⟨s, hs, hp⟩ := Machine.exists_reachable_of_run (M := code.machine)
    (s := (start : Config (Fin 3) Shared Place))
    [(0, .lock), (1, .lock), (1, .proceed), (2, .lock)]
    (fun s => s.pc 1 == .waiting && s.shared.state == 1) (by decide)
  simp only [Bool.and_eq_true, beq_iff_eq] at hp
  exact ⟨s, hs, hp.1, hp.2, sleeper_law hs⟩

end FastMutex

end Sync
