import SyncLib.Core.Baton
import SyncLib.Core.Simulation

/-!
# Parts of a monitor

Code that calls the operations of an object contains the object: its threads are threads of the
object too, and what the object sees of a run of the whole is a run of the object. So whatever the
runs of a part have in common holds of the part inside of the whole.
-/

namespace Core

variable {T σ π χ ι σ₂ π₂ χ₂ ι₂ : Type*}

/-- The signal of a part, as a signal of the whole. -/
def Signal.map (f : χ₂ → χ) : Signal χ₂ → Signal χ
  | .none  => .none
  | .one c => .one (f c)
  | .all c => .all (f c)

/-- The condition variable that a signal is about. -/
def Signal.cond : Signal χ → Option χ
  | .none  => Option.none
  | .one c => some c
  | .all c => some c

lemma Signal.map_id (sig : Signal χ) : sig.map id = sig := by
  cases sig <;> rfl

@[simp] lemma Signal.cond_map (f : χ₂ → χ) (sig : Signal χ₂) :
    (sig.map f).cond = sig.cond.map f := by
  cases sig <;> rfl

/-- A signal of a part is not about what the part does not have. -/
lemma Signal.cond_map_ne {f : χ₂ → χ} {c : χ} (h : ∀ d, f d ≠ c) (sig : Signal χ₂) :
    (sig.map f).cond ≠ some c := by
  rw [cond_map]
  intro hc
  obtain ⟨d, -, hd⟩ := Option.map_eq_some_iff.mp hc
  exact h d hd

/-- The step `m` of a call of the monitor `M`. A thread that is still at the place `start` begins
the call, by the move `first`. -/
def Monitor.callStep [DecidableEq π₂] [DecidableEq ι₂] (M : Monitor T σ₂ π₂ χ₂ ι₂) (start : π₂)
    (first : ι₂) (t : T) (s : σ₂) (p : π₂) (m : ι₂) : Option (σ₂ × π₂ × Signal χ₂) :=
  if p = start ∧ m ≠ first then none else M.next t s p m

lemma Monitor.next_of_callStep [DecidableEq π₂] [DecidableEq ι₂] {M : Monitor T σ₂ π₂ χ₂ ι₂}
    {start : π₂} {first : ι₂} {t : T} {s : σ₂} {p : π₂} {m : ι₂} {r : σ₂ × π₂ × Signal χ₂}
    (h : M.callStep start first t s p m = some r) :
    (p = start → m = first) ∧ M.next t s p m = some r := by
  rw [callStep, Option.ite_none_left_eq_some] at h
  exact ⟨fun hp => by_contra fun hm => h.1 ⟨hp, hm⟩, h.2⟩

/-- The monitor `M` is a part of the monitor `W`: what the shared state and the places of `W` are
for `M`, and which of the condition variables belong to it. -/
structure Part (W : Monitor T σ π χ ι) (M : Monitor T σ₂ π₂ χ₂ ι₂) where
  shared : σ → σ₂
  place : π → π₂
  cond : χ₂ → χ
  asleepOn : ∀ p c, W.asleepOn p = some (cond c) ↔ M.asleepOn (place p) = some c
  wake : ∀ p c, W.asleepOn p = some (cond c) → place (W.wake p) = M.wake (place p)
  wake_other : ∀ p d, W.asleepOn p = some d → (∀ c, d ≠ cond c) → place (W.wake p) = place p
  /-- A step is one of the part, or the part does not see it. -/
  next : ∀ {t s p m s' p' sig}, W.next t s p m = some (s', p', sig) →
    (shared s' = shared s ∧ place p' = place p ∧ ∀ c, sig.cond ≠ some (cond c)) ∨
      ∃ m₂ sig₂, M.next t (shared s) (place p) m₂ = some (shared s', place p', sig₂) ∧
        sig = sig₂.map cond

namespace Part

variable {W : Monitor T σ π χ ι} {M : Monitor T σ₂ π₂ χ₂ ι₂}

/-- What the part sees of a configuration of the whole. -/
def config (P : Part W M) (s : Config T σ π) : Config T σ₂ π₂ :=
  ⟨P.shared s.shared, fun t => P.place (s.pc t)⟩

variable {P : Part W M} {s s' : Config T σ π}

section

variable [DecidableEq T]

lemma config_update {t : T} {sh : σ} {p : π} :
    P.config ⟨sh, Function.update s.pc t p⟩
      = ⟨P.shared sh, Function.update (P.config s).pc t (P.place p)⟩ := by
  refine congrArg (Config.mk _) (funext fun u => ?_)
  by_cases hu : u = t
  · subst hu
    simp
  · simp [config, hu]

end

variable [Fintype T] [DecidableEq T] [DecidableEq χ]

/-- The part does not see who is notified on a condition variable that it does not have. -/
lemma config_of_deliver_other {sig : Signal χ} {w : Option T} (hd : W.deliver s sig w = some s')
    (hsig : ∀ c, sig.cond ≠ some (P.cond c)) : P.config s' = P.config s := by
  have hother : ∀ p d, sig.cond = some d → W.asleepOn p = some d →
      P.place (W.wake p) = P.place p := by
    intro p d hd hp
    refine P.wake_other p d hp fun c hc => hsig c ?_
    rw [hd, hc]
  refine congrArg₂ Config.mk (congrArg _ (Monitor.shared_of_deliver hd)) (funext fun t => ?_)
  cases sig with
  | none =>
    obtain ⟨-, rfl⟩ := Monitor.deliver_none.mp hd
    rfl
  | all d =>
    obtain ⟨-, rfl⟩ := Monitor.deliver_all.mp hd
    simp only [Monitor.notify]
    split_ifs with hp
    · exact hother _ d rfl hp
    · rfl
  | one d =>
    cases w with
    | none =>
      simp only [Monitor.deliver, Option.ite_none_right_eq_some, Option.some.injEq] at hd
      rw [← hd.2]
    | some u =>
      simp only [Monitor.deliver, Option.ite_none_right_eq_some, Option.some.injEq] at hd
      obtain ⟨hp, rfl⟩ := hd
      by_cases ht : t = u
      · subst ht
        simpa only [Function.update_self] using hother _ d rfl hp
      · simp only [Function.update_of_ne ht]

variable [DecidableEq χ₂]

/-- A signal of the part notifies the same threads in the whole. -/
lemma deliver_config {sig : Signal χ₂} {w : Option T}
    (hd : W.deliver s (sig.map P.cond) w = some s') :
    M.deliver (P.config s) sig w = some (P.config s') := by
  cases sig with
  | none =>
    obtain ⟨rfl, rfl⟩ := Monitor.deliver_none.mp hd
    rfl
  | all c =>
    obtain ⟨rfl, rfl⟩ := Monitor.deliver_all.mp hd
    refine Monitor.deliver_all.mpr ⟨rfl, congrArg (Config.mk _) (funext fun t => ?_)⟩
    simp only [Monitor.notify, config, ← P.asleepOn]
    split_ifs with hp
    · exact (P.wake _ c hp).symm
    · rfl
  | one c =>
    cases w with
    | none =>
      simp only [Signal.map, Monitor.deliver, Option.ite_none_right_eq_some,
        Option.some.injEq] at hd ⊢
      obtain ⟨hnone, rfl⟩ := hd
      exact ⟨fun t ht => hnone t ((P.asleepOn _ c).mpr ht), rfl⟩
    | some u =>
      simp only [Signal.map, Monitor.deliver, Option.ite_none_right_eq_some,
        Option.some.injEq] at hd ⊢
      obtain ⟨hp, rfl⟩ := hd
      refine ⟨(P.asleepOn _ c).mp hp, congrArg (Config.mk _) (funext fun t => ?_)⟩
      by_cases ht : t = u
      · subst ht
        simp only [Function.update_self]
        exact (P.wake _ c hp).symm
      · simp only [Function.update_of_ne ht]
        rfl

/-- A step of the whole is a step of the part, or the part does not see it. -/
theorem step {a : Act T ι} (hs : W.machine.step s a = some s') :
    P.config s' = P.config s ∨
      ∃ m, M.machine.step (P.config s) ⟨a.tid, m, a.notified⟩ = some (P.config s') := by
  obtain ⟨sh, p, sig, hn, hd⟩ := Monitor.step_eq_some.mp hs
  rcases P.next hn with ⟨hsh, hp, hsig⟩ | ⟨m, sig₂, hm, rfl⟩
  · left
    rw [config_of_deliver_other hd hsig, config_update, hsh, hp,
      show P.place (s.pc a.tid) = (P.config s).pc a.tid from rfl, Function.update_eq_self]
    rfl
  · right
    refine ⟨m, Monitor.step_eq_some.mpr ⟨_, _, _, hm, ?_⟩⟩
    rw [← deliver_config hd, config_update]

/-- What the part sees of a run of the whole is a run of the part, all of whose steps satisfy what
the whole makes sure of. -/
theorem runs {s₀ : Config T σ π} {ok : Config T σ π → Act T ι → Prop}
    {ok₂ : Config T σ₂ π₂ → Act T ι₂ → Prop}
    (hok : ∀ s a s' b, W.machine.Runs ok s₀ s → ok s a → W.machine.step s a = some s' →
      M.machine.step (P.config s) b = some (P.config s') → ok₂ (P.config s) b)
    (h : W.machine.Runs ok s₀ s) : M.machine.Runs ok₂ (P.config s₀) (P.config s) := by
  obtain ⟨u, hu, rfl⟩ : ∃ u, M.machine.Runs ok₂ (P.config s₀) u ∧ P.config s = u := by
    refine h.simulate (R := fun s u => P.config s = u) rfl ?_
    rintro s a s' _ hruns - rfl hok' hs
    rcases step (P := P) hs with hsame | ⟨m, hm⟩
    · exact .inl hsame
    · exact .inr ⟨_, _, hok s a s' _ hruns hok' hs hm, hm, rfl⟩
  exact hu

theorem reachable {s₀ : Config T σ π} (h : W.machine.Reachable s₀ s) :
    M.machine.Reachable (P.config s₀) (P.config s) :=
  runs (P := P) (fun _ _ _ _ _ _ _ _ => trivial) h

end Part

end Core
