import SyncLib.Core.Interleaving

/-!
# Simulations

One machine simulates another one when every step of the second is a step of the first or is not
seen by it. A monitor can be looked at as code whose threads only act on a shared state: `View` is
what the shared state and the places look like, thread by thread.
-/

namespace Core

namespace Machine

variable {σ α τ β : Type*} {M : Machine σ α} {N : Machine τ β} {ok : σ → α → Prop}
  {ok' : τ → β → Prop} {s₀ s : σ} {u₀ : τ}

/-- What a relation that the steps of `M` keep, with a step of `N` or without one, says about whole
runs. -/
theorem Runs.simulate {R : σ → τ → Prop} (h₀ : R s₀ u₀)
    (hstep : ∀ s a s' u, M.Runs ok s₀ s → N.Runs ok' u₀ u → R s u → ok s a →
      M.step s a = some s' → R s' u ∨ ∃ b u', ok' u b ∧ N.step u b = some u' ∧ R s' u')
    (h : M.Runs ok s₀ s) : ∃ u, N.Runs ok' u₀ u ∧ R s u := by
  induction h with
  | refl => exact ⟨u₀, .refl, h₀⟩
  | tail hruns hok hs ih =>
    obtain ⟨u, hu, hR⟩ := ih
    rcases hstep _ _ _ u hruns hu hR hok hs with hR' | ⟨b, u', hok', hs', hR'⟩
    · exact ⟨u, hu, hR'⟩
    · exact ⟨u', hu.tail hok' hs', hR'⟩

/-- Fewer conditions admit more runs. -/
lemma Runs.mono {ok₂ : σ → α → Prop} (hok : ∀ s a, ok s a → ok₂ s a) (h : M.Runs ok s₀ s) :
    M.Runs ok₂ s₀ s := by
  induction h with
  | refl => exact .refl
  | tail _ hok' hs ih => exact ih.tail (hok _ _ hok') hs

/-- A condition that every step satisfies anyway. -/
lemma Runs.of_step {ok₂ : σ → α → Prop} (hok : ∀ s a s', M.step s a = some s' → ok₂ s a)
    (h : M.Runs ok s₀ s) : M.Runs ok₂ s₀ s := by
  induction h with
  | refl => exact .refl
  | tail _ _ hs ih => exact ih.tail (hok _ _ _ hs) hs

lemma Runs.reachable (h : M.Runs ok s₀ s) : M.Reachable s₀ s := h.mono fun _ _ _ => trivial

end Machine

/-- How the code `C` sees the threads of the monitor `M`. The places that a thread can be at satisfy
`fits`, and the steps that it takes there are `safe`. -/
structure View {T σ π χ ι τ ϖ κ : Type*} (M : Monitor T σ π χ ι) (C : Code T τ ϖ κ) where
  shared : σ → τ
  place : π → ϖ
  move : σ → π → ι → κ
  fits : π → Prop
  safe : T → σ → π → ι → Prop
  fits_wake : ∀ p, fits p → fits (M.wake p)
  place_wake : ∀ p, fits p → place (M.wake p) = place p
  fits_next : ∀ {t s p m s' p' sig}, fits p → M.next t s p m = some (s', p', sig) → fits p'
  /-- A step that is seen is a step of the code. -/
  next : ∀ {t s p m s' p' sig}, fits p → safe t s p m → M.next t s p m = some (s', p', sig) →
    (shared s' = shared s ∧ place p' = place p) ∨
      C.next t (shared s) (place p) (move s p m) = some (shared s', place p')

namespace View

variable {T σ π χ ι τ ϖ κ : Type*} {M : Monitor T σ π χ ι} {C : Code T τ ϖ κ}

/-- What the code sees of a configuration. -/
def config (V : View M C) (s : Config T σ π) : Config T τ ϖ :=
  ⟨V.shared s.shared, fun t => V.place (s.pc t)⟩

def Fits (V : View M C) (s : Config T σ π) : Prop := ∀ t, V.fits (s.pc t)

variable [DecidableEq T] {V : View M C} {s s' : Config T σ π}

lemma fits_update {t : T} {sh : σ} {p : π} (h : V.Fits s) (hp : V.fits p) :
    V.Fits ⟨sh, Function.update s.pc t p⟩ :=
  Code.forall_update (P := fun _ p => V.fits p) hp fun u _ => h u

lemma config_update {t : T} {sh : σ} {p : π} :
    V.config ⟨sh, Function.update s.pc t p⟩
      = ⟨V.shared sh, Function.update (V.config s).pc t (V.place p)⟩ := by
  refine congrArg (Config.mk _) (funext fun u => ?_)
  by_cases hu : u = t
  · subst hu
    simp
  · simp [config, hu]

variable [Fintype T] [DecidableEq χ]

lemma fits_deliver {sig : Signal χ} {w : Option T} (h : V.Fits s)
    (hd : M.deliver s sig w = some s') : V.Fits s' := by
  intro t
  rcases Monitor.pc_of_deliver hd t with ht | ht
  · rw [ht]
    exact h t
  · rw [ht]
    exact V.fits_wake _ (h t)

lemma config_deliver {sig : Signal χ} {w : Option T} (h : V.Fits s)
    (hd : M.deliver s sig w = some s') : V.config s' = V.config s := by
  refine congrArg₂ Config.mk (congrArg _ (Monitor.shared_of_deliver hd)) (funext fun t => ?_)
  rcases Monitor.pc_of_deliver hd t with ht | ht
  · rw [ht]
  · rw [ht, V.place_wake _ (h t)]

/-- A step of a thread of the monitor is a step of the same thread of the code, or is not seen. -/
theorem step {a : Act T ι} (h : V.Fits s) (hsafe : V.safe a.tid s.shared (s.pc a.tid) a.move)
    (hs : M.machine.step s a = some s') :
    V.Fits s' ∧ (V.config s' = V.config s ∨
      C.machine.step (V.config s) (a.tid, V.move s.shared (s.pc a.tid) a.move)
        = some (V.config s')) := by
  obtain ⟨sh, p, sig, hn, hd⟩ := Monitor.step_eq_some.mp hs
  have hfits : V.Fits ⟨sh, Function.update s.pc a.tid p⟩ :=
    fits_update h (V.fits_next (h a.tid) hn)
  refine ⟨fits_deliver hfits hd, ?_⟩
  rw [config_deliver hfits hd, config_update]
  rcases V.next (h a.tid) hsafe hn with ⟨hsh, hp⟩ | hk
  · left
    rw [hsh, hp, show V.place (s.pc a.tid) = (V.config s).pc a.tid from rfl,
      Function.update_eq_self]
    rfl
  · exact .inr (Code.step_eq_some.mpr ⟨_, _, hk, rfl⟩)

variable {s₀ : Config T σ π} {ok : Config T σ π → Act T ι → Prop}
  {ok' : Config T τ ϖ → T × κ → Prop}

/-- What the code sees of a run of the monitor is a run of the code. That the steps of the monitor
are safe may rest on what is known of the runs of the code. -/
theorem runs (h₀ : V.Fits s₀)
    (hsafe : ∀ s a, V.Fits s → M.machine.Runs ok s₀ s →
      C.machine.Runs ok' (V.config s₀) (V.config s) → ok s a →
      V.safe a.tid s.shared (s.pc a.tid) a.move)
    (hok : ∀ s a, ok s a → ok' (V.config s) (a.tid, V.move s.shared (s.pc a.tid) a.move))
    (h : M.machine.Runs ok s₀ s) :
    V.Fits s ∧ C.machine.Runs ok' (V.config s₀) (V.config s) := by
  obtain ⟨u, hu, hfits, rfl⟩ : ∃ u, C.machine.Runs ok' (V.config s₀) u ∧
      (V.Fits s ∧ V.config s = u) := by
    refine h.simulate (R := fun s u => V.Fits s ∧ V.config s = u) ⟨h₀, rfl⟩ ?_
    rintro s a s' _ hruns hcode ⟨hfits, rfl⟩ hok' hs
    obtain ⟨hfits', hsame | hstep⟩ := step hfits (hsafe s a hfits hruns hcode hok') hs
    · exact .inl ⟨hfits', hsame⟩
    · exact .inr ⟨_, _, hok s a hok', hstep, hfits', rfl⟩
  exact ⟨hfits, hu⟩

/-- The same where every step is safe. -/
theorem reachable (hsafe : ∀ t s p m, V.safe t s p m) (h₀ : V.Fits s₀)
    (h : M.machine.Reachable s₀ s) :
    V.Fits s ∧ C.machine.Reachable (V.config s₀) (V.config s) :=
  runs h₀ (fun _ _ _ _ _ _ => hsafe _ _ _ _) (fun _ _ _ => trivial) h

end View

end Core
