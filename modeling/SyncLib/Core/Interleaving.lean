import SyncLib.Core.Monitor

/-!
# Threads over a shared state

Threads that synchronise by steps on a shared state only: a step of a thread that has to wait is
not enabled. `Code` is what one thread does, `machine` the interleaving of all of them.
-/

namespace Core

/-- The code of the threads `T` over the shared state `σ`, with places `π` and moves `ι` that
resolve what the code leaves open. -/
structure Code (T σ π ι : Type*) where
  next : T → σ → π → ι → Option (σ × π)

namespace Code

variable {T σ π ι : Type*} [DecidableEq T]

/-- The interleaving of all threads. -/
def machine (C : Code T σ π ι) : Machine (Config T σ π) (T × ι) where
  step s a := (C.next a.1 s.shared (s.pc a.1) a.2).map fun r =>
    ⟨r.1, Function.update s.pc a.1 r.2⟩

variable {C : Code T σ π ι} {s s' : Config T σ π} {a : T × ι}

/-- A step of the interleaving is a step of one thread. -/
theorem step_eq_some : C.machine.step s a = some s' ↔
    ∃ sh p, C.next a.1 s.shared (s.pc a.1) a.2 = some (sh, p) ∧
      ⟨sh, Function.update s.pc a.1 p⟩ = s' := by
  simp [machine]

/-- What a place tells is the same for all threads after a step that keeps it. -/
lemma apply_update {β : Type*} {f : π → β} {pc : T → π} {t : T} {p : π} (h : f p = f (pc t))
    (u : T) : f (Function.update pc t p u) = f (pc u) := by
  by_cases hu : u = t
  · rw [hu, Function.update_self, h]
  · rw [Function.update_of_ne hu]

/-- What holds of all threads after a step: the one that moved is now at `p`. -/
lemma forall_update {P : T → π → Prop} {pc : T → π} {t : T} {p : π} (hp : P t p)
    (h : ∀ u, u ≠ t → P u (pc u)) : ∀ u, P u (Function.update pc t p u) :=
  (Function.forall_update_iff pc (p := P)).mpr ⟨hp, h⟩

/-- Some thread has a property after a step if the one that moved has it. -/
lemma exists_update_self {P : π → Prop} (pc : T → π) (t : T) {p : π} (hp : P p) :
    ∃ u, P (Function.update pc t p u) :=
  ⟨t, by rwa [Function.update_self]⟩

/-- Another thread that had a property still has it. -/
lemma exists_update {P : π → Prop} {pc : T → π} {t : T} (p : π) (ht : ¬ P (pc t))
    (h : ∃ u, P (pc u)) : ∃ u, P (Function.update pc t p u) := by
  obtain ⟨u, hu⟩ := h
  refine ⟨u, ?_⟩
  rwa [Function.update_of_ne]
  rintro rfl
  exact ht hu

/-! ### A thread that nobody interferes with -/

/-- Thread `t` by itself. -/
def alone (C : Code T σ π ι) (t : T) : Machine (σ × π) ι := ⟨fun s m => C.next t s.1 s.2 m⟩

/-- What a thread does by itself it can do in the interleaving, while the others stay where they
are. -/
theorem run_of_alone {t : T} {s : Config T σ π} {ms : List ι} {sh : σ} {p : π}
    (h : (C.alone t).run (s.shared, s.pc t) ms = some (sh, p)) :
    C.machine.run s (ms.map fun m => (t, m)) = some ⟨sh, Function.update s.pc t p⟩ := by
  induction ms generalizing s with
  | nil =>
    cases h
    rw [Function.update_eq_self]
    rfl
  | cons m ms ih =>
    rw [Machine.run_cons, Option.bind_eq_some_iff] at h
    obtain ⟨⟨sh₁, p₁⟩, hn, h⟩ := h
    have hstep : C.machine.step s (t, m) = some ⟨sh₁, Function.update s.pc t p₁⟩ :=
      step_eq_some.mpr ⟨sh₁, p₁, hn, rfl⟩
    have hrest := ih (s := ⟨sh₁, Function.update s.pc t p₁⟩)
      (by simpa only [Function.update_self] using h)
    rw [List.map_cons, Machine.run_cons, hstep, Option.bind_some, hrest, Function.update_idem]

end Code

end Core
