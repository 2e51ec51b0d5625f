import SyncLib.Core.Monitor

/-!
# Threads that were notified

A monitor does not tell whether a thread that is awake was notified. `marked` is the same monitor
with a mark for the threads that were, as long as they have not gone on; without the marks its steps
are the steps of the monitor.
-/

namespace Core

namespace Monitor

variable {T σ π χ ι : Type*} {M : Monitor T σ π χ ι}

/-- The same threads with a mark each: a notification sets it, and the thread's next step takes it
away. -/
def marked (M : Monitor T σ π χ ι) : Monitor T σ (π × Bool) χ ι where
  next t s p m := (M.next t s p.1 m).map fun r => (r.1, (r.2.1, false), r.2.2)
  asleepOn p := M.asleepOn p.1
  wake p := (M.wake p.1, true)

/-- The threads without their marks. -/
def unmark (s : Config T σ (π × Bool)) : Config T σ π := ⟨s.shared, fun t => (s.pc t).1⟩

lemma marked_next {t : T} {sh sh' : σ} {p p' : π × Bool} {m : ι} {sig : Signal χ} :
    M.marked.next t sh p m = some (sh', p', sig) ↔
      M.next t sh p.1 m = some (sh', p'.1, sig) ∧ p'.2 = false := by
  simp only [marked, Option.map_eq_some_iff, Prod.mk.injEq]
  constructor
  · rintro ⟨⟨_, _, _⟩, hn, rfl, rfl, rfl⟩
    exact ⟨hn, rfl⟩
  · rintro ⟨hn, hmark⟩
    exact ⟨_, hn, rfl, Prod.ext rfl hmark.symm, rfl⟩

variable [DecidableEq χ]

lemma notify_fst [Fintype T] (c : χ) (p : π × Bool) :
    (M.marked.notify c p).1 = M.notify c p.1 := by
  have hasleep : M.marked.asleepOn p = M.asleepOn p.1 := rfl
  by_cases hp : M.asleepOn p.1 = some c
  · rw [notify, notify, hasleep, if_pos hp, if_pos hp]
    rfl
  · rw [notify, notify, hasleep, if_neg hp, if_neg hp]

variable [Fintype T] [DecidableEq T] {s s' : Config T σ (π × Bool)}

/-- A signal wakes the same threads with the marks as without. -/
lemma unmark_deliver {sig : Signal χ} {w : Option T}
    (h : M.marked.deliver s sig w = some s') : M.deliver (unmark s) sig w = some (unmark s') := by
  cases sig with
  | none =>
    obtain ⟨rfl, rfl⟩ := deliver_none.mp h
    rfl
  | all c =>
    obtain ⟨rfl, rfl⟩ := deliver_all.mp h
    refine deliver_all.mpr ⟨rfl, congrArg (Config.mk s.shared) (funext fun t => ?_)⟩
    exact (notify_fst c (s.pc t)).symm
  | one c =>
    cases w with
    | none =>
      simp only [deliver, Option.ite_none_right_eq_some, Option.some.injEq] at h ⊢
      obtain ⟨hnone, rfl⟩ := h
      exact ⟨hnone, rfl⟩
    | some u =>
      simp only [deliver, Option.ite_none_right_eq_some, Option.some.injEq] at h ⊢
      obtain ⟨hu, rfl⟩ := h
      refine ⟨hu, congrArg (Config.mk s.shared) (funext fun t => ?_)⟩
      by_cases ht : t = u
      · subst ht
        simp [unmark, marked]
      · simp [unmark, ht]

/-- The marks do not change what the threads do. -/
theorem step_unmark {a : Act T ι} (h : M.marked.machine.step s a = some s') :
    M.machine.step (unmark s) a = some (unmark s') := by
  obtain ⟨sh, p, sig, hn, hd⟩ := step_eq_some.mp h
  refine step_eq_some.mpr ⟨sh, p.1, sig, (marked_next.mp hn).1, ?_⟩
  have hpc : unmark ⟨sh, Function.update s.pc a.tid p⟩
      = ⟨sh, Function.update (unmark s).pc a.tid p.1⟩ := by
    refine congrArg (Config.mk sh) (funext fun t => ?_)
    by_cases ht : t = a.tid
    · subst ht
      simp
    · simp [unmark, ht]
  rw [← hpc]
  exact unmark_deliver hd

end Monitor

end Core
