import SyncLib.Core.Baton

/-!
# Threads that run until they sleep

Every place of a thread has a rank, and the shared state a level. When each thread that has not
settled can take a step that lowers its rank and the level by more than a notification raises the
rank of the sleeper that it reaches, all threads settle.
-/

namespace Core

/-- What a signal to at most one sleeper adds to the ranks. -/
def Signal.raise {χ : Type*} (gain : ℕ) : Signal χ → ℕ
  | .one _ => gain
  | _      => 0

namespace Monitor

variable {T σ π χ ι : Type*} [Fintype T] [DecidableEq T] [DecidableEq χ] {M : Monitor T σ π χ ι}
  {s : Config T σ π} {level : σ → ℕ} {rank : π → ℕ} {gain : ℕ}

/-- A signal can be delivered, and raises the rank of at most one thread. -/
lemma exists_deliver {sig : Signal χ} (hall : ∀ c, sig ≠ .all c)
    (hwake : ∀ p, rank (M.wake p) ≤ rank p + gain) :
    ∃ w s', M.deliver s sig w = some s' ∧ tally rank s'.pc ≤ tally rank s.pc + sig.raise gain := by
  cases sig with
  | none => exact ⟨none, s, rfl, le_rfl⟩
  | all c => exact absurd rfl (hall c)
  | one c =>
    by_cases hsleep : ∃ u, M.asleepOn (s.pc u) = some c
    · obtain ⟨u, hu⟩ := hsleep
      refine ⟨some u, { s with pc := Function.update s.pc u (M.wake (s.pc u)) }, if_pos hu, ?_⟩
      have hupdate := tally_update rank s.pc u (M.wake (s.pc u))
      have hle := hwake (s.pc u)
      simp only [Signal.raise]
      omega
    · refine ⟨none, s, if_pos (not_exists.mp hsleep), ?_⟩
      exact Nat.le_add_right _ _

/-- The rule for reaching a goal: until it is reached, some thread can take a step that `ok` admits
and that brings level and ranks down, and `I` is known of the states on the way. -/
theorem exists_runs_of_level {I G : Config T σ π → Prop} {ok : Config T σ π → Act T ι → Prop}
    (hwake : ∀ p, rank (M.wake p) ≤ rank p + gain)
    (hI : ∀ u a u', I u → ok u a → M.machine.step u a = some u' → I u')
    (hstep : ∀ u, I u → G u ∨ ∃ t m sh p sig, (∀ w, ok u ⟨t, m, w⟩) ∧ (∀ c, sig ≠ .all c) ∧
      M.next t u.shared (u.pc t) m = some (sh, p, sig) ∧
      level sh + rank p + sig.raise gain < level u.shared + rank (u.pc t))
    (hs : I s) : ∃ s', M.machine.Runs ok s s' ∧ I s' ∧ G s' := by
  refine Machine.exists_runs_of_progress (fun u => level u.shared + tally rank u.pc)
    (fun u hu => ?_) hs
  rcases hstep u hu with hgoal | ⟨t, m, sh, p, sig, hok, hall, hn, hlt⟩
  · exact .inl hgoal
  · right
    obtain ⟨w, u', hd, hle⟩ := exists_deliver (M := M)
      (s := ⟨sh, Function.update u.pc t p⟩) hall hwake
    have hs : M.machine.step u ⟨t, m, w⟩ = some u' := step_eq_some.mpr ⟨sh, p, sig, hn, hd⟩
    refine ⟨_, u', hok w, hs, hI _ _ _ hu (hok w) hs, ?_⟩
    have hupdate := tally_update rank u.pc t p
    rw [shared_of_deliver hd]
    simp only at hle ⊢
    omega

/-- The rule for settling: the steps of the threads that have not settled are moves that `ok`
admits. -/
theorem exists_runs_settled_of_level {I : Config T σ π → Prop} {ok : ι → Prop} {settled : π → Prop}
    (hwake : ∀ p, rank (M.wake p) ≤ rank p + gain)
    (hI : ∀ u a u', I u → ok a.move → M.machine.step u a = some u' → I u')
    (hstep : ∀ u t, I u → ¬ settled (u.pc t) → ∃ m sh p sig, ok m ∧ (∀ c, sig ≠ .all c) ∧
      M.next t u.shared (u.pc t) m = some (sh, p, sig) ∧
      level sh + rank p + sig.raise gain < level u.shared + rank (u.pc t))
    (hs : I s) :
    ∃ s', M.machine.Runs (fun _ a => ok a.move) s s' ∧ I s' ∧ ∀ t, settled (s'.pc t) := by
  have hprogress : ∀ u, I u → (∀ t, settled (u.pc t)) ∨ ∃ t m sh p sig,
      (Option T → ok m) ∧ (∀ c, sig ≠ .all c) ∧ M.next t u.shared (u.pc t) m = some (sh, p, sig) ∧
        level sh + rank p + sig.raise gain < level u.shared + rank (u.pc t) := by
    intro u hu
    by_cases hsettled : ∀ t, settled (u.pc t)
    · exact .inl hsettled
    · right
      obtain ⟨t, ht⟩ := not_forall.mp hsettled
      obtain ⟨m, sh, p, sig, hok, hrest⟩ := hstep u t hu ht
      exact ⟨t, m, sh, p, sig, fun _ => hok, hrest⟩
  exact exists_runs_of_level hwake hI hprogress hs

/-- The rule where the ranks are enough. -/
theorem exists_runs_settled {I : Config T σ π → Prop} {ok : ι → Prop} {settled : π → Prop}
    (hwake : ∀ p, rank (M.wake p) ≤ rank p + gain)
    (hI : ∀ u a u', I u → ok a.move → M.machine.step u a = some u' → I u')
    (hstep : ∀ u t, I u → ¬ settled (u.pc t) → ∃ m sh p sig, ok m ∧ (∀ c, sig ≠ .all c) ∧
      M.next t u.shared (u.pc t) m = some (sh, p, sig) ∧
      rank p + sig.raise gain < rank (u.pc t))
    (hs : I s) :
    ∃ s', M.machine.Runs (fun _ a => ok a.move) s s' ∧ I s' ∧ ∀ t, settled (s'.pc t) := by
  have hlevel : ∀ u t, I u → ¬ settled (u.pc t) → ∃ m sh p sig, ok m ∧ (∀ c, sig ≠ .all c) ∧
      M.next t u.shared (u.pc t) m = some (sh, p, sig) ∧
      (fun _ => 0) sh + rank p + sig.raise gain < (fun _ => 0) u.shared + rank (u.pc t) := by
    simpa only [Nat.zero_add] using hstep
  exact exists_runs_settled_of_level hwake hI hlevel hs

/-! ### Notifications of all sleepers -/

/-- Every signal can be delivered. -/
lemma exists_deliver_eq_some (sig : Signal χ) : ∃ w s', M.deliver s sig w = some s' := by
  cases sig with
  | none => exact ⟨none, s, rfl⟩
  | all c => exact ⟨none, _, rfl⟩
  | one c =>
    by_cases hsleep : ∃ u, M.asleepOn (s.pc u) = some c
    · obtain ⟨u, hu⟩ := hsleep
      exact ⟨some u, _, if_pos hu⟩
    · exact ⟨none, s, if_pos (not_exists.mp hsleep)⟩

/-- The rule where any number of sleepers may be notified: a step that brings the phase of its
thread down may signal what it likes, since a notification leaves the phases alone, and the ranks
are bounded. -/
theorem exists_runs_of_phase {I G : Config T σ π → Prop} {ok : ι → Prop} {phase : π → ℕ} {bound : ℕ}
    (hphase : ∀ p, phase (M.wake p) = phase p) (hrank : ∀ p, rank p ≤ bound)
    (hI : ∀ u a u', I u → ok a.move → M.machine.step u a = some u' → I u')
    (hstep : ∀ u, I u → G u ∨ ∃ t m sh p sig, ok m ∧
      M.next t u.shared (u.pc t) m = some (sh, p, sig) ∧ (phase p < phase (u.pc t) ∨
        phase p = phase (u.pc t) ∧ rank p < rank (u.pc t) ∧ sig = .none))
    (hs : I s) : ∃ s', M.machine.Runs (fun _ a => ok a.move) s s' ∧ I s' ∧ G s' := by
  -- the phases count for more than all ranks together
  refine Machine.exists_runs_of_progress
    (fun u => tally phase u.pc * (Fintype.card T * bound + 1) + tally rank u.pc) (fun u hu => ?_) hs
  rcases hstep u hu with hgoal | ⟨t, m, sh, p, sig, hok, hn, hless⟩
  · exact .inl hgoal
  · right
    obtain ⟨w, u', hd⟩ := exists_deliver_eq_some (M := M) (s := ⟨sh, Function.update u.pc t p⟩) sig
    have hs : M.machine.step u ⟨t, m, w⟩ = some u' := step_eq_some.mpr ⟨sh, p, sig, hn, hd⟩
    refine ⟨_, u', hok, hs, hI _ _ _ hu hok hs, ?_⟩
    have hsame : tally phase u'.pc = tally phase (Function.update u.pc t p) :=
      tally_congr fun v => apply_pc_of_deliver hphase hd v
    have hphases := tally_update phase u.pc t p
    have hranks := tally_update rank u.pc t p
    have hle : tally rank u'.pc ≤ Fintype.card T * bound := tally_le_card_mul fun v => hrank _
    rw [hsame]
    rcases hless with hlt | ⟨heq, hlt, rfl⟩
    · have hlt : tally phase (Function.update u.pc t p) + 1 ≤ tally phase u.pc := by omega
      have hmul := Nat.mul_le_mul_right (Fintype.card T * bound + 1) hlt
      rw [Nat.add_mul] at hmul
      omega
    · obtain ⟨-, rfl⟩ := deliver_none.mp hd
      have heq : tally phase (Function.update u.pc t p) = tally phase u.pc := by omega
      rw [heq]
      simp only
      omega

end Monitor

end Core
