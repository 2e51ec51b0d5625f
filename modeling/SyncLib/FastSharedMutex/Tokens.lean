import SyncLib.FastSharedMutex.Exclusion

/-!
# The tokens of `fast_shared_mutex`

No token is lost: a writer on `wrsem_` has readers ahead of it or its token is on the way, a reader
on `rdsem_` has a token, one on the way, or a writer ahead of it, and a mutex that nobody uses is as
it was at the start. Hence some thread can always go on.
-/

namespace Sync

open Core

namespace FastSharedMutex

variable {T : Type*} {s s' : Config T (Shared T) Place} {t : T}

namespace Place

lemma eq_reading {p : Place} (h : p.active ≠ 0) : p = .reading := by
  cases p <;> first | rfl | exact absurd rfl h

lemma eq_rdWait {p : Place} (h : p.waiting ≠ 0) : p = .rdWait := by
  cases p <;> first | rfl | exact absurd rfl h

lemma eq_paying {p : Place} (h : p.leaving ≠ 0) : p = .paying := by
  cases p <;> first | rfl | exact absurd rfl h

lemma eq_posting {p : Place} (h : p.waking ≠ 0) : p = .posting := by
  cases p <;> first | rfl | exact absurd rfl h

end Place

section

variable [Fintype T]

lemma exists_of_total {w : Place → ℕ} {q : Place} (hw : ∀ {p : Place}, w p ≠ 0 → p = q)
    (h : total w s ≠ 0) : ∃ t, s.pc t = q := by
  by_contra hno
  refine h (tally_eq_zero_iff.mpr fun t => ?_)
  by_contra hne
  exact hno ⟨t, hw hne⟩

namespace Inv

/-- Whoever waits on `wrsem_` without a token has readers that still have to leave. -/
lemma writer_waits (h : Inv s) (hp : s.pc t = .wrWait) (hzero : s.shared.wrsem = 0) :
    (∃ u, s.pc u = .reading) ∨ (0 < s.shared.rdsem ∧ ∃ u, s.pc u = .rdWait) ∨
      (∃ u, s.pc u = .paying) ∨ ∃ u, s.pc u = .posting := by
  obtain ⟨hdebt, htoken⟩ := h.balanced_inside .draining hp rfl rfl
  rw [hzero, Nat.add_zero] at htoken
  by_cases hpaid : s.shared.rdwait.toInt = 0
  · rw [if_pos hpaid] at htoken
    exact .inr (.inr (.inr (exists_of_total (w := Place.waking) Place.eq_posting (by omega))))
  · by_cases hactive : total Place.active s = 0
    · by_cases hleaving : total Place.leaving s = 0
      · have hwaiting := h.waiting
        refine .inr (.inl ⟨by omega, ?_⟩)
        exact exists_of_total (w := Place.waiting) Place.eq_rdWait (by omega)
      · exact .inr (.inr (.inl (exists_of_total Place.eq_paying hleaving)))
    · exact .inl (exists_of_total Place.eq_reading hactive)

/-- Where no writer has subtracted itself, no reader is behind a writer. -/
lemma behind_eq_zero (h : Inv s) {ph : Phase} (hph : phase s = some ph)
    (hsub : total Place.subtracted s = 0) : s.shared.behind = 0 := by
  have hb := h.balanced ph hph
  rw [h.subtracted_phase hph] at hsub
  cases ph with
  | out => exact hb.2.2.2.2
  | announced | draining | writing => cases hsub

/-- Where `wrmtx_` is free, every reader on `rdsem_` has a token. -/
lemma waiting_of_free (h : Inv s) (hfree : s.shared.owner = none) :
    total Place.waiting s = s.shared.rdsem := by
  have hpending := h.total_of_owner_none (fun _ => Place.pending_of_not_inside) hfree
  have hb := h.balanced .out (by rw [phase, hfree])
  have hwaiting := h.waiting
  rw [hpending, hb.2.2.2.2] at hwaiting
  exact hwaiting

/-- A mutex that nobody uses is as it was at the start. -/
lemma shared_eq_initial (h : Inv s) (htight : Tight s) (hidle : ∀ t, s.pc t = .idle) :
    s.shared = initial := by
  have hfree : s.shared.owner = none := by
    rw [Option.eq_none_iff_forall_ne_some]
    intro t ht
    have hin := htight t ht
    rw [hidle t] at hin
    cases hin
  have hwaiting := h.waiting_of_free hfree
  have hcount := h.rdcount
  obtain ⟨-, -, hzero, hwrsem, hbehind⟩ := h.balanced .out (by rw [phase, hfree])
  rw [total_idle rfl hidle] at hwaiting
  rw [total_idle rfl hidle, total_idle rfl hidle, total_idle rfl hidle] at hcount
  have hrdcount : s.shared.rdcount = longMax := Int64.toInt_inj.mp (by simpa using hcount)
  have hrdwait : s.shared.rdwait = 0 := Int64.toInt_inj.mp hzero
  cases hs : s.shared
  simp_all [initial]

end Inv

/-! ### Somebody can go on -/

/-- What a thread waits for is not there. -/
def Blocked (s : Config T (Shared T) Place) (t : T) : Prop :=
  s.pc t = .rdWait ∧ s.shared.rdsem = 0 ∨ s.pc t = .wrWait ∧ s.shared.wrsem = 0 ∨
    s.pc t = .locking ∧ s.shared.owner ≠ none

/-- One of the threads that have not finished is not blocked. -/
lemma Inv.exists_not_blocked (h : Inv s) (htight : Tight s) (hp : s.pc t ≠ .idle) :
    ∃ u, s.pc u ≠ .idle ∧ ¬ Blocked s u := by
  cases ho : s.shared.owner with
  | none =>
    refine ⟨t, hp, ?_⟩
    rintro (⟨hrd, hzero⟩ | ⟨hwr, -⟩ | ⟨-, hne⟩)
    · have hle := le_tally Place.waiting s.pc t
      have hwaiting := h.waiting_of_free ho
      rw [hrd] at hle
      simp only [Place.waiting, total] at hle hwaiting
      omega
    · have hown := h.owner t (by rw [hwr]; rfl)
      rw [ho] at hown
      cases hown
    · exact hne ho
  | some u =>
    have hin := htight u ho
    by_cases hblocked : Blocked s u
    · rcases hblocked with ⟨hrd, -⟩ | ⟨hwr, hzero⟩ | ⟨hl, -⟩
      · rw [hrd] at hin
        cases hin
      · -- the owner waits for readers, and one of them is not blocked
        rcases h.writer_waits hwr hzero with ⟨v, hv⟩ | ⟨hpos, v, hv⟩ | ⟨v, hv⟩ | ⟨v, hv⟩
        · exact ⟨v, by simp [hv], by simp [Blocked, hv]⟩
        · exact ⟨v, by simp [hv], by simp [Blocked, hv, hpos.ne']⟩
        · exact ⟨v, by simp [hv], by simp [Blocked, hv]⟩
        · exact ⟨v, by simp [hv], by simp [Blocked, hv]⟩
      · rw [hl] at hin
        cases hin
    · refine ⟨u, ?_, hblocked⟩
      intro hidle
      rw [hidle] at hin
      cases hin

end

variable [DecidableEq T]

/-- The call of a thread that is outside of the methods, and its next operation elsewhere. -/
def Place.move : Place → Move
  | .reading => .unlockShared
  | .writing => .unlock
  | _        => .proceed

lemma exists_next (hp : s.pc t ≠ .idle) (h : ¬ Blocked s t) :
    ∃ r, next t s.shared (s.pc t) (s.pc t).move = some r := by
  rw [Blocked, not_or, not_or] at h
  obtain ⟨hrd, hwr, hmtx⟩ := h
  cases hq : s.pc t with
  | idle => exact absurd hq hp
  | rdWait =>
    have hpos : 0 < s.shared.rdsem := Nat.pos_of_ne_zero fun hzero => hrd ⟨hq, hzero⟩
    exact ⟨_, if_pos hpos⟩
  | wrWait =>
    have hpos : 0 < s.shared.wrsem := Nat.pos_of_ne_zero fun hzero => hwr ⟨hq, hzero⟩
    exact ⟨_, if_pos hpos⟩
  | locking =>
    have hfree : s.shared.owner = none := by
      by_contra hne
      exact hmtx ⟨hq, hne⟩
    exact ⟨_, if_pos hfree⟩
  | reading | writing | paying | posting | subtracting | adding | restoring | releasing
  | unlocking => exact ⟨_, rfl⟩

lemma exists_step (hp : s.pc t ≠ .idle) (h : ¬ Blocked s t) :
    ∃ m s', code.machine.step s (t, m) = some s' := by
  obtain ⟨⟨sh, q⟩, hn⟩ := exists_next hp h
  exact ⟨_, _, Code.step_eq_some.mpr ⟨sh, q, hn, rfl⟩⟩

variable [Fintype T]

/-! ### The law -/

/-- Where the tokens of both semaphores are. -/
structure TokensLaw (s : Config T (Shared T) Place) : Prop where
  writer : ∀ t, s.pc t = .wrWait → s.shared.wrsem = 0 →
    (∃ u, s.pc u = .reading) ∨ (0 < s.shared.rdsem ∧ ∃ u, s.pc u = .rdWait) ∨
      (∃ u, s.pc u = .paying) ∨ ∃ u, s.pc u = .posting
  readers : total Place.waiting s - (s.shared.rdsem + total Place.pending s : ℤ) =
    s.shared.behind
  behind : (∀ t, (s.pc t).subtracted = 0) → s.shared.behind = 0
  unused : (∀ t, s.pc t = .idle) → s.shared.rdcount = longMax ∧ s.shared.rdwait = 0 ∧
    s.shared.rdsem = 0 ∧ s.shared.wrsem = 0
  live : (∃ t, s.pc t ≠ .idle) →
    ∃ t m s', s.pc t ≠ .idle ∧ code.machine.step s (t, m) = some s'

/-- With fewer than `2^31` threads that do not try, no token is lost in any run. -/
theorem tokens_law (hcard : Fintype.card T < 2 ^ 31)
    (h : code.machine.Runs NeverTries start s) : TokensLaw s := by
  obtain ⟨hinv, htight, htrying⟩ := Quiet.of_runs hcard h
  refine ⟨fun t => hinv.writer_waits, ?_, ?_, ?_, ?_⟩
  · rw [hinv.waiting]
    omega
  · intro hsub
    obtain ⟨ph, hph⟩ := htight.exists_phase fun t => Place.ne_restoring (htrying t)
    exact hinv.behind_eq_zero hph (tally_eq_zero_iff.mpr hsub)
  · intro hidle
    rw [hinv.shared_eq_initial htight hidle]
    exact ⟨rfl, rfl, rfl, rfl⟩
  · rintro ⟨t, ht⟩
    obtain ⟨u, hu, hfree⟩ := hinv.exists_not_blocked htight ht
    obtain ⟨m, s', hs⟩ := exists_step hu hfree
    exact ⟨u, m, s', hu, hs⟩

/-- A writer waits for a reader that left before the writer added it to `rdwait_`, and a second
reader waits behind the writer. -/
theorem tokens_law_three : ∃ s : Config (Fin 3) (Shared (Fin 3)) Place,
    code.machine.Runs NeverTries start s ∧ s.pc 0 = .paying ∧ s.pc 1 = .wrWait ∧
      s.pc 2 = .rdWait ∧ TokensLaw s := by
  have hrun : (code.machine.runWhile NeverTries (start : Config (Fin 3) (Shared (Fin 3)) Place)
      [(0, .lockShared), (1, .lock), (1, .proceed), (1, .proceed), (0, .unlockShared),
        (2, .lockShared), (1, .proceed)]).any
      (fun s => s.pc 0 == .paying && s.pc 1 == .wrWait && s.pc 2 == .rdWait) = true := by
    decide +kernel
  obtain ⟨s, hs, hp⟩ := Machine.exists_runs_of_runWhile _ _ hrun
  simp only [Bool.and_eq_true, beq_iff_eq, and_assoc] at hp
  exact ⟨s, hs, hp.1, hp.2.1, hp.2.2, tokens_law (by decide) hs⟩

end FastSharedMutex

end Sync
