import SyncLib.FastSharedMutex.Steps

/-!
# Readers and writers of `fast_shared_mutex`

As long as no `try_lock` goes through its `return false` at the end, the owner of `wrmtx_` is in
one of the places that need it, and unless it is about to return there the books are balanced. Hence
the exclusion, for threads that do not use the two methods that try.
-/

namespace Sync

open Core

namespace FastSharedMutex

variable {T : Type*} {s s' : Config T (Shared T) Place} {t : T}

/-! ### The owner -/

/-- The owner of `wrmtx_` is inside. -/
def Tight (s : Config T (Shared T) Place) : Prop :=
  ∀ t, s.shared.owner = some t → (s.pc t).inside = true

lemma tight_start : Tight (start : Config T (Shared T) Place) := by
  intro t ht
  cases ht

/-- In a tight state the books are balanced, unless a `try_lock` is about to return false. -/
lemma Tight.exists_phase (ht : Tight s) (hr : ∀ t, s.pc t ≠ .restoring) :
    ∃ ph, phase s = some ph := by
  rw [phase]
  cases ho : s.shared.owner with
  | none => exact ⟨_, rfl⟩
  | some t =>
    have hin := ht t ho
    have hne := hr t
    simp only
    cases hp : s.pc t with
    | restoring => exact absurd hp hne
    | subtracting | adding | wrWait | writing | releasing | unlocking => exact ⟨_, rfl⟩
    | idle | reading | rdWait | paying | posting | locking => rw [hp] at hin; cases hin

lemma Method.inside_free (w : Method) : w.free.inside = true := by
  cases w <;> rfl

lemma Method.inside_blocked (w : Method) : w.blocked.inside = true := by
  cases w <;> rfl

/-- Who owns `wrmtx_` after an operation of thread `t`. -/
inductive Owns (t : T) (s : Shared T) (p : Place) (sh : Shared T) (q : Place) : Prop
  | outside (hp : p.inside = false) (hq : q.inside = false) (ho : sh.owner = s.owner)
  | inside (hp : p.inside = true) (hq : q.inside = true) (ho : sh.owner = s.owner)
  | claim (hq : q.inside = true) (ho : sh.owner = some t)
  | finish (ho : sh.owner = none)

lemma Op.owns {s sh : Shared T} {m : Move} {p q : Place} (h : Op t s m p sh q)
    (hp : p ≠ .restoring) : Owns t s p sh q := by
  cases h with
  | enter | divert | refuse | admitted | leave | depart | pay | payLast | post | begin | fail =>
    exact .outside rfl rfl rfl
  | claim | tryClaim => exact .claim rfl rfl
  | announce | addFree | drained | unlock | unlockAlone | release => exact .inside rfl rfl rfl
  | unopposed w => exact .inside rfl w.inside_free rfl
  | addBlocked w => exact .inside rfl w.inside_blocked rfl
  | restore => exact absurd rfl hp
  | finish => exact .finish rfl

/-! ### Threads that do not try -/

def Move.tries : Move → Bool
  | .tryLockShared | .tryLock _ => true
  | _                           => false

lemma Place.ne_restoring {p : Place} (h : p.trying = false) : p ≠ .restoring := by
  rintro rfl
  cases h

lemma Op.trying {s sh : Shared T} {m : Move} {p q : Place} (h : Op t s m p sh q)
    (hm : m.tries = false) (hp : p.trying = false) : q.trying = false := by
  cases h with
  | enter | divert | refuse | admitted | leave | depart | pay | payLast | post | begin | fail
  | claim | addFree | drained | restore | unlock | unlockAlone | release | finish => rfl
  | tryClaim => cases hm
  | announce w | unopposed w | addBlocked w =>
    cases w with
    | lock => rfl
    | tryLock => cases hp

/-! ### Readers and writers -/

section

variable [Fintype T]

lemma Inv.writing_eq (h : Inv s) {u : T} (ht : s.pc t = .writing) (hu : s.pc u = .writing) :
    u = t := by
  have hot := h.owner t (by rw [ht]; rfl)
  have hou := h.owner u (by rw [hu]; rfl)
  exact Option.some.inj (hou.symm.trans hot)

lemma Inv.not_reading (h : Inv s) (ht : s.pc t = .writing) (u : T) : s.pc u ≠ .reading := by
  intro hu
  obtain ⟨-, -, hactive, -⟩ := h.written ht
  have hle := le_tally Place.active s.pc u
  rw [hu] at hle
  simp only [Place.active, total] at hle hactive
  omega

/-- `rdcount_` is told by the readers and by whether a writer has subtracted itself. -/
lemma Inv.rdcount_eq (h : Inv s) :
    s.shared.rdcount.toInt = (if ∃ t, (s.pc t).subtracted = 1 then 0 else longMax.toInt) -
      (total Place.active s + total Place.waiting s) := by
  have hcount := h.rdcount
  have hle := h.subtracted_le
  split_ifs with hsub
  · obtain ⟨t, ht⟩ := hsub
    have hpos := le_tally Place.subtracted s.pc t
    have hone : total Place.subtracted s = 1 := by
      simp only [total] at hle ⊢
      omega
    rw [hone] at hcount
    omega
  · have hzero : total Place.subtracted s = 0 := by
      rw [total, tally_eq_zero_iff]
      intro t
      have hne : (s.pc t).subtracted ≠ 1 := fun ht => hsub ⟨t, ht⟩
      have hone := (s.pc t).subtracted_le
      omega
    rw [hzero] at hcount
    omega

end

variable [DecidableEq T]

/-! ### Runs -/

/-- Only the `return false` of `try_lock` leaves `wrmtx_` to a thread that is not inside. -/
lemma Tight.step (ht : Tight s) {a : T × Move} (hr : s.pc a.1 ≠ .restoring)
    (hs : code.machine.step s a = some s') : Tight s' := by
  obtain ⟨sh, q, hop, rfl⟩ := op_of_step hs
  intro u hu
  simp only at hu ⊢
  by_cases hua : u = a.1
  · subst hua
    rw [Function.update_self]
    cases hop.owns hr with
    | outside hp hq ho =>
      rw [ho] at hu
      rw [ht _ hu] at hp
      cases hp
    | inside hp hq ho => exact hq
    | claim hq ho => exact hq
    | finish ho =>
      rw [ho] at hu
      cases hu
  · rw [Function.update_of_ne hua]
    cases hop.owns hr with
    | outside hp hq ho => exact ht u (ho.symm.trans hu)
    | inside hp hq ho => exact ht u (ho.symm.trans hu)
    | claim hq ho =>
      rw [ho] at hu
      exact absurd (Option.some.inj hu).symm hua
    | finish ho =>
      rw [ho] at hu
      cases hu

/-- Only `lock`, `unlock`, `lock_shared` and `unlock_shared` are called. -/
def NeverTries (_ : Config T (Shared T) Place) (a : T × Move) : Prop := a.2.tries = false

instance (s : Config T (Shared T) Place) (a : T × Move) : Decidable (NeverTries s a) :=
  inferInstanceAs (Decidable (_ = _))

variable [Fintype T]

/-- The books are balanced, the owner is inside, and nobody tries. -/
structure Quiet (s : Config T (Shared T) Place) : Prop where
  inv : Inv s
  tight : Tight s
  trying : ∀ t, (s.pc t).trying = false

namespace Quiet

theorem of_runs (hcard : Fintype.card T < 2 ^ 31) (h : code.machine.Runs NeverTries start s) :
    Quiet s := by
  refine h.invariant (I := Quiet) ⟨.start, tight_start, fun _ => rfl⟩ ?_
  intro u a u' hu hok hs
  refine ⟨hu.inv.step hcard ?_ hs, hu.tight.step (Place.ne_restoring (hu.trying a.1)) hs, ?_⟩
  · intro htry
    rw [NeverTries, htry] at hok
    cases hok
  · obtain ⟨sh, q, hop, rfl⟩ := op_of_step hs
    refine Code.forall_update (P := fun _ (p : Place) => p.trying = false) ?_ fun t _ => hu.trying t
    exact hop.trying hok (hu.trying a.1)

end Quiet

/-! ### Exclusion -/

/-- A writer is alone, `rdcount_` is `LONG_MAX` or `0` less the readers that are active or wait,
the sum of `lock` does not overflow, and the narrowing in `unlock` is exact. -/
structure ExclusionLaw (s : Config T (Shared T) Place) : Prop where
  apart : ∀ t u, s.pc t = .writing → u ≠ t → s.pc u ≠ .writing ∧ s.pc u ≠ .reading
  rdcount : s.shared.rdcount.toInt =
    (if ∃ t, (s.pc t).subtracted = 1 then 0 else longMax.toInt) -
      (total Place.active s + total Place.waiting s)
  sum : ∀ t w count, s.pc t = .adding w count → FitsLong (longMax.toInt - count.toInt) ∧
    FitsLong (s.shared.rdwait.toInt + longMax.toInt) ∧
    FitsLong (s.shared.rdwait.toInt + longMax.toInt - count.toInt)
  narrowing : ∀ t, s.pc t = .writing → s.shared.rdcount.toInt32.toInt = s.shared.rdcount.toInt

/-- With fewer than `2^31` threads that do not try, in every run. -/
theorem exclusion_law (hcard : Fintype.card T < 2 ^ 31)
    (h : code.machine.Runs NeverTries start s) : ExclusionLaw s := by
  have hinv := (Quiet.of_runs hcard h).inv
  refine ⟨?_, hinv.rdcount_eq, ?_, fun t ht => hinv.narrowed hcard ht⟩
  · intro t u ht hut
    exact ⟨fun hu => hut (hinv.writing_eq ht hu), hinv.not_reading ht u⟩
  · intro t w count hp
    exact (hinv.sum_eq hcard hp).2

/-- A writer writes, and a reader waits behind it. -/
theorem exclusion_law_two : ∃ s : Config (Fin 2) (Shared (Fin 2)) Place,
    code.machine.Runs NeverTries start s ∧ s.pc 0 = .writing ∧ s.pc 1 = .rdWait ∧
      ExclusionLaw s := by
  have hrun : (code.machine.runWhile NeverTries (start : Config (Fin 2) (Shared (Fin 2)) Place)
      [(0, .lock), (0, .proceed), (0, .proceed), (1, .lockShared)]).any
      (fun s => s.pc 0 == .writing && s.pc 1 == .rdWait) = true := by
    decide +kernel
  obtain ⟨s, hs, hp⟩ := Machine.exists_runs_of_runWhile _ _ hrun
  simp only [Bool.and_eq_true, beq_iff_eq] at hp
  exact ⟨s, hs, hp.1, hp.2, exclusion_law (by decide) hs⟩

end FastSharedMutex

end Sync
