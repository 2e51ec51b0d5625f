import SyncLib.Core.Bits
import SyncLib.Core.Interleaving

/-!
# `fast_semaphore`

`count_` is the initial count with all posts added and all waits subtracted; where it is negative it
counts the waits that need a post to the inner semaphore. A post may reach the inner semaphore
before the wait it is for, so the two levels agree only up to the posters that have still to post.
The word `count_` wraps around at `LONG_MAX`: then all its debts are wrong (`not_law_one`).
-/

namespace Sync

open Core

namespace FastSemaphore

/-! ### The threads -/

/-- Where a thread is: outside, before `semaphore_.post()`, or in `semaphore_.wait()`. -/
inductive Place
  | idle
  | posting
  | waiting
  deriving DecidableEq, Repr

/-- A call, with its operation on `count_`, or the operation on the inner semaphore. -/
inductive Move
  | post
  | wait
  | proceed
  deriving DecidableEq, Repr

/-- `count_` and the count of the inner semaphore, and how many calls of `post` and of `wait` have
begun, and of `wait` completed. -/
structure Shared where
  count : Int64
  inner : ℕ
  posts : ℕ
  waits : ℕ
  passed : ℕ
  deriving DecidableEq, Repr

/-- `count_.fetch_add(1)`, and the test of what it returned. -/
def post (s : Shared) : Shared × Place :=
  ({ s with count := s.count + 1, posts := s.posts + 1 }, if s.count < 0 then .posting else .idle)

/-- `count_.fetch_sub(1)`, and the test of what it returned. -/
def wait (s : Shared) : Shared × Place :=
  let s' := { s with count := s.count - 1, waits := s.waits + 1 }
  if s.count < 1 then (s', .waiting) else ({ s' with passed := s.passed + 1 }, .idle)

/-- One operation on `count_` or on the inner semaphore. -/
def next (s : Shared) : Place → Move → Option (Shared × Place)
  | .idle, .post       => some (post s)
  | .idle, .wait       => some (wait s)
  | .posting, .proceed => some ({ s with inner := s.inner + 1 }, .idle)
  | .waiting, .proceed =>
    if s.inner = 0 then none
    else some ({ s with inner := s.inner - 1, passed := s.passed + 1 }, .idle)
  | _, _               => none

variable {T : Type*}

/-- All threads around one semaphore. -/
def code : Code T Shared Place Move := ⟨fun _ => next⟩

/-- The constructor. -/
def start (count : Int32) : Config T Shared Place :=
  ⟨⟨count.toInt64, 0, 0, 0, 0⟩, fun _ => .idle⟩

/-! ### The steps -/

/-- What a step of one thread does, one constructor for each branch. -/
inductive Effect (s : Shared) (p : Place) (m : Move) : Shared → Place → Prop
  | post (hm : m = .post) (hp : p = .idle) (hc : 0 ≤ s.count.toInt) :
      Effect s p m { s with count := s.count + 1, posts := s.posts + 1 } .idle
  | repay (hm : m = .post) (hp : p = .idle) (hc : s.count.toInt < 0) :
      Effect s p m { s with count := s.count + 1, posts := s.posts + 1 } .posting
  | wait (hm : m = .wait) (hp : p = .idle) (hc : 1 ≤ s.count.toInt) :
      Effect s p m
        { s with count := s.count - 1, waits := s.waits + 1, passed := s.passed + 1 } .idle
  | borrow (hm : m = .wait) (hp : p = .idle) (hc : s.count.toInt < 1) :
      Effect s p m { s with count := s.count - 1, waits := s.waits + 1 } .waiting
  | postInner (hp : p = .posting) : Effect s p m { s with inner := s.inner + 1 } .idle
  | waitInner (hp : p = .waiting) (hi : s.inner ≠ 0) :
      Effect s p m { s with inner := s.inner - 1, passed := s.passed + 1 } .idle

namespace Effect

variable {s s' : Shared} {p p' : Place} {m : Move}

lemma of_post : Effect s .idle .post (FastSemaphore.post s).1 (FastSemaphore.post s).2 := by
  by_cases hc : s.count < 0
  · have hplace : (FastSemaphore.post s).2 = .posting := if_pos hc
    rw [hplace]
    exact .repay rfl rfl (Int64.lt_iff_toInt_lt.mp hc)
  · have hplace : (FastSemaphore.post s).2 = .idle := if_neg hc
    rw [hplace]
    exact .post rfl rfl (Int.not_lt.mp fun h => hc (Int64.lt_iff_toInt_lt.mpr h))

lemma of_wait : Effect s .idle .wait (FastSemaphore.wait s).1 (FastSemaphore.wait s).2 := by
  unfold FastSemaphore.wait
  by_cases hc : s.count < 1
  · simp only [hc, if_true]
    exact .borrow rfl rfl (Int64.lt_iff_toInt_lt.mp hc)
  · simp only [hc, if_false]
    exact .wait rfl rfl (Int.not_lt.mp fun h => hc (Int64.lt_iff_toInt_lt.mpr h))

lemma of_next (h : next s p m = some (s', p')) : Effect s p m s' p' := by
  unfold next at h
  split at h
  · obtain ⟨rfl, rfl⟩ := Prod.mk.inj (Option.some.inj h)
    exact of_post
  · obtain ⟨rfl, rfl⟩ := Prod.mk.inj (Option.some.inj h)
    exact of_wait
  · obtain ⟨rfl, rfl⟩ := Prod.mk.inj (Option.some.inj h)
    exact .postInner rfl
  · split_ifs at h with hi
    obtain ⟨rfl, rfl⟩ := Prod.mk.inj (Option.some.inj h)
    exact .waitInner rfl hi
  · cases h

lemma calls_lt (h : Effect s p m s' p') (hfew : m ≠ .proceed → s.posts + s.waits + 1 < 2 ^ 63)
    (hlt : s.posts + s.waits < 2 ^ 63) : s'.posts + s'.waits < 2 ^ 63 := by
  cases h with
  | post hm | repay hm | wait hm | borrow hm =>
    have hlt' := hfew (by simp [hm])
    dsimp only
    omega
  | postInner | waitInner => exact hlt

end Effect

/-! ### The law -/

/-- The threads in the slow path of `wait`. -/
def Place.slow : Place → ℕ
  | .waiting => 1
  | _        => 0

/-- The threads that have still to post to the inner semaphore. -/
def Place.toPost : Place → ℕ
  | .posting => 1
  | _        => 0

variable [Fintype T]

@[simp] lemma tally_slow_idle : tally Place.slow (fun _ : T => .idle) = 0 :=
  tally_eq_zero_iff.mpr fun _ => rfl

@[simp] lemma tally_toPost_idle : tally Place.toPost (fun _ : T => .idle) = 0 :=
  tally_eq_zero_iff.mpr fun _ => rfl

/-- The two levels agree, no more waits are completed than there were units, and a wait is blocked
only when there are more waits than units. -/
structure Law (c : ℤ) (s : Config T Shared Place) : Prop where
  slow_eq : (tally Place.slow s.pc : ℤ) =
    s.shared.inner + tally Place.toPost s.pc + max 0 (-s.shared.count.toInt)
  passed_le : (s.shared.passed : ℤ) ≤ c + s.shared.posts
  blocked : (∀ t, s.pc t ≠ .posting) → (∃ t, s.pc t = .waiting) → s.shared.inner = 0 →
    c + s.shared.posts < s.shared.waits

/-- The word counts the calls, and the two levels agree. -/
structure Counts (c : ℤ) (s : Config T Shared Place) : Prop where
  count_eq : s.shared.count.toInt = c + s.shared.posts - s.shared.waits
  slow_eq : (tally Place.slow s.pc : ℤ) =
    s.shared.inner + tally Place.toPost s.pc + max 0 (-s.shared.count.toInt)
  passed_eq : s.shared.passed + tally Place.slow s.pc = s.shared.waits

lemma Counts.law {c : ℤ} {s : Config T Shared Place} (h : Counts c s) : Law c s := by
  obtain ⟨hcount, hslow, hpassed⟩ := h
  refine ⟨hslow, by omega, fun hpost hwait hinner => ?_⟩
  have hnone : tally Place.toPost s.pc = 0 := tally_eq_zero_iff.mpr fun t => by
    cases hp : s.pc t with
    | posting => exact absurd hp (hpost t)
    | _ => rfl
  have hsome : 0 < tally Place.slow s.pc := by
    obtain ⟨t, ht⟩ := hwait
    exact tally_pos_iff.mpr ⟨t, by rw [ht]; exact Nat.one_pos⟩
  omega

/-- Fewer than `2 ^ 63` calls begin. -/
def FewCalls (s : Config T Shared Place) (a : T × Move) : Prop :=
  a.2 ≠ .proceed → s.shared.posts + s.shared.waits + 1 < 2 ^ 63

/-- No post begins while `count_` is `LONG_MAX`. -/
def Representable (s : Config T Shared Place) (a : T × Move) : Prop :=
  a.2 = .post → s.shared.count ≠ Int64.maxValue

instance (s : Config T Shared Place) (a : T × Move) : Decidable (FewCalls s a) :=
  inferInstanceAs (Decidable (_ → _))

instance (s : Config T Shared Place) (a : T × Move) : Decidable (Representable s a) :=
  inferInstanceAs (Decidable (_ → _))

lemma toInt_add_one {x : Int64} (h : x ≠ Int64.maxValue) : (x + 1).toInt = x.toInt + 1 := by
  have hmin := x.le_toInt
  have hmax := x.toInt_lt
  have hne : x.toInt ≠ Int64.maxValue.toInt := fun heq => h (Int64.toInt_inj.mp heq)
  rw [Int64.toInt_maxValue] at hne
  apply toInt_add_of_fitsLong
  rw [fitsLong_iff, Int64.toInt_one]
  omega

lemma toInt_sub_one {x : Int64} (h : -2 ^ 63 < x.toInt) : (x - 1).toInt = x.toInt - 1 := by
  have hmax := x.toInt_lt
  apply toInt_sub_of_fitsLong
  rw [fitsLong_iff, Int64.toInt_one]
  omega

variable [DecidableEq T] {c : ℤ} {s s' : Config T Shared Place} {a : T × Move}

lemma Counts.step (h : Counts c s) (hc : 0 ≤ c) (hfew : FewCalls s a) (hrep : Representable s a)
    (hs : code.machine.step s a = some s') : Counts c s' := by
  obtain ⟨sh, p, hn, rfl⟩ := Code.step_eq_some.mp hs
  have heffect : Effect s.shared (s.pc a.1) a.2 sh p := Effect.of_next hn
  obtain ⟨hcount, hslow, hpassed⟩ := h
  have hupdSlow := tally_update Place.slow s.pc a.1 p
  have hupdPost := tally_update Place.toPost s.pc a.1 p
  have hmin : a.2 ≠ .proceed → -2 ^ 63 < s.shared.count.toInt := by
    intro hm
    have hlt := hfew hm
    omega
  cases heffect with
  | post hm hp h0 =>
    have hadd := toInt_add_one (hrep hm)
    simp only [hp, Place.slow, Place.toPost] at hupdSlow hupdPost
    refine ⟨?_, ?_, ?_⟩ <;> dsimp only <;> omega
  | repay hm hp h0 =>
    have hadd := toInt_add_one (hrep hm)
    simp only [hp, Place.slow, Place.toPost] at hupdSlow hupdPost
    refine ⟨?_, ?_, ?_⟩ <;> dsimp only <;> omega
  | wait hm hp h0 =>
    have hsub := toInt_sub_one (hmin (by simp [hm]))
    simp only [hp, Place.slow, Place.toPost] at hupdSlow hupdPost
    refine ⟨?_, ?_, ?_⟩ <;> dsimp only <;> omega
  | borrow hm hp h0 =>
    have hsub := toInt_sub_one (hmin (by simp [hm]))
    simp only [hp, Place.slow, Place.toPost] at hupdSlow hupdPost
    refine ⟨?_, ?_, ?_⟩ <;> dsimp only <;> omega
  | postInner hp =>
    simp only [hp, Place.slow, Place.toPost] at hupdSlow hupdPost
    refine ⟨hcount, ?_, ?_⟩ <;> dsimp only <;> omega
  | waitInner hp hi =>
    simp only [hp, Place.slow, Place.toPost] at hupdSlow hupdPost
    refine ⟨hcount, ?_, ?_⟩ <;> dsimp only <;> omega

/-- A run of fewer than `2 ^ 63` calls in which `count_` does not wrap around. -/
def Countable (s : Config T Shared Place) (a : T × Move) : Prop := FewCalls s a ∧ Representable s a

instance (s : Config T Shared Place) (a : T × Move) : Decidable (Countable s a) :=
  inferInstanceAs (Decidable (_ ∧ _))

lemma counts_of_runs {count : Int32} (hc : 0 ≤ count.toInt)
    (h : code.machine.Runs Countable (start count) s) :
    Counts count.toInt s ∧ s.shared.posts + s.shared.waits < 2 ^ 63 := by
  refine h.invariant
    (I := fun s => Counts count.toInt s ∧ s.shared.posts + s.shared.waits < 2 ^ 63)
    ⟨⟨?_, ?_, ?_⟩, ?_⟩ ?_
  · simp [start]
  · simp [start, hc]
  · simp [start]
  · simp [start]
  · rintro u a u' ⟨hu, hlt⟩ ⟨hfew, hrep⟩ hs
    refine ⟨hu.step hc hfew hrep hs, ?_⟩
    obtain ⟨sh, p, hn, rfl⟩ := Code.step_eq_some.mp hs
    exact (Effect.of_next hn).calls_lt hfew hlt

/-- In every run of fewer than `2 ^ 63` calls in which no post finds `count_` at `LONG_MAX`, the two
levels agree, the completed waits have had a unit each, and once all posters have returned a wait is
blocked only when there are more waits than units. -/
theorem two_level_law {count : Int32} (hc : 0 ≤ count.toInt)
    (h : code.machine.Runs Countable (start count) s) : Law count.toInt s := by
  refine (h.invariant (I := Counts count.toInt) ⟨?_, ?_, ?_⟩ ?_).law
  · simp [start]
  · simp [start, hc]
  · simp [start]
  · rintro u a u' hu ⟨hfew, hrep⟩ hs
    exact hu.step hc hfew hrep hs

/-- Of two waits the second one needs a post, which has not reached the inner semaphore yet. -/
theorem two_level_law_three : ∃ s : Config (Fin 3) Shared Place,
    s.pc 1 = .waiting ∧ s.pc 2 = .posting ∧ s.shared.passed = 1 ∧ Law 1 s := by
  have hrun : (code.machine.runWhile Countable (start 1)
      [((0 : Fin 3), .wait), (1, .wait), (2, .post)]).any
      (fun s => s.pc 1 == .waiting && s.pc 2 == .posting && s.shared.passed == 1) = true := by
    decide +kernel
  obtain ⟨s, hs, hp⟩ := Machine.exists_runs_of_runWhile _ _ hrun
  simp only [Bool.and_eq_true, beq_iff_eq] at hp
  obtain ⟨⟨h₁, h₂⟩, hpassed⟩ := hp
  exact ⟨s, h₁, h₂, hpassed, two_level_law (by decide) hs⟩

/-! ### Where `count_` wraps around -/

/-- After `n` posts and nothing else, from an initial count of one. -/
def afterPosts (n : ℕ) : Config (Fin 1) Shared Place :=
  ⟨⟨Int64.ofNat (n + 1), 0, n, 0, 0⟩, fun _ => .idle⟩

lemma runs_afterPosts {n : ℕ} (hn : n < 2 ^ 63) :
    code.machine.Runs FewCalls (start 1) (afterPosts n) := by
  induction n with
  | zero => exact .refl
  | succ n ih =>
    refine (ih (Nat.lt_of_succ_lt hn)).tail (a := (0, .post)) (fun _ => ?_) ?_
    · show n + 0 + 1 < 2 ^ 63
      omega
    · have hnonneg : ¬ (Int64.ofNat (n + 1) < 0) := by
        rw [Int64.lt_iff_toInt_lt, Int64.toInt_ofNat_of_lt hn, Int64.toInt_zero, Int.not_lt]
        exact Int.natCast_nonneg _
      have hplace : (post (afterPosts n).shared).2 = .idle := if_neg hnonneg
      have hnext : Int64.ofNat (n + 1) + 1 = Int64.ofNat (n + 1 + 1) :=
        (Int64.ofNat_add (n + 1) 1).symm
      refine Code.step_eq_some.mpr ⟨(post (afterPosts n).shared).1, .idle, ?_, ?_⟩
      · rw [← hplace]
        rfl
      · rw [post, afterPosts, afterPosts, hnext]
        congr 1
        exact Function.update_eq_self 0 _

/-- One thread posts `2 ^ 63 - 1` times to a semaphore with one unit: `count_` is `LONG_MIN`, and
accounts for waits that nobody has begun. -/
theorem not_law_one : ∃ s : Config (Fin 1) Shared Place,
    code.machine.Runs FewCalls (start 1) s ∧ s.shared.posts + s.shared.waits < 2 ^ 63 ∧
      ¬ Law 1 s := by
  refine ⟨afterPosts (2 ^ 63 - 1), runs_afterPosts (by omega), by decide, fun h => ?_⟩
  have hslow := h.slow_eq
  have hcount : (afterPosts (2 ^ 63 - 1)).shared.count.toInt = -2 ^ 63 := by decide
  rw [hcount] at hslow
  simp [afterPosts] at hslow

end FastSemaphore

end Sync
