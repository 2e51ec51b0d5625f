import SyncLib.FastSharedMutex.Balance

/-!
# The steps of `fast_shared_mutex` keep the books

Readers first, in the order of their methods, then writers. The new value of a counter is a
variable with the number it stands for; that the words do not wrap is shown where the steps are put
together.
-/

namespace Sync

open Core

namespace FastSharedMutex

variable {T : Type*} [Fintype T] {s s' : Config T (Shared T) Place} {t : T} {x : Int64}

lemma toInt_add_neg_one (h : -2 ^ 63 < x.toInt) : (x + -1).toInt = x.toInt - 1 := by
  have hone : (-1 : Int64).toInt = -1 := rfl
  have hlt := x.toInt_lt
  rw [toInt_add_of_fitsLong, hone, Int.sub_eq_add_neg]
  rw [fitsLong_iff, hone]
  omega

lemma toInt_add_one (h : x.toInt < 2 ^ 63 - 1) : (x + 1).toInt = x.toInt + 1 := by
  have hone : (1 : Int64).toInt = 1 := rfl
  have hle := x.le_toInt
  rw [toInt_add_of_fitsLong, hone]
  rw [fitsLong_iff, hone]
  omega

lemma lt_one_iff : x < 1 ↔ x.toInt < 1 := Int64.lt_iff_toInt_lt

lemma neg_iff : x < 0 ↔ x.toInt < 0 := Int64.lt_iff_toInt_lt

/-- The test of `lock` and `try_lock` is one of their new `rdwait_`. -/
lemma add_sub_eq_zero {y z : Int64} : x + y - z = 0 ↔ (x + (y - z)).toInt = 0 := by
  have hassoc : x + y - z = x + (y - z) := by
    rw [Int64.sub_eq_add_neg, Int64.sub_eq_add_neg, Int64.add_assoc]
  rw [hassoc]
  exact Int64.toInt_inj.symm

namespace Inv

/-! ### What the counters say -/

/-- No writer has subtracted itself where `rdcount_` is positive. -/
lemma subtracted_eq_zero (h : Inv s) (hpos : 0 < s.shared.rdcount.toInt) :
    total Place.subtracted s = 0 := by
  have hcount := h.rdcount
  have hle := h.subtracted_le
  rw [longMax_toInt] at hcount
  omega

lemma rdcount_bounds (hcard : Fintype.card T < 2 ^ 31) (h : Inv s) :
    -2 ^ 31 < s.shared.rdcount.toInt ∧
      (total Place.subtracted s = 0 → 2 ^ 32 < s.shared.rdcount.toInt) := by
  have hcount := h.rdcount
  have hle := h.subtracted_le
  have hreaders := readers_le_card s
  rw [longMax_toInt] at hcount
  omega

/-- What a writer finds before it subtracts itself: the readers that are active or have a token. -/
lemma found (h : Inv s) {m : Method} (hp : s.pc t = .subtracting m) :
    longMax.toInt - s.shared.rdcount.toInt = total Place.active s + s.shared.rdsem ∧
      total Place.waiting s = s.shared.rdsem ∧ Balanced s .out := by
  have hb := h.balanced_inside .out hp rfl rfl
  obtain ⟨hS, hP⟩ := h.totals_inside hp rfl
  simp only [Place.subtracted, Place.pending] at hS hP
  have hcount := h.rdcount
  have hwaiting := h.waiting
  rw [hP, hb.2.2.2.2] at hwaiting
  rw [hS, hwaiting] at hcount
  exact ⟨by omega, by omega, hb⟩

/-- While a writer has the mutex, `rdcount_` and `behind` count the readers on `rdsem_`. -/
lemma written (h : Inv s) (hp : s.pc t = .writing) :
    s.shared.rdcount.toInt = -total Place.waiting s ∧
      total Place.waiting s = s.shared.behind ∧ Balanced s .writing := by
  have hb := h.balanced_inside .writing hp rfl rfl
  obtain ⟨hS, hP⟩ := h.totals_inside hp rfl
  simp only [Place.subtracted, Place.pending] at hS hP
  have hcount := h.rdcount
  have hwaiting := h.waiting
  rw [hP, hb.2.1] at hwaiting
  rw [hS, hb.1] at hcount
  exact ⟨by omega, by omega, hb⟩

/-- The sum of `lock` and `try_lock` stays in its range. -/
lemma sum_eq (hcard : Fintype.card T < 2 ^ 31) (h : Inv s) {m : Method} {count : Int64}
    (hp : s.pc t = .adding m count) :
    (s.shared.rdwait + (longMax - count)).toInt =
        s.shared.rdwait.toInt + (longMax.toInt - count.toInt) ∧
      FitsLong (longMax.toInt - count.toInt) ∧
      FitsLong (s.shared.rdwait.toInt + longMax.toInt) ∧
      FitsLong (s.shared.rdwait.toInt + longMax.toInt - count.toInt) := by
  have hreaders := readers_le_card s
  obtain ⟨hdebt, hle, hlt, hfew, -⟩ := h.balanced_inside (.announced count) hp rfl rfl
  have hwaiting := h.waiting
  have hmax := longMax_toInt
  have hdiff : FitsLong (longMax.toInt - count.toInt) := fitsLong_iff.mpr (by omega)
  have hsum : FitsLong (s.shared.rdwait.toInt + (longMax.toInt - count.toInt)) :=
    fitsLong_iff.mpr (by omega)
  exact ⟨toInt_add_sub_of_fitsLong hdiff hsum, hdiff, fitsLong_iff.mpr (by omega),
    fitsLong_iff.mpr (by omega)⟩

/-- The narrowing in `unlock` is exact. -/
lemma narrowed (hcard : Fintype.card T < 2 ^ 31) (h : Inv s) (hp : s.pc t = .writing) :
    s.shared.rdcount.toInt32.toInt = s.shared.rdcount.toInt := by
  obtain ⟨hcount, -⟩ := h.written hp
  have hreaders := readers_le_card s
  exact toInt_toInt32_of_le (by omega) (by omega)

/-- The argument of `rdsem_.post(-count)` is the number of readers that wait. -/
lemma tokens_eq (hcard : Fintype.card T < 2 ^ 31) (h : Inv s) (hp : s.pc t = .writing) :
    tokens s.shared.rdcount.toInt32 = total Place.waiting s := by
  obtain ⟨hcount, -⟩ := h.written hp
  have hreaders := readers_le_card s
  exact toNat_toUInt32_neg ((h.narrowed hcard hp).trans hcount) (by omega)

/-! ### The words do not wrap -/

lemma toInt_decrement (hcard : Fintype.card T < 2 ^ 31) (h : Inv s) :
    (s.shared.rdcount + -1).toInt = s.shared.rdcount.toInt - 1 := by
  have hbounds := h.rdcount_bounds hcard
  exact toInt_add_neg_one (by omega)

lemma toInt_increment (h : Inv s) (hp : s.pc t = .reading) :
    (s.shared.rdcount + 1).toInt = s.shared.rdcount.toInt + 1 := by
  have hactive := le_tally Place.active s.pc t
  have hcount := h.rdcount
  rw [hp] at hactive
  rw [longMax_toInt] at hcount
  simp only [Place.active, total] at hactive hcount
  exact toInt_add_one (by omega)

lemma toInt_subtract (hcard : Fintype.card T < 2 ^ 31) (h : Inv s) {m : Method}
    (hp : s.pc t = .subtracting m) :
    (s.shared.rdcount - longMax).toInt = s.shared.rdcount.toInt - longMax.toInt := by
  obtain ⟨hfound, hwaiting, -⟩ := h.found hp
  have hreaders := readers_le_card s
  exact toInt_sub_of_fitsLong (fitsLong_iff.mpr (by omega))

lemma toInt_restore (hcard : Fintype.card T < 2 ^ 31) (h : Inv s)
    (hp : (s.pc t).subtracted = 1) :
    (s.shared.rdcount + longMax).toInt = s.shared.rdcount.toInt + longMax.toInt := by
  have hbounds := h.rdcount_bounds hcard
  have hle := le_tally Place.subtracted s.pc t
  have hcount := h.rdcount
  rw [hp] at hle
  rw [longMax_toInt] at hcount
  refine toInt_add_of_fitsLong (fitsLong_iff.mpr ?_)
  rw [longMax_toInt]
  simp only [total] at hcount
  omega

variable [DecidableEq T]

/-! ### Readers -/

/-- A reader enters while no writer has subtracted itself. -/
lemma enterShared (h : Inv s) (hp : s.pc t = .idle) (hfree : 1 ≤ s.shared.rdcount.toInt)
    (hx : x.toInt = s.shared.rdcount.toInt - 1) :
    Inv ⟨{ s.shared with rdcount := x }, Function.update s.pc t .reading⟩ := by
  refine h.reader (by rw [hp]; rfl) rfl rfl ?_ ?_ ?_
  · simp only [hp, hx, Place.active, Place.waiting]
    omega
  · simp only [hp, Place.waiting]
  · intro ph hph hb
    have hsub := h.subtracted_phase hph
    rw [h.subtracted_eq_zero hfree] at hsub
    have hkeep := fun (w : Place → ℕ) (hw : w .reading = w (s.pc t)) =>
      total_update_of_eq w { s.shared with rdcount := x } hw
    rw [hp] at hkeep
    cases ph with
    | out =>
      rw [Balanced, hkeep Place.leaving rfl, hkeep Place.waking rfl]
      exact hb
    | announced | draining | writing => cases hsub

/-- A reader is sent to `rdsem_` by a writer that has subtracted itself. -/
lemma divert (hcard : Fintype.card T < 2 ^ 31) (h : Inv s) (hp : s.pc t = .idle)
    (hfull : s.shared.rdcount.toInt < 1) (hx : x.toInt = s.shared.rdcount.toInt - 1) :
    Inv ⟨{ s.shared with rdcount := x, behind := s.shared.behind + 1 },
      Function.update s.pc t .rdWait⟩ := by
  refine h.reader (by rw [hp]; rfl) rfl rfl ?_ ?_ ?_
  · simp only [hp, hx, Place.active, Place.waiting]
    omega
  · simp only [hp, Place.waiting]
    omega
  · intro ph hph hb
    have hkeep := fun (w : Place → ℕ) (hw : w .rdWait = w (s.pc t)) =>
      total_update_of_eq w { s.shared with rdcount := x, behind := s.shared.behind + 1 } hw
    rw [hp] at hkeep
    cases ph with
    | out =>
      have hlarge := (h.rdcount_bounds hcard).2 (h.subtracted_phase hph)
      omega
    | announced | draining | writing =>
      rw [Balanced, hkeep Place.active rfl, hkeep Place.leaving rfl, hkeep Place.waking rfl]
      exact hb

/-- A reader takes a token of `rdsem_`. -/
lemma admitted (h : Inv s) (hp : s.pc t = .rdWait) (hpos : 0 < s.shared.rdsem) :
    Inv ⟨{ s.shared with rdsem := s.shared.rdsem - 1 }, Function.update s.pc t .reading⟩ := by
  refine h.reader (by rw [hp]; rfl) rfl rfl ?_ ?_ ?_
  · simp only [hp, Place.active, Place.waiting]
    omega
  · simp only [hp, Place.waiting]
    omega
  · intro ph hph hb
    have hA := tally_update Place.active s.pc t .reading
    have hkeep := fun (w : Place → ℕ) (hw : w .reading = w (s.pc t)) =>
      total_update_of_eq w { s.shared with rdsem := s.shared.rdsem - 1 } hw
    rw [hp] at hA hkeep
    simp only [Place.active] at hA
    cases ph with
    | out =>
      rw [Balanced, hkeep Place.leaving rfl, hkeep Place.waking rfl]
      exact hb
    | announced count =>
      obtain ⟨hdebt, hrest⟩ := hb
      rw [Balanced, hkeep Place.leaving rfl, hkeep Place.waking rfl]
      refine ⟨?_, hrest⟩
      simp only [total] at hdebt ⊢
      omega
    | draining =>
      obtain ⟨hdebt, hrest⟩ := hb
      rw [Balanced, hkeep Place.leaving rfl, hkeep Place.waking rfl]
      refine ⟨?_, hrest⟩
      simp only [total] at hdebt ⊢
      omega
    | writing =>
      have hzero := hb.2.1
      omega

/-- A reader leaves, and no writer has subtracted itself. -/
lemma leave (h : Inv s) (hp : s.pc t = .reading) (hfree : 0 ≤ s.shared.rdcount.toInt)
    (hx : x.toInt = s.shared.rdcount.toInt + 1) :
    Inv ⟨{ s.shared with rdcount := x }, Function.update s.pc t .idle⟩ := by
  refine h.reader (by rw [hp]; rfl) rfl rfl ?_ ?_ ?_
  · simp only [hp, hx, Place.active, Place.waiting]
    omega
  · simp only [hp, Place.waiting]
  · intro ph hph hb
    have hsub := h.subtracted_phase hph
    have hactive := le_tally Place.active s.pc t
    have hcount := h.rdcount
    have hkeep := fun (w : Place → ℕ) (hw : w .idle = w (s.pc t)) =>
      total_update_of_eq w { s.shared with rdcount := x } hw
    rw [hp] at hkeep hactive
    rw [longMax_toInt] at hcount
    simp only [Place.active] at hactive
    cases ph with
    | out =>
      rw [Balanced, hkeep Place.leaving rfl, hkeep Place.waking rfl]
      exact hb
    | announced | draining | writing =>
      simp only [total, Phase.subtracted] at hcount hsub
      omega

/-- A reader leaves behind a writer that has subtracted itself. -/
lemma depart (hcard : Fintype.card T < 2 ^ 31) (h : Inv s) (hp : s.pc t = .reading)
    (hneg : s.shared.rdcount.toInt < 0) (hx : x.toInt = s.shared.rdcount.toInt + 1) :
    Inv ⟨{ s.shared with rdcount := x }, Function.update s.pc t .paying⟩ := by
  refine h.reader (by rw [hp]; rfl) rfl rfl ?_ ?_ ?_
  · simp only [hp, hx, Place.active, Place.waiting]
    omega
  · simp only [hp, Place.waiting]
  · intro ph hph hb
    have hA := tally_update Place.active s.pc t .paying
    have hL := tally_update Place.leaving s.pc t .paying
    have hkeep := fun (w : Place → ℕ) (hw : w .paying = w (s.pc t)) =>
      total_update_of_eq w { s.shared with rdcount := x } hw
    rw [hp] at hA hL hkeep
    simp only [Place.active, Place.leaving] at hA hL
    cases ph with
    | out =>
      have hlarge := (h.rdcount_bounds hcard).2 (h.subtracted_phase hph)
      omega
    | announced count =>
      obtain ⟨hdebt, hrest⟩ := hb
      rw [Balanced, hkeep Place.waking rfl]
      refine ⟨?_, hrest⟩
      simp only [total] at hdebt ⊢
      omega
    | draining =>
      obtain ⟨hdebt, hrest⟩ := hb
      rw [Balanced, hkeep Place.waking rfl]
      refine ⟨?_, hrest⟩
      simp only [total] at hdebt ⊢
      omega
    | writing =>
      have hzero := hb.1
      simp only [total] at hzero
      omega

/-- A reader that leaves pays its part of `rdwait_`, and the last one goes on to wake the writer. -/
lemma paid (h : Inv s) {p : Place} (hp : s.pc t = .paying)
    (hlast : s.shared.rdwait.toInt = 1 ∧ p = .posting ∨ s.shared.rdwait.toInt ≠ 1 ∧ p = .idle)
    (hx : -2 ^ 31 < s.shared.rdwait.toInt → x.toInt = s.shared.rdwait.toInt - 1) :
    Inv ⟨{ s.shared with rdwait := x }, Function.update s.pc t p⟩ := by
  have hout : p.inside = false ∧ p.active = 0 ∧ p.waiting = 0 ∧ p.leaving = 0 := by
    rcases hlast with ⟨-, rfl⟩ | ⟨-, rfl⟩ <;> exact ⟨rfl, rfl, rfl, rfl⟩
  obtain ⟨hinside, hactive, hwaiting, hleaving⟩ := hout
  refine h.reader (by rw [hp]; rfl) hinside rfl ?_ ?_ ?_
  · rw [hp, hactive, hwaiting]
    rfl
  · rw [hp, hwaiting]
    rfl
  · intro ph hph hb
    have hL := tally_update Place.leaving s.pc t p
    have hN := tally_update Place.waking s.pc t p
    have hkeep := fun (w : Place → ℕ) (hw : w p = w (s.pc t)) =>
      total_update_of_eq w { s.shared with rdwait := x } hw
    rw [hp] at hL hN hkeep
    rw [hleaving] at hL
    simp only [Place.leaving, Place.waking] at hL hN
    cases ph with
    | out =>
      have hzero := hb.1
      simp only [total] at hzero
      omega
    | announced count =>
      obtain ⟨hdebt, hle, hlt, hfew, hrest⟩ := hb
      simp only [total] at hdebt
      have hx' := hx (by omega)
      obtain ⟨-, rfl⟩ := hlast.resolve_left (by omega)
      rw [Balanced, hkeep Place.active hactive, hkeep Place.waking rfl]
      simp only [total]
      exact ⟨by omega, by omega, hlt, hfew, hrest⟩
    | draining =>
      obtain ⟨hdebt, htoken⟩ := hb
      simp only [total] at hdebt htoken
      have hx' := hx (by omega)
      rw [Balanced, hkeep Place.active hactive]
      simp only [total]
      refine ⟨by omega, ?_⟩
      rw [if_neg (by omega)] at htoken
      rcases hlast with ⟨hone, rfl⟩ | ⟨hmore, rfl⟩
      · rw [if_pos (by omega)]
        simp only at hN
        omega
      · rw [if_neg (by omega)]
        simp only at hN
        omega
    | writing =>
      have hzero := hb.2.2.1
      simp only [total] at hzero
      omega

/-- The last of the readers posts `wrsem_`. -/
lemma posted (h : Inv s) (hp : s.pc t = .posting) :
    Inv ⟨{ s.shared with wrsem := s.shared.wrsem + 1 }, Function.update s.pc t .idle⟩ := by
  refine h.reader (by rw [hp]; rfl) rfl rfl ?_ ?_ ?_
  · rw [hp]
    rfl
  · rw [hp]
    rfl
  · intro ph hph hb
    have hN := tally_update Place.waking s.pc t .idle
    have hkeep := fun (w : Place → ℕ) (hw : w .idle = w (s.pc t)) =>
      total_update_of_eq w { s.shared with wrsem := s.shared.wrsem + 1 } hw
    rw [hp] at hN hkeep
    simp only [Place.waking] at hN
    cases ph with
    | draining =>
      obtain ⟨hdebt, htoken⟩ := hb
      rw [Balanced, hkeep Place.active rfl, hkeep Place.leaving rfl]
      refine ⟨hdebt, ?_⟩
      simp only [total] at htoken ⊢
      omega
    | out =>
      have hzero := hb.2.1
      simp only [total] at hzero
      omega
    | announced count =>
      have hzero := hb.2.2.2.2.1
      simp only [total] at hzero
      omega
    | writing =>
      have hzero := hb.2.2.2.1
      simp only [total] at hzero
      omega

/-! ### Writers -/

lemma begun (h : Inv s) (hp : s.pc t = .idle) :
    Inv ⟨s.shared, Function.update s.pc t .locking⟩ := by
  refine h.reader (by rw [hp]; rfl) rfl rfl (by rw [hp]; rfl) (by rw [hp]; rfl) ?_
  intro ph hph hb
  have hkeep : ∀ w : Place → ℕ, w .locking = w .idle →
      total w ⟨s.shared, Function.update s.pc t .locking⟩ = total w s :=
    fun w hw => total_update_of_eq w _ (by rw [hp, hw])
  cases ph with
  | out =>
    rw [Balanced, hkeep Place.leaving rfl, hkeep Place.waking rfl]
    exact hb
  | announced | draining | writing =>
    rw [Balanced, hkeep Place.active rfl, hkeep Place.leaving rfl, hkeep Place.waking rfl]
    exact hb

/-- The free `wrmtx_` is taken. -/
lemma claimed (h : Inv s) (hp : s.pc t = .idle ∨ s.pc t = .locking)
    (hfree : s.shared.owner = none) (m : Method) :
    Inv ⟨{ s.shared with owner := some t }, Function.update s.pc t (.subtracting m)⟩ := by
  have hzero : (s.pc t).subtracted = 0 ∧ (s.pc t).active = 0 ∧ (s.pc t).waiting = 0 ∧
      (s.pc t).leaving = 0 ∧ (s.pc t).waking = 0 ∧ (s.pc t).pending = 0 := by
    rcases hp with hp | hp <;> rw [hp] <;> exact ⟨rfl, rfl, rfl, rfl, rfl, rfl⟩
  obtain ⟨hS, hA, hW, hL, hN, hP⟩ := hzero
  refine h.move ?_ ?_ ?_ ?_
  · intro u hu
    by_cases hut : u = t
    · rw [hut]
    · rw [Function.update_of_ne hut] at hu
      simp [h.owner u hu] at hfree
  · rw [hS, hA, hW]
    rfl
  · rw [hW, hP]
    rfl
  · intro ph hph
    cases phase_of_update hph rfl
    have hb := h.balanced .out (by rw [phase, hfree])
    rw [Balanced, total_update_of_eq Place.leaving _ (by rw [hL]; rfl),
      total_update_of_eq Place.waking _ (by rw [hN]; rfl)]
    exact hb

/-- A writer subtracts itself and finds readers. -/
lemma announced (hcard : Fintype.card T < 2 ^ 31) (h : Inv s) {m : Method}
    (hp : s.pc t = .subtracting m) (hlt : s.shared.rdcount.toInt < longMax.toInt)
    (hx : x.toInt = s.shared.rdcount.toInt - longMax.toInt) :
    Inv ⟨{ s.shared with rdcount := x },
      Function.update s.pc t (.adding m s.shared.rdcount)⟩ := by
  have hinside : (s.pc t).inside = true := by rw [hp]; rfl
  have ho := h.owner t hinside
  obtain ⟨hfound, hwaiting, hleaving, hwaking, hzero, hwrsem, hbehind⟩ := h.found hp
  refine h.move (h.owner_update hinside (.inl ho)) ?_ ?_ ?_
  · simp only [hp, hx, Place.subtracted, Place.active, Place.waiting]
    omega
  · simp only [hp, Place.waiting, Place.pending]
  · intro ph hph
    cases phase_of_update hph ho
    have hreaders := readers_le_card s
    rw [Balanced, total_update_of_eq Place.active _ (by rw [hp]; rfl),
      total_update_of_eq Place.leaving _ (by rw [hp]; rfl),
      total_update_of_eq Place.waking _ (by rw [hp]; rfl)]
    refine ⟨?_, ?_, hlt, ?_, hwaking, hwrsem⟩
    · simp only [hzero, hleaving]
      omega
    · simp only [hzero]
      exact le_rfl
    · omega

/-- A writer subtracts itself and finds no readers. -/
lemma unopposed (h : Inv s) {m : Method} (hp : s.pc t = .subtracting m)
    (hfull : s.shared.rdcount.toInt = longMax.toInt)
    (hx : x.toInt = s.shared.rdcount.toInt - longMax.toInt) :
    Inv ⟨{ s.shared with rdcount := x }, Function.update s.pc t m.free⟩ := by
  have hinside : (s.pc t).inside = true := by rw [hp]; rfl
  have ho := h.owner t hinside
  obtain ⟨hfound, hwaiting, hleaving, hwaking, hzero, hwrsem, hbehind⟩ := h.found hp
  have hfree : m.free.subtracted = 1 ∧ m.free.active = 0 ∧ m.free.waiting = 0 ∧
      m.free.pending = 0 := by
    cases m <;> exact ⟨rfl, rfl, rfl, rfl⟩
  obtain ⟨hS, hA, hW, hP⟩ := hfree
  refine h.move (h.owner_update hinside (.inl ho)) ?_ ?_ ?_
  · rw [hS, hA, hW]
    simp only [hp, hx, Place.subtracted, Place.active, Place.waiting]
    omega
  · rw [hW, hP]
    simp only [hp, Place.waiting, Place.pending]
  · intro ph hph
    replace hph := phase_of_update hph ho
    cases m with
    | lock =>
      cases hph
      rw [Balanced, total_update_of_eq Place.active _ (by rw [hp]; rfl),
        total_update_of_eq Place.leaving _ (by rw [hp]; rfl),
        total_update_of_eq Place.waking _ (by rw [hp]; rfl)]
      exact ⟨by omega, by simp only; omega, hleaving, hwaking, hzero, hwrsem⟩
    | tryLock => cases hph

/-- A writer adds the readers that it found to `rdwait_`, and goes on to wait for those that have
not left in the meantime. -/
lemma added (h : Inv s) {m : Method} {count : Int64} {p : Place} (hp : s.pc t = .adding m count)
    (hx : x.toInt = s.shared.rdwait.toInt + (longMax.toInt - count.toInt))
    (hp' : x.toInt ≠ 0 ∧ p = m.blocked ∨ x.toInt = 0 ∧ p = .writing) :
    Inv ⟨{ s.shared with rdwait := x }, Function.update s.pc t p⟩ := by
  have hinside : (s.pc t).inside = true := by rw [hp]; rfl
  have ho := h.owner t hinside
  have hkind : p.subtracted = 1 ∧ p.active = 0 ∧ p.waiting = 0 ∧ p.pending = 0 ∧ p.leaving = 0 ∧
      p.waking = 0 := by
    rcases hp' with ⟨-, rfl⟩ | ⟨-, rfl⟩ <;> cases m <;> exact ⟨rfl, rfl, rfl, rfl, rfl, rfl⟩
  obtain ⟨hS, hA, hW, hP, hL, hN⟩ := hkind
  refine h.move (h.owner_update hinside (.inl ho)) ?_ ?_ ?_
  · rw [hS, hA, hW, hp]
    rfl
  · rw [hW, hP, hp]
    rfl
  · intro ph hph
    obtain ⟨hdebt, hle, hlt, hfew, hwaking, hwrsem⟩ :=
      h.balanced_inside (.announced count) hp rfl rfl
    replace hph := phase_of_update hph ho
    have hkeep : ∀ w : Place → ℕ, w p = w (s.pc t) →
        total w ⟨{ s.shared with rdwait := x }, Function.update s.pc t p⟩ = total w s :=
      fun w hw => total_update_of_eq w _ hw
    have hactive := hkeep Place.active (by rw [hA, hp]; rfl)
    have hleaving := hkeep Place.leaving (by rw [hL, hp]; rfl)
    have hwaking' := hkeep Place.waking (by rw [hN, hp]; rfl)
    rcases hp' with ⟨hne, rfl⟩ | ⟨hzero, rfl⟩
    · cases m with
      | lock =>
        cases hph
        rw [Balanced, hactive, hleaving, hwaking', if_neg hne]
        exact ⟨by simp only; omega, by simp only; omega⟩
      | tryLock => cases hph
    · cases hph
      rw [Balanced, hactive, hleaving, hwaking']
      exact ⟨by omega, by simp only; omega, by omega, hwaking, hzero, hwrsem⟩

/-- A writer takes the token of `wrsem_`. -/
lemma drained (h : Inv s) (hp : s.pc t = .wrWait) (hpos : 0 < s.shared.wrsem) :
    Inv ⟨{ s.shared with wrsem := s.shared.wrsem - 1 }, Function.update s.pc t .writing⟩ := by
  have hinside : (s.pc t).inside = true := by rw [hp]; rfl
  have ho := h.owner t hinside
  refine h.move (h.owner_update hinside (.inl ho)) ?_ ?_ ?_
  · rw [hp]
    rfl
  · rw [hp]
    rfl
  · intro ph hph
    cases phase_of_update hph ho
    obtain ⟨hdebt, htoken⟩ := h.balanced_inside .draining hp rfl rfl
    rw [Balanced, total_update_of_eq Place.active _ (by rw [hp]; rfl),
      total_update_of_eq Place.leaving _ (by rw [hp]; rfl),
      total_update_of_eq Place.waking _ (by rw [hp]; rfl)]
    -- the token is only there when all readers have paid
    have hzero : s.shared.rdwait.toInt = 0 := by
      by_contra hne
      rw [if_neg hne] at htoken
      omega
    rw [if_pos hzero] at htoken
    exact ⟨by omega, by simp only; omega, by omega, by omega, hzero, by simp only; omega⟩

/-- `try_lock` gives `rdcount_` back, but keeps `wrmtx_`. -/
lemma restored (h : Inv s) (hp : s.pc t = .restoring)
    (hx : x.toInt = s.shared.rdcount.toInt + longMax.toInt) :
    Inv ⟨{ s.shared with rdcount := x }, Function.update s.pc t .idle⟩ := by
  have hinside : (s.pc t).inside = true := by rw [hp]; rfl
  refine h.move (h.owner_update hinside (.inr rfl)) ?_ ?_ ?_
  · simp only [hp, hx, Place.subtracted, Place.active, Place.waiting]
    omega
  · simp only [hp, Place.waiting, Place.pending]
  · intro ph hph
    cases phase_of_update hph (h.owner t hinside)

/-- A writer adds itself again, and goes on to release the readers behind it. -/
lemma unlocked (h : Inv s) {p : Place} (hp : s.pc t = .writing)
    (hx : x.toInt = s.shared.rdcount.toInt + longMax.toInt) (hphase : p.phase = some .out)
    (hpending : p.pending = total Place.waiting s) :
    Inv ⟨{ s.shared with rdcount := x, behind := 0 }, Function.update s.pc t p⟩ := by
  have hinside : (s.pc t).inside = true := by rw [hp]; rfl
  have ho := h.owner t hinside
  obtain ⟨-, hbehind, hactive, hrdsem, hleaving, hwaking, hzero, hwrsem⟩ := h.written hp
  have hkind : p.subtracted = 0 ∧ p.active = 0 ∧ p.waiting = 0 ∧ p.leaving = 0 ∧
      p.waking = 0 := by
    cases p <;> cases hphase <;> exact ⟨rfl, rfl, rfl, rfl, rfl⟩
  obtain ⟨hS, hA, hW, hL, hN⟩ := hkind
  refine h.move (h.owner_update hinside (.inl ho)) ?_ ?_ ?_
  · rw [hS, hA, hW, hp]
    simp only [hx, Place.subtracted, Place.active, Place.waiting]
    omega
  · rw [hW, hp, hpending, hbehind]
    simp only [Place.waiting, Place.pending]
    omega
  · intro ph hph
    cases hphase.symm.trans (phase_of_update hph ho)
    rw [Balanced, total_update_of_eq Place.leaving _ (by rw [hL, hp]; rfl),
      total_update_of_eq Place.waking _ (by rw [hN, hp]; rfl)]
    exact ⟨hleaving, hwaking, hzero, hwrsem, rfl⟩

/-- A writer posts the tokens for the readers behind it. -/
lemma released (h : Inv s) {count : Int32} (hp : s.pc t = .releasing count) :
    Inv ⟨{ s.shared with rdsem := s.shared.rdsem + tokens count },
      Function.update s.pc t .unlocking⟩ := by
  have hinside : (s.pc t).inside = true := by rw [hp]; rfl
  have ho := h.owner t hinside
  refine h.move (h.owner_update hinside (.inl ho)) ?_ ?_ ?_
  · rw [hp]
    rfl
  · simp only [hp, Place.waiting, Place.pending]
    omega
  · intro ph hph
    cases phase_of_update hph ho
    rw [Balanced, total_update_of_eq Place.leaving _ (by rw [hp]; rfl),
      total_update_of_eq Place.waking _ (by rw [hp]; rfl)]
    exact h.balanced_inside .out hp rfl rfl

/-- A writer gives `wrmtx_` back. -/
lemma finished (h : Inv s) (hp : s.pc t = .unlocking) :
    Inv ⟨{ s.shared with owner := none }, Function.update s.pc t .idle⟩ := by
  have hinside : (s.pc t).inside = true := by rw [hp]; rfl
  have ho := h.owner t hinside
  refine h.move (h.owner_update hinside (.inr rfl)) ?_ ?_ ?_
  · rw [hp]
    rfl
  · rw [hp]
    rfl
  · rintro ph ⟨⟩
    rw [Balanced, total_update_of_eq Place.leaving _ (by rw [hp]; rfl),
      total_update_of_eq Place.waking _ (by rw [hp]; rfl)]
    exact h.balanced_inside .out hp rfl rfl

/-! ### The operations -/

/-- A step keeps the books, unless it is a `try_lock_shared` that returns false. -/
theorem step (hcard : Fintype.card T < 2 ^ 31) (h : Inv s) {a : T × Move}
    (hok : a.2 = .tryLockShared → ¬ s.shared.rdcount < 1)
    (hs : code.machine.step s a = some s') : Inv s' := by
  obtain ⟨t, m⟩ := a
  obtain ⟨sh, p, hop, rfl⟩ := op_of_step hs
  simp only at hop hok ⊢
  generalize hp : s.pc t = q at hop
  cases hop with
  | enter hm hfree =>
    rw [lt_one_iff] at hfree
    exact h.enterShared hp (by omega) (h.toInt_decrement hcard)
  | divert hfull => exact h.divert hcard hp (lt_one_iff.mp hfull) (h.toInt_decrement hcard)
  | refuse hfull => exact absurd hfull (hok rfl)
  | admitted hpos => exact h.admitted hp hpos
  | leave hneg =>
    rw [neg_iff] at hneg
    exact h.leave hp (by omega) (h.toInt_increment hp)
  | depart hneg => exact h.depart hcard hp (neg_iff.mp hneg) (h.toInt_increment hp)
  | pay hlast =>
    have hne : s.shared.rdwait.toInt ≠ 1 := fun hone => hlast (Int64.toInt_inj.mp hone)
    exact h.paid hp (.inr ⟨hne, rfl⟩) fun hlow => toInt_add_neg_one (by omega)
  | payLast hlast =>
    have hone : s.shared.rdwait.toInt = 1 := Int64.toInt_inj.mpr hlast
    exact h.paid hp (.inl ⟨hone, rfl⟩) fun hlow => toInt_add_neg_one (by omega)
  | post => exact h.posted hp
  | begin => exact h.begun hp
  | fail ok hfail =>
    rw [← hp, Function.update_eq_self]
    exact h
  | claim hfree => exact h.claimed (.inr hp) hfree .lock
  | tryClaim hfree => exact h.claimed (.inl hp) hfree .tryLock
  | announce w hlt =>
    exact h.announced hcard hp (Int64.lt_iff_toInt_lt.mp hlt) (h.toInt_subtract hcard hp)
  | unopposed w hge =>
    have hle := s.shared.rdcount.toInt_le
    rw [Int64.lt_iff_toInt_lt] at hge
    exact h.unopposed hp (Int.le_antisymm hle (Int.not_lt.mp hge)) (h.toInt_subtract hcard hp)
  | addBlocked w count hne =>
    have hsum : (s.shared.rdwait + (longMax - count)).toInt ≠ 0 :=
      fun hzero => hne (add_sub_eq_zero.mpr hzero)
    exact h.added hp (h.sum_eq hcard hp).1 (.inl ⟨hsum, rfl⟩)
  | addFree w count hzero =>
    exact h.added hp (h.sum_eq hcard hp).1 (.inr ⟨add_sub_eq_zero.mp hzero, rfl⟩)
  | drained hpos => exact h.drained hp hpos
  | restore => exact h.restored hp (h.toInt_restore hcard (by rw [hp]; rfl))
  | unlock hneg =>
    exact h.unlocked hp (h.toInt_restore hcard (by rw [hp]; rfl)) rfl (h.tokens_eq hcard hp)
  | unlockAlone hneg =>
    refine h.unlocked hp (h.toInt_restore hcard (by rw [hp]; rfl)) rfl ?_
    obtain ⟨hcount, -⟩ := h.written hp
    rw [Int32.lt_iff_toInt_lt, h.narrowed hcard hp, hcount, Int32.toInt_zero] at hneg
    simp only [Place.pending]
    omega
  | release count => exact h.released hp
  | finish => exact h.finished hp

end Inv

end FastSharedMutex

end Sync
