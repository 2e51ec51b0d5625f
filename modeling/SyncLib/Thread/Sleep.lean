import SyncLib.Core.Bits
import SyncLib.Core.Machine

/-!
# Sleeping

`sync_thread_sleep_for` splits the duration into seconds and nanoseconds and calls `nanosleep` until
it is not interrupted any more; an interrupted call writes the time that remains into the request.
The number `w` of the bits of `tv_sec` is a parameter, and what `nanosleep` may do is part of the
steps. `tv_nsec` has room for every number of nanoseconds below a second.
-/

namespace Sync

open Core

namespace Sleep

/-! ### Requests -/

/-- `::timespec`. -/
structure Timespec where
  tvSec : ℤ
  tvNsec : Int64
  deriving DecidableEq, Repr

/-- `nanosleep` rejects other requests with `EINVAL`. -/
def Timespec.Valid (ts : Timespec) : Prop := 0 ≤ ts.tvSec ∧ 0 ≤ ts.tvNsec ∧ ts.tvNsec ≤ 999999999

instance (ts : Timespec) : Decidable ts.Valid := inferInstanceAs (Decidable (_ ∧ _))

/-- The nanoseconds of a request. -/
def Timespec.total (ts : Timespec) : ℤ := ts.tvSec * 10 ^ 9 + ts.tvNsec.toInt

def nanosPerSec : Int64 := 1000000000

/-- `std::chrono::duration_cast<std::chrono::seconds>(ns)`. -/
def seconds (ns : Int64) : Int64 := ns / nanosPerSec

/-- `std::numeric_limits<ts_sec>::max()`. -/
def tsSecMax (w : ℕ) : ℤ := 2 ^ (w - 1) - 1

/-- `static_cast<ts_sec>(s)`. -/
def castSec (w : ℕ) (s : Int64) : ℤ := s.toInt.bmod (2 ^ w)

/-- The request before the first call of `nanosleep`. -/
def request (w : ℕ) (ns : Int64) : Timespec :=
  let s := seconds ns
  if s.toInt < tsSecMax w then ⟨castSec w s, ns - s * nanosPerSec⟩ else ⟨tsSecMax w, 999999999⟩

lemma toInt_seconds (ns : Int64) : (seconds ns).toInt = ns.toInt.tdiv (10 ^ 9) :=
  Int64.toInt_div_of_ne_right _ _ (by decide)

lemma toInt_nanosPerSec : nanosPerSec.toInt = 10 ^ 9 := by decide

/-- The whole seconds of a duration and the rest have its sign. -/
lemma split_of_nonneg {n : ℤ} (h : 0 ≤ n) : 0 ≤ n.tdiv (10 ^ 9) ∧ 0 ≤ n.tmod (10 ^ 9) :=
  ⟨Int.tdiv_nonneg h (by omega), Int.tmod_nonneg _ h⟩

lemma split_of_nonpos {n : ℤ} (h : n ≤ 0) : n.tdiv (10 ^ 9) ≤ 0 ∧ n.tmod (10 ^ 9) ≤ 0 := by
  have hneg := split_of_nonneg (Int.neg_nonneg_of_nonpos h)
  rw [Int.neg_tdiv, Int.neg_tmod] at hneg
  omega

lemma toInt_neg {ns : Int64} (h : ns < 0) : ns.toInt < 0 := by
  simpa using Int64.lt_iff_toInt_lt.mp h

lemma toInt_rest (ns : Int64) :
    (ns - seconds ns * nanosPerSec).toInt = ns.toInt.tmod (10 ^ 9) := by
  have hsplit := Int.mul_tdiv_add_tmod ns.toInt (10 ^ 9)
  have hlow := ns.le_toInt
  have hhigh := ns.toInt_lt
  have hbounds : -2 ^ 63 ≤ ns.toInt.tdiv (10 ^ 9) * 10 ^ 9 ∧
      ns.toInt.tdiv (10 ^ 9) * 10 ^ 9 < 2 ^ 63 := by
    rcases le_total 0 ns.toInt with h | h
    · have := split_of_nonneg h
      omega
    · have := split_of_nonpos h
      omega
  have hmul : (seconds ns * nanosPerSec).toInt = ns.toInt.tdiv (10 ^ 9) * 10 ^ 9 := by
    rw [Int64.toInt_mul, toInt_seconds, toInt_nanosPerSec]
    exact bmod_of_fitsLong (fitsLong_iff.mpr hbounds)
  rw [toInt_sub_of_fitsLong] <;> rw [hmul]
  · omega
  · rw [fitsLong_iff]
    have := Int.lt_tmod_of_pos ns.toInt (show (0 : ℤ) < 10 ^ 9 by omega)
    have := Int.tmod_lt_of_pos ns.toInt (show (0 : ℤ) < 10 ^ 9 by omega)
    omega

section

variable {w : ℕ} {ns : Int64}

lemma tsSecMax_pos (hw : 1 < w) : 0 < tsSecMax w := by
  have hpow : (2 : ℤ) ^ (w - 1) = 2 * 2 ^ (w - 2) := by
    rw [← Int.pow_succ', show w - 2 + 1 = w - 1 by omega]
  have hpos : (0 : ℤ) < 2 ^ (w - 2) := Int.pow_pos (by decide)
  rw [tsSecMax]
  omega

/-- With 64 bits for `tv_sec` there is no limit. -/
lemma seconds_lt_tsSecMax (ns : Int64) :
    -2 ^ 63 ≤ (seconds ns).toInt ∧ (seconds ns).toInt < tsSecMax 64 := by
  have hsplit := Int.mul_tdiv_add_tmod ns.toInt (10 ^ 9)
  have hmod := Int.lt_tmod_of_pos ns.toInt (show (0 : ℤ) < 10 ^ 9 by omega)
  have hhigh := ns.toInt_lt
  have hmax : tsSecMax 64 = 2 ^ 63 - 1 := rfl
  refine ⟨(seconds ns).le_toInt, ?_⟩
  rw [toInt_seconds, hmax]
  omega

/-- The cast leaves seconds in the range of `tv_sec` alone. -/
lemma castSec_eq (hw : 1 < w) {s : Int64} (hlow : -2 ^ (w - 1) ≤ s.toInt)
    (hhigh : s.toInt < tsSecMax w) : castSec w s = s.toInt := by
  have hpow : (2 ^ w : ℕ) = 2 * 2 ^ (w - 1) := by
    rw [← Nat.pow_succ', Nat.succ_eq_add_one, Nat.sub_add_cancel (Nat.le_of_lt hw)]
  rw [tsSecMax] at hhigh
  rw [castSec, hpow]
  apply Int.bmod_eq_of_le
  · push_cast
    omega
  · push_cast
    omega

lemma request_of_lt (hw : 1 < w) (hlow : -2 ^ (w - 1) ≤ (seconds ns).toInt)
    (h : (seconds ns).toInt < tsSecMax w) :
    request w ns = ⟨(seconds ns).toInt, ns - seconds ns * nanosPerSec⟩ := by
  rw [request, if_pos h, castSec_eq hw hlow h]

lemma total_request (hw : 1 < w) (hlow : -2 ^ (w - 1) ≤ (seconds ns).toInt)
    (h : (seconds ns).toInt < tsSecMax w) : (request w ns).total = ns.toInt := by
  rw [request_of_lt hw hlow h, Timespec.total, toInt_rest, toInt_seconds, Int.mul_comm]
  exact Int.mul_tdiv_add_tmod ns.toInt (10 ^ 9)

lemma total_request_of_le (h : ¬ (seconds ns).toInt < tsSecMax w) :
    (request w ns).total = tsSecMax w * 10 ^ 9 + 999999999 := by
  rw [request, if_neg h, Timespec.total]
  rfl

lemma seconds_nonneg (hns : 0 ≤ ns) : -2 ^ (w - 1) ≤ (seconds ns).toInt ∧ 0 ≤ ns.toInt := by
  have hns : 0 ≤ ns.toInt := by simpa using Int64.le_iff_toInt_le.mp hns
  have hdiv := (split_of_nonneg hns).1
  have hpow : (0 : ℤ) < 2 ^ (w - 1) := Int.pow_pos (by decide)
  rw [toInt_seconds]
  omega

/-- A duration that is not negative makes a request that is accepted. -/
lemma valid_request (hw : 1 < w) (hns : 0 ≤ ns) : (request w ns).Valid := by
  by_cases h : (seconds ns).toInt < tsSecMax w
  · obtain ⟨hlow, hns⟩ := seconds_nonneg (w := w) hns
    rw [request_of_lt hw hlow h]
    obtain ⟨hdiv, hmod⟩ := split_of_nonneg hns
    have hlt := Int.tmod_lt_of_pos ns.toInt (show (0 : ℤ) < 10 ^ 9 by omega)
    have hlimit : (999999999 : Int64).toInt = 999999999 := by decide
    refine ⟨?_, ?_, ?_⟩
    · rw [toInt_seconds]
      exact hdiv
    · rw [Int64.le_iff_toInt_le, toInt_rest]
      exact hmod
    · rw [Int64.le_iff_toInt_le, toInt_rest, hlimit]
      omega
  · rw [request, if_neg h]
    have hnonneg : (0 : Int64) ≤ 999999999 := by decide
    exact ⟨(tsSecMax_pos hw).le, hnonneg, Int64.le_refl _⟩

/-- A negative duration with seconds in the range of `tv_sec` makes one that is rejected. -/
lemma not_valid_request (hw : 1 < w) (hns : ns < 0) (hlow : -2 ^ (w - 1) ≤ (seconds ns).toInt) :
    ¬ (request w ns).Valid := by
  have hns := toInt_neg hns
  obtain ⟨hdiv, hmod⟩ := split_of_nonpos hns.le
  have hmax := tsSecMax_pos hw
  have hsplit := Int.mul_tdiv_add_tmod ns.toInt (10 ^ 9)
  by_cases hlt : (seconds ns).toInt < tsSecMax w
  · rw [request_of_lt hw hlow hlt]
    rintro ⟨hsec, hnsec, -⟩
    rw [Int64.le_iff_toInt_le] at hnsec
    simp only [toInt_seconds, toInt_rest, Int64.toInt_zero] at hsec hnsec
    omega
  · rw [toInt_seconds] at hlt
    omega

end

/-! ### The loop -/

/-- The request of the next call of `nanosleep`, the nanoseconds slept so far, and whether
`sync_thread_sleep_for` has returned. -/
structure State where
  ts : Timespec
  slept : ℕ
  returned : Bool
  deriving DecidableEq, Repr

/-- What a call of `nanosleep` does: it sleeps for `d` nanoseconds to the end or until it is
interrupted, when `rem` remains, or it rejects the request. -/
inductive Move
  | complete (d : ℕ)
  | interrupt (d : ℕ) (rem : Timespec)
  | reject
  deriving DecidableEq, Repr

/-- One pass of the loop. It goes on when `nanosleep` returns `-1` and `errno` is `EINTR`. -/
def step (s : State) : Move → Option State
  | .complete d =>
    if s.returned = false ∧ s.ts.Valid ∧ s.ts.total ≤ d then
      some { s with slept := s.slept + d, returned := true }
    else none
  | .interrupt d rem =>
    if s.returned = false ∧ s.ts.Valid ∧ rem.Valid ∧ s.ts.total ≤ d + rem.total then
      some { s with ts := rem, slept := s.slept + d }
    else none
  | .reject =>
    if s.returned = false ∧ ¬ s.ts.Valid then some { s with returned := true } else none

def machine : Machine State Move := ⟨step⟩

/-- `sync_thread_sleep_for(ns)`. -/
def start (w : ℕ) (ns : Int64) : State := ⟨request w ns, 0, false⟩

/-! ### The law -/

/-- What was slept and what remains make up the request, and one that is rejected stays as it is. -/
structure Inv (req : Timespec) (s : State) : Prop where
  valid : req.Valid → s.ts.Valid
  rejected : ¬ req.Valid → s.ts = req ∧ s.slept = 0
  remains : s.returned = false → req.total ≤ s.slept + s.ts.total
  enough : req.Valid → s.returned = true → req.total ≤ s.slept

namespace Inv

variable {req : Timespec} {s s' : State}

lemma initial (w : ℕ) (ns : Int64) : Inv (request w ns) (start w ns) :=
  ⟨id, fun _ => ⟨rfl, rfl⟩, fun _ => by simp [start], fun _ h => by cases h⟩

theorem step (h : Inv req s) {m : Move} (hs : machine.step s m = some s') : Inv req s' := by
  change Sleep.step s m = some s' at hs
  have hvalid : s.ts.Valid → req.Valid := by
    intro hts
    by_contra hreq
    exact hreq ((h.rejected hreq).1 ▸ hts)
  cases m with
  | complete d =>
    simp only [Sleep.step, Option.ite_none_right_eq_some, Option.some.injEq] at hs
    obtain ⟨⟨hreturned, hts, hd⟩, rfl⟩ := hs
    have hremains := h.remains hreturned
    refine ⟨h.valid, fun hreq => absurd (hvalid hts) hreq, fun h => ?_, fun _ _ => ?_⟩
    · cases h
    · push_cast
      omega
  | interrupt d rem =>
    simp only [Sleep.step, Option.ite_none_right_eq_some, Option.some.injEq] at hs
    obtain ⟨⟨hreturned, hts, hrem, hd⟩, rfl⟩ := hs
    have hremains := h.remains hreturned
    refine ⟨fun _ => hrem, fun hreq => absurd (hvalid hts) hreq, fun _ => ?_, fun _ h => ?_⟩
    · push_cast
      omega
    · rw [show s.returned = true from h] at hreturned
      cases hreturned
  | reject =>
    simp only [Sleep.step, Option.ite_none_right_eq_some, Option.some.injEq] at hs
    obtain ⟨⟨-, hts⟩, rfl⟩ := hs
    exact ⟨h.valid, h.rejected, fun h => (by cases h), fun hreq => absurd (h.valid hreq) hts⟩

end Inv

/-- What holds while a thread sleeps for `ns`, and when it returns. -/
structure Law (w : ℕ) (ns : Int64) (s : State) : Prop where
  /-- No request of the loop is rejected. -/
  valid : 0 ≤ ns → s.ts.Valid
  /-- However often the thread is interrupted, it sleeps as long as it was asked to. -/
  enough : s.returned = true → (seconds ns).toInt < tsSecMax w → ns.toInt ≤ s.slept
  /-- Beyond the limit of `tv_sec` it sleeps for the longest request. -/
  longest : s.returned = true → ¬ (seconds ns).toInt < tsSecMax w →
    tsSecMax w * 10 ^ 9 + 999999999 ≤ s.slept
  /-- With 64 bits there is no limit. -/
  unlimited : w = 64 → -2 ^ (w - 1) ≤ (seconds ns).toInt ∧ (seconds ns).toInt < tsSecMax w
  /-- A negative duration in the range of `tv_sec` is rejected by the first call. -/
  negative : ns < 0 → -2 ^ (w - 1) ≤ (seconds ns).toInt → ¬ s.ts.Valid ∧ s.slept = 0
  /-- Below the range the cast decides: the request is rejected at once, or slept for. -/
  wrapped : ns < 0 → (seconds ns).toInt < -2 ^ (w - 1) →
    (¬ (request w ns).Valid → s.slept = 0) ∧
      ((request w ns).Valid → s.returned = true → (request w ns).total ≤ s.slept)
  /-- `sleep_until(t)`, where the clock reads `now`. -/
  until_time : ∀ now t : Int64, FitsLong (t.toInt - now.toInt) → ns = t - now →
    (seconds ns).toInt < tsSecMax w → s.returned = true → t.toInt ≤ now.toInt + s.slept

/-- In every run of the loop, with any number of interruptions: `sleep_for` and `sleep_until` do not
return early, and no duration makes them loop on a rejected request. -/
theorem sleep_law {w : ℕ} (hw : 1 < w) {ns : Int64} {s : State}
    (h : machine.Reachable (start w ns) s) : Law w ns s := by
  have hinv : Inv (request w ns) s :=
    h.invariant (Inv.initial w ns) fun _ _ _ hu _ hs => hu.step hs
  have henough : s.returned = true → (seconds ns).toInt < tsSecMax w → ns.toInt ≤ s.slept := by
    intro hreturned hlt
    by_cases hns : 0 ≤ ns
    · rw [← total_request hw (seconds_nonneg hns).1 hlt]
      exact hinv.enough (valid_request hw hns) hreturned
    · have hneg := toInt_neg (Int64.not_le.mp hns)
      omega
  refine ⟨fun hns => hinv.valid (valid_request hw hns), henough, fun hreturned hle => ?_, ?_,
    fun hns hlow => ?_, fun _ _ => ⟨fun hreq => (hinv.rejected hreq).2, hinv.enough⟩, ?_⟩
  · rw [← total_request_of_le hle]
    refine hinv.enough (valid_request hw ?_) hreturned
    by_contra hns
    have hneg := toInt_neg (Int64.not_le.mp hns)
    have hpos := tsSecMax_pos hw
    have hdiv := (split_of_nonpos hneg.le).1
    rw [toInt_seconds] at hle
    omega
  · rintro rfl
    exact seconds_lt_tsSecMax ns
  · have hreq := not_valid_request hw hns hlow
    obtain ⟨hts, hslept⟩ := hinv.rejected hreq
    rw [hts]
    exact ⟨hreq, hslept⟩
  · rintro now t hfits rfl hlt hreturned
    have hle := henough hreturned hlt
    rw [toInt_sub_of_fitsLong hfits] at hle
    omega

/-- A thread sleeps for two seconds and a half and is interrupted twice. -/
theorem sleep_law_interrupted : ∃ s : State, s.returned = true ∧ s.slept = 2500000010 ∧
    Law 64 2500000000 s := by
  obtain ⟨s, hs, hp⟩ := Machine.exists_reachable_of_run (M := machine) (s := start 64 2500000000)
    [.interrupt 1000000000 ⟨1, 500000000⟩, .interrupt 500000000 ⟨1, 5⟩, .complete 1000000010]
    (fun s => s.returned && s.slept == 2500000010) (by decide +kernel)
  simp only [Bool.and_eq_true, beq_iff_eq] at hp
  exact ⟨s, hp.1, hp.2, sleep_law (by decide) hs⟩

/-- With 32 bits a negative duration can become a second. -/
example : request 32 (-4294967295000000000) = ⟨1, 0⟩ := by decide +kernel

end Sleep

end Sync
