import SyncLib.FastSharedMutex.WithParts

/-!
# What `fast_shared_mutex` sees of its parts

Seen from `rdcount_` and `rdwait_`, the mutex is taken by the exchange that finds `0` and free after
the one of `unlock`, and a unit of a semaphore is there before anybody is notified. So the books of
`fast_shared_mutex` are those of the code with its parts, and the parts keep their own laws.
-/

namespace Sync

open Core

namespace FastSharedMutex

namespace WithParts

open FastMutex.WithEvent (held)

variable {T : Type*}

/-! ### The places -/

/-- Where a thread waits for a unit of a semaphore. -/
def Sem.waiting : Sem → FastSharedMutex.Place
  | .rd => .rdWait
  | .wr => .wrWait

/-- Where a thread goes on with a unit of a semaphore. -/
def Sem.entered : Sem → FastSharedMutex.Place
  | .rd => .reading
  | .wr => .writing

/-- The places that a thread can be at. -/
inductive Fits : Place → Prop
  | own (p : FastSharedMutex.Place) (h : p.trying = false) : Fits ⟨p, .outside⟩
  | locking (q : FastMutex.WithEvent.Place) (hq : FastMutex.WithEvent.Fits q)
      (hm : q.mutex.entering = true) : Fits ⟨.locking, .mtx q⟩
  | unlocking (q : FastMutex.WithEvent.Place) (hq : FastMutex.WithEvent.Fits q)
      (hm : q.mutex = .signaling) : Fits ⟨.unlocking, .mtx q⟩
  | asleep (w : Sem) : Fits ⟨w.waiting, .sem w (.asleep false)⟩
  | woken (w : Sem) (notified : Bool) : Fits ⟨w.waiting, .sem w (.woken false notified)⟩
  | releasing (count : Int32) : Fits ⟨.releasing count, .sem .rd .notifyingAll⟩
  | posting : Fits ⟨.posting, .sem .wr .notifyingOne⟩

/-- A call is over for the counters when the mutex is free and the units are there. -/
def Place.seen (p : Place) : FastSharedMutex.Place :=
  match p.own, p.inner with
  | .unlocking, .mtx _     => .idle
  | .releasing _, .sem _ _ => .unlocking
  | .posting, .sem _ _     => .idle
  | q, _                   => q

lemma Fits.wake {p : Place} (hp : Fits p) : Fits { p with inner := p.inner.wake } := by
  cases hp with
  | own p h => exact .own p h
  | locking q hq hm => exact .locking _ hq.wake hm
  | unlocking q hq hm => exact .unlocking _ hq.wake hm
  | asleep w => exact .woken w true
  | woken w b => exact .woken w b
  | releasing count => exact .releasing count
  | posting => exact .posting

lemma seen_wake {p : Place} (hp : Fits p) :
    Place.seen { p with inner := p.inner.wake } = p.seen := by
  cases hp with
  | asleep w | woken w => cases w <;> rfl
  | own p => cases p <;> rfl
  | _ => rfl

variable {t : T}

/-! ### The steps of a semaphore -/

/-- What a step of a method of a semaphore does to the semaphore and to the place. -/
inductive SemStep (t : T) (s : Semaphore.Shared T) :
    Place → Sem → Semaphore.Shared T → Place → Prop
  | take (w : Sem) (inner : Inner) (hc : s.count ≠ 0) :
      SemStep t s ⟨w.waiting, inner⟩ w (s.take t) ⟨w.entered, .outside⟩
  | stay (w : Sem) (inner : Inner) {q : Semaphore.Place}
      (hq : q = .asleep false ∨ q = .woken false false) :
      SemStep t s ⟨w.waiting, inner⟩ w s ⟨w.waiting, .sem w q⟩
  | postMany (count : Int32) :
      SemStep t s ⟨.releasing count, .outside⟩ .rd
        (Semaphore.postMany t (-count).toUInt32 s).1 ⟨.releasing count, .sem .rd .notifyingAll⟩
  | post : SemStep t s ⟨.posting, .outside⟩ .wr (Semaphore.post t s).1
      ⟨.posting, .sem .wr .notifyingOne⟩
  | notifyAll (count : Int32) :
      SemStep t s ⟨.releasing count, .sem .rd .notifyingAll⟩ .rd s ⟨.unlocking, .outside⟩
  | notifyOne : SemStep t s ⟨.posting, .sem .wr .notifyingOne⟩ .wr s ⟨.idle, .outside⟩

section

variable {s c : Semaphore.Shared T} {p : Place} {q q' : Semaphore.Place} {w : Sem}
  {first m : Semaphore.Move} {pn : FastSharedMutex.Place} {sig : Signal Unit}

/-- The test of the predicate. -/
lemma semStep_of_wait (w : Sem) (inner : Inner) :
    SemStep t s ⟨w.waiting, inner⟩ w (Semaphore.wait t s).1
      (if (Semaphore.wait t s).2 = .idle then ⟨w.entered, .outside⟩
        else ⟨w.waiting, .sem w (Semaphore.wait t s).2⟩) := by
  unfold Semaphore.wait
  by_cases hc : s.count = 0
  · simp only [hc, ne_eq, not_true_eq_false, if_false, reduceCtorEq]
    exact .stay w inner (.inl rfl)
  · simp only [hc, ne_eq, not_false_eq_true, if_true]
    exact .take w inner hc

lemma call_waiting (w : Sem) : call w.waiting = some (w, .wait, w.entered) := by
  cases w <;> rfl

lemma semStep_of_next (hp : Fits p) (hcall : call p.own = some (w, first, pn))
    (hq : p.inSem w = some q) (hm : q = .idle → m = first)
    (h : Semaphore.next t s q m = some (c, q', sig)) :
    SemStep t s p w c (if q' = .idle then ⟨pn, .outside⟩ else ⟨p.own, .sem w q'⟩) := by
  cases hp with
  | own p =>
    cases hq
    obtain rfl := hm rfl
    cases p with
    | rdWait =>
      cases hcall
      cases h
      exact semStep_of_wait .rd .outside
    | wrWait =>
      cases hcall
      cases h
      exact semStep_of_wait .wr .outside
    | releasing count =>
      cases hcall
      cases h
      exact .postMany count
    | posting =>
      cases hcall
      cases h
      exact .post
    | _ => cases hcall
  | locking | unlocking => cases hq
  | asleep v =>
    obtain ⟨rfl, rfl, rfl⟩ : v = w ∧ Semaphore.Move.wait = first ∧ v.entered = pn := by
      simpa [call_waiting] using hcall
    obtain rfl : Semaphore.Place.asleep false = q := by simpa [Place.inSem] using hq
    cases m <;> cases h
    exact .stay v _ (.inr rfl)
  | woken v b =>
    obtain ⟨rfl, rfl, rfl⟩ : v = w ∧ Semaphore.Move.wait = first ∧ v.entered = pn := by
      simpa [call_waiting] using hcall
    obtain rfl : Semaphore.Place.woken false b = q := by simpa [Place.inSem] using hq
    cases m <;> cases h
    exact semStep_of_wait v _
  | releasing count =>
    cases hcall
    cases hq
    cases m <;> cases h
    exact .notifyAll count
  | posting =>
    cases hcall
    cases hq
    cases m <;> cases h
    exact .notifyOne

end

variable {s s' : Shared T} {p p' : Place} {m : Move} {sig : Signal Cv}

lemma Fits.of_locking {q : FastMutex.WithEvent.Place} (hp : Fits p) (hown : p.own = .locking)
    (hq : p.inMtx = some q) : FastMutex.WithEvent.Fits q ∧
      (q = FastMutex.WithEvent.idle ∨ q.mutex.entering = true) := by
  cases hp with
  | own p =>
    cases hown
    cases hq
    exact ⟨.own .idle, .inl rfl⟩
  | locking q' hq' hm =>
    cases hq
    exact ⟨hq', .inr hm⟩
  | asleep | woken => cases hq
  | unlocking | releasing | posting => cases hown

lemma Fits.of_unlocking {q : FastMutex.WithEvent.Place} (hp : Fits p) (hown : p.own = .unlocking)
    (hq : p.inMtx = some q) : FastMutex.WithEvent.Fits q ∧
      (p.inner = .outside ∧ q = held ∨ p.inner = .mtx q ∧ q.mutex = .signaling) := by
  cases hp with
  | own p =>
    cases hown
    cases hq
    exact ⟨.own .holding, .inl ⟨rfl, rfl⟩⟩
  | unlocking q' hq' hm =>
    cases hq
    exact ⟨hq', .inr ⟨rfl, hm⟩⟩
  | asleep | woken => cases hq
  | locking | releasing | posting => cases hown

lemma SemStep.fits {w : Sem} {c : Semaphore.Shared T} {r : Semaphore.Shared T}
    (h : SemStep t r p w c p') : Fits p' := by
  cases h with
  | take w => exact .own _ (by cases w <;> rfl)
  | stay w _ hq =>
    rcases hq with rfl | rfl
    · exact .asleep w
    · exact .woken w false
  | postMany count => exact .releasing count
  | post => exact .posting
  | notifyAll | notifyOne => exact .own _ rfl

lemma toNat_postMany (k : UInt32) (c : Semaphore.Shared T) (h : c.count.toNat + 2 ^ 32 ≤ 2 ^ 64) :
    (Semaphore.postMany t k c).1.count.toNat = c.count.toNat + k.toNat := by
  have hk := k.toNat_lt
  have hadd : (c.count + k.toUInt64).toNat = c.count.toNat + k.toUInt64.toNat :=
    toNat_add_of_lt (by rw [UInt32.toNat_toUInt64]; omega)
  rw [← UInt32.toNat_toUInt64 k]
  exact hadd

/-- The mutex is free when its `state_` is `0`, and the counts of the semaphores do not wrap. -/
structure Safe (s : Shared T) : Prop where
  free : s.wrmtx.state = 0 → s.owner = none
  rdsem : s.rdsem.count.toNat + 2 ^ 32 ≤ 2 ^ 64
  wrsem : s.wrsem.count.toNat + 1 < 2 ^ 64

lemma Safe.sem {s : Shared T} (h : Safe s) (w : Sem) : (s.sem w).count.toNat + 1 < 2 ^ 64 := by
  have hrdsem := h.rdsem
  cases w with
  | rd =>
    change s.rdsem.count.toNat + 1 < 2 ^ 64
    omega
  | wr => exact h.wrsem

variable [DecidableEq T]

lemma Step.fits (h : Step t s p m s' p' sig) (hp : Fits p) : Fits p' := by
  cases h with
  | own hcounts hout hm hn => exact .own _ (of_own hcounts hm hn).2.2.2.2
  | lock hown hq hm hn hne =>
    obtain ⟨hfits, hplace⟩ := hp.of_locking hown hq
    have hstep := FastMutex.WithEvent.step_of_next hfits hn
    have hfits' := hstep.fits hfits
    rcases FastMutex.WithEvent.lock_step hstep (hplace.imp_left fun h => ⟨h, hm h⟩) with
      hent | ⟨hhold, -⟩
    · exact .locking _ hfits' hent
    · exact absurd (FastMutex.WithEvent.eq_held hfits' hhold) hne
  | locked => exact .own _ rfl
  | unlock hown hq hm hn =>
    obtain ⟨hfits, hplace⟩ := hp.of_unlocking hown hq
    have hstep := FastMutex.WithEvent.step_of_next hfits hn
    split_ifs with hidle
    · exact .own _ rfl
    · refine .unlocking _ (hstep.fits hfits) ?_
      refine (FastMutex.WithEvent.unlock_step hstep ?_).resolve_right hidle
      exact hplace.imp (fun h => ⟨h.2, hm h.2⟩) And.right
  | sem hcall hq hm hn => exact (semStep_of_next hp hcall hq hm hn).fits

/-! ### What the counters see -/

lemma seen_of_waiting (w : Sem) (inner : Inner) :
    (⟨w.waiting, inner⟩ : Place).seen = w.waiting := by
  cases w <;> cases inner <;> rfl

/-- A step of a semaphore is one of a counter, or it is not seen. -/
lemma SemStep.seen {w : Sem} {c : Semaphore.Shared T} (h : SemStep t (s.sem w) p w c p')
    (hsafe : Safe s) :
    ((s.setSem c w).view = s.view ∧ p'.seen = p.seen) ∨
      FastSharedMutex.next t s.view p.seen .proceed = some ((s.setSem c w).view, p'.seen) := by
  cases h with
  | take w inner hc =>
    right
    have hpred := toNat_sub_one_add_one hc
    have hpos : 0 < (s.sem w).count.toNat := by omega
    have hcount : ((s.sem w).count - 1).toNat = (s.sem w).count.toNat - 1 := by omega
    rw [seen_of_waiting]
    cases w with
    | rd =>
      simp only [Shared.view, Shared.setSem, Semaphore.Shared.take, hcount]
      exact if_pos hpos
    | wr =>
      simp only [Shared.view, Shared.setSem, Semaphore.Shared.take, hcount]
      exact if_pos hpos
  | stay w inner hq =>
    left
    rw [seen_of_waiting, seen_of_waiting]
    cases w <;> exact ⟨rfl, rfl⟩
  | postMany count =>
    right
    have hadd := toNat_postMany (t := t) (-count).toUInt32 s.rdsem hsafe.rdsem
    simp only [Shared.view, Shared.setSem, Shared.sem, hadd]
    rfl
  | post =>
    right
    have hadd : (s.wrsem.count + 1).toNat = s.wrsem.count.toNat + 1 := toNat_add_of_lt hsafe.wrsem
    simp only [Shared.view, Shared.setSem, Shared.sem, Semaphore.post, hadd]
    rfl
  | notifyAll | notifyOne => exact .inl ⟨rfl, rfl⟩

def Move.seen : Move → FastSharedMutex.Move
  | .own m => m
  | _      => .proceed

lemma seen_outside (q : FastSharedMutex.Place) : (⟨q, .outside⟩ : Place).seen = q := by
  cases q <;> rfl

/-- A step of the code with the parts is one of the code with counters, or it is not seen. -/
lemma seen_of_step (hp : Fits p) (hsafe : Safe s) (h : Step t s p m s' p' sig) :
    (s'.view = s.view ∧ p'.seen = p.seen) ∨
      FastSharedMutex.next t s.view p.seen m.seen = some (s'.view, p'.seen) := by
  cases h with
  | @own m sh q hcounts hout hm hn =>
    right
    obtain ⟨own, inner⟩ := p
    cases hout
    obtain ⟨-, hrd, hwr, howner, -⟩ := of_own hcounts hm hn
    have hview : Shared.view { s with
        rdcount := sh.rdcount, rdwait := sh.rdwait, behind := sh.behind } = sh := by
      rw [Shared.view, ← show sh.rdsem = s.rdsem.count.toNat from hrd,
        ← show sh.wrsem = s.wrsem.count.toNat from hwr, ← show sh.owner = s.owner from howner]
    rw [hview, seen_outside, seen_outside]
    exact hn
  | lock hown =>
    left
    refine ⟨rfl, ?_⟩
    obtain ⟨own, inner⟩ := p
    cases hown
    rfl
  | locked hown hq hm hn =>
    right
    obtain ⟨hfits, hplace⟩ := hp.of_locking hown hq
    have hstep := FastMutex.WithEvent.step_of_next hfits hn
    have hfree : s.wrmtx.state = 0 := by
      rcases FastMutex.WithEvent.lock_step hstep (hplace.imp_left fun h => ⟨h, hm h⟩) with
        hent | ⟨-, hfree⟩
      · cases hent
      · exact hfree
    obtain ⟨own, inner⟩ := p
    cases hown
    exact if_pos (hsafe.free hfree)
  | @unlock q q' m sh sig hown hq hm hn =>
    have hseen : (if q' = FastMutex.WithEvent.idle then (⟨.idle, .outside⟩ : Place)
        else ⟨.unlocking, .mtx q'⟩).seen = .idle := by
      split_ifs <;> rfl
    rw [hseen]
    obtain ⟨-, hplace⟩ := hp.of_unlocking hown hq
    obtain ⟨own, inner⟩ := p
    cases hown
    rcases hplace with ⟨rfl, rfl⟩ | ⟨rfl, hsig⟩
    · rw [if_pos rfl]
      exact .inr rfl
    · have hne : q ≠ held := by
        rintro rfl
        cases hsig
      rw [if_neg hne]
      exact .inl ⟨rfl, rfl⟩
  | sem hcall hq hm hn => exact (semStep_of_next hp hcall hq hm hn).seen hsafe

/-- The counters see a mutex and two counting semaphores. -/
def view : View (monitor (T := T)) (FastSharedMutex.code (T := T)) where
  shared := Shared.view
  place := Place.seen
  move _ _ := Move.seen
  fits := Fits
  safe _ s _ _ := Safe s
  fits_wake _ := Fits.wake
  place_wake _ := seen_wake
  fits_next hp h := (step_of_next h).fits hp
  next hp hsafe h := seen_of_step hp hsafe (step_of_next h)

/-! ### The law -/

lemma holding_of_seen {p : Place} (hp : Fits p) (h : p.seen.inside = true) : p.mtx = held := by
  cases hp with
  | own p =>
    rw [seen_outside] at h
    exact if_pos h
  | asleep w | woken w =>
    cases w with
    | rd => cases h
    | wr => rfl
  | releasing => rfl
  | _ => cases h

lemma own_of_seen {p : Place} {q : FastSharedMutex.Place} (hp : Fits p)
    (hq : q = .writing ∨ q = .reading) : p.seen = q ↔ p.own = q := by
  cases hp with
  | own p => rw [seen_outside]
  | asleep w | woken w => rw [seen_of_waiting]
  | _ => rcases hq with rfl | rfl <;> simp [Place.seen]

variable [Fintype T] {c : Config T (Shared T) Place}

/-- The books of the counters and the law of `wrmtx_` make the next step safe. -/
lemma safe_of_seen (hcard : Fintype.card T < 2 ^ 31) (hfits : view.Fits c)
    (hquiet : Quiet (view.config c)) (hmtx : FastMutex.WithEvent.Law (mtx.config c)) :
    Safe c.shared := by
  obtain ⟨hinv, htight, htrying⟩ := hquiet
  refine ⟨fun hfree => ?_, ?_, ?_⟩
  · rw [Option.eq_none_iff_forall_ne_some]
    intro u hu
    refine hmtx.held_iff.mpr ⟨u, ?_⟩ hfree
    change (c.pc u).mtx.mutex = .holding
    rw [holding_of_seen (hfits u) (htight u hu)]
    rfl
  · have hwaiting := hinv.waiting
    have hreaders := readers_le_card (view.config c)
    change _ = c.shared.rdsem.count.toNat + _ + _ at hwaiting
    omega
  · obtain ⟨ph, hph⟩ := htight.exists_phase fun t => Place.ne_restoring (htrying t)
    have hbalanced := hinv.balanced ph hph
    have hwrsem : (view.config c).shared.wrsem ≤ 1 := by
      cases ph with
      | out => exact hbalanced.2.2.2.1.le.trans zero_le_one
      | announced => exact hbalanced.2.2.2.2.2.le.trans zero_le_one
      | draining =>
        have htoken := hbalanced.2
        split_ifs at htoken <;> omega
      | writing => exact hbalanced.2.2.2.2.2.le.trans zero_le_one
    change c.shared.wrsem.count.toNat ≤ 1 at hwrsem
    omega

/-- A writer is alone. Of the threads that have not finished one is awake. A mutex that nobody uses
is as it was at the start. -/
structure Law (c : Config T (Shared T) Place) : Prop where
  apart : ∀ t u, (c.pc t).own = .writing → u ≠ t →
    (c.pc u).own ≠ .writing ∧ (c.pc u).own ≠ .reading
  live : (∃ t, c.pc t ≠ idle) → ∃ t, c.pc t ≠ idle ∧ (c.pc t).asleepOn = none
  unused : (∀ t, c.pc t = idle) → c.shared.rdcount = longMax ∧ c.shared.rdwait = 0 ∧
    c.shared.rdsem.count = 0 ∧ c.shared.wrsem.count = 0 ∧ c.shared.wrmtx.state = 0

lemma Fits.own_of_asleep {p : Place} (hp : Fits p) {v : Cv} (h : p.asleepOn = some v) :
    (v = .event ∧ p.seen = .locking ∧ p.mtx.event.asleepOn = some ()) ∨
      ∃ w, v = .sem w ∧ p.seen = w.waiting ∧ (p.sem w).asleepOn = some () := by
  cases hp with
  | own => cases h
  | locking q hq hm =>
    obtain ⟨_, hq, rfl⟩ := Option.map_eq_some_iff.mp h
    exact .inl ⟨rfl, rfl, hq⟩
  | unlocking q hq hm =>
    obtain ⟨_, hasleep, -⟩ := Option.map_eq_some_iff.mp h
    cases hq with
    | own => cases hasleep
    | notifying => cases hasleep
    | asleep | woken => cases hm
  | asleep w =>
    cases h
    refine .inr ⟨w, rfl, seen_of_waiting .., ?_⟩
    simp [Place.sem, Semaphore.Place.asleepOn]
  | woken | releasing | posting => cases h

lemma ne_idle {p : Place} (h : p.inner ≠ .outside) : p ≠ idle := by
  rintro rfl
  exact h rfl

/-- Who has to notify, or was notified, is awake. -/
lemma awake_of_credit {p : Place} (hp : Fits p) {w : Sem}
    (h : p.sem w = .notifyingAll ∨ 0 < (p.sem w).toSend + (p.sem w).notified) :
    p ≠ idle ∧ p.asleepOn = none := by
  cases hp with
  | own | locking | unlocking => rcases h with h | h <;> cases h
  | asleep v =>
    exfalso
    by_cases hv : v = w
    · simp [Place.sem, hv, Semaphore.Place.toSend, Semaphore.Place.notified] at h
    · simp [Place.sem, hv, Semaphore.Place.toSend, Semaphore.Place.notified] at h
  | woken | releasing | posting => exact ⟨ne_idle (by simp), rfl⟩

lemma inside_of_holding {p : Place} (hp : Fits p) (h : p.mtx.mutex = .holding) :
    p.seen.inside = true := by
  have hbetween : ∀ {q : FastSharedMutex.Place}, (between q).mutex = .holding →
      q.inside = true := by
    intro q hq
    by_contra hout
    rw [between, if_neg hout] at hq
    cases hq
  cases hp with
  | own p =>
    rw [seen_outside]
    exact hbetween h
  | locking q _ hm | unlocking q _ hm =>
    rw [show q.mutex = .holding from h] at hm
    cases hm
  | asleep w | woken w =>
    rw [seen_of_waiting]
    exact hbetween h
  | releasing => rfl
  | posting => exact hbetween h

/-- Who is under way in `wrmtx_` is awake. -/
lemma awake_of_mtx {p : Place} (hp : Fits p) (h : p.mtx.underWay = true) :
    p ≠ idle ∧ p.asleepOn = none := by
  have hbetween : ∀ {q : FastSharedMutex.Place}, (between q).underWay ≠ true := by
    intro q
    unfold between
    split_ifs <;> simp [held, FastMutex.WithEvent.idle, FastMutex.WithEvent.Place.underWay]
  cases hp with
  | locking q hq | unlocking q hq =>
    have hawake := FastMutex.WithEvent.awake_of_underWay hq h
    exact ⟨ne_idle (by simp), Option.map_eq_none_iff.mpr hawake.2⟩
  | _ => exact absurd h hbetween

/-- Where a semaphore has a unit and a sleeper, somebody is awake. -/
lemma awake_of_unit (hfits : view.Fits c) {w : Sem}
    (hcovered : Semaphore.baton.Covered ((sem w).config c)) {t : T}
    (ht : ((c.pc t).sem w).asleepOn = some ()) (hunit : 0 < (c.shared.sem w).count.toNat) :
    ∃ u, c.pc u ≠ idle ∧ (c.pc u).asleepOn = none := by
  rcases hcovered ⟨t, ht⟩ with ⟨u, hu⟩ | hcredit
  · exact ⟨u, awake_of_credit (hfits u) (.inl hu)⟩
  · obtain ⟨u, hu⟩ := tally_pos_iff.mp (lt_of_lt_of_le hunit hcredit)
    exact ⟨u, awake_of_credit (hfits u) (.inr hu)⟩

/-- Where somebody sleeps somebody is awake: a thread that is not blocked where only the counters
are seen is awake, or what it waits for has somebody to hand it over. -/
lemma awake_of_asleep (hfits : view.Fits c) (hquiet : Quiet (view.config c))
    (hmtx : FastMutex.WithEvent.Law (mtx.config c))
    (hsem : ∀ w, Semaphore.baton.Covered ((sem w).config c)) {t : T} {v : Cv}
    (ht : (c.pc t).asleepOn = some v) : ∃ u, c.pc u ≠ idle ∧ (c.pc u).asleepOn = none := by
  obtain ⟨hinv, htight, -⟩ := hquiet
  have hunfinished : (view.config c).pc t ≠ .idle := by
    change (c.pc t).seen ≠ .idle
    rcases (hfits t).own_of_asleep ht with ⟨-, hseen, -⟩ | ⟨w, -, hseen, -⟩
    · rw [hseen]
      simp
    · rw [hseen]
      cases w <;> simp [Sem.waiting]
  obtain ⟨u, hu, hfree⟩ := hinv.exists_not_blocked htight hunfinished
  change (c.pc u).seen ≠ .idle at hu
  cases hasleep : (c.pc u).asleepOn with
  | none =>
    refine ⟨u, fun hidle => hu ?_, hasleep⟩
    rw [hidle]
    rfl
  | some v =>
    rcases (hfits u).own_of_asleep hasleep with ⟨-, hseen, hevent⟩ | ⟨w, -, hseen, hasleep'⟩
    · have hfree' : c.shared.owner = none := by
        by_contra howner
        exact hfree (.inr (.inr ⟨hseen, howner⟩))
      rcases hmtx.sleeper u hevent with hmark | ⟨x, hx⟩
      · obtain ⟨x, hx⟩ := hmtx.held_iff.mp (show (mtx.config c).shared.state ≠ 0 by simp [hmark])
        have howner := hinv.owner x (inside_of_holding (hfits x) hx)
        rw [show (view.config c).shared.owner = none from hfree'] at howner
        cases howner
      · exact ⟨x, awake_of_mtx (hfits x) hx⟩
    · refine awake_of_unit hfits (hsem w) hasleep' (Nat.pos_of_ne_zero fun hzero => hfree ?_)
      cases w with
      | rd => exact .inl ⟨hseen, hzero⟩
      | wr => exact .inr (.inl ⟨hseen, hzero⟩)

/-- What is known of the counters, of `wrmtx_` and of the semaphores, each by itself. -/
lemma law_of_seen (hfits : view.Fits c)
    (hquiet : Quiet (view.config c)) (hmtx : FastMutex.WithEvent.Law (mtx.config c))
    (hsem : ∀ w, Semaphore.baton.Covered ((sem w).config c)) : Law c := by
  obtain ⟨hinv, htight, htrying⟩ := hquiet
  refine ⟨?_, ?_, ?_⟩
  · intro t u ht hut
    have hwriting : (view.config c).pc t = .writing :=
      (own_of_seen (hfits t) (.inl rfl)).mpr ht
    refine ⟨fun hu => hut (hinv.writing_eq hwriting ?_), fun hu => ?_⟩
    · exact (own_of_seen (hfits u) (.inl rfl)).mpr hu
    · exact hinv.not_reading hwriting u ((own_of_seen (hfits u) (.inr rfl)).mpr hu)
  · rintro ⟨t, ht⟩
    cases hasleep : (c.pc t).asleepOn with
    | none => exact ⟨t, ht, hasleep⟩
    | some v => exact awake_of_asleep hfits ⟨hinv, htight, htrying⟩ hmtx hsem hasleep
  · intro hidle
    have hinitial := hinv.shared_eq_initial htight fun t => by
      rw [view, View.config]
      simp only [hidle t]
      rfl
    simp only [view, View.config, Shared.view, initial, FastSharedMutex.Shared.mk.injEq] at hinitial
    obtain ⟨hrdcount, hrdwait, hrdsem, hwrsem, -, -⟩ := hinitial
    refine ⟨hrdcount, hrdwait, UInt64.toNat_inj.mp hrdsem, UInt64.toNat_inj.mp hwrsem, ?_⟩
    by_contra hstate
    obtain ⟨t, ht⟩ := hmtx.held_iff.mp hstate
    change (c.pc t).mtx.mutex = .holding at ht
    rw [hidle t] at ht
    cases ht

/-- The threads do not try. -/
lemma tries_of_step {s s' : Config T (Shared T) Place} {a : Act T Move}
    (h : monitor.machine.step s a = some s') : a.move.seen.tries = false := by
  obtain ⟨sh, p, sig, hn, -⟩ := Monitor.step_eq_some.mp h
  have hstep : Step a.tid s.shared (s.pc a.tid) a.move sh p sig := step_of_next hn
  generalize a.move = m at hstep
  cases hstep with
  | own _ _ htries => exact htries
  | _ => rfl

/-- In every reachable state, with fewer than `2 ^ 31` threads. -/
theorem shared_mutex_and_parts_law (hcard : Fintype.card T < 2 ^ 31)
    (h : monitor.machine.Reachable start c) : Law c := by
  have h₀ : view.Fits (start : Config T (Shared T) Place) := fun _ => .own .idle rfl
  have hmtx : ∀ {u : Config T (Shared T) Place}, monitor.machine.Reachable start u →
      FastMutex.WithEvent.Law (mtx.config u) := fun hu =>
    FastMutex.WithEvent.law_of_reachable (mtx.reachable hu)
  have hseen : ∀ {u : Config T (Shared T) Place}, monitor.machine.Reachable start u →
      view.Fits u ∧ code.machine.Runs NeverTries FastSharedMutex.start (view.config u) :=
    fun hu => view.runs h₀
      (fun _ _ hfits hruns hcode _ => safe_of_seen hcard hfits (Quiet.of_runs hcard hcode)
        (hmtx hruns.reachable))
      (fun _ _ htries => htries) (hu.of_step fun _ _ _ => tries_of_step)
  have hquiet : ∀ {u : Config T (Shared T) Place}, monitor.machine.Reachable start u →
      Quiet (view.config u) := fun hu => Quiet.of_runs hcard (hseen hu).2
  refine law_of_seen (hseen h).1 (hquiet h) (hmtx h) fun w => ?_
  have hsem : Semaphore.monitor.machine.Runs
      (fun u a => a.move = .post → u.shared.count.toNat + 1 < 2 ^ 64)
      ((sem w).config start) ((sem w).config c) :=
    (sem w).runs (fun u _ _ _ hu _ _ _ _ =>
      (safe_of_seen hcard (hseen hu).1 (hquiet hu) (hmtx hu)).sem w) h
  have hstart : (sem w).config (start : Config T (Shared T) Place) = Semaphore.start 0 := by
    cases w <;> rfl
  rw [hstart] at hsem
  exact Semaphore.covered_of_runs (fun _ _ h => h) hsem

/-- A reader has posted `wrsem_` and has still to notify the writer that sleeps there, and another
writer sleeps in `wrmtx_`. -/
theorem shared_mutex_and_parts_law_three :
    ∃ s : Config (Fin 3) (Shared (Fin 3)) Place, (s.pc 0).inner = .sem .wr .notifyingOne ∧
      (s.pc 1).asleepOn = some (.sem .wr) ∧ (s.pc 2).asleepOn = some .event ∧ Law s := by
  obtain ⟨s, hs, hp⟩ := Machine.exists_reachable_of_run (M := monitor.machine)
    (s := (start : Config (Fin 3) (Shared (Fin 3)) Place))
    [⟨0, .own .lockShared, none⟩, ⟨1, .own .lock, none⟩, ⟨1, .mtx (.own .lock), none⟩,
      ⟨1, .own .proceed, none⟩, ⟨1, .own .proceed, none⟩, ⟨1, .sem .wr .wait, none⟩,
      ⟨2, .own .lock, none⟩, ⟨2, .mtx (.own .lock), none⟩, ⟨2, .mtx (.own .proceed), none⟩,
      ⟨2, .mtx (.event .wait), none⟩, ⟨0, .own .unlockShared, none⟩, ⟨0, .own .proceed, none⟩,
      ⟨0, .sem .wr .post, none⟩]
    (fun s => (s.pc 0).inner == .sem .wr .notifyingOne && (s.pc 1).asleepOn == some (.sem .wr) &&
      (s.pc 2).asleepOn == some .event) (by decide +kernel)
  simp only [Bool.and_eq_true, beq_iff_eq, and_assoc] at hp
  exact ⟨s, hp.1, hp.2.1, hp.2.2, shared_mutex_and_parts_law (by decide) hs⟩

end WithParts

end FastSharedMutex

end Sync
