import SyncLib.FastMutex.WithEvent
import SyncLib.FastSharedMutex.Tokens
import SyncLib.Semaphore.Counting

/-!
# `fast_shared_mutex` with its parts

Here `wrmtx_` is a `fast_mutex` with its event, and `rdsem_` and `wrsem_` are semaphores whose
threads run sections, notifications and waits. The threads call `lock`, `unlock`, `lock_shared` and
`unlock_shared`; the two `try_` methods leave the counters wrong when they fail, whatever the parts
are.
-/

namespace Sync

open Core

namespace FastSharedMutex

namespace WithParts

open FastMutex.WithEvent (held)

/-! ### The threads -/

/-- The two semaphores. -/
inductive Sem
  | rd
  | wr
  deriving DecidableEq, Repr

/-- Where a thread is in the methods of the parts. -/
inductive Inner
  | outside
  | mtx (q : FastMutex.WithEvent.Place)
  | sem (w : Sem) (q : Semaphore.Place)
  deriving DecidableEq, Repr

/-- Where a thread is in the code of `fast_shared_mutex`, and in a method that it calls. -/
structure Place where
  own : FastSharedMutex.Place
  inner : Inner
  deriving DecidableEq, Repr

/-- An operation on `rdcount_` or `rdwait_`, or a step of a method of a part. -/
inductive Move
  | own (m : FastSharedMutex.Move)
  | mtx (m : FastMutex.WithEvent.Move)
  | sem (w : Sem) (m : Semaphore.Move)
  deriving DecidableEq, Repr

/-- The condition variables of the parts. -/
inductive Cv
  | event
  | sem (w : Sem)
  deriving DecidableEq, Repr

/-- The members. `owner` and `behind` are not in the code: the thread that holds `wrmtx_`, and the
readers that wait behind a writer. -/
structure Shared (T : Type*) where
  rdcount : Int64
  rdwait : Int64
  wrmtx : FastMutex.WithEvent.Shared T
  rdsem : Semaphore.Shared T
  wrsem : Semaphore.Shared T
  owner : Option T
  behind : ℕ

variable {T : Type*}

def Shared.sem (s : Shared T) : Sem → Semaphore.Shared T
  | .rd => s.rdsem
  | .wr => s.wrsem

def Shared.setSem (s : Shared T) (c : Semaphore.Shared T) : Sem → Shared T
  | .rd => { s with rdsem := c }
  | .wr => { s with wrsem := c }

/-- What `fast_shared_mutex` sees of the members. -/
def Shared.view (s : Shared T) : FastSharedMutex.Shared T :=
  ⟨s.rdcount, s.rdwait, s.rdsem.count.toNat, s.wrsem.count.toNat, s.owner, s.behind⟩

/-- A thread between the methods of `wrmtx_`. -/
def between (p : FastSharedMutex.Place) : FastMutex.WithEvent.Place :=
  if p.inside then held else FastMutex.WithEvent.idle

/-- Where a thread is that can take a step of a method of `wrmtx_`. -/
def Place.inMtx (p : Place) : Option FastMutex.WithEvent.Place :=
  match p.inner with
  | .outside => some (between p.own)
  | .mtx q   => some q
  | .sem _ _ => none

/-- Where a thread is that can take a step of a method of a semaphore. -/
def Place.inSem (p : Place) (w : Sem) : Option Semaphore.Place :=
  match p.inner with
  | .outside  => some .idle
  | .mtx _    => none
  | .sem w' q => if w' = w then some q else none

/-- The method of a semaphore that is called at a place, and where the code goes on. -/
def call : FastSharedMutex.Place → Option (Sem × Semaphore.Move × FastSharedMutex.Place)
  | .rdWait          => some (.rd, .wait, .reading)
  | .releasing count => some (.rd, .postMany (-count).toUInt32, .unlocking)
  | .wrWait          => some (.wr, .wait, .writing)
  | .posting         => some (.wr, .post, .idle)
  | _                => none

/-- The next operation is one on `rdcount_` or `rdwait_`, or `lock` begins. -/
def counts (p : FastSharedMutex.Place) : Bool :=
  p ≠ .locking ∧ p ≠ .unlocking ∧ call p = none ∧ p.trying = false

/-- A step of `wrmtx_.lock()`. -/
def lockStep (t : T) (s : Shared T) (q : FastMutex.WithEvent.Place)
    (m : FastMutex.WithEvent.Move) : Option (Shared T × Place × Signal Cv) :=
  (FastMutex.WithEvent.monitor.callStep FastMutex.WithEvent.idle (.own .lock) t s.wrmtx q m).map
    fun r => if r.2.1 = held
      then ({ s with wrmtx := r.1, owner := some t }, ⟨.subtracting .lock, .outside⟩,
        r.2.2.map fun _ => .event)
      else ({ s with wrmtx := r.1 }, ⟨.locking, .mtx r.2.1⟩, r.2.2.map fun _ => .event)

/-- A step of `wrmtx_.unlock()`. -/
def unlockStep (t : T) (s : Shared T) (q : FastMutex.WithEvent.Place)
    (m : FastMutex.WithEvent.Move) : Option (Shared T × Place × Signal Cv) :=
  (FastMutex.WithEvent.monitor.callStep held (.own .unlock) t s.wrmtx q m).map fun r =>
    ({ s with wrmtx := r.1, owner := if q = held then none else s.owner },
      if r.2.1 = FastMutex.WithEvent.idle then ⟨.idle, .outside⟩ else ⟨.unlocking, .mtx r.2.1⟩,
      r.2.2.map fun _ => .event)

/-- A step of the method of the semaphore `w` that is called at the place `p`. -/
def semStep (t : T) (s : Shared T) (p : FastSharedMutex.Place) (w : Sem) (q : Semaphore.Place)
    (m : Semaphore.Move) : Option (Shared T × Place × Signal Cv) :=
  match call p with
  | none             => none
  | some (w', first, p') =>
    if w' = w then (Semaphore.monitor.callStep .idle first t (s.sem w) q m).map fun r =>
      (s.setSem r.1 w, if r.2.1 = .idle then ⟨p', .outside⟩ else ⟨p, .sem w r.2.1⟩,
        r.2.2.map fun _ => .sem w)
    else none

/-- One operation of `fast_shared_mutex`, or one step of a part. -/
def next [DecidableEq T] (t : T) (s : Shared T) (p : Place) :
    Move → Option (Shared T × Place × Signal Cv)
  | .own m =>
    if counts p.own = true ∧ p.inner = .outside ∧ m.tries = false then
      (FastSharedMutex.next t s.view p.own m).map fun r =>
        ({ s with rdcount := r.1.rdcount, rdwait := r.1.rdwait, behind := r.1.behind },
          ⟨r.2, .outside⟩, .none)
    else none
  | .mtx m =>
    match p.own with
    | .locking   => p.inMtx.bind fun q => lockStep t s q m
    | .unlocking => p.inMtx.bind fun q => unlockStep t s q m
    | _          => none
  | .sem w m => (p.inSem w).bind fun q => semStep t s p.own w q m

def Place.asleepOn (p : Place) : Option Cv :=
  match p.inner with
  | .outside => none
  | .mtx q   => q.event.asleepOn.map fun _ => .event
  | .sem w q => q.asleepOn.map fun _ => .sem w

def Inner.wake : Inner → Inner
  | .outside => .outside
  | .mtx q   => .mtx { q with event := q.event.wake }
  | .sem w q => .sem w q.wake

/-- All threads around one mutex. -/
def monitor [DecidableEq T] : Monitor T (Shared T) Place Cv Move where
  next := next
  asleepOn := Place.asleepOn
  wake p := { p with inner := p.inner.wake }

/-- A thread outside of the methods. -/
def idle : Place := ⟨.idle, .outside⟩

def start : Config T (Shared T) Place :=
  ⟨⟨longMax, 0, ⟨0, ⟨false, []⟩⟩, ⟨0, []⟩, ⟨0, []⟩, none, 0⟩, fun _ => idle⟩

variable {t : T} {s s' : Shared T} {p p' : Place} {m : Move} {sig : Signal Cv}

/-! ### The parts -/

/-- Where a thread is in the methods of `wrmtx_`. -/
def Place.mtx (p : Place) : FastMutex.WithEvent.Place :=
  match p.inner with
  | .mtx q => q
  | _      => between p.own

/-- Where a thread is in the methods of a semaphore. -/
def Place.sem (p : Place) (w : Sem) : Semaphore.Place :=
  match p.inner with
  | .sem w' q => if w' = w then q else .idle
  | _         => .idle

lemma mtx_of_inMtx {q : FastMutex.WithEvent.Place} (h : p.inMtx = some q) : p.mtx = q := by
  obtain ⟨own, inner⟩ := p
  cases inner <;> cases h <;> rfl

lemma sem_of_inMtx {q : FastMutex.WithEvent.Place} (h : p.inMtx = some q) (w : Sem) :
    p.sem w = .idle := by
  obtain ⟨own, inner⟩ := p
  cases inner <;> cases h <;> rfl

lemma sem_of_inSem {w : Sem} {q : Semaphore.Place} (h : p.inSem w = some q) : p.sem w = q := by
  obtain ⟨own, inner⟩ := p
  cases inner with
  | outside =>
    cases h
    rfl
  | mtx => cases h
  | sem w' q' =>
    simp only [Place.inSem, Option.ite_none_right_eq_some, Option.some.injEq] at h
    simp only [Place.sem, if_pos h.1, h.2]

lemma others_of_inSem {w v : Sem} {q : Semaphore.Place} (h : p.inSem w = some q) :
    p.mtx = between p.own ∧ (v ≠ w → p.sem v = .idle) := by
  obtain ⟨own, inner⟩ := p
  cases inner with
  | outside => exact ⟨rfl, fun _ => rfl⟩
  | mtx => cases h
  | sem w' q' =>
    simp only [Place.inSem, Option.ite_none_right_eq_some, Option.some.injEq] at h
    refine ⟨rfl, fun hv => if_neg ?_⟩
    rw [h.1]
    exact hv.symm

@[simp] lemma Shared.sem_setSem_self (s : Shared T) (c : Semaphore.Shared T) (w : Sem) :
    (s.setSem c w).sem w = c := by
  cases w <;> rfl

lemma Shared.sem_setSem_of_ne (s : Shared T) (c : Semaphore.Shared T) {v w : Sem} (h : v ≠ w) :
    (s.setSem c w).sem v = s.sem v := by
  cases v <;> cases w <;> first | rfl | exact absurd rfl h

@[simp] lemma Shared.wrmtx_setSem (s : Shared T) (c : Semaphore.Shared T) (w : Sem) :
    (s.setSem c w).wrmtx = s.wrmtx := by
  cases w <;> rfl

/-- A call of a semaphore leaves `wrmtx_` to its owner. -/
lemma between_of_call {q q' : FastSharedMutex.Place} {w : Sem} {first : Semaphore.Move}
    (h : call q = some (w, first, q')) : between q' = between q := by
  cases q <;> cases h <;> rfl

/-- The operations on the counters leave `wrmtx_` to its owner, and the parts alone. -/
lemma of_own [DecidableEq T] {q q' : FastSharedMutex.Place} {m : FastSharedMutex.Move}
    {sh sh' : FastSharedMutex.Shared T} (hq : counts q = true) (hm : m.tries = false)
    (h : FastSharedMutex.next t sh q m = some (sh', q')) :
    between q' = between q ∧ sh'.rdsem = sh.rdsem ∧ sh'.wrsem = sh.wrsem ∧
      sh'.owner = sh.owner ∧ q'.trying = false := by
  have hplace : q ≠ .locking ∧ q ≠ .unlocking ∧ call q = none ∧ q.trying = false := by
    simpa [counts, and_assoc] using hq
  obtain ⟨hlocking, hunlocking, hcall, htrying⟩ := hplace
  have hop := op_of_next h
  have htrying' := hop.trying hm htrying
  cases hop with
  | enter | divert | refuse | leave | depart | pay | payLast | begin | fail | addFree | unlock
  | unlockAlone => exact ⟨rfl, rfl, rfl, rfl, htrying'⟩
  | announce => exact ⟨rfl, rfl, rfl, rfl, htrying'⟩
  | unopposed w | addBlocked w =>
    cases w with
    | lock => exact ⟨rfl, rfl, rfl, rfl, rfl⟩
    | tryLock => cases htrying
  | admitted | post | drained | release => cases hcall
  | tryClaim => cases hm
  | restore => cases htrying
  | claim => exact absurd rfl hlocking
  | finish => exact absurd rfl hunlocking

/-- What a step of one thread does, one constructor for each kind of step. -/
inductive Step [DecidableEq T] (t : T) (s : Shared T) (p : Place) :
    Move → Shared T → Place → Signal Cv → Prop
  | own {m : FastSharedMutex.Move} {sh : FastSharedMutex.Shared T} {q : FastSharedMutex.Place}
      (hcounts : counts p.own = true) (hp : p.inner = .outside) (hm : m.tries = false)
      (h : FastSharedMutex.next t s.view p.own m = some (sh, q)) :
      Step t s p (.own m)
        { s with rdcount := sh.rdcount, rdwait := sh.rdwait, behind := sh.behind }
        ⟨q, .outside⟩ .none
  | lock {q q' : FastMutex.WithEvent.Place} {m : FastMutex.WithEvent.Move}
      {sh : FastMutex.WithEvent.Shared T} {sig : Signal Unit} (hp : p.own = .locking)
      (hq : p.inMtx = some q) (hm : q = FastMutex.WithEvent.idle → m = .own .lock)
      (h : FastMutex.WithEvent.next t s.wrmtx q m = some (sh, q', sig)) (hne : q' ≠ held) :
      Step t s p (.mtx m) { s with wrmtx := sh } ⟨.locking, .mtx q'⟩ (sig.map fun _ => .event)
  | locked {q : FastMutex.WithEvent.Place} {m : FastMutex.WithEvent.Move}
      {sh : FastMutex.WithEvent.Shared T} {sig : Signal Unit} (hp : p.own = .locking)
      (hq : p.inMtx = some q) (hm : q = FastMutex.WithEvent.idle → m = .own .lock)
      (h : FastMutex.WithEvent.next t s.wrmtx q m = some (sh, held, sig)) :
      Step t s p (.mtx m) { s with wrmtx := sh, owner := some t } ⟨.subtracting .lock, .outside⟩
        (sig.map fun _ => .event)
  | unlock {q q' : FastMutex.WithEvent.Place} {m : FastMutex.WithEvent.Move}
      {sh : FastMutex.WithEvent.Shared T} {sig : Signal Unit} (hp : p.own = .unlocking)
      (hq : p.inMtx = some q) (hm : q = held → m = .own .unlock)
      (h : FastMutex.WithEvent.next t s.wrmtx q m = some (sh, q', sig)) :
      Step t s p (.mtx m)
        { s with wrmtx := sh, owner := if q = held then none else s.owner }
        (if q' = FastMutex.WithEvent.idle then ⟨.idle, .outside⟩ else ⟨.unlocking, .mtx q'⟩)
        (sig.map fun _ => .event)
  | sem {w : Sem} {first m : Semaphore.Move} {pn : FastSharedMutex.Place} {q q' : Semaphore.Place}
      {c : Semaphore.Shared T} {sig : Signal Unit} (hcall : call p.own = some (w, first, pn))
      (hq : p.inSem w = some q) (hm : q = .idle → m = first)
      (h : Semaphore.next t (s.sem w) q m = some (c, q', sig)) :
      Step t s p (.sem w m) (s.setSem c w)
        (if q' = .idle then ⟨pn, .outside⟩ else ⟨p.own, .sem w q'⟩) (sig.map fun _ => .sem w)

lemma step_of_next [DecidableEq T] (h : next t s p m = some (s', p', sig)) :
    Step t s p m s' p' sig := by
  cases m with
  | own m =>
    simp only [next, Option.ite_none_right_eq_some, Option.map_eq_some_iff, Prod.mk.injEq] at h
    obtain ⟨⟨hcounts, hinner, hm⟩, ⟨sh, q⟩, hn, rfl, rfl, rfl⟩ := h
    exact .own hcounts hinner hm hn
  | mtx m =>
    simp only [next] at h
    split at h
    · rename_i hown
      obtain ⟨q, hq, h⟩ := Option.bind_eq_some_iff.mp h
      obtain ⟨⟨sh, q', sig'⟩, hn, hr⟩ := Option.map_eq_some_iff.mp h
      obtain ⟨hm, hn⟩ := Monitor.next_of_callStep hn
      simp only at hr
      split_ifs at hr with hheld <;> cases hr
      · rw [hheld] at hn
        exact .locked hown hq hm hn
      · exact .lock hown hq hm hn hheld
    · rename_i hown
      obtain ⟨q, hq, h⟩ := Option.bind_eq_some_iff.mp h
      obtain ⟨⟨sh, q', sig'⟩, hn, hr⟩ := Option.map_eq_some_iff.mp h
      obtain ⟨hm, hn⟩ := Monitor.next_of_callStep hn
      obtain ⟨rfl, rfl, rfl⟩ := by simpa only [Prod.mk.injEq] using hr
      exact .unlock hown hq hm hn
    · cases h
  | sem w m =>
    obtain ⟨q, hq, h⟩ := Option.bind_eq_some_iff.mp h
    simp only [semStep] at h
    split at h
    · cases h
    · rename_i w' first pn hcall
      simp only [Option.ite_none_right_eq_some, Option.map_eq_some_iff, Prod.mk.injEq] at h
      obtain ⟨rfl, ⟨c, q', sig'⟩, hn, rfl, rfl, rfl⟩ := h
      obtain ⟨hm, hn⟩ := Monitor.next_of_callStep hn
      exact .sem hcall hq hm hn

lemma not_asleep_between (q : FastSharedMutex.Place) : (between q).event.asleepOn = none := by
  unfold between
  split_ifs <;> rfl

lemma asleepOn_iff_mtx {c : Unit} :
    p.asleepOn = some .event ↔ p.mtx.event.asleepOn = some c := by
  obtain ⟨own, inner⟩ := p
  cases inner with
  | outside => simp [Place.asleepOn, Place.mtx, not_asleep_between]
  | mtx q => exact Option.map_eq_some_iff.trans ⟨fun ⟨_, hq, _⟩ => hq, fun hq => ⟨(), hq, rfl⟩⟩
  | sem w q => simp [Place.asleepOn, Place.mtx, not_asleep_between]

lemma asleepOn_iff_sem {w : Sem} {c : Unit} :
    p.asleepOn = some (.sem w) ↔ (p.sem w).asleepOn = some c := by
  obtain ⟨own, inner⟩ := p
  cases inner with
  | outside => simp [Place.asleepOn, Place.sem, Semaphore.Place.asleepOn]
  | mtx q => simp [Place.asleepOn, Place.sem, Semaphore.Place.asleepOn]
  | sem v q =>
    by_cases hv : v = w
    · subst hv
      simp only [Place.asleepOn, Place.sem, if_pos]
      exact Option.map_eq_some_iff.trans ⟨fun ⟨_, hq, _⟩ => hq, fun hq => ⟨(), hq, rfl⟩⟩
    · simp [Place.asleepOn, Place.sem, hv, Semaphore.Place.asleepOn]

lemma mtx_wake (h : p.asleepOn = some .event) :
    Place.mtx { p with inner := p.inner.wake } = { p.mtx with event := p.mtx.event.wake } := by
  obtain ⟨own, inner⟩ := p
  cases inner with
  | mtx q => rfl
  | outside => cases h
  | sem w q => simp [Place.asleepOn] at h

lemma mtx_wake_other {d : Cv} (h : p.asleepOn = some d) (hd : d ≠ .event) :
    Place.mtx { p with inner := p.inner.wake } = p.mtx := by
  obtain ⟨own, inner⟩ := p
  cases inner with
  | mtx q =>
    obtain ⟨c, -, rfl⟩ := Option.map_eq_some_iff.mp h
    exact absurd rfl hd
  | _ => rfl

lemma sem_wake {w : Sem} (h : p.asleepOn = some (.sem w)) :
    Place.sem { p with inner := p.inner.wake } w = (p.sem w).wake := by
  obtain ⟨own, inner⟩ := p
  cases inner with
  | outside => cases h
  | mtx q => simp [Place.asleepOn] at h
  | sem v q =>
    obtain ⟨_, -, hv⟩ := Option.map_eq_some_iff.mp h
    cases hv
    simp [Inner.wake, Place.sem]

lemma sem_wake_other {w : Sem} {d : Cv} (h : p.asleepOn = some d) (hd : d ≠ .sem w) :
    Place.sem { p with inner := p.inner.wake } w = p.sem w := by
  obtain ⟨own, inner⟩ := p
  cases inner with
  | sem v q =>
    obtain ⟨c, -, rfl⟩ := Option.map_eq_some_iff.mp h
    have hv : v ≠ w := fun hv => hd (congrArg _ hv)
    simp [Inner.wake, Place.sem, if_neg hv]
  | _ => rfl

variable [DecidableEq T]

/-- A step is one of `wrmtx_`, or `wrmtx_` does not see it. -/
lemma mtx_of_step (h : Step t s p m s' p' sig) :
    (s'.wrmtx = s.wrmtx ∧ p'.mtx = p.mtx ∧ ∀ _ : Unit, sig.cond ≠ some .event) ∨
      ∃ m₂ sig₂, FastMutex.WithEvent.next t s.wrmtx p.mtx m₂ = some (s'.wrmtx, p'.mtx, sig₂) ∧
        sig = sig₂.map fun _ => .event := by
  cases h with
  | own hcounts hp hm hn =>
    obtain ⟨own, inner⟩ := p
    cases hp
    exact .inl ⟨rfl, (of_own hcounts hm hn).1, fun _ hc => by cases hc⟩
  | lock _ hq _ hn | locked _ hq _ hn =>
    rw [mtx_of_inMtx hq]
    exact .inr ⟨_, _, hn, rfl⟩
  | @unlock q q' m sh sig _ hq _ hn =>
    have hplace : (if q' = FastMutex.WithEvent.idle then (⟨.idle, .outside⟩ : Place)
        else ⟨.unlocking, .mtx q'⟩).mtx = q' := by
      split_ifs with hidle
      · exact hidle.symm
      · rfl
    rw [mtx_of_inMtx hq, hplace]
    exact .inr ⟨m, sig, hn, rfl⟩
  | sem hcall hq _ hn =>
    refine .inl ⟨Shared.wrmtx_setSem .., ?_, fun _ => Signal.cond_map_ne (by simp) _⟩
    rw [(others_of_inSem (v := .rd) hq).1]
    split_ifs
    · exact between_of_call hcall
    · rfl

/-- A step is one of the semaphore `w`, or the semaphore does not see it. -/
lemma sem_of_step (w : Sem) (h : Step t s p m s' p' sig) :
    (s'.sem w = s.sem w ∧ p'.sem w = p.sem w ∧ ∀ _ : Unit, sig.cond ≠ some (.sem w)) ∨
      ∃ m₂ sig₂, Semaphore.next t (s.sem w) (p.sem w) m₂ = some (s'.sem w, p'.sem w, sig₂) ∧
        sig = sig₂.map fun _ => .sem w := by
  cases h with
  | own _ hp =>
    obtain ⟨own, inner⟩ := p
    cases hp
    exact .inl ⟨by cases w <;> rfl, rfl, fun _ hc => by cases hc⟩
  | lock _ hq | locked _ hq =>
    rw [sem_of_inMtx hq]
    exact .inl ⟨by cases w <;> rfl, rfl, fun _ => Signal.cond_map_ne (by simp) _⟩
  | unlock _ hq =>
    rw [sem_of_inMtx hq]
    refine .inl ⟨by cases w <;> rfl, ?_, fun _ => Signal.cond_map_ne (by simp) _⟩
    split_ifs <;> rfl
  | @sem v first m pn q q' c sig hcall hq _ hn =>
    by_cases hv : w = v
    · subst hv
      have hplace : (if q' = .idle then (⟨pn, .outside⟩ : Place)
          else ⟨p.own, .sem w q'⟩).sem w = q' := by
        split_ifs with hidle
        · exact hidle.symm
        · exact if_pos rfl
      rw [sem_of_inSem hq, Shared.sem_setSem_self, hplace]
      exact .inr ⟨m, sig, hn, rfl⟩
    · rw [(others_of_inSem hq).2 hv]
      refine .inl ⟨Shared.sem_setSem_of_ne _ _ hv, ?_, fun _ =>
        Signal.cond_map_ne (fun _ hc => hv ?_) _⟩
      · split_ifs
        · rfl
        · exact if_neg fun h => hv h.symm
      · cases hc
        rfl

/-- `wrmtx_`, as a part. -/
def mtx : Part (monitor (T := T)) (FastMutex.WithEvent.monitor (T := T)) where
  shared := Shared.wrmtx
  place := Place.mtx
  cond _ := .event
  asleepOn _ _ := asleepOn_iff_mtx
  wake _ _ := mtx_wake
  wake_other _ _ h hd := mtx_wake_other h (hd ())
  next h := mtx_of_step (step_of_next h)

/-- A semaphore, as a part. -/
def sem (w : Sem) : Part (monitor (T := T)) (Semaphore.monitor (T := T)) where
  shared s := s.sem w
  place p := p.sem w
  cond _ := .sem w
  asleepOn _ _ := asleepOn_iff_sem
  wake _ _ := sem_wake
  wake_other _ _ h hd := sem_wake_other h (hd ())
  next h := sem_of_step w (step_of_next h)

end WithParts

end FastSharedMutex

end Sync
