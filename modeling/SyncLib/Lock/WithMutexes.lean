import SyncLib.Core.MutexCode
import SyncLib.Lock.Deadlock

/-!
# `lock` with the mutexes it locks

Threads lock selections of mutexes with `lock` and `scoped_lock`, and each mutex is run step by
step, with its waits and its notifications. A thread that sleeps in the `lock` of a mutex holds
nothing, so the law of each mutex by itself is enough for all of them together.
-/

namespace Sync

open Core

/-- The call of a mutex that an operation is. -/
def MutexOp.call {N : Type} : MutexOp N → Option (MutexCall × N)
  | .lock n    => some (.lock, n)
  | .tryLock n => some (.tryLock, n)
  | .unlock n  => some (.unlock, n)
  | .yield     => none

/-- What an operation returns when the call has answered `b`. -/
def MutexOp.answer {N : Type} (b : Bool) : (o : MutexOp N) → o.Result
  | .lock _    => ()
  | .tryLock _ => b
  | .unlock _  => ()
  | .yield     => ()

namespace Lock

/-- The operation that a thread is about to call, or is in, and how it goes on. -/
def Phase.pending {N : Type} : Phase N → Option ((o : MutexOp N) × (o.Result → Phase N))
  | .locking ms (.call o k) => some ⟨o, fun r => .locking ms (k r)⟩
  | .unlocking (.call o k)  => some ⟨o, fun r => .unlocking (k r)⟩
  | _                       => none

/-- `lock` has returned. -/
def Phase.isHolding {N : Type} : Phase N → Bool
  | .holding _ => true
  | _          => false

/-- The call of a mutex among them. -/
def Phase.call {N : Type} (p : Phase N) : Option (MutexCall × N) := p.pending.bind (·.1.call)

/-! ### The phases -/

section

variable {T : Type*} {N : Type}

/-- The operation that a thread is about to call may be called, whatever it then answers. -/
lemma holds_of_pending {ph : Phase N} {H : Set N} {o : MutexOp N} {k : o.Result → Phase N}
    (h : ph.Holds H) (hpending : ph.pending = some ⟨o, k⟩) :
    custody.requires o H ∧ ∀ r H', custody.ensures o H r H' → (k r).Holds H' := by
  cases ph with
  | idle | holding => cases hpending
  | locking ms prog =>
    cases prog with
    | ret a => cases hpending
    | call o' k' =>
      cases hpending
      exact ⟨h.2.1, fun r H' hr => ⟨h.1, h.2.2 r H' hr⟩⟩
  | unlocking prog =>
    cases prog with
    | ret a => cases hpending
    | call o' k' =>
      cases hpending
      exact ⟨h.1, fun r H' hr => h.2 r H' hr⟩

lemma call_of_pending {ph : Phase N} {o : MutexOp N} {k : o.Result → Phase N}
    (h : ph.pending = some ⟨o, k⟩) : ph.call = o.call := by
  simp [Phase.call, h]

/-- A step outside of the mutexes leaves the holders alone. -/
lemma owner_of_own [DecidableEq N] {owner owner' : N → Option T} {ph ph' : Phase N} {a : Move N}
    {t : T} (hcall : ph.call = none) (h : next t owner ph a = some (owner', ph')) :
    owner' = owner := by
  cases ph with
  | idle =>
    cases a with
    | lock =>
      simp only [next, Option.ite_none_right_eq_some] at h
      cases h.2
      rfl
    | _ => simp [next] at h
  | holding =>
    cases a with
    | unlock =>
      simp only [next, Option.ite_none_right_eq_some] at h
      cases h.2
      rfl
    | _ => simp [next] at h
  | locking ms prog =>
    cases a with
    | proceed ok =>
      cases prog with
      | ret c =>
        cases c with
        | none =>
          cases h
          rfl
        | some c =>
          cases h
          rfl
      | call o k =>
        cases o with
        | yield =>
          cases h
          rfl
        | _ => cases hcall
    | _ => simp [next] at h
  | unlocking prog =>
    cases a with
    | proceed ok =>
      cases prog with
      | ret u =>
        cases u
        cases h
        rfl
      | call o k =>
        cases o with
        | yield =>
          cases h
          rfl
        | _ => cases hcall
    | _ => simp [next] at h

end

namespace WithMutexes

variable {T σ π χ ι : Type*} {N : Type}

/-! ### The threads -/

/-- Where a thread is, the mutexes that it holds, and where it is in the call of a mutex. -/
structure Place (N : Type) (π : Type*) where
  phase : Phase N
  has : N → Bool
  inner : Option (N × π)

/-- A step outside of the mutexes, or one of a mutex. -/
inductive Move (N : Type) (ι : Type*)
  | own (m : Lock.Move N)
  | step (m : ι)

variable (M : MutexCode T σ π χ ι)

def Place.asleepOn (p : Place N π) : Option (N × χ) :=
  p.inner.bind fun c => (M.monitor.asleepOn c.2).map (c.1, ·)

def Place.wake (p : Place N π) : Place N π :=
  { p with inner := p.inner.map fun c => (c.1, M.monitor.wake c.2) }

variable [DecidableEq N]

/-- Where a thread is in the mutex `n`. -/
def Place.place (p : Place N π) (n : N) : π :=
  match p.inner with
  | none        => M.rest (p.has n)
  | some (m, q) => if m = n then q else M.rest (p.has n)

/-- Where a thread is that takes the step `m` of a call of the mutex `n`. -/
def Place.goes (p : Place N π) (k : MutexCall) (n : N) (m : ι) : Option π :=
  match p.inner with
  | none         => if M.begins k m then some (M.rest (p.has n)) else none
  | some (n', q) => if n' = n then some q else none

/-- Where a thread is after a step of the operation `o`, with `e` when the call is over. -/
def Place.after (p : Place N π) (o : MutexOp N) (k : o.Result → Phase N) (c : MutexCall) (n : N)
    (q : π) : Option MutexEnd → Place N π
  | some e => ⟨k (o.answer e.answer), Function.update p.has n e.holds, none⟩
  | none   => { p with has := Function.update p.has n (c.during (p.has n)), inner := some (n, q) }

/-- One step of thread `t`. -/
def next [DecidableEq T] (t : T) (s : N → σ) (p : Place N π) :
    Move N ι → Option ((N → σ) × Place N π × Signal (N × χ))
  | .own m =>
    if p.phase.call = none then
      (Lock.next t (fun n => if p.has n then some t else none) p.phase m).map fun r =>
        (s, { p with phase := r.2 }, .none)
    else none
  | .step m =>
    match p.phase.pending with
    | none        => none
    | some ⟨o, k⟩ => o.call.bind fun c => (p.goes M c.1 c.2 m).bind fun q =>
      (M.monitor.next t (s c.2) q m).map fun r =>
        (Function.update s c.2 r.1, p.after o k c.1 c.2 r.2.1 (M.ended t r.1 r.2.1),
          r.2.2.map (c.2, ·))

/-- All threads around the mutexes `N`. -/
def monitor [DecidableEq T] : Monitor T (N → σ) (Place N π) (N × χ) (Move N ι) where
  next := next M
  asleepOn := Place.asleepOn M
  wake := Place.wake M

/-- A thread outside, without mutexes. -/
def idle : Place N π := ⟨.idle, fun _ => false, none⟩

def start : Config T (N → σ) (Place N π) := ⟨fun _ => M.start, fun _ => idle⟩

variable {M}

/-! ### Where a thread is -/

section

variable {t : T} {p : Place N π}

lemma place_of_goes {k : MutexCall} {n : N} {i : ι} {q : π} (h : p.goes M k n i = some q) :
    p.place M n = q ∧ ∀ n', n' ≠ n → p.place M n' = M.rest (p.has n') := by
  obtain ⟨phase, has, inner⟩ := p
  cases inner with
  | none =>
    simp only [Place.goes, Option.ite_none_right_eq_some, Option.some.injEq] at h
    exact ⟨h.2, fun _ _ => rfl⟩
  | some c =>
    simp only [Place.goes, Option.ite_none_right_eq_some, Option.some.injEq] at h
    obtain ⟨rfl, rfl⟩ := h
    exact ⟨if_pos rfl, fun n' hn => if_neg hn.symm⟩

lemma place_after {o : MutexOp N} {k : o.Result → Phase N} {c : MutexCall} {n : N} {q : π} {v : σ} :
    (p.after o k c n q (M.ended t v q)).place M n = q ∧
      ∀ n', n' ≠ n → (p.after o k c n q (M.ended t v q)).place M n' = M.rest (p.has n') := by
  cases he : M.ended t v q with
  | none =>
    refine ⟨if_pos rfl, fun n' hn => ?_⟩
    simp only [Place.after, Place.place, if_neg hn.symm, Function.update_of_ne hn]
  | some e =>
    refine ⟨?_, fun n' hn => ?_⟩
    · simp only [Place.after, Place.place, Function.update_self]
      exact (M.rest_of_ended he).symm
    · simp only [Place.after, Place.place, Function.update_of_ne hn]

lemma asleepOn_iff {n : N} {c : χ} :
    p.asleepOn M = some (n, c) ↔ M.monitor.asleepOn (p.place M n) = some c := by
  obtain ⟨phase, has, inner⟩ := p
  cases inner with
  | none => simp [Place.asleepOn, Place.place, M.asleepOn_rest]
  | some r =>
    obtain ⟨n', q⟩ := r
    by_cases hn : n' = n
    · subst hn
      simp [Place.asleepOn, Place.place]
    · simp [Place.asleepOn, Place.place, hn, M.asleepOn_rest]

lemma place_wake {n : N} {c : χ} (h : p.asleepOn M = some (n, c)) :
    (p.wake M).place M n = M.monitor.wake (p.place M n) := by
  obtain ⟨phase, has, inner⟩ := p
  cases inner with
  | none => simp [Place.asleepOn] at h
  | some r =>
    obtain ⟨n', q⟩ := r
    obtain ⟨_, -, hr⟩ := Option.map_eq_some_iff.mp h
    cases hr
    simp [Place.wake, Place.place]

lemma place_wake_other {n : N} {d : N × χ} (h : p.asleepOn M = some d)
    (hd : ∀ c, d ≠ (n, c)) : (p.wake M).place M n = p.place M n := by
  obtain ⟨phase, has, inner⟩ := p
  cases inner with
  | none => rfl
  | some r =>
    obtain ⟨n', q⟩ := r
    obtain ⟨c, -, rfl⟩ := Option.map_eq_some_iff.mp h
    have hn : n' ≠ n := by
      rintro rfl
      exact hd c rfl
    simp [Place.wake, Place.place, hn]

end

/-! ### The steps -/

variable (M) in
/-- What a step of one thread does. -/
inductive Step [DecidableEq T] (t : T) (s : N → σ) (p : Place N π) :
    Move N ι → (N → σ) → Place N π → Signal (N × χ) → Prop
  | own {m : Lock.Move N} {owner : N → Option T} {q : Phase N} (hcall : p.phase.call = none)
      (h : Lock.next t (fun n => if p.has n then some t else none) p.phase m = some (owner, q)) :
      Step t s p (.own m) s { p with phase := q } .none
  | step {o : MutexOp N} {k : o.Result → Phase N} {c : MutexCall} {n : N} {m : ι} {q q' : π}
      {s' : σ} {sig : Signal χ} (hpending : p.phase.pending = some ⟨o, k⟩)
      (hcall : o.call = some (c, n)) (hq : p.goes M c n m = some q)
      (h : M.monitor.next t (s n) q m = some (s', q', sig)) :
      Step t s p (.step m) (Function.update s n s') (p.after o k c n q' (M.ended t s' q'))
        (sig.map (n, ·))

variable [DecidableEq T] {t : T} {s s' : N → σ} {p p' : Place N π} {m : Move N ι}
  {sig : Signal (N × χ)}

lemma step_of_next (h : next M t s p m = some (s', p', sig)) : Step M t s p m s' p' sig := by
  cases m with
  | own m =>
    simp only [next, Option.ite_none_right_eq_some, Option.map_eq_some_iff, Prod.mk.injEq] at h
    obtain ⟨hcall, ⟨owner, q⟩, hn, rfl, rfl, rfl⟩ := h
    exact .own hcall hn
  | step m =>
    simp only [next] at h
    split at h
    · cases h
    · rename_i o k hpending
      obtain ⟨⟨c, n⟩, hcall, h⟩ := Option.bind_eq_some_iff.mp h
      obtain ⟨q, hq, h⟩ := Option.bind_eq_some_iff.mp h
      obtain ⟨⟨sh, q', sig'⟩, hn, hr⟩ := Option.map_eq_some_iff.mp h
      cases hr
      exact .step hpending hcall hq hn

/-! ### One of the mutexes -/

/-- A step is one of the mutex `n`, or the mutex does not see it. -/
lemma mutex_of_step (n : N) (h : Step M t s p m s' p' sig) :
    (s' n = s n ∧ p'.place M n = p.place M n ∧ ∀ c : χ, sig.cond ≠ some (n, c)) ∨
      ∃ i sig₂, M.monitor.next t (s n) (p.place M n) i = some (s' n, p'.place M n, sig₂) ∧
        sig = sig₂.map (n, ·) := by
  cases h with
  | own => exact .inl ⟨rfl, rfl, fun _ hc => by cases hc⟩
  | @step o k c n' i q q' sh sig hpending hcall hq hn =>
    by_cases hnn : n = n'
    · subst hnn
      rw [(place_of_goes hq).1, place_after.1, Function.update_self]
      exact .inr ⟨i, sig, hn, rfl⟩
    · left
      rw [(place_of_goes hq).2 n hnn, place_after.2 n hnn, Function.update_of_ne hnn]
      refine ⟨rfl, rfl, fun d => Signal.cond_map_ne (fun e he => hnn ?_) _⟩
      exact (Prod.mk.inj he).1.symm

/-- A mutex, as a part. -/
def mutex (M : MutexCode T σ π χ ι) (n : N) : Part (monitor (N := N) M) M.monitor where
  shared s := s n
  place p := p.place M n
  cond c := (n, c)
  asleepOn _ _ := asleepOn_iff
  wake _ _ := place_wake
  wake_other _ _ := place_wake_other
  next h := mutex_of_step n (step_of_next h)

end WithMutexes

end Lock

end Sync
