import SyncLib.Lock.WithMutexes

/-!
# Who holds the mutexes

`Tidy` says that a thread holds the mutexes that its program expects. The law of each mutex then
carries over to all of them: nobody else holds a mutex of a thread that has locked a selection, and
while some thread has not finished, one of them is awake.
-/

namespace Sync

open Core

namespace Lock

namespace WithMutexes

variable {T σ π χ ι : Type*} {N : Type}

/-! ### What a thread holds -/

section

variable {p : Place N π}

/-- The mutexes of a thread, with the one that it is unlocking. -/
def Place.custody (p : Place N π) : Set N :=
  {n | p.has n = true ∨ p.phase.call = some (.unlock, n) ∧ p.inner.isSome = true}

lemma custody_of_call {c : MutexCall} {n : N} (h : p.phase.call = some (c, n)) (hc : c ≠ .unlock) :
    p.custody = {m | p.has m = true} := by
  ext m
  simp [Place.custody, h, hc]

variable [Fintype T] [DecidableEq T] [DecidableEq χ] {M : MutexCode T σ π χ ι} {L : M.Lawful}

/-- What the phase of a thread expects it to hold, it holds, and it is in the middle of the call
that it has begun. -/
structure Tidy (L : M.Lawful) (p : Place N π) : Prop where
  holds : p.phase.Holds p.custody
  inner : ∀ n q, p.inner = some (n, q) → ∃ k, p.phase.call = some (k, n) ∧ L.within k q

lemma Tidy.wake (h : Tidy L p) : Tidy L (p.wake M) := by
  obtain ⟨hholds, hinner⟩ := h
  refine ⟨?_, ?_⟩
  · have hcustody : (p.wake M).custody = p.custody := by
      simp [Place.custody, Place.wake]
    rw [hcustody]
    exact hholds
  · intro n q hq
    obtain ⟨⟨n', q'⟩, hq', hr⟩ := Option.map_eq_some_iff.mp hq
    cases hr
    obtain ⟨k, hk, hwithin⟩ := hinner _ q' hq'
    exact ⟨k, hk, L.within_wake hwithin⟩

lemma Tidy.has_of_holding (h : Tidy L p) {ms : List N} (hp : p.phase = .holding ms) {n : N}
    (hn : n ∈ ms) : p.has n = true := by
  have hholds := h.holds
  rw [hp] at hholds
  have hmem : n ∈ p.custody := by
    rw [hholds.2]
    exact hn
  simpa [Place.custody, hp, Phase.call, Phase.pending] using hmem

lemma phase_ne_idle_of_call {r : MutexCall × N} (h : p.phase.call = some r) : p.phase ≠ .idle := by
  intro hidle
  rw [hidle] at h
  cases h

lemma Tidy.ne_idle_of_has (h : Tidy L p) {n : N} (hhas : p.has n = true) : p.phase ≠ .idle := by
  intro hidle
  have hholds := h.holds
  rw [hidle] at hholds
  exact (Set.eq_empty_iff_forall_notMem.mp hholds) n (.inl hhas)

/-- A thread that calls `lock` on a mutex holds nothing. -/
lemma Tidy.empty_of_lock (h : Tidy L p) {n : N} (hcall : p.phase.call = some (.lock, n)) (n' : N) :
    p.has n' = false := by
  have hcustody := custody_of_call hcall (by simp)
  obtain ⟨⟨o, k⟩, hpending, ho⟩ := Option.bind_eq_some_iff.mp hcall
  have hrequires := (holds_of_pending h.holds hpending).1
  cases o <;> cases ho
  rw [hcustody] at hrequires
  by_contra hhas
  exact (Set.eq_empty_iff_forall_notMem.mp hrequires) n' (by simpa using hhas)

/-- A thread that sleeps is in the `lock` of a mutex, and holds nothing. -/
lemma Tidy.of_asleep (h : Tidy L p) (hp : p.asleepOn M ≠ none) :
    ∃ n q, p.inner = some (n, q) ∧ M.monitor.asleepOn q ≠ none ∧ p.phase.call = some (.lock, n) ∧
      ∀ n', p.has n' = false := by
  obtain ⟨⟨n, q⟩, hinner, hq⟩ : ∃ r, p.inner = some r ∧ M.monitor.asleepOn r.2 ≠ none := by
    cases hinner : p.inner with
    | none => simp [Place.asleepOn, hinner] at hp
    | some r => exact ⟨r, rfl, by simpa [Place.asleepOn, hinner] using hp⟩
  obtain ⟨k, hcall, hwithin⟩ := h.inner n q hinner
  obtain rfl := L.lock_of_asleep hwithin hq
  exact ⟨n, q, hinner, hq, hcall, h.empty_of_lock hcall⟩

end

variable [DecidableEq N] [Fintype T] [DecidableEq T] [DecidableEq χ]
  {M : MutexCode T σ π χ ι} {L : M.Lawful} {t : T} {s s' : N → σ} {p p' : Place N π} {m : Move N ι}
  {sig : Signal (N × χ)}

lemma setOf_update_true {has : N → Bool} {n : N} :
    {m | Function.update has n true m = true} = insert n {m | has m = true} := by
  ext m
  by_cases hm : m = n
  · simp [hm]
  · simp [hm]

/-- A step of a mutex is one that its callers may take. -/
lemma Tidy.goes (h : Tidy L p) {o : MutexOp N} {k : o.Result → Phase N} {c : MutexCall} {n : N}
    {i : ι} {q : π} (hpending : p.phase.pending = some ⟨o, k⟩) (hcall : o.call = some (c, n))
    (hq : p.goes M c n i = some q) : M.Goes L.within c (p.has n) q i := by
  obtain ⟨hholds, hinner⟩ := h
  have hphase := (call_of_pending hpending).trans hcall
  have hrequires := (holds_of_pending hholds hpending).1
  obtain ⟨phase, has, inner⟩ := p
  cases inner with
  | none =>
    simp only [Place.goes, Option.ite_none_right_eq_some, Option.some.injEq] at hq
    obtain ⟨hbegins, rfl⟩ := hq
    have hcustody : ∀ m, m ∈ (⟨phase, has, none⟩ : Place N π).custody ↔ has m = true := by
      intro m
      simp [Place.custody]
    refine .inl ⟨rfl, hbegins, ?_, ?_⟩
    · rintro rfl
      cases o <;> cases hcall
      by_contra hhas
      have hmem := (hcustody n).mpr (by simpa using hhas)
      rw [show (⟨phase, has, none⟩ : Place N π).custody = ∅ from hrequires] at hmem
      exact hmem
    · rintro rfl
      cases o <;> cases hcall
      exact (hcustody n).mp hrequires
  | some r =>
    simp only [Place.goes, Option.ite_none_right_eq_some, Option.some.injEq] at hq
    obtain ⟨rfl, rfl⟩ := hq
    obtain ⟨k', hk', hwithin⟩ := hinner r.1 r.2 rfl
    rw [show phase.call = some (c, r.1) from hphase] at hk'
    cases hk'
    exact .inr hwithin

/-- The end of a call does to the mutexes of the thread what its contract says. -/
lemma Tidy.ended (h : Tidy L p) {o : MutexOp N} {k : o.Result → Phase N} {c : MutexCall} {n : N}
    {q : π} {e : MutexEnd} (hpending : p.phase.pending = some ⟨o, k⟩)
    (hcall : o.call = some (c, n)) (hleaves : c.Leaves (p.has n) e) :
    Tidy L (p.after o k c n q (some e)) := by
  have hphase := (call_of_pending hpending).trans hcall
  obtain ⟨hrequires, hgoes⟩ := holds_of_pending h.holds hpending
  refine ⟨hgoes _ _ ?_, fun _ _ hinner => by cases hinner⟩
  have hafter : (p.after o k c n q (some e)).custody
      = {m | Function.update p.has n e.holds m = true} := by
    ext m
    simp [Place.custody, Place.after]
  rw [hafter]
  cases o with
  | lock n =>
    cases hcall
    rw [custody_of_call hphase (by simp)] at hrequires ⊢
    refine ⟨?_, ?_⟩
    · rw [show {m | p.has m = true} = (∅ : Set N) from hrequires]
      exact Set.notMem_empty n
    · rw [show e.holds = true from hleaves, setOf_update_true]
  | tryLock n =>
    cases hcall
    rw [custody_of_call hphase (by simp)]
    obtain ⟨hholds, hnot⟩ := hleaves
    change if e.answer then _ else _
    cases ha : e.answer with
    | true =>
      rw [ha, Bool.and_true] at hnot
      rw [hholds, ha, Bool.or_true, setOf_update_true]
      exact ⟨by simp [hnot], rfl⟩
    | false =>
      rw [hholds, ha, Bool.or_false, Function.update_eq_self]
      exact rfl
  | unlock n =>
    cases hcall
    rw [show e.holds = false from hleaves]
    change _ = p.custody \ {n}
    ext m
    by_cases hm : m = n
    · simp [hm]
    · simp [hm, Place.custody, hphase, Ne.symm hm]
  | yield => cases hcall

/-- In the middle of a call the thread still holds the same mutexes. -/
lemma Tidy.within (h : Tidy L p) {o : MutexOp N} {k : o.Result → Phase N} {c : MutexCall} {n : N}
    {q : π} (hpending : p.phase.pending = some ⟨o, k⟩) (hcall : o.call = some (c, n))
    (hwithin : L.within c q) : Tidy L (p.after o k c n q none) := by
  have hphase := (call_of_pending hpending).trans hcall
  have hrequires := (holds_of_pending h.holds hpending).1
  refine ⟨?_, ?_⟩
  · have hcustody : (p.after o k c n q none).custody = p.custody := by
      by_cases hc : c = .unlock
      · subst hc
        cases o <;> cases hcall
        have hmem : n ∈ p.custody := hrequires
        ext m
        by_cases hm : m = n
        · subst hm
          simp only [hmem, iff_true]
          exact .inr ⟨hphase, rfl⟩
        · simp [hm, Place.custody, Place.after, hphase, Ne.symm hm]
      · rw [custody_of_call hphase hc, custody_of_call (p := p.after o k c n q none) hphase hc]
        have hduring : c.during (p.has n) = p.has n := by
          cases c with
          | unlock => exact absurd rfl hc
          | _ => rfl
        simp only [Place.after, hduring, Function.update_eq_self]
    rw [hcustody]
    exact h.holds
  · rintro n' q' hinner
    cases hinner
    exact ⟨c, hphase, hwithin⟩

/-- A step outside of the mutexes. -/
lemma Tidy.own (h : Tidy L p) {a : Lock.Move N} {owner : N → Option T} {q : Phase N}
    (hcall : p.phase.call = none)
    (hn : Lock.next t (fun n => if p.has n then some t else none) p.phase a = some (owner, q)) :
    Tidy L { p with phase := q } := by
  have hinner : p.inner = none := by
    rw [Option.eq_none_iff_forall_ne_some]
    rintro ⟨n, r⟩ hr
    obtain ⟨k, hk, -⟩ := h.inner n r hr
    rw [hcall] at hk
    cases hk
  have howner := owner_of_own hcall hn
  have hheld : held (fun n => if p.has n then some t else none) t = p.custody := by
    ext m
    simp [held, Place.custody, hcall]
  have hheld' : p.custody = Place.custody { p with phase := q } := by
    ext m
    simp [Place.custody, hcall, hinner]
  refine ⟨?_, fun n r hr => ?_⟩
  · have hholds := (next_holds hn (by rw [hheld]; exact h.holds)).1
    rw [howner, hheld, hheld'] at hholds
    exact hholds
  · rw [show p.inner = _ from hr] at hinner
    cases hinner

/-! ### All mutexes together -/

/-- Every mutex keeps its law, and every thread holds what it expects. -/
structure Inv (L : M.Lawful) (c : Config T (N → σ) (Place N π)) : Prop where
  lawful : ∀ n, L.Inv ((mutex M n).config c) fun t => (c.pc t).has n
  tidy : ∀ t, Tidy L (c.pc t)

variable {c c' : Config T (N → σ) (Place N π)}

lemma inv_start : Inv L (start M : Config T (N → σ) (Place N π)) := by
  refine ⟨fun _ => L.start, fun t => ⟨?_, fun _ _ hinner => by cases hinner⟩⟩
  show Place.custody idle = ∅
  ext n
  simp [Place.custody, idle, Phase.call, Phase.pending]

lemma has_of_deliver {n : N} {sh : N → σ} {w : Option T}
    (hd : (monitor M).deliver ⟨sh, Function.update c.pc t p⟩ sig w = some c') :
    (fun u => (c'.pc u).has n) = Function.update (fun u => (c.pc u).has n) t (p.has n) := by
  funext u
  rw [Monitor.apply_pc_of_deliver (f := fun p : Place N π => p.has n) (fun _ => rfl) hd u]
  by_cases hu : u = t
  · subst hu
    simp
  · simp [hu]

/-- A step that the mutex `n` does not see keeps its law. -/
lemma lawful_of_other {n : N} {sh : N → σ} {w : Option T}
    (h : L.Inv ((mutex M n).config c) fun t => (c.pc t).has n)
    (hd : (monitor M).deliver ⟨sh, Function.update c.pc t p⟩ sig w = some c')
    (hsh : sh n = c.shared n) (hp : p.place M n = (c.pc t).place M n)
    (hhas : p.has n = (c.pc t).has n) (hsig : ∀ d : χ, sig.cond ≠ some (n, d)) :
    L.Inv ((mutex M n).config c') fun t => (c'.pc t).has n := by
  have hconfig : (mutex M n).config c' = (mutex M n).config c := by
    rw [Part.config_of_deliver_other hd hsig, Part.config_update,
      show (mutex M n).place p = ((mutex M n).config c).pc t from hp, Function.update_eq_self]
    exact congrArg (Config.mk · _) hsh
  rw [hconfig, has_of_deliver hd, hhas]
  convert h using 1
  exact Function.update_eq_self t _

/-- A step of a thread keeps the law of its mutex, and the thread stays tidy. -/
lemma Inv.step_mutex (h : Inv L c) {o : MutexOp N} {k : o.Result → Phase N} {r : MutexCall} {n : N}
    {i : ι} {q q' : π} {sh : σ} {sig : Signal χ} {w : Option T}
    (hpending : (c.pc t).phase.pending = some ⟨o, k⟩) (hcall : o.call = some (r, n))
    (hq : (c.pc t).goes M r n i = some q)
    (hn : M.monitor.next t (c.shared n) q i = some (sh, q', sig))
    (hd : (monitor M).deliver ⟨Function.update c.shared n sh, Function.update c.pc t
      ((c.pc t).after o k r n q' (M.ended t sh q'))⟩ (sig.map (n, ·)) w = some c') :
    Tidy L ((c.pc t).after o k r n q' (M.ended t sh q')) ∧
      L.Inv ((mutex M n).config c') fun t => (c'.pc t).has n := by
  have hgoes := (h.tidy t).goes hpending hcall hq
  have hplace : ((mutex M n).config c).pc t = q := (place_of_goes hq).1
  have hd' := Part.deliver_config (P := mutex M n) hd
  rw [Part.config_update, show (mutex M n).place _ = q' from place_after.1,
    show (mutex M n).shared (Function.update c.shared n sh) = sh from Function.update_self ..]
    at hd'
  rw [has_of_deliver hd]
  rw [← hplace] at hgoes hn
  obtain ⟨hended, hwithin⟩ := L.step (h.lawful n) hgoes hn hd'
  cases he : M.ended t sh q' with
  | some e =>
    obtain ⟨hleaves, hinv⟩ := hended e he
    refine ⟨(h.tidy t).ended hpending hcall hleaves, ?_⟩
    simpa only [Place.after, Function.update_self] using hinv
  | none =>
    obtain ⟨hin, hinv⟩ := hwithin he
    refine ⟨(h.tidy t).within hpending hcall hin, ?_⟩
    simpa only [Place.after, Function.update_self] using hinv

lemma Inv.step (h : Inv L c) {a : Act T (Move N ι)} (hs : (monitor M).machine.step c a = some c') :
    Inv L c' := by
  obtain ⟨sh, p, sig, hn, hd⟩ := Monitor.step_eq_some.mp hs
  have hstep : Step M a.tid c.shared (c.pc a.tid) a.move sh p sig := step_of_next hn
  have htidy : Tidy L p → ∀ u, Tidy L (c'.pc u) := by
    intro hp u
    have hothers : ∀ u, Tidy L (Function.update c.pc a.tid p u) :=
      Code.forall_update (P := fun _ p => Tidy L p) hp fun u _ => h.tidy u
    rcases Monitor.pc_of_deliver hd u with hu | hu
    · rw [hu]
      exact hothers u
    · rw [hu]
      exact (hothers u).wake
  generalize a.move = m at hstep
  cases hstep with
  | own hcall hown =>
    refine ⟨fun n => ?_, htidy ((h.tidy a.tid).own hcall hown)⟩
    exact lawful_of_other (h.lawful n) hd rfl rfl rfl fun _ hc => by cases hc
  | @step o k r n i q q' sh sig hpending hcall hq hmutex =>
    obtain ⟨hp, hlawful⟩ := h.step_mutex hpending hcall hq hmutex hd
    refine ⟨fun n' => ?_, htidy hp⟩
    by_cases hn' : n' = n
    · subst hn'
      exact hlawful
    · refine lawful_of_other (h.lawful n') hd (Function.update_of_ne hn' ..) ?_ ?_ ?_
      · rw [place_after.2 n' hn', (place_of_goes hq).2 n' hn']
      · cases M.ended a.tid sh q' <;> exact Function.update_of_ne hn' ..
      · exact fun d => Signal.cond_map_ne (fun e he => hn' (Prod.mk.inj he).1.symm) _

/-! ### The law -/

/-- Selections that two threads have locked have no mutex in common. A thread that sleeps holds
nothing, and while some thread has not finished, one of them is awake. -/
structure Law (M : MutexCode T σ π χ ι) (c : Config T (N → σ) (Place N π)) : Prop where
  apart : ∀ t u ms ms', t ≠ u → (c.pc t).phase = .holding ms → (c.pc u).phase = .holding ms' →
    ms.Disjoint ms'
  empty_handed : ∀ t, (c.pc t).asleepOn M ≠ none → ∀ n, (c.pc t).has n = false
  live : (∃ t, (c.pc t).phase ≠ .idle) →
    ∃ t, (c.pc t).phase ≠ .idle ∧ (c.pc t).asleepOn M = none

lemma Inv.law (h : Inv L c) : Law M c := by
  have hempty : ∀ t, (c.pc t).asleepOn M ≠ none → ∀ n, (c.pc t).has n = false := by
    intro t ht n
    obtain ⟨-, -, -, -, -, hhas⟩ := (h.tidy t).of_asleep ht
    exact hhas n
  refine ⟨?_, hempty, ?_⟩
  · intro t u ms ms' htu ht hu n hn hn'
    refine htu (L.exclusive (h.lawful n) ?_ ?_)
    · exact (h.tidy t).has_of_holding ht hn
    · exact (h.tidy u).has_of_holding hu hn'
  · rintro ⟨t, ht⟩
    by_cases hasleep : (c.pc t).asleepOn M = none
    · exact ⟨t, ht, hasleep⟩
    · obtain ⟨n, q, hinner, hq, -, -⟩ := (h.tidy t).of_asleep hasleep
      have hplace : ((mutex M n).config c).pc t = q := by
        change (c.pc t).place M n = q
        simp [Place.place, hinner]
      obtain ⟨u, hu⟩ := L.sleeper (h.lawful n) (t := t) (by rw [hplace]; exact hq)
      refine ⟨u, ?_⟩
      rcases hu with hhas | ⟨⟨k, hwithin⟩, hawake⟩
      · refine ⟨(h.tidy u).ne_idle_of_has hhas, ?_⟩
        -- who holds a mutex does not sleep
        by_contra hasleep'
        rw [hempty u hasleep' n] at hhas
        cases hhas
      · change L.within k ((c.pc u).place M n) at hwithin
        change M.monitor.asleepOn ((c.pc u).place M n) = none at hawake
        obtain ⟨q', hinner'⟩ : ∃ q', (c.pc u).inner = some (n, q') := by
          cases hinner' : (c.pc u).inner with
          | none =>
            simp only [Place.place, hinner'] at hwithin
            exact absurd hwithin L.not_within_rest
          | some r =>
            obtain ⟨n', q'⟩ := r
            by_cases hn : n' = n
            · exact ⟨q', by rw [hn]⟩
            · simp only [Place.place, hinner', if_neg hn] at hwithin
              exact absurd hwithin L.not_within_rest
        obtain ⟨k', hcall', -⟩ := (h.tidy u).inner n q' hinner'
        simp only [Place.place, hinner', if_pos] at hawake
        exact ⟨phase_ne_idle_of_call hcall', by simp [Place.asleepOn, hinner', hawake]⟩

/-- In every reachable state of threads that lock selections of mutexes of one kind. -/
lemma law_of_reachable (L : M.Lawful) (h : (monitor M).machine.Reachable (start M) c) : Law M c :=
  (h.invariant (I := Inv L) inv_start fun _ _ _ hu _ hs => hu.step hs).law

end WithMutexes

end Lock

end Sync
