import Mathlib.Data.List.Nodup
import SyncLib.Core.IntrusiveList
import SyncLib.Core.Machine
import SyncLib.StopToken.Order

/-!
# The list of `_stop_state`

What `try_push_callback`, `erase_callback` and `request_stop` do to the list, one after the other
and in any order. The list is what was pushed and not taken out since, and `prev_` tells the
callbacks in it from those that `request_stop` took.
-/

namespace Sync

namespace StopState

open Core

variable {N : Type*}

namespace Linking

/-! ### The operations -/

/-- The sections of the three methods under the lock. -/
inductive Op (N : Type*)
  | push (n : N)
  | erase (n : N)
  | pop
  deriving DecidableEq, Repr

/-- What a section did to a node. -/
inductive Event (N : Type*)
  | pushed (n : N)
  | unlinked (n : N)
  | popped (n : N)
  deriving DecidableEq, Repr

/-- The links, and what was done so far, the newest first. -/
structure State (N : Type*) where
  links : Links N
  log : List (Event N)

def start : State N := ⟨.empty, []⟩

/-- The pushed nodes, the last one first. -/
def pushes : List (Event N) → List N
  | []             => []
  | .pushed n :: l => n :: pushes l
  | _ :: l         => pushes l

lemma mem_pushes {n : N} {log : List (Event N)} : n ∈ pushes log ↔ .pushed n ∈ log := by
  induction log with
  | nil => simp [pushes]
  | cons e log ih => cases e <;> simp [pushes, ih]

section

variable {T : Type*}

/-- What the events of the threads say about the list. -/
def listed : List (StopState.Event T N) → List (Event N)
  | []               => []
  | .linked n :: l   => .pushed n :: listed l
  | .popped n _ :: l => .popped n :: listed l
  | .unlinked n :: l => .unlinked n :: listed l
  | _ :: l           => listed l

/-- An event about something else tells nothing about a callback. -/
lemma mem_listed_cons (log : List (StopState.Event T N)) {e : StopState.Event T N} {n : N}
    (he : e.node ≠ some n) :
    (.pushed n ∈ listed (e :: log) ↔ .pushed n ∈ listed log) ∧
      (.unlinked n ∈ listed (e :: log) ↔ .unlinked n ∈ listed log) := by
  cases e with
  | linked m | popped m head | unlinked m =>
    have hm : n ≠ m := by
      rintro rfl
      exact he rfl
    simp [listed, hm]
  | _ => exact ⟨Iff.rfl, Iff.rfl⟩

end

variable [DecidableEq N]

/-- A node is pushed once, and erased after that; `erase_callback` leaves a node alone whose `prev_`
is null. -/
def step (s : State N) : Op N → Option (State N)
  | .push n =>
    if .pushed n ∈ s.log then none else some ⟨s.links.push n, .pushed n :: s.log⟩
  | .erase n =>
    if .pushed n ∈ s.log ∧ .unlinked n ∉ s.log then
      match s.links.prev n with
      | some p => some ⟨s.links.unlink n p, .unlinked n :: s.log⟩
      | none   => some s
    else none
  | .pop => s.links.pop.map fun r => ⟨r.2, .popped r.1 :: s.log⟩

def machine : Machine (State N) (Op N) := ⟨step⟩

/-! ### What is in the list -/

/-- The pushed nodes that were neither unlinked nor popped, the last one first. -/
def linked (log : List (Event N)) : List N :=
  (pushes log).filter fun n => .unlinked n ∉ log ∧ .popped n ∉ log

lemma mem_linked {n : N} {log : List (Event N)} :
    n ∈ linked log ↔ .pushed n ∈ log ∧ .unlinked n ∉ log ∧ .popped n ∉ log := by
  simp [linked, mem_pushes]

/-- What is taken out of the list leaves the rest in its order. -/
lemma linked_taken {n : N} {e : Event N} {log : List (Event N)}
    (he : e = .unlinked n ∨ e = .popped n) (h : (linked log).Nodup) :
    linked (e :: log) = (linked log).erase n := by
  rw [h.erase_eq_filter]
  rcases he with rfl | rfl
  all_goals
    simp only [linked, pushes, List.filter_filter]
    refine List.filter_congr fun m _ => ?_
    by_cases hm : m = n <;> simp [hm]

/-- A node that was not pushed before comes first. -/
lemma linked_pushed {n : N} {log : List (Event N)}
    (hn : .unlinked n ∉ log ∧ .popped n ∉ log) : linked (.pushed n :: log) = n :: linked log := by
  simp [linked, pushes, hn]

/-! ### The invariant -/

/-- The links form the list; a node is taken out only after it was pushed, and a popped one points
nowhere. -/
structure Inv (s : State N) : Prop where
  lists : s.links.Lists (linked s.log)
  pushed_of_unlinked : ∀ n, .unlinked n ∈ s.log → .pushed n ∈ s.log
  pushed_of_popped : ∀ n, .popped n ∈ s.log → .pushed n ∈ s.log
  prev_of_popped : ∀ n, .popped n ∈ s.log → s.links.prev n = none
  apart : ∀ n, .unlinked n ∈ s.log → .popped n ∉ s.log

namespace Inv

variable {s s' : State N} {n : N}

lemma initial : Inv (start : State N) := by
  refine ⟨Links.lists_empty, ?_, ?_, ?_, ?_⟩ <;> simp [start]

lemma push (h : Inv s) (hn : .pushed n ∉ s.log) :
    Inv ⟨s.links.push n, .pushed n :: s.log⟩ := by
  have hun : .unlinked n ∉ s.log := fun hm => hn (h.pushed_of_unlinked n hm)
  have hpop : .popped n ∉ s.log := fun hm => hn (h.pushed_of_popped n hm)
  have hnl : n ∉ linked s.log := fun hm => hn (mem_linked.mp hm).1
  refine ⟨?_, fun m hm => ?_, fun m hm => ?_, fun m hm => ?_, fun m hm => ?_⟩
  · show (s.links.push n).Lists (linked (.pushed n :: s.log))
    rw [linked_pushed ⟨hun, hpop⟩]
    exact h.lists.push hnl
  · exact List.mem_cons_of_mem _ (h.pushed_of_unlinked m (by simpa using hm))
  · exact List.mem_cons_of_mem _ (h.pushed_of_popped m (by simpa using hm))
  · have hold : .popped m ∈ s.log := by simpa using hm
    have hmn : m ≠ n := by
      rintro rfl
      exact hpop hold
    show (s.links.push n).prev m = none
    rw [h.lists.push_prev, h.prev_of_popped m hold]
    rw [List.mem_cons, not_or]
    exact ⟨hmn, fun hml => (mem_linked.mp hml).2.2 hold⟩
  · simpa using h.apart m (by simpa using hm)

lemma unlink (h : Inv s) (hpushed : .pushed n ∈ s.log) (hun : .unlinked n ∉ s.log) {p : Slot N}
    (hp : s.links.prev n = some p) : Inv ⟨s.links.unlink n p, .unlinked n :: s.log⟩ := by
  have hpop : .popped n ∉ s.log := by
    intro hm
    rw [h.prev_of_popped n hm] at hp
    cases hp
  have hnl : n ∈ linked s.log := mem_linked.mpr ⟨hpushed, hun, hpop⟩
  refine ⟨?_, fun m hm => ?_, fun m hm => ?_, fun m hm => ?_, fun m hm => ?_⟩
  · show (s.links.unlink n p).Lists (linked (.unlinked n :: s.log))
    rw [linked_taken (.inl rfl) h.lists.1]
    exact h.lists.unlink hnl hp
  · rcases List.mem_cons.mp hm with heq | hm
    · cases heq
      exact List.mem_cons_of_mem _ hpushed
    · exact List.mem_cons_of_mem _ (h.pushed_of_unlinked m hm)
  · exact List.mem_cons_of_mem _ (h.pushed_of_popped m (by simpa using hm))
  · have hm : .popped m ∈ s.log := by simpa using hm
    show (s.links.unlink n p).prev m = none
    rw [h.lists.unlink_prev hnl hp fun hml => (mem_linked.mp hml).2.2 hm]
    exact h.prev_of_popped m hm
  · rcases List.mem_cons.mp hm with heq | hm
    · cases heq
      simpa using hpop
    · simpa using h.apart m hm

lemma pop (h : Inv s) {links : Links N} (hpop : s.links.pop = some (n, links)) :
    Inv ⟨links, .popped n :: s.log⟩ := by
  obtain ⟨l, hcons, hlists, hprev, -⟩ := h.lists.pop hpop
  have hnl : n ∈ linked s.log := by
    rw [hcons]
    exact List.mem_cons_self
  obtain ⟨hpushed, hun, -⟩ := mem_linked.mp hnl
  refine ⟨?_, fun m hm => ?_, fun m hm => ?_, fun m hm => ?_, fun m hm => ?_⟩
  · show links.Lists (linked (.popped n :: s.log))
    rw [linked_taken (.inr rfl) h.lists.1, hcons, List.erase_cons_head]
    exact hlists
  · exact List.mem_cons_of_mem _ (h.pushed_of_unlinked m (by simpa using hm))
  · rcases List.mem_cons.mp hm with heq | hm
    · cases heq
      exact List.mem_cons_of_mem _ hpushed
    · exact List.mem_cons_of_mem _ (h.pushed_of_popped m hm)
  · rcases List.mem_cons.mp hm with heq | hm
    · cases heq
      exact hprev
    · show links.prev m = none
      rw [h.lists.pop_prev hpop fun hml => (mem_linked.mp hml).2.2 hm]
      exact h.prev_of_popped m hm
  · have hm : .unlinked m ∈ s.log := by simpa using hm
    rw [List.mem_cons, not_or]
    refine ⟨fun heq => ?_, h.apart m hm⟩
    cases heq
    exact hun hm

theorem step (h : Inv s) {o : Op N} (hs : machine.step s o = some s') : Inv s' := by
  change Linking.step s o = some s' at hs
  cases o with
  | push n =>
    simp only [Linking.step, Option.ite_none_left_eq_some, Option.some.injEq] at hs
    obtain ⟨hn, rfl⟩ := hs
    exact h.push hn
  | erase n =>
    simp only [Linking.step, Option.ite_none_right_eq_some] at hs
    obtain ⟨⟨hpushed, hun⟩, hs⟩ := hs
    cases hp : s.links.prev n with
    | some p =>
      rw [hp] at hs
      cases hs
      exact h.unlink hpushed hun hp
    | none =>
      rw [hp] at hs
      cases hs
      exact h
  | pop =>
    simp only [Linking.step, Option.map_eq_some_iff] at hs
    obtain ⟨⟨n, links⟩, hpop, rfl⟩ := hs
    exact h.pop hpop

end Inv

/-! ### The law -/

/-- What the links say about the nodes. -/
structure ListLaw (s : State N) : Prop where
  /-- From `head_` one comes to the linked nodes and to no others. -/
  reaches_iff : ∀ n, s.links.Reaches .head n ↔ n ∈ linked s.log
  /-- The links have the nodes in this order, and end after them. -/
  chain : s.links.Chain .head (linked s.log)
  acyclic : ∀ n ∈ linked s.log,
    ¬ Relation.TransGen (fun a b => s.links.next a = some b) n n
  /-- `prev_` is `head_` or the `next_` of another linked node, and what is there is the node. -/
  back : ∀ n ∈ linked s.log, ∃ p, s.links.prev n = some p ∧ s.links.get p = some n ∧
    (p = .head ∨ ∃ m ∈ linked s.log, p = .next m)
  prev_of_popped : ∀ n, .popped n ∈ s.log → s.links.prev n = none
  /-- As long as a node is not unlinked, `prev_` tells whether it was popped. -/
  prev_eq_none_iff : ∀ n, .pushed n ∈ s.log → .unlinked n ∉ s.log →
    (s.links.prev n = none ↔ .popped n ∈ s.log)

/-- Pushes, erasures and pops in any order. -/
theorem list_law {s : State N} (h : machine.Reachable start s) : ListLaw s := by
  have hinv : Inv s :=
    h.invariant (I := Inv) Inv.initial fun _ _ _ hu _ hs => hu.step hs
  obtain ⟨hnodup, hchain⟩ := hinv.lists
  refine ⟨fun n => hchain.reaches_iff, hchain, fun n => hchain.not_transGen hnodup,
    fun n => hchain.exists_back, hinv.prev_of_popped, fun n hpushed hun => ⟨fun hp => ?_, ?_⟩⟩
  · by_contra hpop
    obtain ⟨p, hback, -⟩ := hchain.exists_back (mem_linked.mpr ⟨hpushed, hun, hpop⟩)
    rw [hp] at hback
    cases hback
  · exact hinv.prev_of_popped n

/-- Of four nodes the second one is unlinked and the last one popped. -/
theorem list_law_four : ∃ s : State (Fin 4),
    machine.Reachable start s ∧ linked s.log = [2, 0] ∧ s.links.prev 3 = none ∧ ListLaw s := by
  obtain ⟨s, hs, hp⟩ := Machine.exists_reachable_of_run (M := machine)
    (s := (start : State (Fin 4)))
    [.push 0, .push 1, .push 2, .push 3, .erase 1, .pop, .erase 3]
    (fun s => linked s.log == [2, 0] && s.links.prev 3 == none) (by decide +kernel)
  simp only [Bool.and_eq_true, beq_iff_eq] at hp
  exact ⟨s, hs, hp.1, hp.2, list_law hs⟩

/-! ### The list of the threads -/

section

variable {T : Type*}

/-- What the stage of a callback says about these events. -/
structure Told (log : List (StopState.Event T N)) (n : N) (st : Stage) : Prop where
  fresh : st = .fresh → .pushed n ∉ listed log ∧ .unlinked n ∉ listed log
  linked : st.isListed = true → .pushed n ∈ listed log ∧ .unlinked n ∉ listed log

lemma told_of_runs {log : List (StopState.Event T N)} {L : Life T N} (h : Life.Runs log L) (n : N) :
    Told log n (L.stage n) := by
  induction h with
  | nil => exact ⟨by simp [listed], fun hl => by cases hl⟩
  | @cons log L L' e _ hs ih =>
    obtain ⟨hfresh, hlinked⟩ := ih
    by_cases he : e.node = some n
    · cases hs <;> constructor <;> simp_all [StopState.Event.node, listed, Stage.isListed]
    · obtain ⟨hpushed, hun⟩ := mem_listed_cons log he
      rw [hs.stage_eq he]
      exact ⟨by rwa [hpushed, hun], by rwa [hpushed, hun]⟩

variable [DecidableEq T]

/-- In every interleaving of the methods the list comes about by these operations. -/
theorem reachable_links {s : StopState.State T N}
    (h : StopState.machine.Reachable StopState.State.start s) :
    machine.Reachable start ⟨s.mem.links, listed s.log⟩ := by
  induction h with
  | refl => exact .refl
  | @tail u u' a hu _ hs ih =>
    obtain ⟨L, hL, -⟩ := exists_coupled hu
    obtain ⟨o, ho, rfl⟩ := Option.map_eq_some_iff.mp hs
    have hrelinks := Relinks.of_threadStep ho
    have htold := told_of_runs hL.runs
    show machine.Reachable start ⟨o.mem.links, listed (o.event.toList ++ u.log)⟩
    revert hrelinks
    generalize o.mem.links = links
    generalize o.event = event
    rintro (he | hop | hpop | ⟨hop, hp⟩)
    · cases event with
      | none => exact ih
      | some e => cases e <;> first | exact ih | cases he
    · rename_i n copy
      obtain ⟨hpushed, -⟩ := (htold n).fresh (hL.fresh_of_link hop)
      exact ih.tail (a := .push n) trivial (if_neg hpushed)
    · exact ih.tail (a := .pop) trivial (Option.map_eq_some_iff.mpr ⟨_, hpop, rfl⟩)
    · rename_i n p
      have hst : (L.stage n).isListed = true := by
        rw [hL.linked_of_unlink hop hp]
        rfl
      refine ih.tail (a := .erase n) trivial ?_
      show Linking.step (⟨u.mem.links, listed u.log⟩ : State N) (.erase n) = _
      rw [Linking.step, if_pos ((htold n).linked hst)]
      simp only [hp]
      rfl

end

end Linking

end StopState

end Sync
