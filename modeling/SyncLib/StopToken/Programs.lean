import SyncLib.StopToken.Order

/-!
# Callbacks that are programs

One thread calls `request_stop`, and the callbacks that it executes are given programs, which may
destroy and construct callbacks and request a stop again. `Turns` says what such a call is for: the
registered callbacks have their turns, the last registered first, until none is left.
-/

namespace Sync

namespace StopState

open Core

variable {T N : Type*}

/-! ### Programs -/

/-- The code of a callback. To destroy an object that is not there, or to construct one where one
has been, does nothing. -/
inductive Body (N : Type*)
  | done
  | destroy (n : N) (rest : Body N)
  | construct (n : N) (copy : Bool) (body rest : Body N)
  | requestStop (rest : Bool → Body N)

namespace Body

/-- The code that calls `request_stop` once. -/
def caller : Body N := .requestStop fun _ => .done

def size : Body N → ℕ
  | .done                    => 1
  | .destroy _ rest          => rest.size + 1
  | .construct _ _ body rest => body.size + rest.size + 1
  | .requestStop rest        => (rest true).size + (rest false).size + 1

end Body

/-- What user code sees. -/
inductive Seen (N : Type*)
  /-- `request_stop` begins to execute `n`. -/
  | executes (n : N)
  | constructs (n : N)
  /-- The constructor of `n` begins to execute it. -/
  | entered (n : N)
  | destroys (n : N)
  /-- A `request_stop` returns. -/
  | returns (r : Bool)
  deriving DecidableEq, Repr

/-! ### The turns of the callbacks -/

/-- What user code sees, the newest first, of a `request_stop` that finds the callbacks `l₀`
registered, the last one first, and the callbacks that still have their turn. -/
inductive Turns [DecidableEq N] (l₀ : List N) : List (Seen N) → List N → Prop
  | start : Turns l₀ [] l₀
  | executes {seen : List (Seen N)} {n : N} {l : List N} (h : Turns l₀ seen (n :: l)) :
      Turns l₀ (.executes n :: seen) l
  /-- A callback that is constructed meanwhile is executed at once. -/
  | entered {seen : List (Seen N)} {l : List N} (n : N) (h : Turns l₀ seen l) :
      Turns l₀ (.entered n :: .constructs n :: seen) l
  | destroys {seen : List (Seen N)} {l : List N} (n : N) (h : Turns l₀ seen l) :
      Turns l₀ (.destroys n :: seen) (l.erase n)
  | returns {seen : List (Seen N)} {l : List N} (h : Turns l₀ seen l) :
      Turns l₀ (.returns false :: seen) l

/-- The callbacks that had their turn, the last one first. -/
def executed : List (Seen N) → List N
  | []               => []
  | .executes n :: l => n :: executed l
  | _ :: l           => executed l

lemma mem_executed {seen : List (Seen N)} {n : N} : n ∈ executed seen ↔ .executes n ∈ seen := by
  induction seen with
  | nil => simp [executed]
  | cons e seen ih =>
    cases e with
    | executes m =>
      rw [executed, List.mem_cons, List.mem_cons, ih, Seen.executes.injEq]
    | _ => simpa [executed] using ih

/-- The callback was destroyed when it had not had its turn. -/
def DestroyedBefore (n : N) (seen : List (Seen N)) : Prop :=
  ∃ earlier, .destroys n :: earlier <:+ seen ∧ .executes n ∉ earlier

lemma destroyedBefore_cons {n : N} {e : Seen N} {seen : List (Seen N)} :
    DestroyedBefore n (e :: seen) ↔
      (e = .destroys n ∧ .executes n ∉ seen) ∨ DestroyedBefore n seen := by
  constructor
  · rintro ⟨earlier, hsuff, hn⟩
    rcases List.suffix_cons_iff.mp hsuff with heq | hsuff
    · cases heq
      exact .inl ⟨rfl, hn⟩
    · exact .inr ⟨earlier, hsuff, hn⟩
  · rintro (⟨rfl, hn⟩ | ⟨earlier, hsuff, hn⟩)
    · exact ⟨seen, List.suffix_refl _, hn⟩
    · exact ⟨earlier, hsuff.trans (List.suffix_cons _ _), hn⟩

namespace Turns

variable [DecidableEq N] {l₀ l : List N} {seen : List (Seen N)}

/-- The last registered callback has its turn first. -/
theorem order (h : Turns l₀ seen l) : ((executed seen).reverse ++ l).Sublist l₀ := by
  induction h with
  | start => exact List.Sublist.refl _
  | executes _ ih => simpa [executed] using ih
  | entered n _ ih => exact ih
  | destroys n _ ih => exact (List.erase_sublist.append_left _).trans ih
  | returns _ ih => exact ih

/-- A callback that was destroyed before its turn has none. -/
lemma not_executed (h : Turns l₀ seen l) (hnodup : l₀.Nodup) {n : N}
    (hn : DestroyedBefore n seen) : n ∉ l ∧ .executes n ∉ seen := by
  induction h with
  | start =>
    obtain ⟨earlier, hsuff, -⟩ := hn
    exact absurd (List.suffix_nil.mp hsuff) (List.cons_ne_nil _ _)
  | executes h ih =>
    rcases destroyedBefore_cons.mp hn with ⟨he, -⟩ | hn
    · cases he
    · obtain ⟨hl, hseen⟩ := ih hn
      obtain ⟨hne, hl⟩ := not_or.mp (List.mem_cons.not.mp hl)
      exact ⟨hl, by simp [hne, hseen]⟩
  | entered m h ih =>
    rcases destroyedBefore_cons.mp hn with ⟨he, -⟩ | hn
    · cases he
    · rcases destroyedBefore_cons.mp hn with ⟨he, -⟩ | hn
      · cases he
      · simpa using ih hn
  | destroys m h ih =>
    have hl := (List.nodup_append.mp (hnodup.sublist h.order)).2.1
    rcases destroyedBefore_cons.mp hn with ⟨he, hseen⟩ | hn
    · cases he
      exact ⟨hl.not_mem_erase, by simpa using hseen⟩
    · obtain ⟨hnl, hseen⟩ := ih hn
      exact ⟨fun hm => hnl (List.mem_of_mem_erase hm), by simpa using hseen⟩
  | returns h ih =>
    rcases destroyedBefore_cons.mp hn with ⟨he, -⟩ | hn
    · cases he
    · simpa using ih hn

/-- A callback has its turn before it, or after it, or is destroyed. -/
lemma executed_or_destroyed (h : Turns l₀ seen l) {n : N} (hn : n ∈ l₀) :
    n ∈ l ∨ .executes n ∈ seen ∨ DestroyedBefore n seen := by
  induction h with
  | start => exact .inl hn
  | executes h ih =>
    rcases ih with hl | hseen | hd
    · rcases List.mem_cons.mp hl with rfl | hl
      · exact .inr (.inl List.mem_cons_self)
      · exact .inl hl
    · exact .inr (.inl (List.mem_cons_of_mem _ hseen))
    · exact .inr (.inr (destroyedBefore_cons.mpr (.inr hd)))
  | entered m h ih =>
    rcases ih with hl | hseen | hd
    · exact .inl hl
    · exact .inr (.inl (List.mem_cons_of_mem _ (List.mem_cons_of_mem _ hseen)))
    · exact .inr (.inr (destroyedBefore_cons.mpr (.inr (destroyedBefore_cons.mpr (.inr hd)))))
  | @destroys seen l m h ih =>
    rcases ih with hl | hseen | hd
    · by_cases hnm : n = m
      · subst hnm
        by_cases hseen : .executes n ∈ seen
        · exact .inr (.inl (List.mem_cons_of_mem _ hseen))
        · exact .inr (.inr (destroyedBefore_cons.mpr (.inl ⟨rfl, hseen⟩)))
      · exact .inl ((List.mem_erase_of_ne hnm).mpr hl)
    · exact .inr (.inl (List.mem_cons_of_mem _ hseen))
    · exact .inr (.inr (destroyedBefore_cons.mpr (.inr hd)))
  | returns h ih =>
    rcases ih with hl | hseen | hd
    · exact .inl hl
    · exact .inr (.inl (List.mem_cons_of_mem _ hseen))
    · exact .inr (.inr (destroyedBefore_cons.mpr (.inr hd)))

/-- When no turn is left, exactly the callbacks had theirs that were not destroyed before. -/
theorem executes_iff (h : Turns l₀ seen []) (hnodup : l₀.Nodup) (n : N) :
    .executes n ∈ seen ↔ n ∈ l₀ ∧ ¬ DestroyedBefore n seen := by
  constructor
  · intro hn
    have hsub := h.order
    rw [List.append_nil] at hsub
    refine ⟨hsub.subset (List.mem_reverse.mpr (mem_executed.mpr hn)), fun hd => ?_⟩
    exact (h.not_executed hnodup hd).2 hn
  · rintro ⟨hn, hd⟩
    rcases h.executed_or_destroyed hn with hl | hseen | hdestroyed
    · cases hl
    · exact hseen
    · exact absurd hdestroyed hd

/-- A constructor executes its callback at once. -/
theorem inline (h : Turns l₀ seen l) {n : N} {earlier : List (Seen N)}
    (hn : .constructs n :: earlier <:+ seen) : .entered n :: .constructs n :: earlier <:+ seen := by
  induction h with
  | start => exact absurd (List.suffix_nil.mp hn) (List.cons_ne_nil _ _)
  | entered m h ih =>
    rcases List.suffix_cons_iff.mp hn with heq | hn
    · cases heq
    · rcases List.suffix_cons_iff.mp hn with heq | hn
      · cases heq
        exact List.suffix_refl _
      · exact (ih hn).trans ((List.suffix_cons _ _).trans (List.suffix_cons _ _))
  | executes h ih | destroys m h ih | returns h ih =>
    rcases List.suffix_cons_iff.mp hn with heq | hn
    · cases heq
    · exact (ih hn).trans (List.suffix_cons _ _)

end Turns

/-! ### The program -/

/-- The state of the program: that of the threads, the code of every callback, the code that runs or
waits for a method to return, the code that waits for callbacks to return, and what user code saw,
the newest first. -/
structure Session (T N : Type*) where
  state : State T N
  body : N → Body N
  code : Body N
  callers : List (Body N)
  seen : List (Seen N)

/-- The step calls a callback. -/
def Pc.calls : Pc N → Bool
  | .stop (.start _ _) | .push _ _ .start => true
  | _ => false

namespace Session

/-- User code is about to call `request_stop`. -/
def start (u : State T N) (body : N → Body N) : Session T N := ⟨u, body, .caller, [], []⟩

/-- Callback `n` is called. -/
def call (s : Session T N) (n : N) (e : Seen N) : Session T N :=
  { s with code := s.body n, callers := s.code :: s.callers, seen := e :: s.seen }

/-- A `request_stop` returns `r`. -/
def returns (s : Session T N) (r : Bool) : Session T N :=
  match s.code with
  | .requestStop rest => { s with code := rest r, seen := .returns r :: s.seen }
  | _ => s

/-- User code goes on where the step from place `pc` of a method leads to it. -/
def resume (s : Session T N) (t : T) : Pc N → Session T N
  | .request _ => if (s.state.control t).op.isNone then s.returns false else s
  | .stop (.start n _) => s.call n (.executes n)
  | .stop _ => if (s.state.control t).op.isNone then s.returns true else s
  | .push n _ .start => s.call n (.entered n)
  | .push _ _ _ | .erase _ _ => s

/-- A step of a method that does not end it, and calls no callback, is nothing to user code. -/
lemma resume_eq (s : Session T N) {t : T} {pc pc' : Pc N} (hcalls : pc.calls = false)
    (hop : (s.state.control t).op = some pc') : s.resume t pc = s := by
  cases pc with
  | request p => simp [resume, hop]
  | stop p =>
    cases p with
    | start n empty => cases hcalls
    | _ => simp [resume, hop]
  | push n copy p =>
    cases p with
    | start => cases hcalls
    | _ => rfl
  | erase n p => rfl

variable [DecidableEq N] [DecidableEq T]

/-- One step of thread `t`, which is the only one to make steps; `ok` is false where a weak
compare-exchange fails without a reason. -/
def step (t : T) (s : Session T N) (ok : Bool) : Option (Session T N) :=
  match (s.state.control t).op with
  | some pc =>
    (machine.step s.state (t, .proceed ok)).map fun u => { s with state := u }.resume t pc
  | none =>
    match s.code with
    | .done =>
      match s.callers with
      | [] => none
      | code :: callers =>
        (machine.step s.state (t, .leave)).map fun u => { s with state := u, code, callers }
    | .destroy n rest =>
      match s.state.objs n with
      | .live _ =>
        (machine.step s.state (t, .destroy n)).map fun u =>
          { s with state := u, code := rest, seen := .destroys n :: s.seen }
      | _ => some { s with code := rest }
    | .construct n copy body rest =>
      match s.state.objs n with
      | .raw =>
        (machine.step s.state (t, .construct n copy)).map fun u =>
          { s with
            state := u, body := Function.update s.body n body, code := rest
            seen := .constructs n :: s.seen }
      | _ => some { s with code := rest }
    | .requestStop _ =>
      (machine.step s.state (t, .requestStop)).map fun u => { s with state := u }

end Session

/-- The program as a machine. -/
def program [DecidableEq N] [DecidableEq T] (t : T) : Machine (Session T N) Bool := ⟨Session.step t⟩

end StopState

end Sync
