import Mathlib.Logic.Relation

/-!
# Runs of a partial step function

A machine whose step may fail, fed a list of events. What a single step keeps,
whole runs keep. A machine that needs no events goes from one state to others, and a path
is a way on which it stays inside a set of states until it ends, as in a routine that returns.
-/

namespace CPrograms.Library

universe u v

variable {State : Type u} {Event : Type v}

/-- Feed the events to the machine one after the other. -/
def run (step : State → Event → Option State) : State → List Event → Option State
  | state, [] => some state
  | state, event :: events => (step state event).bind fun next => run step next events

variable {step : State → Event → Option State}

/-- The first event, and then the others. -/
theorem run_cons (state : State) (event : Event) (events : List Event) :
    run step state (event :: events) =
      (step state event).bind fun next => run step next events := rfl

/-- Events one list after the other. -/
theorem run_append (state : State) (first second : List Event) :
    run step state (first ++ second) =
      (run step state first).bind fun next => run step next second := by
  induction first generalizing state with
  | nil => rfl
  | cons event first ih =>
      rw [List.cons_append, run_cons, run_cons]
      cases step state event with
      | none => rfl
      | some next => exact ih next

/-- A run that comes back can be repeated. -/
theorem run_replicate {state : State} {loop : List Event} (back : run step state loop = some state)
    (rounds : Nat) : run step state (List.replicate rounds loop).flatten = some state := by
  induction rounds with
  | zero => rfl
  | succ rounds ih =>
      rw [List.replicate_succ, List.flatten_cons, run_append, back]
      exact ih

/-- What every step keeps, every run keeps. -/
theorem run_invariant {invariant : State → Prop}
    (keeps : ∀ state event next, invariant state → step state event = some next → invariant next)
    {state final : State} {events : List Event} (holds : invariant state)
    (ran : run step state events = some final) : invariant final := by
  induction events generalizing state with
  | nil =>
      cases ran
      exact holds
  | cons event events ih =>
      rw [run_cons, Option.bind_eq_some_iff] at ran
      obtain ⟨next, stepped, ran⟩ := ran
      exact ih (keeps state event next holds stepped) ran

/-- Two machines whose steps agree wherever the invariant of the first one holds agree on
every run. -/
theorem run_congr {other : State → Event → Option State} {invariant : State → Prop}
    (keeps : ∀ state event next, invariant state → step state event = some next → invariant next)
    (agrees : ∀ state event, invariant state → step state event = other state event)
    {state : State} (holds : invariant state) (events : List Event) :
    run step state events = run other state events := by
  induction events generalizing state with
  | nil => rfl
  | cons event events ih =>
      rw [run_cons, run_cons, ← agrees state event holds]
      cases stepped : step state event with
      | none => rfl
      | some next => exact ih (keeps state event next holds stepped)

/-! ## Steps without events -/

/-- Steps from one state to another. -/
def Goes (advance : State → Option State) : State → State → Prop :=
  Relation.ReflTransGen fun state next => advance state = some next

/-- A step in front of a way. -/
theorem Goes.head {advance : State → Option State} {state next final : State}
    (stepped : advance state = some next) (goes : Goes advance next final) :
    Goes advance state final :=
  Relation.ReflTransGen.head stepped goes

/-- From a state with a step, all other states are reached through that step. -/
theorem goes_iff_of_some {advance : State → Option State} {state next final : State}
    (stepped : advance state = some next) (other : state ≠ final) :
    Goes advance state final ↔ Goes advance next final := by
  constructor
  · intro goes
    rcases goes.cases_head with same | ⟨after, stepped', rest⟩
    · exact absurd same other
    · cases Option.some.inj (stepped.symm.trans stepped')
      exact rest
  · exact .head stepped

/-- From a state without a step no other state is reached. -/
theorem goes_iff_of_none {advance : State → Option State} {state final : State}
    (stops : advance state = none) : Goes advance state final ↔ state = final := by
  constructor
  · intro goes
    rcases goes.cases_head with same | ⟨after, stepped, -⟩
    · exact same
    · rw [stops] at stepped
      cases stepped
  · rintro rfl
    exact .refl

/-- Steps with one event are a run. -/
theorem Goes.run (step : State → Event → Option State) (event : Event) {state final : State}
    (goes : Goes (fun state => step state event) state final) :
    ∃ count, run step state (List.replicate count event) = some final := by
  induction goes using Relation.ReflTransGen.head_induction_on with
  | refl => exact ⟨0, rfl⟩
  | head stepped _ ih =>
      obtain ⟨count, ran⟩ := ih
      refine ⟨count + 1, ?_⟩
      change (step _ event).bind _ = _
      rw [show step _ event = _ from stepped, Option.bind_some, ran]

/-- What every step keeps, every way keeps. -/
theorem Goes.invariant {advance : State → Option State} {invariant : State → Prop}
    (keeps : ∀ state next, invariant state → advance state = some next → invariant next)
    {state final : State} (goes : Goes advance state final) (holds : invariant state) :
    invariant final := by
  induction goes with
  | refl => exact holds
  | tail _ stepped ih => exact keeps _ _ ih stepped

/-- A machine stops in at most one state. -/
theorem Goes.unique {advance : State → Option State} {state first second : State}
    (goes : Goes advance state first) (stops : advance first = none)
    (goesToo : Goes advance state second) (stopsToo : advance second = none) : first = second := by
  induction goes using Relation.ReflTransGen.head_induction_on with
  | refl => exact (goes_iff_of_none stops).mp goesToo
  | @head state _ stepped _ ih =>
      have other : state ≠ second := by
        rintro rfl
        rw [stopsToo] at stepped
        cases stepped
      exact ih ((goes_iff_of_some stepped other).mp goesToo)

/-- A machine that stops has passed all the states it reaches. -/
theorem Goes.behind {advance : State → Option State} {state final middle : State}
    (goes : Goes advance state final) (passes : Goes advance state middle)
    (stops : advance final = none) : Goes advance middle final := by
  induction passes using Relation.ReflTransGen.head_induction_on with
  | refl => exact goes
  | @head state _ stepped _ ih =>
      refine ih ((goes_iff_of_some stepped ?_).mp goes)
      rintro rfl
      rw [stops] at stepped
      cases stepped

section Mapped

variable {Other : Type*} {advance : State → Option State} {other : Other → Option Other}
  {f : State → Other}

/-- A map that commutes with the steps of two machines takes the ways of the one to ways of
the other. -/
theorem Goes.map (commutes : ∀ state, other (f state) = (advance state).map f)
    {state final : State} (goes : Goes advance state final) : Goes other (f state) (f final) := by
  refine Relation.ReflTransGen.lift f (fun before after stepped => ?_) _ _ goes
  change other (f before) = some (f after)
  rw [commutes, stepped, Option.map_some]

/-- The other machine goes nowhere else. -/
theorem Goes.of_map (commutes : ∀ state, other (f state) = (advance state).map f)
    {state : State} {image : Other} (goes : Goes other (f state) image) :
    ∃ final, Goes advance state final ∧ image = f final := by
  induction goes with
  | refl => exact ⟨state, .refl, rfl⟩
  | tail _ stepped ih =>
      obtain ⟨before, goes, rfl⟩ := ih
      rw [commutes, Option.map_eq_some_iff] at stepped
      obtain ⟨after, stepped, rfl⟩ := stepped
      exact ⟨after, goes.tail stepped, rfl⟩

/-- A way of the other machine and one step more. -/
theorem Goes.step_of_map (commutes : ∀ state, other (f state) = (advance state).map f)
    {state : State} {image next : Other} (goes : Goes other (f state) image)
    (stepped : other image = some next) :
    ∃ before after, Goes advance state before ∧ advance before = some after ∧
      image = f before ∧ next = f after := by
  obtain ⟨before, reached, rfl⟩ := goes.of_map commutes
  rw [commutes, Option.map_eq_some_iff] at stepped
  obtain ⟨after, taken, rfl⟩ := stepped
  exact ⟨before, after, reached, taken, rfl, rfl⟩

end Mapped

/-- Steps that start inside a set of states, each of them, and may end outside. -/
inductive Path (advance : State → Option State) (inside : State → Prop) : State → State → Prop where
  | refl (state : State) : Path advance inside state state
  | step {state next final : State} : inside state → advance state = some next →
      Path advance inside next final → Path advance inside state final

variable {advance : State → Option State} {inside : State → Prop}

/-- A path stays inside a larger set. -/
theorem Path.mono {larger : State → Prop} (sub : ∀ state, inside state → larger state)
    {state final : State} (path : Path advance inside state final) :
    Path advance larger state final := by
  induction path with
  | refl => exact .refl _
  | step within stepped _ ih => exact .step (sub _ within) stepped ih

/-- Paths are put together. -/
theorem Path.trans {first second third : State} (left : Path advance inside first second)
    (right : Path advance inside second third) : Path advance inside first third := by
  induction left with
  | refl => exact right
  | step within stepped _ ih => exact .step within stepped (ih right)

/-- A path is a way. -/
theorem Path.goes {state final : State} (path : Path advance inside state final) :
    Goes advance state final := by
  induction path with
  | refl => exact .refl
  | step _ stepped _ ih => exact .head stepped ih

/-- Once the steps inside are over, the condition holds. -/
def Returns (advance : State → Option State) (inside home : State → Prop) (state : State) : Prop :=
  ∃ back, Path advance inside state back ∧ home back

namespace Returns

variable {home : State → Prop} {state next : State}

/-- Where the condition holds, nothing has to return. -/
theorem of_home (holds : home state) : Returns advance inside home state :=
  ⟨state, .refl _, holds⟩

/-- Outside the set the condition holds. -/
theorem of_outside (returns : Returns advance inside home state) (outside : ¬ inside state) :
    home state := by
  obtain ⟨back, path, holds⟩ := returns
  cases path with
  | refl => exact holds
  | step within _ _ => exact absurd within outside

/-- Where the machine stops the condition holds. -/
theorem of_stopped (returns : Returns advance inside home state)
    (stopped : advance state = none) : home state := by
  obtain ⟨back, path, holds⟩ := returns
  cases path with
  | refl => exact holds
  | step _ stepped _ =>
      rw [stopped] at stepped
      cases stepped

/-- A condition that outside steps keep is kept by all steps. -/
theorem advanced (returns : Returns advance inside home state)
    (keeps : home state → advance state = some next → home next)
    (stepped : advance state = some next) : Returns advance inside home next := by
  obtain ⟨back, path, holds⟩ := returns
  cases path with
  | refl => exact .of_home (keeps holds stepped)
  | step _ stepped' rest =>
      rw [stepped, Option.some.injEq] at stepped'
      exact ⟨back, stepped' ▸ rest, holds⟩

end Returns

/-! ## Machines that reply -/

section Replies

variable {Reply Abstract : Type*}

/-- Feed requests to a machine that replies to each. -/
def serve (step : State → Event → Option (State × Reply)) :
    State → List Event → Option (State × List Reply)
  | state, [] => some (state, [])
  | state, event :: events =>
      (step state event).bind fun (next, reply) =>
        (serve step next events).map fun (final, replies) => (final, reply :: replies)

/-- The replies of a machine that cannot fail. -/
def answers (step : Abstract → Event → Abstract × Reply) :
    Abstract → List Event → Abstract × List Reply
  | state, [] => (state, [])
  | state, event :: events =>
      let (next, reply) := step state event
      let (final, replies) := answers step next events
      (final, reply :: replies)

/-- **Refinement.** A machine whose steps give the replies of an abstract one, for the events that
are allowed and as long as a budget of steps lasts, gives them along every run. -/
theorem serve_refines {step : State → Event → Option (State × Reply)}
    {spec : Abstract → Event → Abstract × Reply} {Allowed : Event → Prop}
    {Related : Nat → State → Abstract → Prop}
    (steps : ∀ budget state abstract event, Allowed event → Related (budget + 1) state abstract →
      ∃ next, step state event = some (next, (spec abstract event).2) ∧
        Related budget next (spec abstract event).1)
    {events : List Event} (allowed : ∀ event ∈ events, Allowed event) {budget : Nat} {state : State}
    {abstract : Abstract} (related : Related (budget + events.length) state abstract) :
    ∃ final, serve step state events = some (final, (answers spec abstract events).2) ∧
      Related budget final (answers spec abstract events).1 := by
  induction events generalizing state abstract with
  | nil => exact ⟨state, rfl, related⟩
  | cons event events ih =>
      obtain ⟨first, later⟩ := List.forall_mem_cons.mp allowed
      obtain ⟨next, stepped, related⟩ :=
        steps (budget + events.length) state abstract event first related
      obtain ⟨final, served, related⟩ := ih later related
      refine ⟨final, ?_, related⟩
      simp only [serve, stepped, Option.bind_some, served]
      rfl

end Replies

/-! ## Parts of a state -/

/-- A part of the state that only some events change follows those events alone. -/
theorem foldl_part {Part : Type*} {step : State → Event → State} (part : State → Part)
    (concerns : Event → Bool) (change : Part → Event → Part)
    (others : ∀ state event, concerns event = false → part (step state event) = part state)
    (own : ∀ state event, concerns event = true →
      part (step state event) = change (part state) event)
    (state : State) (events : List Event) :
    part (events.foldl step state) = (events.filter concerns).foldl change (part state) := by
  induction events generalizing state with
  | nil => rfl
  | cons event events ih =>
      rw [List.foldl_cons, ih, List.filter_cons]
      cases concern : concerns event with
      | true => simp only [↓reduceIte, List.foldl_cons, own state event concern]
      | false => simp only [Bool.false_eq_true, ↓reduceIte, others state event concern]

end CPrograms.Library
