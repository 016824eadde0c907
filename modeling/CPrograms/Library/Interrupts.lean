import CPrograms.Library.Runs

/-!
# Machines that are disturbed

Before each step of a machine something else may change its state. What the machine comes to
whatever is changed, it comes to in every interleaving with an interrupt routine that returns:
seen from the machine, the routine as a whole is one change.
-/

namespace CPrograms.Library

universe u v

/-- A machine that may be disturbed before each of its steps. The last change counts, and a
change may leave everything as it is. -/
structure Disturbed (State : Type u) (Change : Type v) where
  advance : State → Option State
  change : State → Change → State
  change_change : ∀ state first second, change (change state first) second = change state second
  exists_idle : ∀ state, ∃ idle, change state idle = state

namespace Disturbed

variable {State : Type u} {Change : Type v} (machine : Disturbed State Change)

/-- The machine comes to the goal, whatever is changed on the way. -/
inductive Comes (goal : State → Prop) : State → Prop where
  | here {state : State} : goal state → Comes goal state
  | step {state : State} : (∀ c, ∃ next, machine.advance (machine.change state c) = some next) →
      (∀ c next, machine.advance (machine.change state c) = some next → Comes goal next) →
      Comes goal state

/-- From wherever the first condition holds the machine comes to the second one. -/
def Leads (before after : State → Prop) : Prop := ∀ state, before state → machine.Comes after state

/-- A state on the way to the goal, after some change. -/
def UnderWay (goal : State → Prop) (state : State) : Prop :=
  ∃ before c, machine.change before c = state ∧ machine.Comes goal before

variable {machine} {before middle after goal : State → Prop} {state next : State}

/-- What comes to a condition comes to what the condition leads to. -/
theorem Comes.trans (comes : machine.Comes middle state) (onward : machine.Leads middle after) :
    machine.Comes after state := by
  induction comes with
  | here holds => exact onward _ holds
  | step goesOn _ ih => exact .step goesOn ih

/-- Ways that lead on are put together. -/
theorem Leads.trans (first : machine.Leads before middle) (second : machine.Leads middle after) :
    machine.Leads before after :=
  fun state holds => (first state holds).trans second

/-- A state that comes to the goal is on the way to it. -/
theorem Comes.underWay (comes : machine.Comes goal state) : machine.UnderWay goal state := by
  obtain ⟨idle, same⟩ := machine.exists_idle state
  exact ⟨state, idle, same, comes⟩

/-- No change takes the machine off its way. -/
theorem UnderWay.changed (underWay : machine.UnderWay goal state) (c : Change) :
    machine.UnderWay goal (machine.change state c) := by
  obtain ⟨before, first, rfl, comes⟩ := underWay
  exact ⟨before, c, (machine.change_change before first c).symm, comes⟩

section Goal

-- A goal that no change takes away, and at which the machine stops.
variable (lasts : ∀ state c, goal state → goal (machine.change state c))
  (stops : ∀ state, goal state → machine.advance state = none)

include lasts

/-- Where it stops the machine has come to the goal. -/
theorem UnderWay.arrived (underWay : machine.UnderWay goal state)
    (stopped : machine.advance state = none) : goal state := by
  obtain ⟨before, c, rfl, comes⟩ := underWay
  cases comes with
  | here holds => exact lasts before c holds
  | step goesOn _ =>
      obtain ⟨next, stepped⟩ := goesOn c
      rw [stopped] at stepped
      cases stepped

/-- Left alone it comes to the goal. -/
theorem UnderWay.goes (underWay : machine.UnderWay goal state) :
    ∃ final, Goes machine.advance state final ∧ goal final := by
  obtain ⟨before, c, rfl, comes⟩ := underWay
  induction comes generalizing c with
  | @here state holds => exact ⟨_, .refl, lasts state c holds⟩
  | step goesOn _ ih =>
      obtain ⟨next, stepped⟩ := goesOn c
      obtain ⟨idle, same⟩ := machine.exists_idle next
      obtain ⟨final, goes, holds⟩ := ih c next stepped idle
      rw [same] at goes
      exact ⟨final, .head stepped goes, holds⟩

include stops

/-- A step goes on along the way. -/
theorem UnderWay.advanced (underWay : machine.UnderWay goal state)
    (stepped : machine.advance state = some next) : machine.UnderWay goal next := by
  obtain ⟨before, c, rfl, comes⟩ := underWay
  cases comes with
  | here holds =>
      rw [stops _ (lasts before c holds)] at stepped
      cases stepped
  | step _ onward => exact (onward c next stepped).underWay

end Goal

/-! ## Interrupt routines -/

section Routine

variable (machine) (serving home : State → Prop)

/-- A state from which the machine, perhaps after the rest of an interrupt routine, is on the
way to the goal. -/
def Resumes (goal : State → Prop) : State → Prop :=
  Returns machine.advance serving fun back => home back ∧ machine.UnderWay goal back

variable {machine serving home}

/-- At home, a state that comes to the goal is on the way to it. -/
theorem Comes.resumes (comes : machine.Comes goal state) (atHome : home state) :
    machine.Resumes serving home goal state :=
  .of_home ⟨atHome, comes.underWay⟩

/-- An interrupt at a state where one is served. -/
theorem Resumes.interrupted {entered : State}
    (returns : home state → ∃ c, home (machine.change state c) ∧
      Path machine.advance serving entered (machine.change state c))
    (outside : ¬ serving state) (resumes : machine.Resumes serving home goal state) :
    machine.Resumes serving home goal entered := by
  obtain ⟨atHome, underWay⟩ := resumes.of_outside outside
  obtain ⟨c, atHome, path⟩ := returns atHome
  exact ⟨_, path, atHome, underWay.changed c⟩

variable (lasts : ∀ state c, goal state → goal (machine.change state c))
  (stops : ∀ state, goal state → machine.advance state = none)

include lasts

/-- Where it stops the machine has come to the goal. -/
theorem Resumes.arrived (resumes : machine.Resumes serving home goal state)
    (stopped : machine.advance state = none) : goal state :=
  (resumes.of_stopped stopped).2.arrived lasts stopped

/-- Left alone it comes to the goal. -/
theorem Resumes.goes (resumes : machine.Resumes serving home goal state) :
    ∃ final, Goes machine.advance state final ∧ goal final := by
  obtain ⟨back, path, -, underWay⟩ := resumes
  obtain ⟨final, goes, holds⟩ := underWay.goes lasts
  exact ⟨final, path.goes.trans goes, holds⟩

include stops

/-- A step, of the routine or of the machine, goes on along the way. -/
theorem Resumes.advanced
    (keeps : ∀ state next, home state → machine.advance state = some next → home next)
    (resumes : machine.Resumes serving home goal state)
    (stepped : machine.advance state = some next) : machine.Resumes serving home goal next :=
  Returns.advanced resumes
    (fun holds stepped => ⟨keeps _ _ holds.1 stepped, holds.2.advanced lasts stops stepped⟩) stepped

end Routine

end Disturbed

end CPrograms.Library
