import CPrograms.Library.Interrupts
import CPrograms.PemeClock.Timekeeping

/-!
# The memory viewer

The main loop of the program, with the timer interrupt running in between. Each key has its
action on `bx`, and go calls `uhraktivieren`. The tests of the loop run on into each other,
and after Enter the test for go reads the low byte of the typed address.
-/

namespace CPrograms.PemeClock

open Library I8086

/-! ## Keys and what they are for -/

/-- A press in the main loop, with what is asked for because of it: the address behind Enter,
and the key `uhraktivieren` waits for behind go. -/
inductive Press where
  | plus
  | minus
  | enter (address : Word)
  | go (ends : Byte)
  | other (key : Byte) (free : key ∉ [0x16, 0x17, 0x10, 0x11])

namespace Press

/-- The keys of a press. -/
def keys : Press → List Byte
  | plus => [0x16]
  | minus => [0x17]
  | enter _ => [0x10]
  | go ends => [0x11, ends]
  | other key _ => [key]

/-- The address that is typed because of a press. -/
def typed : Press → List Word
  | enter address => [address]
  | _ => []

/-- The address in `bx` behind a press. -/
def move (bx : Word) : Press → Word
  | plus => bx + 1
  | minus => bx - 1
  | enter address => address
  | go _ => bx
  | other _ _ => bx

/-- Whether a press calls `uhraktivieren`. -/
def isGo : Press → Bool
  | go _ => true
  | _ => false

end Press

/-! ## The loop between changes -/

/-- One when the first instruction of `uhraktivieren` is executed. -/
def entered : Event → Address Label → Nat
  | .exec, ⟨.uhraktivieren, 0⟩ => 1
  | _, _ => 0

/-- The machine with the number of calls of `uhraktivieren`. -/
def Layout.tally (layout : Layout) (state : Machine × Nat) (event : Event) :
    Option (Machine × Nat) :=
  (layout.react state.1 event).map fun next => (next, state.2 + entered event state.1.pc)

/-- What an interrupt can change: the memory, and the world but for the input. -/
structure Upset where
  mem : Word → Byte
  world : World

/-- The program as it is seen between interrupts. -/
def Layout.viewer (layout : Layout) : Disturbed (Machine × Nat) Upset where
  advance state := layout.tally state .exec
  change state upset :=
    ({ state.1 with
        mem := upset.mem
        world := { upset.world with keys := state.1.world.keys, typed := state.1.world.typed } },
      state.2)
  change_change _ _ _ := rfl
  exists_idle state := ⟨⟨state.1.mem, state.1.world⟩, rfl⟩

/-- A number of steps with a change before each of them. The state is taken apart before each
step, so that runs on unknown contents can be computed. -/
def runUpset (layout : Layout) : (Nat → Upset) → Nat → Machine × Nat → Option (Machine × Nat)
  | _, 0, state => some state
  | upsets, count + 1, (⟨⟨ax, bx, cx, dx⟩, zf, interrupts, _, stack, ⟨label, offset⟩,
      ⟨keys, typed, _, _, _, _, _⟩⟩, calls) =>
      (layout.tally (⟨⟨ax, bx, cx, dx⟩, zf, interrupts, (upsets 0).mem, stack, ⟨label, offset⟩,
        { (upsets 0).world with keys := keys, typed := typed }⟩, calls) .exec).bind
        (runUpset layout (fun i => upsets (i + 1)) count)

variable {layout : Layout}

/-- What is computed for all changes is come to. -/
theorem comes_run (count : Nat) {goal : Machine × Nat → Prop} {state : Machine × Nat}
    (runs : ∀ upsets, ∃ final, runUpset layout upsets count state = some final ∧ goal final) :
    layout.viewer.Comes goal state := by
  induction count generalizing state with
  | zero =>
      obtain ⟨final, ran, reached⟩ := runs fun _ => ⟨state.1.mem, state.1.world⟩
      cases ran
      exact .here reached
  | succ count ih =>
      refine .step (fun upset => ?_) (fun upset next stepped => ih fun upsets => ?_)
      · obtain ⟨_, ran, -⟩ := runs fun _ => upset
        obtain ⟨next, stepped, -⟩ := Option.bind_eq_some_iff.mp ran
        exact ⟨next, stepped⟩
      · obtain ⟨final, ran, reached⟩ := runs fun | 0 => upset | i + 1 => upsets i
        obtain ⟨next', stepped', ran⟩ := Option.bind_eq_some_iff.mp ran
        cases stepped.symm.trans stepped'
        exact ⟨final, ran, reached⟩

/-- What the loop is about: the address in `bx`, the input to come and the calls so far. -/
structure View where
  bx : Word
  keys : List Byte
  typed : List Word
  calls : Nat

/-- The program at a place of the loop, with a byte in `al`. -/
structure At (pc : Address Label) (al : Byte) (view : View) (state : Machine × Nat) : Prop where
  pc : state.1.pc = pc
  al : state.1.regs.ax.lo = al
  bx : state.1.regs.bx.word = view.bx
  stack : state.1.stack = []
  keys : state.1.world.keys = view.keys
  typed : state.1.world.typed = view.typed
  calls : state.2 = view.calls

/-- What is computed for all contents at a place is led to. -/
theorem leads_run (count : Nat) {pc : Address Label} {al : Byte} {view : View}
    {goal : Machine × Nat → Prop}
    (runs : ∀ (ah : Byte) (bx cx dx : Pair) (zf interrupts : Bool) (mem : Word → Byte)
      (world : World) (upsets : Nat → Upset), bx.word = view.bx → ∃ final,
        runUpset layout upsets count (⟨⟨⟨ah, al⟩, bx, cx, dx⟩, zf, interrupts, mem, [], pc,
          { world with keys := view.keys, typed := view.typed }⟩, view.calls) = some final ∧
        goal final) :
    layout.viewer.Leads (At pc al view) goal := by
  obtain ⟨bx', keys, typed, calls⟩ := view
  rintro ⟨⟨⟨⟨ah, al⟩, bx, cx, dx⟩, zf, interrupts, mem, stack, pc, world⟩, count⟩
    ⟨rfl, rfl, rfl, rfl, rfl, rfl, rfl⟩
  exact comes_run _ fun upsets => runs ah bx cx dx zf interrupts mem world upsets rfl

/-! ## The code of the loop -/

/-- A key is read. -/
theorem leads_read (al key : Byte) (bx : Word) (keys : List Byte) (typed : List Word)
    (calls : Nat) :
    layout.viewer.Leads (At ⟨.nochmal, 0⟩ al ⟨bx, key :: keys, typed, calls⟩)
      (At ⟨.nochmal, 3⟩ key ⟨bx, keys, typed, calls⟩) :=
  leads_run 19 fun _ _ _ _ _ _ _ _ _ same => ⟨_, rfl, rfl, rfl, same, rfl, rfl, rfl, rfl⟩

/-- The four tests of the loop, in the order of the source. -/
inductive Test where
  | plus | minus | enter | go

namespace Test

/-- Where a test starts. -/
def pc : Test → Address Label
  | plus => ⟨.nochmal, 3⟩
  | minus => ⟨.minus, 0⟩
  | enter => ⟨.eingabe, 0⟩
  | go => ⟨.go, 0⟩

/-- The key a test is for. -/
def key : Test → Byte
  | plus => 0x16
  | minus => 0x17
  | enter => 0x10
  | go => 0x11

/-- Where a test goes on for its key. -/
def hit : Test → Address Label
  | plus => ⟨.nochmal, 5⟩
  | minus => ⟨.minus, 2⟩
  | enter => ⟨.eingabe, 2⟩
  | go => ⟨.go, 2⟩

/-- Where a test jumps for other keys. -/
def miss : Test → Address Label
  | plus => ⟨.minus, 0⟩
  | minus => ⟨.eingabe, 0⟩
  | enter => ⟨.go, 0⟩
  | go => ⟨.nochmal, 0⟩

end Test

private theorem leads_test (test : Test) (al : Byte) (view : View) :
    layout.viewer.Leads (At test.pc al view)
      (At (if decide (al = test.key) then test.hit else test.miss) al view) := by
  cases test <;>
    exact leads_run 2 fun _ _ _ _ _ _ _ _ _ same => ⟨_, rfl, rfl, rfl, same, rfl, rfl, rfl, rfl⟩

/-- A test goes on for its key. -/
theorem leads_hit (test : Test) (view : View) :
    layout.viewer.Leads (At test.pc test.key view) (At test.hit test.key view) := by
  have leads := @leads_test layout test test.key view
  rwa [decide_eq_true rfl, if_pos rfl] at leads

/-- A test jumps for other keys. -/
theorem leads_miss (test : Test) {al : Byte} (other : al ≠ test.key) (view : View) :
    layout.viewer.Leads (At test.pc al view) (At test.miss al view) := by
  have leads := @leads_test layout test al view
  rwa [decide_eq_false other, if_neg Bool.false_ne_true] at leads

variable (al : Byte) (bx : Word) (keys : List Byte) (typed : List Word) (calls : Nat)

/-- Plus counts `bx` up. -/
theorem leads_inc :
    layout.viewer.Leads (At ⟨.nochmal, 5⟩ al ⟨bx, keys, typed, calls⟩)
      (At ⟨.minus, 0⟩ al ⟨bx + 1, keys, typed, calls⟩) := by
  refine leads_run 1 fun _ _ _ _ _ _ _ _ _ same => ⟨_, rfl, rfl, rfl, ?_, rfl, rfl, rfl, rfl⟩
  exact (Pair.word_ofWord _).trans (congrArg (· + 1) same)

/-- Minus counts `bx` down. -/
theorem leads_dec :
    layout.viewer.Leads (At ⟨.minus, 2⟩ al ⟨bx, keys, typed, calls⟩)
      (At ⟨.eingabe, 0⟩ al ⟨bx - 1, keys, typed, calls⟩) := by
  refine leads_run 1 fun _ _ _ _ _ _ _ _ _ same => ⟨_, rfl, rfl, rfl, ?_, rfl, rfl, rfl, rfl⟩
  exact (Pair.word_ofWord _).trans (congrArg (· - 1) same)

/-- Behind Enter the typed address is in `bx`, and its low byte in `al`. -/
theorem leads_readhex (address : Word) :
    layout.viewer.Leads (At ⟨.eingabe, 2⟩ al ⟨bx, keys, address :: typed, calls⟩)
      (At ⟨.go, 0⟩ (Pair.ofWord address).lo ⟨address, keys, typed, calls⟩) := by
  refine leads_run 17 fun _ _ _ _ _ _ _ _ _ _ => ⟨_, rfl, rfl, rfl, ?_, rfl, rfl, rfl, rfl⟩
  exact Pair.word_ofWord address

/-- Go calls `uhraktivieren`, which takes a key and returns. -/
theorem leads_uhraktivieren (ends : Byte) :
    layout.viewer.Leads (At ⟨.go, 2⟩ al ⟨bx, ends :: keys, typed, calls⟩)
      (At ⟨.nochmal, 0⟩ al ⟨bx, keys, typed, calls + 1⟩) :=
  leads_run 9 fun _ _ _ _ _ _ _ _ _ same => ⟨_, rfl, rfl, rfl, same, rfl, rfl, rfl, rfl⟩

/-- The program at an `int 5` that waits for a key. -/
structure Waits (pc : Address Label) (state : Machine × Nat) : Prop where
  pc : state.1.pc = pc
  ah : state.1.regs.ax.hi = 1
  keys : state.1.world.keys = []

/-- The main loop waits for a key. -/
def Shows (view : View) (state : Machine × Nat) : Prop :=
  Waits ⟨.nochmal, 2⟩ state ∧ ∃ al, At ⟨.nochmal, 2⟩ al view state

/-- Without a key the main loop comes to wait. -/
theorem leads_shows :
    layout.viewer.Leads (At ⟨.nochmal, 0⟩ al ⟨bx, [], typed, calls⟩)
      (Shows ⟨bx, [], typed, calls⟩) :=
  leads_run 18 fun _ _ _ _ _ _ _ _ _ same =>
    ⟨_, rfl, ⟨rfl, rfl, rfl⟩, _, rfl, rfl, same, rfl, rfl, rfl, rfl⟩

/-- Without a key `uhraktivieren` comes to wait. -/
theorem leads_waits :
    layout.viewer.Leads (At ⟨.go, 2⟩ al ⟨bx, [], typed, calls⟩) (Waits ⟨.uhraktivieren, 3⟩) :=
  leads_run 4 fun _ _ _ _ _ _ _ _ _ _ => ⟨_, rfl, rfl, rfl, rfl⟩

/-! ## Whole runs of the loop -/

/-- The head of the main loop. -/
def Loops (view : View) (state : Machine × Nat) : Prop := ∃ al, At ⟨.nochmal, 0⟩ al view state

/-- The head of the loop, with any byte in `al`. -/
theorem leads_loops (view : View) :
    layout.viewer.Leads (At ⟨.nochmal, 0⟩ al view) (Loops view) :=
  fun _ stands => .here ⟨al, stands⟩

variable {al}

/-- The rest of the loop from the test for go on, for other keys. -/
theorem leads_of_go (notGo : al ≠ 0x11) (view : View) :
    layout.viewer.Leads (At ⟨.go, 0⟩ al view) (Loops view) :=
  (leads_miss .go notGo view).trans (leads_loops al view)

/-- The rest of the loop from the test for Enter on, for other keys. -/
theorem leads_of_eingabe (notEnter : al ≠ 0x10) (notGo : al ≠ 0x11) (view : View) :
    layout.viewer.Leads (At ⟨.eingabe, 0⟩ al view) (Loops view) :=
  (leads_miss .enter notEnter view).trans (leads_of_go notGo view)

/-- The rest of the loop from the test for minus on, for other keys. -/
theorem leads_of_minus (notMinus : al ≠ 0x17) (notEnter : al ≠ 0x10) (notGo : al ≠ 0x11)
    (view : View) : layout.viewer.Leads (At ⟨.minus, 0⟩ al view) (Loops view) :=
  (leads_miss .minus notMinus view).trans (leads_of_eingabe notEnter notGo view)

/-- Enter: the address is read, and then tested as if it were a key. -/
theorem leads_enter (address : Word) :
    layout.viewer.Leads (At ⟨.nochmal, 3⟩ 0x10 ⟨bx, keys, address :: typed, calls⟩)
      (At ⟨.go, 0⟩ (Pair.ofWord address).lo ⟨address, keys, typed, calls⟩) :=
  (leads_miss .plus (by decide) _).trans <| (leads_miss .minus (by decide) _).trans <|
    (leads_hit .enter _).trans (leads_readhex _ bx keys typed calls address)

/-- **A press does what it is for**, unless it types an address whose low byte is go. -/
theorem leads_press (press : Press)
    (clean : ∀ address, press = .enter address → (Pair.ofWord address).lo ≠ 0x11) :
    layout.viewer.Leads (Loops ⟨bx, press.keys ++ keys, press.typed ++ typed, calls⟩)
      (Loops ⟨press.move bx, keys, typed, calls + if press.isGo then 1 else 0⟩) := by
  rintro state ⟨al, stands⟩
  cases press with
  | plus =>
      refine (leads_read al _ bx _ _ calls state stands).trans ?_
      exact (leads_hit .plus _).trans <| (leads_inc _ bx keys typed calls).trans <|
        leads_of_minus (by decide) (by decide) (by decide) _
  | minus =>
      refine (leads_read al _ bx _ _ calls state stands).trans ?_
      exact (leads_miss .plus (by decide) _).trans <| (leads_hit .minus _).trans <|
        (leads_dec _ bx keys typed calls).trans <| leads_of_eingabe (by decide) (by decide) _
  | enter address =>
      -- The test for go finds the address in `al` and no longer the key.
      refine (leads_read al _ bx _ _ calls state stands).trans ?_
      exact (leads_enter bx keys typed calls address).trans (leads_of_go (clean address rfl) _)
  | go ends =>
      refine (leads_read al _ bx _ _ calls state stands).trans ?_
      exact (leads_miss .plus (by decide) _).trans <| (leads_miss .minus (by decide) _).trans <|
        (leads_miss .enter (by decide) _).trans <| (leads_hit .go _).trans <|
        (leads_uhraktivieren _ bx keys typed calls ends).trans (leads_loops _ _)
  | other key free =>
      simp only [List.mem_cons, List.not_mem_nil, or_false, not_or] at free
      obtain ⟨notPlus, notMinus, notEnter, notGo⟩ := free
      refine (leads_read al _ bx _ _ calls state stands).trans ?_
      exact (leads_miss .plus notPlus _).trans (leads_of_minus notMinus notEnter notGo _)

/-- Presses do what they are for, one after the other. -/
theorem leads_presses (presses : List Press)
    (clean : ∀ address, .enter address ∈ presses → (Pair.ofWord address).lo ≠ 0x11) :
    layout.viewer.Leads
      (Loops ⟨bx, presses.flatMap Press.keys ++ keys, presses.flatMap Press.typed ++ typed, calls⟩)
      (Loops ⟨presses.foldl Press.move bx, keys, typed, calls + presses.countP Press.isGo⟩) := by
  induction presses generalizing bx calls with
  | nil => exact fun _ loops => .here loops
  | cons press presses ih =>
      have first := @leads_press layout bx (presses.flatMap Press.keys ++ keys)
        (presses.flatMap Press.typed ++ typed) calls press
        fun address same => clean address (same ▸ List.mem_cons_self)
      have rest := ih (press.move bx) (calls + if press.isGo then 1 else 0)
        fun address member => clean address (List.mem_cons_of_mem _ member)
      rw [List.flatMap_cons, List.flatMap_cons, List.append_assoc, List.append_assoc,
        List.foldl_cons, List.countP_cons, Nat.add_comm (presses.countP _), ← Nat.add_assoc]
      exact first.trans rest

/-- With the input used up the loop waits for a key. -/
theorem leads_served (presses : List Press)
    (clean : ∀ address, .enter address ∈ presses → (Pair.ofWord address).lo ≠ 0x11) :
    layout.viewer.Leads
      (Loops ⟨bx, presses.flatMap Press.keys, presses.flatMap Press.typed, 0⟩)
      (Shows ⟨presses.foldl Press.move bx, [], [], presses.countP Press.isGo⟩) := by
  have leads := @leads_presses layout bx [] [] 0 presses clean
  rw [List.append_nil, List.append_nil, Nat.zero_add] at leads
  refine leads.trans ?_
  rintro state ⟨al, stands⟩
  exact leads_shows al _ [] _ state stands

/-- An address whose low byte is go calls `uhraktivieren`, which waits for a key. -/
theorem leads_stray (presses : List Press)
    (clean : ∀ address, .enter address ∈ presses → (Pair.ofWord address).lo ≠ 0x11)
    {address : Word} (stray : (Pair.ofWord address).lo = 0x11) :
    layout.viewer.Leads
      (Loops ⟨bx, (presses ++ [Press.enter address]).flatMap Press.keys,
        (presses ++ [Press.enter address]).flatMap Press.typed, 0⟩)
      (Waits ⟨.uhraktivieren, 3⟩) := by
  rw [List.flatMap_append, List.flatMap_append]
  refine (leads_presses bx _ _ 0 presses clean).trans ?_
  rintro state ⟨al, stands⟩
  have entered := (@leads_read layout al 0x10 _ [] [address] _ state stands).trans
    (leads_enter _ [] [] _ address)
  rw [stray] at entered
  exact entered.trans ((leads_hit .go _).trans (leads_waits _ _ [] _))

/-! ## The timer interrupt -/

/-- A change does not end the waiting for a key. -/
theorem Waits.lasts {pc : Address Label} (state : Machine × Nat) (upset : Upset)
    (waits : Waits pc state) : Waits pc (layout.viewer.change state upset) :=
  ⟨waits.pc, waits.ah, waits.keys⟩

/-- A change does not end the waiting in the main loop. -/
theorem Shows.lasts {view : View} (state : Machine × Nat) (upset : Upset)
    (arrived : Shows view state) : Shows view (layout.viewer.change state upset) := by
  obtain ⟨waits, al, stands⟩ := arrived
  exact ⟨waits.lasts state upset, al, stands.pc, stands.al, stands.bx, stands.stack, stands.keys,
    stands.typed, stands.calls⟩

/-- Without a key both `int 5` wait. -/
theorem Waits.stops {pc : Address Label} (asks : pc = ⟨.nochmal, 2⟩ ∨ pc = ⟨.uhraktivieren, 3⟩)
    {state : Machine × Nat} (waits : Waits pc state) : layout.viewer.advance state = none := by
  obtain ⟨⟨⟨⟨ah, al⟩, bx, cx, dx⟩, zf, interrupts, mem, stack, pc, ⟨keys, typed, residue, served,
    shown, ports, sent⟩⟩, calls⟩ := state
  obtain ⟨rfl, rfl, rfl⟩ := waits
  rcases asks with rfl | rfl <;> rfl

/-- The main loop stops where it waits. -/
theorem Shows.stops {view : View} (state : Machine × Nat) (arrived : Shows view state) :
    layout.viewer.advance state = none :=
  arrived.1.stops (.inl rfl)

/-- The program outside the interrupt routine. -/
def Home (layout : Layout) (state : Machine × Nat) : Prop :=
  state.1.Confined Main ∧ state.1.mem (layout.address .d) = 10

/-- The states inside the interrupt routine. -/
def InIsr (state : Machine × Nat) : Prop := Serving state.1 ∧ Isr state.1.pc

/-- A step of the program stays in it. -/
theorem Home.advance (state next : Machine × Nat) (home : Home layout state)
    (stepped : layout.viewer.advance state = some next) : Home layout next := by
  obtain ⟨machine, moved, rfl⟩ := Option.map_eq_some_iff.mp stepped
  obtain ⟨confined, agree⟩ := main_step home.1 moved
  exact ⟨confined, (agree .d (by decide)).trans home.2⟩

/-- Only the first instruction of `uhraktivieren` is counted. -/
theorem entered_of_ne {pc : Address Label} (other : pc ≠ ⟨.uhraktivieren, 0⟩) :
    entered .exec pc = 0 := by
  unfold entered
  split
  · exact absurd rfl other
  · rfl

/-- On a path that does not enter `uhraktivieren` no call is counted. -/
theorem path_viewer {inside : Machine → Prop}
    (uncounted : ∀ machine, inside machine → entered .exec machine.pc = 0) {machine back : Machine}
    (calls : Nat) (path : Path (layout.program.step monitor) inside machine back) :
    Path layout.viewer.advance (fun state => inside state.1) (machine, calls) (back, calls) := by
  induction path with
  | refl => exact .refl _
  | @step machine next _ within stepped _ ih =>
      refine .step within ?_ ih
      change (layout.program.step monitor machine).map _ = _
      rw [stepped, Option.map_some, uncounted machine within, Nat.add_zero]

/-- An interrupt as a whole is a change. -/
theorem Home.returns {state : Machine × Nat} (home : Home layout state) :
    ∃ upset, Home layout (layout.viewer.change state upset) ∧
      Path layout.viewer.advance InIsr (state.1.interrupt .isr8, state.2)
        (layout.viewer.change state upset) := by
  obtain ⟨world, keys, typed, path⟩ := path_isr8 state.1 home.2
  refine ⟨⟨served layout state.1.mem, world⟩, ⟨⟨home.1.pc, home.1.stack⟩, ?_⟩, ?_⟩
  · exact (served_of_ne (by decide) (by decide) _).trans home.2
  · have uncounted : ∀ inside : Machine, Serving inside ∧ Isr inside.pc →
        entered .exec inside.pc = 0 := by
      rintro inside ⟨-, place⟩
      refine entered_of_ne fun start => ?_
      rw [start] at place
      exact absurd place (by decide)
    have path := path_viewer uncounted state.2 path
    obtain ⟨keys', typed', residue, count, shown, ports, sent⟩ := world
    cases keys
    cases typed
    exact path

section Goal

variable {goal : Machine × Nat → Prop}
  (lasts : ∀ state upset, goal state → goal (layout.viewer.change state upset))
  (stops : ∀ state, goal state → layout.viewer.advance state = none)

include lasts stops

/-- **The interrupt routine does not get in the way.** -/
theorem resumes_run {start final : Machine × Nat} (home : Home layout start)
    (comes : layout.viewer.Comes goal start) {events : List Event}
    (ran : run layout.tally start events = some final) :
    layout.viewer.Resumes InIsr (Home layout) goal final := by
  refine run_invariant (fun state event next resumes reacted => ?_) (comes.resumes home) ran
  cases event with
  | exec => exact resumes.advanced lasts stops Home.advance reacted
  | irq =>
      obtain ⟨machine, served, rfl⟩ := Option.map_eq_some_iff.mp reacted
      change (if layout.armed state.1 = true then _ else none) = _ at served
      split at served
      · next armed =>
          cases served
          exact resumes.interrupted Home.returns fun inside =>
            not_serving_of_armed armed inside.1
      · cases served

end Goal

/-! ## What the loop owes to its user -/

/-- The program at the head of its main loop. -/
structure Ready (layout : Layout) (machine : Machine) : Prop where
  pc : machine.pc = ⟨.nochmal, 0⟩
  stack : machine.stack = []
  d : machine.mem (layout.address .d) = 10

/-- The machine with the input of some presses before it. -/
def given (machine : Machine) (presses : List Press) : Machine :=
  { machine with world := { machine.world with
      keys := presses.flatMap Press.keys
      typed := presses.flatMap Press.typed } }

/-- Whenever the timer interrupts, the program can go on until it waits for a key. When it
waits, it does so in the main loop, all input is used up, `bx` is where the presses take it,
and `uhraktivieren` has been called once for each go. -/
def Serves (layout : Layout) (start : Machine) (presses : List Press) : Prop :=
  ∀ events machine calls,
    run layout.tally (given start presses, 0) events = some (machine, calls) →
    (∃ more final, run layout.tally (machine, calls) more = some final ∧
      layout.program.step monitor final.1 = none) ∧
    (layout.program.step monitor machine = none →
      machine.pc = ⟨.nochmal, 2⟩ ∧ machine.world.keys = [] ∧ machine.world.typed = [] ∧
      machine.regs.bx.word = presses.foldl Press.move start.regs.bx.word ∧
      calls = presses.countP Press.isGo)

/-- Every press has exactly its action: however many of the presses have been made, they are
served. All of them together may be served by accident, with a key too many behind a call that
should not have been. -/
def Handles (layout : Layout) (start : Machine) (presses : List Press) : Prop :=
  ∀ done, done <+: presses → Serves layout start done

/-- Counting calls does not stop the machine. -/
theorem advance_eq_none_iff {state : Machine × Nat} :
    layout.viewer.advance state = none ↔ layout.program.step monitor state.1 = none :=
  Option.map_eq_none_iff

variable {start : Machine}

/-- The head of the main loop is in the program. -/
theorem Ready.home (ready : Ready layout start) (presses : List Press) :
    Home layout (given start presses, 0) := by
  refine ⟨⟨?_, fun slot member => ?_⟩, ready.d⟩
  · have place : Main ⟨.nochmal, 0⟩ := by decide
    exact ready.pc ▸ place
  · change slot ∈ start.stack at member
    rw [ready.stack] at member
    cases member

/-- The head of the main loop, as the loop sees it. -/
theorem Ready.loops (ready : Ready layout start) (presses : List Press) :
    Loops ⟨start.regs.bx.word, presses.flatMap Press.keys, presses.flatMap Press.typed, 0⟩
      (given start presses, 0) :=
  ⟨_, ready.pc, rfl, rfl, ready.stack, rfl, rfl, rfl⟩

/-- Without a stray address the presses are served. -/
theorem Ready.serves (ready : Ready layout start) (presses : List Press)
    (clean : ∀ address, .enter address ∈ presses → (Pair.ofWord address).lo ≠ 0x11) :
    Serves layout start presses := by
  intro events machine calls ran
  have resumes := resumes_run Shows.lasts Shows.stops (ready.home presses)
    (leads_served _ presses clean _ (ready.loops presses)) ran
  constructor
  · obtain ⟨final, goes, arrived⟩ := resumes.goes Shows.lasts
    obtain ⟨more, ran⟩ := Goes.run layout.tally .exec goes
    exact ⟨_, final, ran, advance_eq_none_iff.mp (Shows.stops final arrived)⟩
  · intro waits
    obtain ⟨-, al, stands⟩ := resumes.arrived Shows.lasts (advance_eq_none_iff.mpr waits)
    exact ⟨stands.pc, stands.keys, stands.typed, stands.bx, stands.calls⟩

/-- With a stray address the program comes to wait in `uhraktivieren`. -/
theorem Ready.not_serves (ready : Ready layout start) (presses : List Press)
    (clean : ∀ address, .enter address ∈ presses → (Pair.ofWord address).lo ≠ 0x11)
    {address : Word} (stray : (Pair.ofWord address).lo = 0x11) :
    ¬ Serves layout start (presses ++ [.enter address]) := by
  intro serves
  have comes := @leads_stray layout _ presses clean address stray _
    (ready.loops (presses ++ [.enter address]))
  obtain ⟨final, goes, waits⟩ := comes.underWay.goes Waits.lasts
  obtain ⟨count, ran⟩ := Goes.run layout.tally .exec goes
  have stopped : layout.program.step monitor final.1 = none :=
    advance_eq_none_iff.mp (waits.stops (.inr rfl))
  obtain ⟨place, -⟩ := (serves _ final.1 final.2 ran).2 stopped
  rw [waits.pc] at place
  cases place

/-- **The main loop is right but for addresses that end in 11h.** Every press has exactly its
action, in every interleaving with the timer interrupt, if and only if no typed address has
the key code of go as its low byte. -/
theorem handles_iff (layout : Layout) (start : Machine) (ready : Ready layout start)
    (presses : List Press) :
    Handles layout start presses ↔
      ∀ address, .enter address ∈ presses → (Pair.ofWord address).lo ≠ 0x11 := by
  constructor
  · intro handles
    induction presses using List.reverseRecOn with
    | nil => exact fun _ member => absurd member List.not_mem_nil
    | append_singleton presses press ih =>
        have clean := ih fun done before => handles done (before.trans (List.prefix_append _ _))
        intro address member stray
        rcases List.mem_append.mp member with early | last
        · exact clean address early stray
        · rw [List.mem_singleton] at last
          subst last
          exact ready.not_serves presses clean stray (handles _ List.prefix_rfl)
  · intro clean done before
    exact ready.serves done fun address member => clean address (before.subset member)

/-- The sample data with the program at the head of its main loop. -/
def sampleStart : Machine :=
  ⟨⟨⟨0, 0⟩, ⟨0, 0⟩, ⟨0, 0⟩, ⟨0, 0⟩⟩, false, true, sampleData, [], ⟨.nochmal, 0⟩, sampleWorld⟩

/-- The sample state is at the head of the main loop. -/
theorem sampleStart_ready : Ready sampleLayout sampleStart :=
  ⟨rfl, rfl, sampleData_constants.d⟩

/-- Four presses, each with exactly its action. -/
theorem handles_sample :
    Handles sampleLayout sampleStart [.plus, .enter 0x1100, .go 0x11, .minus] := by
  refine (handles_iff sampleLayout sampleStart sampleStart_ready _).mpr ?_
  intro address member
  simp only [List.mem_cons, List.not_mem_nil, reduceCtorEq, Press.enter.injEq, false_or,
    or_false] at member
  subst member
  decide

/-- Enter and the address 0011h, without any go: `uhraktivieren` is called. -/
theorem enter_calls_uhraktivieren :
    ¬ Handles sampleLayout sampleStart [.enter 0x0011] ∧
      ∃ machine, run sampleLayout.tally (given sampleStart [.enter 0x0011], 0)
        (List.replicate 46 .exec) = some (machine, 1) := by
  constructor
  · intro handles
    exact sampleStart_ready.not_serves [] (fun _ member => absurd member List.not_mem_nil)
      (by decide) (handles _ List.prefix_rfl)
  · exact ⟨_, rfl⟩

end CPrograms.PemeClock
