import CPrograms.Library.Discipline
import CPrograms.PemeClock.Timekeeping

/-!
# The clock does not get stuck

The whole program under a stack discipline: its routines and the interrupt routine pop what
they have pushed, which is checked on the text. So in every interleaving with the timer
interrupt the stack stays small, nothing returns to a wrong place, and the machine stops only
at an `int 5` that waits for input.
-/

namespace CPrograms.PemeClock

open Library I8086

/-! ## The check of the text -/

/-- The routine a label belongs to, by its first label. -/
def routineOf : Label → Label
  | .nochmal | .minus | .eingabe | .go => .program
  | .setMask => .prePICinit
  | .nochmal2 | .st | .mi | .se | .minus2 | .eingabe2 | .go2 | .minset | .sekset
  | .stellenReturn => .uhrstellen
  | .ende => .uhrtakt
  | .takt | .isrret => .isr8
  | label => label

/-- The registers saved at the head of a block. -/
def savedAt (label : Label) : Nat :=
  if label = routineOf label then 0
  else if routineOf label = .uhrstellen then 3
  else if routineOf label = .isr8 then 1
  else 0

/-- The routines of the clock, some part of the text at a time. The room of the main program
depends on the part. -/
def discipline (inside : Address Label → Bool) (room : Nat) : Discipline Label where
  inside := inside
  routine := routineOf
  height := Program.heightFrom code savedAt
  called label := !(label = .program || label = .isr8)
  need
    | .program => room
    | .uhrstellen => 9
    | .isr8 => 7
    | .uhrzeitausgeben => 5
    | .printadr => 3
    | .readhex => 2
    | .uhraktivieren => 1
    | .printdec => 1
    | _ => 0

/-- The discipline from the start on. -/
def starting : Discipline Label := discipline (fun _ => true) 10

/-- The discipline once the clock is set. -/
def running : Discipline Label := discipline (fun pc => Main pc || Isr pc) 4

/-- The service an `int` of the program asks for, in `ah`. -/
def asked : Facts Label
  | ⟨.readhex, 3⟩ | ⟨.printadr, 4⟩ => some (.ah, 0)
  | ⟨.nochmal, 2⟩ | ⟨.uhraktivieren, 3⟩ | ⟨.se, 4⟩ => some (.ah, 1)
  | ⟨.readhex, 5⟩ | ⟨.readhex, 6⟩ | ⟨.readhex, 7⟩ => some (.ah, 2)
  | ⟨.readhex, 9⟩ | ⟨.readhex, 10⟩ | ⟨.readhex, 11⟩ => some (.ah, 2)
  | ⟨.printadr, 6⟩ | ⟨.printadr, 7⟩ => some (.ah, 3)
  | ⟨.printadr, 9⟩ | ⟨.printadr, 10⟩ | ⟨.printadr, 11⟩ => some (.ah, 4)
  | _ => none

/-- The `int 5` that wait for a key. -/
def keyWaits : List (Address Label) := [⟨.se, 4⟩, ⟨.nochmal, 2⟩, ⟨.uhraktivieren, 3⟩]

/-- The `int 5` that waits for an address. -/
def addressWait : Address Label := ⟨.readhex, 11⟩

/-- The instructions that cannot fail, and the services at their places. -/
def safeAt (pc : Address Label) : Instr Label Cell → Bool
  | .int 5 => (pc ∈ keyWaits && asked pc = some (.ah, 1)) ||
      (pc = addressWait && asked pc = some (.ah, 2))
  | .int 6 => true
  | instr => !instr.risky

private def labels : List Label :=
  [.program, .nochmal, .minus, .eingabe, .go, .prePICinit, .setMask, .readhex, .printadr,
    .uhrstellen, .nochmal2, .st, .mi, .se, .minus2, .eingabe2, .go2, .minset, .sekset,
    .stellenReturn, .uhraktivieren, .uhrzeitausgeben, .uhrtakt, .ende, .printdec, .PICinit,
    .PITinit, .IVTABinit, .isr8, .takt, .isrret]

private theorem mem_labels (label : Label) : label ∈ labels := by
  cases label <;> decide

private theorem code_starting : ∀ label ∈ labels, ∀ offset ∈ List.range (code label).length,
    ∀ instr ∈ (code label)[offset]?,
      starting.Keeps text ⟨label, offset⟩ (text.next ⟨label, offset⟩) instr := by
  decide +kernel

private theorem code_running : ∀ label ∈ labels, ∀ offset ∈ List.range (code label).length,
    running.inside ⟨label, offset⟩ = true → ∀ instr ∈ (code label)[offset]?,
      running.Keeps text ⟨label, offset⟩ (text.next ⟨label, offset⟩) instr := by
  decide +kernel

private theorem code_safe : ∀ label ∈ mainLabels, ∀ offset ∈ List.range (code label).length,
    Main ⟨label, offset⟩ → ∀ instr ∈ (code label)[offset]?,
      asked.Keeps ⟨label, offset⟩ (text.next ⟨label, offset⟩) instr ∧
        safeAt ⟨label, offset⟩ instr = true := by
  decide +kernel

variable {layout : Layout}

/-- The text keeps the discipline of the start. -/
theorem starting_keeps {pc : Address Label} {instr : Instr Label Cell}
    (fetched : layout.program.fetch pc = some instr) :
    starting.Keeps layout.program pc (layout.program.next pc) instr := by
  obtain ⟨place, -⟩ := List.getElem?_eq_some_iff.mp fetched
  exact code_starting pc.label (mem_labels _) pc.offset (List.mem_range.mpr place) instr fetched

/-- The text keeps the discipline of the program once the clock is set. -/
theorem running_keeps {pc : Address Label} {instr : Instr Label Cell}
    (inside : running.inside pc = true) (fetched : layout.program.fetch pc = some instr) :
    running.Keeps layout.program pc (layout.program.next pc) instr := by
  obtain ⟨place, -⟩ := List.getElem?_eq_some_iff.mp fetched
  exact code_running pc.label (mem_labels _) pc.offset (List.mem_range.mpr place) inside instr
    fetched

/-- The instructions of the program can be executed, or wait for input. -/
theorem main_safe {pc : Address Label} {instr : Instr Label Cell} (inside : Main pc)
    (fetched : layout.program.fetch pc = some instr) :
    asked.Keeps pc (layout.program.next pc) instr ∧ safeAt pc instr = true := by
  obtain ⟨place, -⟩ := List.getElem?_eq_some_iff.mp fetched
  exact code_safe pc.label inside.1 pc.offset (List.mem_range.mpr place) inside instr fetched

/-! ## The program between interrupts -/

/-- A state of the program once the clock is set, with the stack as the discipline wants it and
the service of the next `int` in `ah`. -/
structure Steady (layout : Layout) (machine : Machine) : Prop where
  confined : machine.Confined Main
  framed : running.Framed layout.program .program machine.pc machine.stack
  asked : asked.Hold machine.pc machine
  ten : machine.mem (layout.address .d) = 10

/-- The machine waits for input that has not come yet. -/
def Idle (machine : Machine) : Prop :=
  machine.pc ∈ keyWaits ∧ machine.world.keys = [] ∨
    machine.pc = addressWait ∧ machine.world.typed = []

/-- The program keeps the discipline. -/
theorem Steady.step {machine next : Machine} (steady : Steady layout machine)
    (stepped : layout.program.step monitor machine = some next) : Steady layout next := by
  obtain ⟨confined, agree⟩ := main_step steady.confined stepped
  obtain ⟨instr, fetched, executed⟩ := Option.bind_eq_some_iff.mp stepped
  obtain ⟨known, -⟩ := main_safe steady.confined.pc fetched
  refine ⟨confined, ?_, ?_, (agree .d (by decide)).trans steady.ten⟩
  · refine Discipline.Framed.exec rfl ?_ (running_keeps steady.framed.1.1 fetched) executed
    exact steady.framed
  · refine Facts.Hold.exec ?_ ?_ known executed
    · exact ⟨steady.asked.here, steady.asked.back⟩
    · exact fun back zf interrupts member => steady.confined.stack _ member

/-- Asked for a key, `int 5` waits only when there is none. -/
private theorem keys_of_waits {regs : Registers} {world : World} (key : regs.ax.hi = 1)
    (waits : monitor.service 5 regs world = none) : world.keys = [] := by
  simp only [monitor, key, ↓reduceIte] at waits
  split at waits
  · assumption
  · cases waits

/-- Asked for an address, it waits only when none is typed. -/
private theorem typed_of_waits {regs : Registers} {world : World} (address : regs.ax.hi = 2)
    (waits : monitor.service 5 regs world = none) : world.typed = [] := by
  simp only [monitor, address, show (2 : Byte) ≠ 1 by decide, ↓reduceIte] at waits
  split at waits
  · assumption
  · cases waits

/-- It stops only to wait for input. -/
theorem Steady.idle {machine : Machine} (steady : Steady layout machine)
    (stopped : layout.program.step monitor machine = none) : Idle machine := by
  obtain ⟨⟨inside, present, -⟩, -⟩ := steady.framed
  obtain ⟨instr, fetched⟩ := Option.isSome_iff_exists.mp present
  obtain ⟨-, safe⟩ := main_safe steady.confined.pc fetched
  rw [Program.step, fetched, Option.bind_some] at stopped
  unfold safeAt at safe
  split at safe
  · have waits := Option.map_eq_none_iff.mp stopped
    simp only [Bool.or_eq_true, Bool.and_eq_true, decide_eq_true_eq] at safe
    rcases safe with ⟨place, key⟩ | ⟨place, address⟩
    · exact .inl ⟨place, keys_of_waits (steady.asked.here _ key) waits⟩
    · exact .inr ⟨place, typed_of_waits (steady.asked.here _ address) waits⟩
  · cases stopped
  · have safe : instr.risky = false := by simpa only [Bool.not_eq_true'] using safe
    obtain ⟨next, executed⟩ := @Discipline.Framed.exists_exec _ _ _ running layout.program monitor
      .program machine.pc { machine with pc := layout.program.next machine.pc } instr rfl
      steady.framed (running_keeps inside fetched) safe
    rw [executed] at stopped
    cases stopped

/-- An interrupt changes nothing the program relies on. -/
theorem Steady.served {machine : Machine} (steady : Steady layout machine) (world : World) :
    Steady layout { machine with mem := served layout machine.mem, world := world } :=
  ⟨⟨steady.confined.pc, steady.confined.stack⟩, steady.framed,
    ⟨steady.asked.here, steady.asked.back⟩,
    (served_of_ne (by decide) (by decide) _).trans steady.ten⟩

/-! ## Interrupts -/

/-- The interrupt routine keeps the discipline. -/
theorem framed_isr_step (machine next : Machine)
    (framed : running.Framed layout.program .isr8 machine.pc machine.stack)
    (stepped : layout.program.plainStep monitor machine = some next) :
    running.Framed layout.program .isr8 next.pc next.stack := by
  obtain ⟨instr, fetched, executed⟩ := Option.bind_eq_some_iff.mp stepped
  split at executed
  · refine Discipline.Framed.exec rfl ?_ (running_keeps framed.1.1 fetched) executed
    exact framed
  · cases executed

/-- An interrupt takes at most ten words of the stack, and gives them back. -/
theorem path_interrupt (machine : Machine) {zf' : Bool} {mem' : Word → Byte} {world' : World}
    (goes : layout.Goes
      ⟨machine.regs, machine.zf, false, machine.mem, [], ⟨.isr8, 0⟩, machine.world⟩
      ⟨machine.regs, zf', false, mem', [], ⟨.isrret, 3⟩, world'⟩) :
    Path (layout.program.step monitor)
      (fun inside => Serving inside ∧ stackSize inside.stack ≤ stackSize machine.stack + 10)
      (machine.interrupt .isr8) { machine with mem := mem', world := world' } := by
  obtain ⟨regs, zf, interrupts, mem, stack, pc, world⟩ := machine
  have start : running.Framed layout.program .isr8 ⟨.isr8, 0⟩ [] :=
    ⟨⟨rfl, rfl, Nat.zero_le _⟩, [], [], rfl, rfl, .bottom⟩
  have finish := goes.invariant framed_isr_step start
  have room : ∀ inner : Machine, running.Framed layout.program .isr8 inner.pc inner.stack →
      stackSize (inner.stack ++ .frame pc zf interrupts :: stack) ≤ stackSize stack + 10 := by
    intro inner framed
    have bound : stackSize inner.stack ≤ 7 := framed.stackSize_le
    rw [stackSize_append, stackSize, Slot.size]
    omega
  have path := Program.path_within framed_isr_step goes start (.frame pc zf interrupts :: stack)
    false
  refine (path.mono ?_).trans
    (.step ⟨⟨⟨pc, zf, interrupts, List.mem_cons_self⟩, rfl⟩, room _ finish⟩ rfl (.refl _))
  rintro _ ⟨⟨below, off⟩, inner, framed, rfl⟩
  exact ⟨⟨⟨pc, zf, interrupts, below.subset List.mem_cons_self⟩, off⟩, room inner framed⟩

/-! ## Whole runs -/

/-- What holds along every run: the program is in its discipline, or waits to be set, or
interrupts are off until one of these holds again, with little on the stack meanwhile. -/
def Safe (layout : Layout) : Machine → Prop :=
  Returns (layout.program.step monitor)
    (fun machine => machine.interrupts = false ∧ stackSize machine.stack ≤ 14)
    (fun machine => Steady layout machine ∨
      machine.interrupts = false ∧ stackSize machine.stack ≤ 14 ∧
        layout.program.step monitor machine = none ∧ Idle machine)

/-- An instruction keeps the machine safe. -/
theorem Safe.exec {machine next : Machine} (safe : Safe layout machine)
    (stepped : layout.program.step monitor machine = some next) : Safe layout next := by
  refine Returns.advanced safe ?_ stepped
  rintro (steady | ⟨-, -, stopped, -⟩) stepped
  · exact .inl (steady.step stepped)
  · rw [stopped] at stepped
    cases stepped

/-- An interrupt keeps the machine safe. -/
theorem Safe.irq {machine : Machine} (safe : Safe layout machine)
    (armed : layout.armed machine = true) : Safe layout (machine.interrupt .isr8) := by
  have on : machine.interrupts = true := (Bool.and_eq_true_iff.mp armed).1
  have off : machine.interrupts ≠ false := by
    rw [on]
    decide
  rcases safe.of_outside fun inside => off inside.1 with steady | ⟨interrupts, -⟩
  · obtain ⟨zf', world', goes⟩ := goes_isr8 machine.regs machine.zf machine.world steady.ten
    have small : stackSize machine.stack ≤ 4 := steady.framed.stackSize_le
    exact ⟨_, (path_interrupt machine goes).mono fun inside bounds => ⟨bounds.1.2, by omega⟩,
      .inl (steady.served world')⟩
  · exact absurd interrupts off

/-- Every event keeps the machine safe. -/
theorem Safe.react {machine next : Machine} (event : Event) (safe : Safe layout machine)
    (reacted : layout.react machine event = some next) : Safe layout next := by
  cases event with
  | exec => exact safe.exec reacted
  | irq =>
      change (if layout.armed machine = true then _ else none) = _ at reacted
      split at reacted
      · next armed =>
          cases reacted
          exact safe.irq armed
      · cases reacted

/-- On the way the stack is small, and the machine stops only to wait for input. -/
theorem Safe.stack {machine : Machine} (safe : Safe layout machine) :
    stackSize machine.stack ≤ 14 ∧ (layout.program.step monitor machine = none → Idle machine) := by
  obtain ⟨back, path, home⟩ := safe
  cases path with
  | refl =>
      rcases home with steady | ⟨-, small, -, idle⟩
      · have small : stackSize machine.stack ≤ 4 := steady.framed.stackSize_le
        exact ⟨by omega, steady.idle⟩
      · exact ⟨small, fun _ => idle⟩
  | step inside stepped _ =>
      refine ⟨inside.2, fun stopped => ?_⟩
      rw [stopped] at stepped
      cases stepped

/-! ## From the start on -/

/-- Until the clock is set a step keeps the stack in order. -/
theorem framed_start_step (machine next : Machine)
    (framed : starting.Framed layout.program .program machine.pc machine.stack)
    (stepped : layout.program.plainStep monitor machine = some next) :
    starting.Framed layout.program .program next.pc next.stack := by
  obtain ⟨instr, fetched, executed⟩ := Option.bind_eq_some_iff.mp stepped
  split at executed
  · refine Discipline.Framed.exec rfl ?_ (starting_keeps fetched) executed
    exact framed
  · cases executed

/-- The program at its start, with interrupts off. -/
def atStart (regs : Registers) (zf : Bool) (mem : Word → Byte) (world : World) : Machine :=
  ⟨regs, zf, false, mem, [], ⟨.program, 0⟩, world⟩

/-- Plain code from the start keeps interrupts off and the stack small. -/
theorem path_start {regs : Registers} {zf : Bool} {mem : Word → Byte} {world : World}
    {final : Machine} (goes : layout.Goes (atStart regs zf mem world) final) :
    Path (layout.program.step monitor)
        (fun machine => machine.interrupts = false ∧ stackSize machine.stack ≤ 14)
        (atStart regs zf mem world) (final.within [] false) ∧ stackSize final.stack ≤ 14 := by
  have start : starting.Framed layout.program .program ⟨.program, 0⟩ [] :=
    ⟨⟨rfl, rfl, Nat.zero_le _⟩, [], [], rfl, rfl, .bottom⟩
  have room : ∀ machine : Machine,
      starting.Framed layout.program .program machine.pc machine.stack →
      stackSize machine.stack ≤ 14 := by
    intro machine framed
    have bound : stackSize machine.stack ≤ 10 := framed.stackSize_le
    omega
  refine ⟨(Program.path_within framed_start_step goes start [] false).mono ?_,
    room final (goes.invariant framed_start_step start)⟩
  rintro _ ⟨⟨-, off⟩, inner, framed, rfl⟩
  refine ⟨off, ?_⟩
  change stackSize (inner.stack ++ []) ≤ 14
  rw [List.append_nil]
  exact room inner framed

/-- The call of `uhrstellen`. -/
theorem goes_call_uhrstellen (regs : Registers) (zf : Bool) (mem : Word → Byte) (world : World) :
    layout.Goes (atStart regs zf mem world)
      ⟨regs, zf, false, mem, [.back ⟨.program, 1⟩], ⟨.uhrstellen, 0⟩, world⟩ := by
  obtain ⟨ax, bx, cx, dx⟩ := regs
  exact goes_run 1 rfl

/-- The program is in its discipline when the clock has been set. -/
theorem steady_set {mem : Word → Byte} (ten : mem (layout.address .d) = 10) (regs : Registers)
    (zf interrupts : Bool) (world : World) :
    Steady layout ⟨regs, zf, interrupts, mem, [], ⟨.program, 1⟩, world⟩ := by
  have place : Main ⟨.program, 1⟩ := by decide
  refine ⟨⟨place, ?_⟩, ?_, ⟨?_, ?_⟩, ten⟩
  · exact fun _ member => absurd member List.not_mem_nil
  · exact ⟨⟨rfl, rfl, Nat.zero_le _⟩, [], [], rfl, rfl, .bottom⟩
  · exact fun _ known => nomatch known
  · exact fun _ member => absurd member List.not_mem_nil

/-- The program is safe from its start on, whatever the input. -/
theorem safe_start (regs : Registers) (zf : Bool) {mem : Word → Byte}
    (constants : Constants layout mem) (world : World) :
    Safe layout (atStart regs zf mem world) := by
  have call := @goes_call_uhrstellen layout regs zf mem world
  by_cases enter : (0x10 : Byte) ∈ world.keys
  · obtain ⟨keys, later, pressed, others⟩ := List.eq_append_cons_of_mem enter
    obtain ⟨zf', world', goes⟩ := goes_uhrstellen regs zf constants ⟨.program, 1⟩ world keys later
      others
    rw [← pressed] at goes
    obtain ⟨path, -⟩ := path_start (call.trans goes)
    exact ⟨_, path, .inl (steady_set ((setting_of_ne (by decide) _ _ _).trans constants.d) _ _ _ _)⟩
  · obtain ⟨lo, bx, world', -, goes⟩ := goes_uhrstellen_wait regs zf constants ⟨.program, 1⟩ world
      world.keys [] enter
    rw [List.append_nil] at goes
    obtain ⟨path, small⟩ := path_start (call.trans goes)
    exact ⟨_, path, .inr ⟨rfl, small, rfl, .inl ⟨List.mem_cons_self, rfl⟩⟩⟩

/-- **The clock never gets stuck.** From the start of the program with interrupts off, for any
input and in every interleaving of instructions and timer interrupts, the stack never holds more
than 14 words, not counting the frames of the monitor's `int 5` and `int 6`, and the machine can
always execute its next instruction unless it waits at an `int 5` for a key or for an address that
has not come. -/
theorem clock_never_stuck (layout : Layout) (mem : Word → Byte) (constants : Constants layout mem)
    (regs : Registers) (zf : Bool) (world : World) (events : List Event) (machine : Machine)
    (ran : run layout.react (atStart regs zf mem world) events = some machine) :
    stackSize machine.stack ≤ 14 ∧
      (layout.program.step monitor machine = none → Idle machine) := by
  have safe := run_invariant (fun _ event _ => Safe.react event)
    (safe_start regs zf constants world) ran
  exact safe.stack

/-- Twelve instructions from the start. -/
theorem clock_never_stuck_sample :
    ∃ machine, run sampleLayout.react
        (atStart ⟨⟨0, 0⟩, ⟨0, 0⟩, ⟨0, 0⟩, ⟨0, 0⟩⟩ false sampleData sampleWorld)
        (List.replicate 12 .exec) = some machine ∧
      stackSize machine.stack ≤ 14 ∧
      (sampleLayout.program.step monitor machine = none → Idle machine) := by
  have runs : ∃ machine, run sampleLayout.react
      (atStart ⟨⟨0, 0⟩, ⟨0, 0⟩, ⟨0, 0⟩, ⟨0, 0⟩⟩ false sampleData sampleWorld)
      (List.replicate 12 .exec) = some machine := ⟨_, rfl⟩
  obtain ⟨machine, ran⟩ := runs
  exact ⟨machine, ran, clock_never_stuck sampleLayout sampleData sampleData_constants _ _ _ _ _ ran⟩

end CPrograms.PemeClock
