import CPrograms.PemeClock.Program

/-!
# The routines of the clock

What the display routines, the tick and the interrupt routine do, computed once on a
state with unknown contents. The display routines leave the memory and, but for `ax`,
`dl` and the flags in `printdec`, the registers alone. The tick counts one second on, the
interrupt routine counts interrupts and ticks at every hundredth.
-/

namespace CPrograms.PemeClock

open Library I8086

/-- The three numbers of the time. -/
inductive Field where
  | hours | minutes | seconds
  deriving DecidableEq

namespace Field

/-- The cell of a field. -/
def cell : Field → Cell
  | hours => .stu
  | minutes => .min
  | seconds => .sek

/-- Different fields have different cells. -/
theorem cell_injective : Function.Injective cell := by
  intro field other
  cases field <;> cases other <;> decide

/-- The cells of the three fields. -/
def cells : List Cell := [.stu, .min, .sek]

/-- The cell of a field is one of the three. -/
theorem cell_mem (field : Field) : field.cell ∈ cells := by
  cases field <;> decide

/-- The number a field never reaches. -/
def limit : Field → Byte
  | hours => 24
  | minutes => 60
  | seconds => 60

/-- Where on the display a field starts. -/
def position : Field → Byte
  | hours => 7
  | minutes => 4
  | seconds => 1

end Field

/-- The world after some calls of `int 6`, the latest first. -/
def World.showing (world : World) (calls : List Registers) : World :=
  { world with served := world.served + calls.length, shown := calls ++ world.shown }

/-- Calls of `int 6` one after the other. -/
theorem World.showing_showing (world : World) (first second : List Registers) :
    (world.showing first).showing second = world.showing (second ++ first) := by
  simp only [showing, List.length_append, List.append_assoc, Nat.add_assoc, Nat.add_comm]

/-- The two calls that show a number of two digits, at the position in `dl` and the one
before it. -/
def digitsShown (value : Byte) (bx dx : Pair) : List Registers :=
  let digits : Pair := ⟨.ofNat 8 (value.toNat % 10), .ofNat 8 (value.toNat / 10)⟩
  [⟨⟨1, digits.hi + 48⟩, bx, digits, ⟨dx.hi, dx.lo - 1⟩⟩,
    ⟨⟨1, digits.lo + 48⟩, bx, digits, dx⟩]

variable (layout : Layout)

/-- The calls that show the time: the mask, then the three numbers. -/
def timeShown (mem : Word → Byte) (regs : Registers) : List Registers :=
  let mask := Pair.ofWord (layout.address .uhrformat)
  let digits (field : Field) :=
    digitsShown (mem (layout.address field.cell)) mask ⟨regs.dx.hi, field.position⟩
  digits .seconds ++ digits .minutes ++ digits .hours ++
    [⟨⟨2, regs.ax.lo⟩, mask, regs.cx, ⟨regs.dx.hi, 7⟩⟩]

/-- The character a call of `int 6` with `ah = 1` shows, with its position. -/
def digitShown (call : Registers) : Option (Byte × Byte) :=
  if call.ax.hi = 1 then some (call.dx.lo, call.ax.lo) else none

/-- The characters shown one by one, the first one first. -/
def World.digits (world : World) : List (Byte × Byte) :=
  world.shown.reverse.filterMap digitShown

/-- The decimal digits of a field, at its position and the one before it. -/
def Field.digits (field : Field) (value : Nat) : List (Byte × Byte) :=
  [(field.position, .ofNat 8 (48 + value / 10)), (field.position - 1, .ofNat 8 (48 + value % 10))]

/-- The decimal digits of the time in memory. -/
def timeDigits (mem : Word → Byte) : List (Byte × Byte) :=
  [Field.hours, .minutes, .seconds].flatMap fun field =>
    field.digits (mem (layout.address field.cell)).toNat

variable {layout}

private theorem filterMap_digitsShown (field : Field) (value : Byte) (bx : Pair) (dh : Byte) :
    (digitsShown value bx ⟨dh, field.position⟩).reverse.filterMap digitShown =
      field.digits value.toNat := by
  have character : ∀ digit : Nat, BitVec.ofNat 8 digit + 48 = .ofNat 8 (48 + digit) := by
    intro digit
    rw [BitVec.ofNat_add, BitVec.add_comm]
    rfl
  rw [Field.digits, ← character, ← character]
  rfl

/-- Showing the time shows the decimal digits of its fields. -/
theorem digits_showing_timeShown (world : World) (mem : Word → Byte) (regs : Registers) :
    (world.showing (timeShown layout mem regs)).digits = world.digits ++ timeDigits layout mem := by
  have mask : ∀ al bx cx dx, digitShown ⟨⟨2, al⟩, bx, cx, dx⟩ = none := fun _ _ _ _ => rfl
  simp only [World.digits, World.showing, timeShown, List.reverse_append, List.filterMap_append,
    List.reverse_cons, List.reverse_nil, List.nil_append, List.filterMap_cons, mask,
    List.filterMap_nil, filterMap_digitsShown, timeDigits, List.flatMap_cons, List.flatMap_nil,
    List.append_nil]

/-- A division of a byte by a byte that is not zero. -/
theorem exec_div {state : Machine} {c : Cell} {value : Byte} {divisor : Nat}
    (dividend : state.regs.ax = ⟨0, value⟩)
    (cell : (state.mem (layout.address c)).toNat = divisor) (positive : 0 < divisor) :
    layout.program.exec monitor state (.div (.place (.cell c))) =
      some { state with regs := { state.regs with
        ax := ⟨.ofNat 8 (value.toNat % divisor), .ofNat 8 (value.toNat / divisor)⟩ } } := by
  have word : state.regs.ax.word.toNat = value.toNat := by
    rw [dividend]
    change (0#8 ++ value).toNat = value.toNat
    rw [BitVec.toNat_append]
    simp
  have small := Nat.div_le_self value.toNat divisor
  have bound := value.isLt
  have fits : ¬ (divisor = 0 ∨ 256 ≤ value.toNat / divisor) := by omega
  change (if (state.mem (layout.address c)).toNat = 0 ∨
    256 ≤ state.regs.ax.word.toNat / (state.mem (layout.address c)).toNat then none else _) = _
  rw [cell, word, if_neg fits]
  simp only [Program.read, Program.peek, Layout.program, cell]

/-- A computed run is a way. -/
theorem goes_run (count : Nat) {machine final : Machine}
    (ran : layout.program.runPlain monitor count machine = some final) :
    layout.Goes machine final :=
  Program.goes_of_runPlain ran

/-- `printdec` shows the two digits of `al`. -/
theorem goes_printdec (ax bx cx dx : Pair) (zf : Bool) {mem : Word → Byte} (p : Address Label)
    (world : World) (ten : mem (layout.address .d) = 10) :
    layout.Goes ⟨⟨ax, bx, cx, dx⟩, zf, false, mem, [.back p], ⟨.printdec, 0⟩, world⟩
      ⟨⟨world.residue (world.served + 1), bx, cx, ⟨dx.hi, dx.lo - 1⟩⟩, decide (dx.lo - 1 = 0),
        false, mem, [], p, world.showing (digitsShown ax.lo bx dx)⟩ := by
  have first : layout.Goes ⟨⟨ax, bx, cx, dx⟩, zf, false, mem, [.back p], ⟨.printdec, 0⟩, world⟩
      ⟨⟨⟨0, ax.lo⟩, bx, cx, dx⟩, zf, false, mem, [.word cx, .back p], ⟨.printdec, 2⟩, world⟩ :=
    goes_run 2 rfl
  have divided : layout.program.plainStep monitor
      ⟨⟨⟨0, ax.lo⟩, bx, cx, dx⟩, zf, false, mem, [.word cx, .back p], ⟨.printdec, 2⟩, world⟩ =
      some ⟨⟨⟨.ofNat 8 (ax.lo.toNat % 10), .ofNat 8 (ax.lo.toNat / 10)⟩, bx, cx, dx⟩, zf, false,
        mem, [.word cx, .back p], ⟨.printdec, 3⟩, world⟩ :=
    exec_div rfl (congrArg BitVec.toNat ten) (by decide)
  exact (first.tail divided).trans (goes_run 12 rfl)

/-- The instruction of `uhrzeitausgeben` that loads a field. -/
private def Field.shownAt : Field → Nat
  | hours => 7
  | minutes => 10
  | seconds => 13

/-- One field of the time: load it, set its position and show it. -/
private theorem goes_field (field : Field) (ax bx cx dx : Pair) (zf : Bool) {mem : Word → Byte}
    (saved : List (Slot Label)) (world : World) (ten : mem (layout.address .d) = 10) :
    ∃ ax', layout.Goes
      ⟨⟨ax, bx, cx, dx⟩, zf, false, mem, saved, ⟨.uhrzeitausgeben, field.shownAt⟩, world⟩
      ⟨⟨ax', bx, cx, ⟨dx.hi, field.position - 1⟩⟩, decide (field.position - 1 = 0), false, mem,
        saved, ⟨.uhrzeitausgeben, field.shownAt + 3⟩,
        world.showing (digitsShown (mem (layout.address field.cell)) bx
          ⟨dx.hi, field.position⟩)⟩ := by
  have load : layout.Goes
      ⟨⟨ax, bx, cx, dx⟩, zf, false, mem, saved, ⟨.uhrzeitausgeben, field.shownAt⟩, world⟩
      ⟨⟨⟨ax.hi, mem (layout.address field.cell)⟩, bx, cx, ⟨dx.hi, field.position⟩⟩, zf, false,
        mem, .back ⟨.uhrzeitausgeben, field.shownAt + 3⟩ :: saved, ⟨.printdec, 0⟩, world⟩ := by
    cases field <;> exact goes_run 3 rfl
  have print := goes_printdec ⟨ax.hi, mem (layout.address field.cell)⟩ bx cx
    ⟨dx.hi, field.position⟩ zf ⟨.uhrzeitausgeben, field.shownAt + 3⟩ world ten
  exact ⟨_, load.trans (Program.goes_within print saved false)⟩

/-- `uhrzeitausgeben` shows the time. -/
theorem goes_uhrzeitausgeben (regs : Registers) (zf : Bool) {mem : Word → Byte}
    (p : Address Label) (world : World) (ten : mem (layout.address .d) = 10) :
    layout.Goes ⟨regs, zf, false, mem, [.back p], ⟨.uhrzeitausgeben, 0⟩, world⟩
      ⟨regs, true, false, mem, [], p, world.showing (timeShown layout mem regs)⟩ := by
  obtain ⟨ax, bx, cx, dx⟩ := regs
  have mask : layout.Goes
      ⟨⟨ax, bx, cx, dx⟩, zf, false, mem, [.back p], ⟨.uhrzeitausgeben, 0⟩, world⟩
      ⟨⟨world.residue world.served, .ofWord (layout.address .uhrformat), cx, ⟨dx.hi, 7⟩⟩, zf,
        false, mem, [.word bx, .word dx, .word ax, .back p], ⟨.uhrzeitausgeben, 7⟩,
        world.showing [⟨⟨2, ax.lo⟩, .ofWord (layout.address .uhrformat), cx, ⟨dx.hi, 7⟩⟩]⟩ :=
    goes_run 7 rfl
  have fields : ∀ ax₀ bx₀ dx₀ zf₀ saved world₀, ∃ ax₁, layout.Goes
      ⟨⟨ax₀, bx₀, cx, dx₀⟩, zf₀, false, mem, saved, ⟨.uhrzeitausgeben, 7⟩, world₀⟩
      ⟨⟨ax₁, bx₀, cx, ⟨dx₀.hi, 0⟩⟩, true, false, mem, saved, ⟨.uhrzeitausgeben, 16⟩,
        ((world₀.showing (digitsShown (mem (layout.address .stu)) bx₀ ⟨dx₀.hi, 7⟩)).showing
          (digitsShown (mem (layout.address .min)) bx₀ ⟨dx₀.hi, 4⟩)).showing
          (digitsShown (mem (layout.address .sek)) bx₀ ⟨dx₀.hi, 1⟩)⟩ := by
    intro ax₀ bx₀ dx₀ zf₀ saved world₀
    obtain ⟨ax₁, hours⟩ := goes_field .hours ax₀ bx₀ cx dx₀ zf₀ saved world₀ ten
    obtain ⟨ax₂, minutes⟩ := goes_field .minutes ax₁ bx₀ cx _ _ saved _ ten
    obtain ⟨ax₃, seconds⟩ := goes_field .seconds ax₂ bx₀ cx _ _ saved _ ten
    exact ⟨ax₃, (hours.trans minutes).trans seconds⟩
  obtain ⟨ax₁, fields⟩ := fields (world.residue world.served)
    (.ofWord (layout.address .uhrformat)) ⟨dx.hi, 7⟩ zf [.word bx, .word dx, .word ax, .back p]
    (world.showing [⟨⟨2, ax.lo⟩, .ofWord (layout.address .uhrformat), cx, ⟨dx.hi, 7⟩⟩])
  rw [World.showing_showing, World.showing_showing, World.showing_showing] at fields
  exact (mask.trans fields).trans (goes_run 4 rfl)

/-- Count a cell up by one; at its limit set it back and go on with what the full cell
causes. -/
def counted (layout : Layout) (c : Cell) (limit : Byte)
    (full : (Word → Byte) → Word → Byte) (mem : Word → Byte) : Word → Byte :=
  let mem := Function.update mem (layout.address c) (mem (layout.address c) + 1)
  if mem (layout.address c) = limit then full (Function.update mem (layout.address c) 0)
  else mem

/-- The memory after `uhrtakt`: seconds, minutes and hours count each other on. -/
def ticked (layout : Layout) : (Word → Byte) → Word → Byte :=
  counted layout .sek 60 (counted layout .min 60 (counted layout .stu 24 id))

/-- The memory after `isr8`. -/
def served (layout : Layout) : (Word → Byte) → Word → Byte :=
  counted layout .foo 100 (ticked layout)

/-- A counter runs in three pieces: it counts and compares, and then either leaves or sets
itself back. -/
private theorem goes_counted {c : Cell} {limit : Byte} {regs : Registers} {zf : Bool}
    {mem : Word → Byte} {full : (Word → Byte) → Word → Byte} {start test : Address Label}
    {stack : List (Slot Label)} {world : World} {final : (Word → Byte) → Machine → Prop}
    (count : layout.Goes ⟨regs, zf, false, mem, stack, start, world⟩
      ⟨regs, decide (Function.update mem (layout.address c) (mem (layout.address c) + 1)
        (layout.address c) = limit), false,
        Function.update mem (layout.address c) (mem (layout.address c) + 1), stack, test, world⟩)
    (leave : ∀ mem, ∃ machine, final mem machine ∧
      layout.Goes ⟨regs, false, false, mem, stack, test, world⟩ machine)
    (reset : ∀ mem, ∃ machine, final (full (Function.update mem (layout.address c) 0)) machine ∧
      layout.Goes ⟨regs, true, false, mem, stack, test, world⟩ machine) :
    ∃ machine, final (counted layout c limit full mem) machine ∧
      layout.Goes ⟨regs, zf, false, mem, stack, start, world⟩ machine := by
  unfold counted
  generalize Function.update mem (layout.address c) (mem (layout.address c) + 1) = mem' at count ⊢
  by_cases atLimit : mem' (layout.address c) = limit
  · rw [decide_eq_true atLimit] at count
    obtain ⟨machine, done, onward⟩ := reset mem'
    simp only [atLimit, if_true]
    exact ⟨machine, done, count.trans onward⟩
  · rw [decide_eq_false atLimit] at count
    obtain ⟨machine, done, onward⟩ := leave mem'
    simp only [atLimit, if_false]
    exact ⟨machine, done, count.trans onward⟩

/-- The machine behind a call that changed the memory and, perhaps, the zero flag. -/
private def Returned (regs : Registers) (p : Address Label) (world : World) (mem : Word → Byte)
    (machine : Machine) : Prop :=
  ∃ zf, machine = ⟨regs, zf, false, mem, [], p, world⟩

/-- `uhrtakt` counts one second on. -/
theorem goes_uhrtakt (regs : Registers) (zf : Bool) (mem : Word → Byte) (p : Address Label)
    (world : World) :
    ∃ zf', layout.Goes ⟨regs, zf, false, mem, [.back p], ⟨.uhrtakt, 0⟩, world⟩
      ⟨regs, zf', false, ticked layout mem, [], p, world⟩ := by
  obtain ⟨ax, bx, cx, dx⟩ := regs
  have hours : ∀ zf mem, ∃ machine, Returned ⟨ax, bx, cx, dx⟩ p world
      (counted layout .stu 24 id mem) machine ∧ layout.Goes
      ⟨⟨ax, bx, cx, dx⟩, zf, false, mem, [.back p], ⟨.uhrtakt, 8⟩, world⟩ machine :=
    fun zf mem => goes_counted (goes_run 2 rfl)
      (fun mem => ⟨_, ⟨false, rfl⟩, goes_run 2 rfl⟩)
      (fun mem => ⟨_, ⟨true, rfl⟩, goes_run 3 rfl⟩)
  have minutes : ∀ zf mem, ∃ machine, Returned ⟨ax, bx, cx, dx⟩ p world
      (counted layout .min 60 (counted layout .stu 24 id) mem) machine ∧ layout.Goes
      ⟨⟨ax, bx, cx, dx⟩, zf, false, mem, [.back p], ⟨.uhrtakt, 4⟩, world⟩ machine :=
    fun zf mem => goes_counted (goes_run 2 rfl)
      (fun mem => ⟨_, ⟨false, rfl⟩, goes_run 2 rfl⟩)
      (fun mem => (hours true _).imp fun _ found =>
        ⟨found.1, (goes_run 2 rfl : layout.Goes _ _).trans found.2⟩)
  have seconds : ∃ machine, Returned ⟨ax, bx, cx, dx⟩ p world (ticked layout mem) machine ∧
      layout.Goes ⟨⟨ax, bx, cx, dx⟩, zf, false, mem, [.back p], ⟨.uhrtakt, 0⟩, world⟩ machine :=
    goes_counted (goes_run 2 rfl)
      (fun mem => ⟨_, ⟨false, rfl⟩, goes_run 2 rfl⟩)
      (fun mem => (minutes true _).imp fun _ found =>
        ⟨found.1, (goes_run 2 rfl : layout.Goes _ _).trans found.2⟩)
  obtain ⟨_, ⟨zf', rfl⟩, goes⟩ := seconds
  exact ⟨zf', goes⟩

/-- The display part of `isr8`: with the clock switched on the time is shown. -/
theorem goes_shown (regs : Registers) (zf : Bool) {mem : Word → Byte} (world : World)
    (ten : mem (layout.address .d) = 10) :
    ∃ zf' world', layout.Goes ⟨regs, zf, false, mem, [], ⟨.isr8, 0⟩, world⟩
        ⟨regs, zf', false, mem, [.word regs.ax], ⟨.takt, 0⟩, world'⟩ ∧
      world'.digits = world.digits ++
        if mem (layout.address .uhran) = 1 then timeDigits layout mem else [] := by
  obtain ⟨ax, bx, cx, dx⟩ := regs
  have test : layout.Goes ⟨⟨ax, bx, cx, dx⟩, zf, false, mem, [], ⟨.isr8, 0⟩, world⟩
      ⟨⟨ax, bx, cx, dx⟩, decide (mem (layout.address .uhran) = 1), false, mem, [.word ax],
        ⟨.isr8, 2⟩, world⟩ := goes_run 2 rfl
  by_cases on : mem (layout.address .uhran) = 1
  · rw [decide_eq_true on] at test
    have call : layout.Goes
        ⟨⟨ax, bx, cx, dx⟩, true, false, mem, [.word ax], ⟨.isr8, 2⟩, world⟩
        ⟨⟨ax, bx, cx, dx⟩, true, false, mem, [.back ⟨.takt, 0⟩, .word ax],
          ⟨.uhrzeitausgeben, 0⟩, world⟩ := goes_run 2 rfl
    have display := goes_uhrzeitausgeben ⟨ax, bx, cx, dx⟩ true ⟨.takt, 0⟩ world ten
    refine ⟨_, _, (test.trans call).trans (Program.goes_within display [.word ax] false), ?_⟩
    rw [if_pos on]
    exact digits_showing_timeShown world mem _
  · rw [decide_eq_false on] at test
    rw [if_neg on, List.append_nil]
    exact ⟨_, _, test.trans (goes_run 1 rfl), rfl⟩

/-- The machine at the `iret` of `isr8`, with its registers restored. -/
private def AtIret (regs : Registers) (mem : Word → Byte) (machine : Machine) : Prop :=
  ∃ zf world, machine = ⟨regs, zf, false, mem, [], ⟨.isrret, 3⟩, world⟩

/-- `isr8` runs to its `iret` with every register as before, having counted the interrupt. -/
theorem goes_isr8 (regs : Registers) (zf : Bool) {mem : Word → Byte} (world : World)
    (ten : mem (layout.address .d) = 10) :
    ∃ zf' world', layout.Goes ⟨regs, zf, false, mem, [], ⟨.isr8, 0⟩, world⟩
      ⟨regs, zf', false, served layout mem, [], ⟨.isrret, 3⟩, world'⟩ := by
  obtain ⟨zf₁, world₁, display, -⟩ := goes_shown regs zf world ten
  obtain ⟨ax, bx, cx, dx⟩ := regs
  have finish : ∀ zf mem, layout.Goes
      ⟨⟨ax, bx, cx, dx⟩, zf, false, mem, [.word ax], ⟨.isrret, 0⟩, world₁⟩
      ⟨⟨ax, bx, cx, dx⟩, zf, false, mem, [], ⟨.isrret, 3⟩,
        monitor.output 0xc0 0x20 world₁⟩ :=
    fun zf mem => goes_run 3 rfl
  have count : ∃ machine, AtIret ⟨ax, bx, cx, dx⟩ (served layout mem) machine ∧ layout.Goes
      ⟨⟨ax, bx, cx, dx⟩, zf₁, false, mem, [.word ax], ⟨.takt, 0⟩, world₁⟩ machine := by
    refine goes_counted (goes_run 2 rfl) (fun mem => ?_) (fun mem => ?_)
    · have leave : layout.Goes
          ⟨⟨ax, bx, cx, dx⟩, false, false, mem, [.word ax], ⟨.takt, 2⟩, world₁⟩
          ⟨⟨ax, bx, cx, dx⟩, false, false, mem, [.word ax], ⟨.isrret, 0⟩, world₁⟩ := goes_run 1 rfl
      exact ⟨_, ⟨_, _, rfl⟩, leave.trans (finish false mem)⟩
    · have call : layout.Goes
          ⟨⟨ax, bx, cx, dx⟩, true, false, mem, [.word ax], ⟨.takt, 2⟩, world₁⟩
          ⟨⟨ax, bx, cx, dx⟩, true, false, Function.update mem (layout.address .foo) 0,
            [.back ⟨.isrret, 0⟩, .word ax], ⟨.uhrtakt, 0⟩, world₁⟩ := goes_run 3 rfl
      obtain ⟨zf₂, tick⟩ := @goes_uhrtakt layout ⟨ax, bx, cx, dx⟩ true
        (Function.update mem (layout.address .foo) 0) ⟨.isrret, 0⟩ world₁
      exact ⟨_, ⟨_, _, rfl⟩, (call.trans (Program.goes_within tick [.word ax] false)).trans
        (finish zf₂ _)⟩
  obtain ⟨_, ⟨zf₂, world₂, rfl⟩, count⟩ := count
  exact ⟨zf₂, world₂, display.trans count⟩

end CPrograms.PemeClock
