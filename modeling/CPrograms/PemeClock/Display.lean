import CPrograms.PemeClock.Safety

/-!
# What the clock shows

The interrupt routine shows the time when `uhran` is one, and `uhraktivieren` sets it only around
the `int 5` that waits for its key, one instruction before it and one behind it. So over whole runs
the digits on the display come from the interrupts that arrive there, each with the time kept at
that moment.
-/

namespace CPrograms.PemeClock

open Library I8086

/-! ## The switch -/

/-- The part of `uhraktivieren` with the display switched on: its `int 5`, and the instructions just
before and behind it. -/
def lit (pc : Address Label) : Bool :=
  pc == ⟨.uhraktivieren, 2⟩ || pc == ⟨.uhraktivieren, 3⟩ || pc == ⟨.uhraktivieren, 4⟩

/-- The value of `uhran` at an address of the program. -/
def lamp (pc : Address Label) : Byte := if lit pc then 1 else 0

/-- The value an instruction gives to `uhran`. -/
def switches : Instr Label Cell → Option Byte
  | .mov (.cell .uhran) (.imm value) => some value
  | _ => none

/-- What keeps the switch right: where it is not set it stays as it is, and only straight code
runs while it is on. -/
def KeepsLamp (pc next : Address Label) (instr : Instr Label Cell) : Prop :=
  instr.indirect = false ∧ (∀ value ∈ switches instr, value = lamp next) ∧
    (switches instr = none → .uhran ∉ instr.stores ∧ lamp next = lamp pc) ∧
    (instr.targets ≠ [] ∨ instr.continues = false → lamp pc = 0) ∧
    ∀ l ∈ instr.targets, lamp ⟨l, 0⟩ = 0

instance decidableKeepsLamp (pc next : Address Label) (instr : Instr Label Cell) :
    Decidable (KeepsLamp pc next instr) := by
  unfold KeepsLamp
  infer_instance

/-- The calls of `int 6` that show no digit. -/
def plainAt (pc : Address Label) : Instr Label Cell → Bool
  | .int 6 => [0, 2, 3, 4].any fun value => asked pc = some (.ah, value)
  | _ => true

private theorem code_lamp : ∀ label ∈ mainLabels, ∀ offset ∈ List.range (code label).length,
    Main ⟨label, offset⟩ → ∀ instr ∈ (code label)[offset]?,
      KeepsLamp ⟨label, offset⟩ (text.next ⟨label, offset⟩) instr ∧
        plainAt ⟨label, offset⟩ instr = true := by
  decide +kernel

variable {layout : Layout}

/-- The code of the program keeps the switch right. -/
theorem main_lamp {pc : Address Label} {instr : Instr Label Cell} (inside : Main pc)
    (fetched : layout.program.fetch pc = some instr) :
    KeepsLamp pc (layout.program.next pc) instr ∧ plainAt pc instr = true := by
  obtain ⟨place, -⟩ := List.getElem?_eq_some_iff.mp fetched
  exact code_lamp pc.label inside.1 pc.offset (List.mem_range.mpr place) inside instr fetched

/-- The switch is right, and off wherever the program will return to. -/
structure Lamp (layout : Layout) (machine : Machine) : Prop where
  here : machine.mem (layout.address .uhran) = lamp machine.pc
  back : ∀ back, Slot.back back ∈ machine.stack → lamp back = 0

/-- A step of the program keeps the switch right. -/
theorem Lamp.step {machine next : Machine} (steady : Steady layout machine)
    (right : Lamp layout machine) (stepped : layout.program.step monitor machine = some next) :
    Lamp layout next := by
  obtain ⟨instr, fetched, executed⟩ := Option.bind_eq_some_iff.mp stepped
  obtain ⟨⟨direct, sets, stays, straight, targets⟩, -⟩ := main_lamp steady.confined.pc fetched
  have behind : instr.calls = true → lamp (layout.program.next machine.pc) = 0 := by
    intro calls
    cases instr with
    | call l => exact (stays rfl).2.trans (straight (.inl (List.cons_ne_nil _ _)))
    | _ => cases calls
  constructor
  · cases switched : switches instr with
    | some value =>
        have set : next.pc = layout.program.next machine.pc ∧
            next.mem (layout.address .uhran) = value := by
          unfold switches at switched
          split at switched <;> cases switched
          cases executed
          exact ⟨rfl, Function.update_self _ _ _⟩
        rw [set.1, set.2]
        exact sets value switched
    | none =>
        obtain ⟨spared, same⟩ := stays switched
        have outside : ∀ c ∈ instr.stores, layout.program.address c ≠ layout.address .uhran :=
          fun c stored equal => spared ((layout.address_inj c .uhran).mp equal ▸ stored)
        have kept : next.mem (layout.address .uhran) = machine.mem (layout.address .uhran) := by
          have kept := Program.mem_exec direct outside executed
          exact kept
        rw [kept, right.here]
        rcases Program.pc_exec executed with ⟨-, pc⟩ | ⟨l, target, pc⟩ | ⟨ends, -, back⟩ | frame
        · rw [pc]
          exact same.symm
        · rw [pc, targets l target, straight (.inl (List.ne_nil_of_mem target))]
        · rw [right.back _ back, straight (.inr ends)]
        · obtain ⟨zf, interrupts, member⟩ := frame
          exact (steady.confined.stack _ member).elim
  · intro back member
    rcases Program.back_exec executed member with below | ⟨calls, rfl⟩
    · exact right.back back below
    · exact behind calls

/-- A call that shows no digit leaves the digits alone. -/
theorem digits_of_shown {world world' : World} {calls : List Registers}
    (shown : world'.shown = calls ++ world.shown)
    (plain : ∀ call ∈ calls, digitShown call = none) : world'.digits = world.digits := by
  have none : calls.reverse.filterMap digitShown = [] :=
    List.filterMap_eq_nil_iff.mpr fun call member => plain call (List.mem_reverse.mp member)
  rw [World.digits, World.digits, shown, List.reverse_append, List.filterMap_append, none,
    List.append_nil]

/-- Only `int 6` shows something. -/
theorem shown_service {number : Nat} {regs : Registers} {world world' : World} {ax : Pair}
    (served : monitor.service number regs world = some (ax, world')) :
    world'.shown = (if number = 6 then [regs] else []) ++ world.shown := by
  simp only [monitor] at served
  split at served
  · split at served
    · split at served <;> cases served
      rfl
    · split at served
      · split at served <;> cases served
        rfl
      · cases served
  · cases served
    rfl
  · cases served

/-- The program itself shows no digits. -/
theorem Steady.digits {machine next : Machine} (steady : Steady layout machine)
    (stepped : layout.program.step monitor machine = some next) :
    next.world.digits = machine.world.digits := by
  obtain ⟨instr, fetched, executed⟩ := Option.bind_eq_some_iff.mp stepped
  obtain ⟨-, plain⟩ := main_lamp steady.confined.pc fetched
  rcases Program.world_exec executed with same | ⟨number, ax, rfl, served⟩ | ⟨port, value, sent⟩
  · rw [same]
  · refine digits_of_shown (shown_service served) fun call member => ?_
    split at member
    · next isSix =>
        subst isSix
        rw [List.mem_singleton] at member
        subst member
        obtain ⟨value, few, known⟩ := List.any_eq_true.mp plain
        have ah := steady.asked.here _ (of_decide_eq_true known)
        refine if_neg fun one => ?_
        have isOne : value = 1 := ah.symm.trans one
        subst isOne
        exact absurd few (by decide)
    · cases member
  · rw [sent]
    rfl

/-! ## What an interrupt shows -/

/-- The part of the interrupt routine behind the display. -/
def Counting (pc : Address Label) : Prop :=
  pc.label ∈ [Label.takt, .isrret, .uhrtakt, .ende]

instance decidableCounting : DecidablePred Counting := fun _ => inferInstanceAs (Decidable (_ ∈ _))

/-- An instruction that asks the monitor for nothing. -/
def unserved : Instr Label Cell → Bool
  | .int _ => false
  | _ => true

private theorem code_counting : ∀ label ∈ [Label.takt, .isrret, .uhrtakt, .ende],
    ∀ offset ∈ List.range (code label).length, ∀ instr ∈ (code label)[offset]?,
      (∀ l ∈ instr.targets, Counting ⟨l, 0⟩) ∧
        (instr.continues = true → Counting (text.next ⟨label, offset⟩)) ∧
        unserved instr = true := by
  decide +kernel

/-- A state that counts and has shown some digits. -/
structure Counts (digits : List (Byte × Byte)) (machine : Machine) : Prop where
  confined : machine.Confined Counting
  digits : machine.world.digits = digits

/-- Counting shows nothing. -/
theorem Counts.step {digits : List (Byte × Byte)} (machine next : Machine)
    (counts : Counts digits machine)
    (stepped : layout.program.plainStep monitor machine = some next) : Counts digits next := by
  obtain ⟨instr, fetched, executed⟩ := Option.bind_eq_some_iff.mp stepped
  obtain ⟨place, -⟩ := List.getElem?_eq_some_iff.mp fetched
  obtain ⟨targets, onward, unserved⟩ := code_counting machine.pc.label counts.confined.pc
    machine.pc.offset (List.mem_range.mpr place) instr fetched
  split at executed
  · refine ⟨Program.confined_exec ?_ targets ?_ executed, ?_⟩
    · exact onward
    · exact counts.confined.stack
    · rw [← counts.digits]
      rcases Program.world_exec executed with same | ⟨number, ax, rfl, -⟩ | ⟨port, value, sent⟩
      · rw [same]
      · cases unserved
      · rw [sent]
        rfl
  · cases executed

/-- **An interrupt shows the time if the display is on, and nothing otherwise.** -/
theorem path_isr8_digits (machine : Machine) (ten : machine.mem (layout.address .d) = 10) :
    ∃ world, world.digits = machine.world.digits ++
        (if machine.mem (layout.address .uhran) = 1 then timeDigits layout machine.mem else []) ∧
      Path (layout.program.step monitor) Serving (machine.interrupt .isr8)
        { machine with mem := served layout machine.mem, world := world } := by
  obtain ⟨zf', world', goes⟩ := goes_isr8 machine.regs machine.zf machine.world ten
  obtain ⟨zf₁, world₁, display, shown⟩ := goes_shown machine.regs machine.zf machine.world ten
  have count := goes.behind display rfl
  have place : Counting ⟨.takt, 0⟩ := by decide
  have words : ∀ slot ∈ [Slot.word machine.regs.ax], slot.Allowed Counting := by
    intro slot member
    rw [List.mem_singleton] at member
    subst member
    trivial
  have finish := count.invariant Counts.step ⟨⟨place, words⟩, shown⟩
  exact ⟨world', finish.digits, (path_interrupt machine goes).mono fun _ => And.left⟩

/-! ## The time in digits -/

/-- A field of a number of seconds. -/
def Field.ofSeconds (seconds : Nat) : Field → Nat
  | .hours => seconds / 3600
  | .minutes => seconds / 60 % 60
  | .seconds => seconds % 60

/-- The decimal digits of a time given in seconds. -/
def clockDigits (seconds : Nat) : List (Byte × Byte) :=
  [Field.hours, .minutes, .seconds].flatMap fun field => field.digits (field.ofSeconds seconds)

/-- The digits of a time of day, from its seconds. -/
theorem timeDigits_eq {mem : Word → Byte} (range : InRange layout mem) :
    timeDigits layout mem = clockDigits (daySeconds layout mem) := by
  have minutes : (mem (layout.address .min)).toNat < 60 := range .minutes
  have seconds : (mem (layout.address .sek)).toNat < 60 := range .seconds
  have fields : ∀ field : Field, (mem (layout.address field.cell)).toNat =
      field.ofSeconds (daySeconds layout mem) := by
    intro field
    cases field <;> simp only [Field.cell, Field.ofSeconds, daySeconds] <;> omega
  simp only [timeDigits, clockDigits, List.flatMap_cons, List.flatMap_nil, fields]

/-! ## Whole runs -/

/-- The interrupts of a run that arrive while the display is on, each by the number of
interrupts before it. -/
def shownAt (layout : Layout) : Machine → Nat → List Event → List Nat
  | _, _, [] => []
  | machine, count, event :: events =>
      match layout.react machine event with
      | none => []
      | some next =>
          match event with
          | .exec => shownAt layout next count events
          | .irq =>
              (if lit machine.pc then [count] else []) ++ shownAt layout next (count + 1) events

/-- The digits that interrupts show, when the clock was set to some time. -/
def shownDigits (start : Nat) (counts : List Nat) : List (Byte × Byte) :=
  counts.flatMap fun count => clockDigits ((start + count / 100) % 86400)

/-- What holds along a run: in the program the time is kept, the switch is right and certain
digits have been shown, or an interrupt is on its way back to that. -/
def Tells (layout : Layout) (set : Word → Byte) (count : Nat) (digits : List (Byte × Byte)) :
    Machine → Prop :=
  Returns (layout.program.step monitor) Serving fun machine =>
    Steady layout machine ∧ Lamp layout machine ∧ Keeps layout set count machine.mem ∧
      machine.world.digits = digits

variable {set : Word → Byte} {count : Nat} {digits : List (Byte × Byte)}

/-- An instruction of the program shows no digit and keeps the time. -/
theorem Tells.exec {machine next : Machine} (tells : Tells layout set count digits machine)
    (stepped : layout.program.step monitor machine = some next) :
    Tells layout set count digits next := by
  refine Returns.advanced tells ?_ stepped
  rintro ⟨steady, right, keeps, shown⟩ stepped
  obtain ⟨-, agree⟩ := main_step steady.confined stepped
  exact ⟨steady.step stepped, right.step steady stepped, keeps.of_agree agree,
    (steady.digits stepped).trans shown⟩

/-- An interrupt shows the time if the display is on. -/
theorem Tells.irq {machine : Machine} (tells : Tells layout set count digits machine)
    (armed : layout.armed machine = true) :
    Tells layout set (count + 1)
      (digits ++ shownDigits (daySeconds layout set) (if lit machine.pc then [count] else []))
      (machine.interrupt .isr8) := by
  obtain ⟨steady, right, keeps, shown⟩ := tells.of_outside (not_serving_of_armed armed)
  obtain ⟨world, digits', path⟩ := path_isr8_digits machine steady.ten
  have unswitched : served layout machine.mem (layout.address .uhran) =
      machine.mem (layout.address .uhran) := served_of_ne (by decide) (by decide) _
  refine ⟨_, path, steady.served world, ⟨unswitched.trans right.here, right.back⟩, keeps.served, ?_⟩
  change world.digits = _
  rw [digits', shown, right.here, timeDigits_eq keeps.range, keeps.time, lamp]
  congr 1
  cases lit machine.pc with
  | true => exact (List.flatMap_singleton _ _).symm
  | false => rfl

/-- Along a run the digits are those of the interrupts that arrive while the display is on. -/
theorem Tells.run {machine final : Machine} (tells : Tells layout set count digits machine)
    (events : List Event) (ran : run layout.react machine events = some final) :
    Tells layout set (count + events.count .irq)
      (digits ++ shownDigits (daySeconds layout set) (shownAt layout machine count events))
      final := by
  induction events generalizing machine count digits with
  | nil =>
      cases ran
      rw [shownAt, shownDigits, List.flatMap_nil, List.append_nil]
      exact tells
  | cons event events ih =>
      rw [run_cons, Option.bind_eq_some_iff] at ran
      obtain ⟨next, reacted, ran⟩ := ran
      cases event with
      | exec =>
          rw [List.count_cons_of_ne (by decide), shownAt, reacted]
          exact ih (tells.exec reacted) ran
      | irq =>
          have entered := reacted
          change (if layout.armed machine = true then _ else none) = _ at entered
          split at entered
          · next armed =>
              cases entered
              rw [List.count_cons_self, Nat.add_comm _ 1, ← Nat.add_assoc, shownAt, reacted,
                shownDigits, List.flatMap_append, ← List.append_assoc]
              exact ih (tells.irq armed) ran
          · cases entered

/-- An interrupt that is being served returns. -/
theorem Tells.returns {machine : Machine} (tells : Tells layout set count digits machine) :
    ∃ back, Path (layout.program.step monitor) Serving machine back ∧ ¬ back.Interrupted := by
  obtain ⟨back, path, steady, -⟩ := tells
  exact ⟨back, path, steady.confined.not_interrupted⟩

/-- **The display shows the time that is kept.** Whatever keys are pressed before the first
Enter, `uhrstellen` returns; and whatever interleaving of instructions and timer interrupts
follows, an interrupt that is being served returns; and whenever none is being served, the digits
shown since then are, interrupt by interrupt, those of the time set plus a second for every hundred
interrupts, for exactly the interrupts that arrived while `uhraktivieren` had the display switched
on: at the `int 5` that waits for its key, or one instruction before or behind it. -/
theorem clock_shows_time (layout : Layout) (mem : Word → Byte) (loaded : Loaded layout mem)
    (regs : Registers) (zf interrupts : Bool) (world : World) (keys later : List Byte)
    (pressed : world.keys = keys ++ 0x10 :: later) (others : 0x10 ∉ keys) :
    ∃ set : Machine,
      Library.Goes (layout.program.step monitor)
        ⟨regs, zf, interrupts, mem, [], ⟨.program, 0⟩, world⟩ set ∧
      set.pc = ⟨.program, 1⟩ ∧ set.stack = [] ∧ set.world.keys = later ∧
      ∀ events final, run layout.react set events = some final →
        (∃ back, Path (layout.program.step monitor) Serving final back ∧ ¬ back.Interrupted) ∧
        (¬ final.Interrupted → final.world.digits = set.world.digits ++
          shownDigits (daySeconds layout set.mem) (shownAt layout set 0 events)) := by
  obtain ⟨zf', world', goes⟩ := goes_set loaded.toConstants regs zf interrupts world keys later
    others
  rw [← pressed] at goes
  have ten : setting layout keys .hours mem (layout.address .d) = 10 :=
    (setting_of_ne (by decide) _ _ _).trans loaded.d
  have foo : setting layout keys .hours mem (layout.address .foo) = 0 :=
    (setting_of_ne (by decide) _ _ _).trans loaded.foo
  have off : setting layout keys .hours mem (layout.address .uhran) = 0 :=
    (setting_of_ne (by decide) _ _ _).trans loaded.uhran
  have keeps := (good_set (setting_inRange keys .hours mem) ten foo regs zf' interrupts
    { world' with keys := later }).keeps fun ⟨_, _, _, member⟩ => absurd member List.not_mem_nil
  have right : Lamp layout ⟨regs, zf', interrupts, setting layout keys .hours mem, [],
      ⟨.program, 1⟩, { world' with keys := later }⟩ :=
    ⟨off, fun _ member => absurd member List.not_mem_nil⟩
  refine ⟨_, goes, rfl, rfl, rfl, fun events final ran => ?_⟩
  have tells := Tells.run (.of_home ⟨steady_set ten _ _ _ _, right, keeps, rfl⟩) events ran
  exact ⟨tells.returns, fun outside => (tells.of_outside fun serving => outside serving.1).2.2.2⟩

/-- The digits shown once the clock is set with three keys and Enter, over an interrupt too. -/
theorem clock_shows_time_sample :
    ∃ set : Machine, set.pc = ⟨.program, 1⟩ ∧
      (∀ events final, run sampleLayout.react set events = some final → ¬ final.Interrupted →
        final.world.digits = set.world.digits ++
          shownDigits (daySeconds sampleLayout set.mem) (shownAt sampleLayout set 0 events)) ∧
      ∃ events final, run sampleLayout.react set events = some final ∧ events.count .irq = 1 ∧
        ¬ final.Interrupted := by
  obtain ⟨⟨regs, zf, interrupts, mem, stack, pc, world⟩, -, place, empty, -, shows⟩ :=
    clock_shows_time sampleLayout sampleData sampleData_loaded
      ⟨⟨0, 0⟩, ⟨0, 0⟩, ⟨0, 0⟩, ⟨0, 0⟩⟩ false false sampleWorld [0x17, 0x11, 0x16] [] rfl (by decide)
  cases place
  cases empty
  obtain ⟨ready, goes, armed⟩ := goes_armed regs zf interrupts mem world
  exact ⟨_, rfl, fun events final ran => (shows events final ran).2,
    run_interrupt goes armed fun events final ran => (shows events final ran).1⟩

end CPrograms.PemeClock
