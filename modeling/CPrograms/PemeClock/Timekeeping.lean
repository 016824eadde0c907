import CPrograms.PemeClock.Setting

/-!
# Keeping time

Once the clock is set, the program and the timer interrupt run interleaved. The program
itself writes neither the time nor the interrupt counter, which is read off its text; an
interrupt, served wherever the program is, leaves the program's registers, stack and place
alone and counts on. So after any interleaving the time is the time set plus a second for
every hundred interrupts.
-/

namespace CPrograms.PemeClock

open Library I8086

variable (layout : Layout)

/-- The time as seconds of the day. -/
def daySeconds (mem : Word → Byte) : Nat :=
  (mem (layout.address .stu)).toNat * 3600 + (mem (layout.address .min)).toNat * 60 +
    (mem (layout.address .sek)).toNat

/-- The memory after some interrupts since the clock was set. -/
structure Keeps (set : Word → Byte) (count : Nat) (mem : Word → Byte) : Prop where
  foo : (mem (layout.address .foo)).toNat = count % 100
  time : daySeconds layout mem = (daySeconds layout set + count / 100) % 86400
  range : InRange layout mem

variable {layout}

/-! ## What an interrupt counts -/

private theorem toNat_add_one {value : Byte} {n : Nat} (number : value.toNat = n)
    (small : n + 1 < 256) : (value + 1).toNat = n + 1 := by
  rw [BitVec.toNat_add, number]
  exact Nat.mod_eq_of_lt small

/-- A counter at its limit is set back and counts on. -/
theorem counted_full {c : Cell} {limit : Byte} {mem : Word → Byte}
    (full : (Word → Byte) → Word → Byte)
    (last : (mem (layout.address c)).toNat + 1 = limit.toNat) :
    counted layout c limit full mem = full (Function.update mem (layout.address c) 0) := by
  have bound := limit.isLt
  have next : mem (layout.address c) + 1 = limit :=
    BitVec.eq_of_toNat_eq ((toNat_add_one rfl (by omega)).trans last)
  simp only [counted, Function.update_self, next, if_true, Function.update_idem]

/-- A counter below its limit counts up. -/
theorem counted_more {c : Cell} {limit : Byte} {mem : Word → Byte}
    (full : (Word → Byte) → Word → Byte)
    (more : (mem (layout.address c)).toNat + 1 < limit.toNat) :
    counted layout c limit full mem =
      Function.update mem (layout.address c) (mem (layout.address c) + 1) := by
  have bound := limit.isLt
  have next : mem (layout.address c) + 1 ≠ limit := by
    intro same
    rw [← same, toNat_add_one rfl (by omega)] at more
    omega
  simp only [counted, Function.update_self, next, if_false]

/-- A counter touches no other cell than what its being full touches. -/
theorem counted_of_ne {c other : Cell} {limit : Byte} {full : (Word → Byte) → Word → Byte}
    (different : other ≠ c)
    (rest : ∀ mem : Word → Byte, full mem (layout.address other) = mem (layout.address other))
    (mem : Word → Byte) :
    counted layout c limit full mem (layout.address other) = mem (layout.address other) := by
  have outside : layout.address other ≠ layout.address c := by
    rwa [ne_eq, Layout.address_inj]
  unfold counted
  split
  · rw [rest, Function.update_of_ne outside, Function.update_of_ne outside]
  · rw [Function.update_of_ne outside]

/-- A tick touches the three fields only. -/
theorem ticked_of_ne {c : Cell} (other : c ∉ Field.cells) (mem : Word → Byte) :
    ticked layout mem (layout.address c) = mem (layout.address c) := by
  simp only [Field.cells, List.mem_cons, List.not_mem_nil, or_false, not_or] at other
  obtain ⟨notStu, notMin, notSek⟩ := other
  exact counted_of_ne notSek (counted_of_ne notMin (counted_of_ne notStu fun _ => rfl)) mem

/-- An interrupt touches the three fields and the counter only. -/
theorem served_of_ne {c : Cell} (other : c ∉ Field.cells) (notFoo : c ≠ .foo)
    (mem : Word → Byte) : served layout mem (layout.address c) = mem (layout.address c) :=
  counted_of_ne notFoo (ticked_of_ne other) mem

/-- The three fields as numbers. -/
def HasTime (layout : Layout) (mem : Word → Byte) (h m s : Nat) : Prop :=
  (mem (layout.address .stu)).toNat = h ∧ (mem (layout.address .min)).toNat = m ∧
    (mem (layout.address .sek)).toNat = s

namespace HasTime

variable {mem : Word → Byte} {h m s : Nat}

/-- Writing the hours. -/
theorem setHours (time : HasTime layout mem h m s) (value : Byte) :
    HasTime layout (Function.update mem (layout.address .stu) value) value.toNat m s := by
  simpa [HasTime] using time.2

/-- Writing the minutes. -/
theorem setMinutes (time : HasTime layout mem h m s) (value : Byte) :
    HasTime layout (Function.update mem (layout.address .min) value) h value.toNat s := by
  simpa [HasTime] using ⟨time.1, time.2.2⟩

/-- Writing the seconds. -/
theorem setSeconds (time : HasTime layout mem h m s) (value : Byte) :
    HasTime layout (Function.update mem (layout.address .sek) value) h m value.toNat := by
  simpa [HasTime] using ⟨time.1, time.2.1⟩

/-- Writing the interrupt counter leaves the time alone. -/
theorem setFoo (time : HasTime layout mem h m s) (value : Byte) :
    HasTime layout (Function.update mem (layout.address .foo) value) h m s := by
  simpa [HasTime] using time

/-- **A tick is one second.** -/
theorem ticked (time : HasTime layout mem h m s) (range : h < 24 ∧ m < 60 ∧ s < 60) :
    ∃ h' m' s', HasTime layout (ticked layout mem) h' m' s' ∧ (h' < 24 ∧ m' < 60 ∧ s' < 60) ∧
      h' * 3600 + m' * 60 + s' = (h * 3600 + m * 60 + s + 1) % 86400 := by
  obtain ⟨hours, minutes, seconds⟩ := range
  unfold PemeClock.ticked
  by_cases secondsFull : s + 1 = 60
  · rw [counted_full _ (time.2.2 ▸ secondsFull)]
    have time := time.setSeconds 0
    by_cases minutesFull : m + 1 = 60
    · rw [counted_full _ (time.2.1 ▸ minutesFull)]
      have time := time.setMinutes 0
      by_cases hoursFull : h + 1 = 24
      · rw [counted_full _ (time.1 ▸ hoursFull)]
        exact ⟨0, 0, 0, time.setHours 0, by omega, by omega⟩
      · have more : h + 1 < 24 := by omega
        rw [counted_more _ (time.1 ▸ more)]
        exact ⟨h + 1, 0, 0, toNat_add_one time.1 (by omega) ▸ time.setHours _, by omega, by omega⟩
    · have more : m + 1 < 60 := by omega
      rw [counted_more _ (time.2.1 ▸ more)]
      exact ⟨h, m + 1, 0, toNat_add_one time.2.1 (by omega) ▸ time.setMinutes _, by omega,
        by omega⟩
  · have more : s + 1 < 60 := by omega
    rw [counted_more _ (time.2.2 ▸ more)]
    exact ⟨h, m, s + 1, toNat_add_one time.2.2 (by omega) ▸ time.setSeconds _, by omega,
      by omega⟩

end HasTime

/-- Every memory has some time. -/
theorem hasTime (mem : Word → Byte) : HasTime layout mem (mem (layout.address .stu)).toNat
    (mem (layout.address .min)).toNat (mem (layout.address .sek)).toNat :=
  ⟨rfl, rfl, rfl⟩

/-- Three numbers in range are a time of day. -/
theorem HasTime.inRange {mem : Word → Byte} {h m s : Nat} (time : HasTime layout mem h m s)
    (range : h < 24 ∧ m < 60 ∧ s < 60) : InRange layout mem := by
  obtain ⟨rfl, rfl, rfl⟩ := time
  intro field
  cases field
  · exact range.1
  · exact range.2.1
  · exact range.2.2

/-- The seconds of the day. -/
theorem HasTime.daySeconds {mem : Word → Byte} {h m s : Nat} (time : HasTime layout mem h m s) :
    daySeconds layout mem = h * 3600 + m * 60 + s := by
  obtain ⟨rfl, rfl, rfl⟩ := time
  rfl

/-- **Every hundredth interrupt is a second.** -/
theorem Keeps.served {set mem : Word → Byte} {count : Nat} (keeps : Keeps layout set count mem) :
    Keeps layout set (count + 1) (served layout mem) := by
  obtain ⟨foo, time, range⟩ := keeps
  have fields : HasTime layout mem _ _ _ := hasTime mem
  have range : _ ∧ _ ∧ _ := ⟨range .hours, range .minutes, range .seconds⟩
  rw [fields.daySeconds] at time
  unfold PemeClock.served
  by_cases full : count % 100 + 1 = 100
  · rw [counted_full _ (foo ▸ full)]
    obtain ⟨h, m, s, fields, range, ticks⟩ := (fields.setFoo 0).ticked range
    refine ⟨?_, ?_, fields.inRange range⟩
    · rw [ticked_of_ne (by decide), Function.update_self]
      change 0 = _
      omega
    · rw [fields.daySeconds, ticks]
      omega
  · have more : count % 100 + 1 < 100 := by omega
    rw [counted_more _ (foo ▸ more)]
    have fields := fields.setFoo (mem (layout.address .foo) + 1)
    refine ⟨?_, ?_, fields.inRange range⟩
    · rw [Function.update_self, toNat_add_one foo (by omega)]
      omega
    · rw [fields.daySeconds, time]
      omega

/-! ## The program between interrupts -/

/-- The labels the program runs through once the clock is set. -/
def mainLabels : List Label :=
  [.program, .nochmal, .minus, .eingabe, .go, .prePICinit, .setMask, .readhex, .printadr,
    .uhraktivieren, .PICinit, .PITinit, .IVTABinit]

/-- The addresses of the program once the clock is set. -/
def Main (pc : Address Label) : Prop := pc.label ∈ mainLabels ∧ pc ≠ ⟨.program, 0⟩

instance : DecidablePred Main := fun _ => inferInstanceAs (Decidable (_ ∧ _))

/-- The cells the program writes once the clock is set. -/
def mainCells : List Cell := [.uhran, .vector, .vectorHigh]

/-- What an instruction of the program must satisfy to stay in it and off the time. -/
def Harmless (instr : Instr Label Cell) (next : Address Label) : Prop :=
  instr.indirect = false ∧ (∀ c ∈ instr.stores, c ∈ mainCells) ∧
    (∀ l ∈ instr.targets, Main ⟨l, 0⟩) ∧ (instr.continues = true → Main next)

instance (instr : Instr Label Cell) (next : Address Label) : Decidable (Harmless instr next) :=
  inferInstanceAs (Decidable (_ ∧ _ ∧ _ ∧ _))

private theorem code_harmless : ∀ label ∈ mainLabels, ∀ offset ∈ List.range (code label).length,
    Main ⟨label, offset⟩ → ∀ instr ∈ (code label)[offset]?,
      Harmless instr (text.next ⟨label, offset⟩) := by
  decide

/-- **The program leaves the time alone.** A step of the program stays in it, and changes
no cell but the display switch and the interrupt vector. -/
theorem main_step {machine next : Machine} (confined : machine.Confined Main)
    (stepped : layout.program.step monitor machine = some next) :
    next.Confined Main ∧ ∀ c, c ∉ mainCells →
      next.mem (layout.address c) = machine.mem (layout.address c) := by
  obtain ⟨instr, fetched, executed⟩ := Option.bind_eq_some_iff.mp stepped
  obtain ⟨inside, -⟩ := List.getElem?_eq_some_iff.mp fetched
  obtain ⟨direct, stores, targets, onward⟩ := code_harmless machine.pc.label confined.pc.1
    machine.pc.offset (List.mem_range.mpr inside) confined.pc instr fetched
  constructor
  · refine Program.confined_exec ?_ targets ?_ executed
    · exact onward
    · exact confined.stack
  · intro c other
    have outside : ∀ stored ∈ instr.stores, layout.program.address stored ≠ layout.address c := by
      intro stored member same
      have same : stored = c := (layout.address_inj stored c).mp same
      exact other (same ▸ stores stored member)
    have kept := Program.mem_exec direct outside executed
    exact kept

/-! ## Interrupts -/

/-- The labels the interrupt routine runs through. -/
def isrLabels : List Label :=
  [.isr8, .takt, .isrret, .uhrzeitausgeben, .printdec, .uhrtakt, .ende]

/-- The addresses of the interrupt routine. -/
def Isr (pc : Address Label) : Prop := pc.label ∈ isrLabels

instance decidableIsr : DecidablePred Isr := fun _ => inferInstanceAs (Decidable (_ ∈ _))

/-- What an instruction of the interrupt routine must satisfy to stay in it and to leave the
input alone. -/
def Silent (instr : Instr Label Cell) (next : Address Label) : Prop :=
  (∀ l ∈ instr.targets, Isr ⟨l, 0⟩) ∧ (instr.continues = true → Isr next) ∧ asks instr = false

instance decidableSilent (instr : Instr Label Cell) (next : Address Label) :
    Decidable (Silent instr next) :=
  inferInstanceAs (Decidable (_ ∧ _ ∧ _))

private theorem code_silent : ∀ label ∈ isrLabels, ∀ offset ∈ List.range (code label).length,
    ∀ instr ∈ (code label)[offset]?, Silent instr (text.next ⟨label, offset⟩) := by
  decide

/-- A state of the interrupt routine that has taken no keys and no typed addresses. -/
structure InRoutine (world : World) (machine : Machine) : Prop where
  confined : machine.Confined Isr
  keys : machine.world.keys = world.keys
  typed : machine.world.typed = world.typed

/-- The interrupt routine stays in its text and takes no input. -/
theorem InRoutine.step {world : World} (machine next : Machine) (inside : InRoutine world machine)
    (stepped : layout.program.plainStep monitor machine = some next) : InRoutine world next := by
  obtain ⟨instr, fetched, executed⟩ := Option.bind_eq_some_iff.mp stepped
  obtain ⟨place, -⟩ := List.getElem?_eq_some_iff.mp fetched
  obtain ⟨targets, onward, silent⟩ := code_silent machine.pc.label inside.confined.pc
    machine.pc.offset (List.mem_range.mpr place) instr fetched
  split at executed
  · obtain ⟨keys, typed⟩ := input_exec silent executed
    refine ⟨Program.confined_exec ?_ targets ?_ executed, ?_, ?_⟩
    · exact onward
    · exact inside.confined.stack
    · exact keys.trans inside.keys
    · exact typed.trans inside.typed
  · cases executed

/-- The states inside the interrupt routine: no interrupt is served there. -/
def Serving (machine : Machine) : Prop := machine.Interrupted ∧ machine.interrupts = false

/-- **An interrupt counts and returns.** From wherever it is served, `isr8` stays in its text
and comes back to the same place with the same registers, flags, stack and input, and has
counted on. -/
theorem path_isr8 (machine : Machine) (ten : machine.mem (layout.address .d) = 10) :
    ∃ world, world.keys = machine.world.keys ∧ world.typed = machine.world.typed ∧
      Path (layout.program.step monitor) (fun inside => Serving inside ∧ Isr inside.pc)
        (machine.interrupt .isr8)
        { machine with mem := served layout machine.mem, world := world } := by
  obtain ⟨regs, zf, interrupts, mem, stack, pc, world⟩ := machine
  obtain ⟨zf', world', goes⟩ := goes_isr8 regs zf world ten
  have entry : Isr ⟨.isr8, 0⟩ := by decide
  have start : InRoutine world ⟨regs, zf, false, mem, [], ⟨.isr8, 0⟩, world⟩ :=
    ⟨⟨entry, fun _ member => absurd member List.not_mem_nil⟩, rfl, rfl⟩
  have finish := goes.invariant InRoutine.step start
  have path := Program.path_within InRoutine.step goes start (.frame pc zf interrupts :: stack)
    false
  refine ⟨world', finish.keys, finish.typed, (path.mono ?_).trans
    (.step ⟨⟨⟨pc, zf, interrupts, List.mem_cons_self⟩, rfl⟩, finish.confined.pc⟩ rfl (.refl _))⟩
  rintro _ ⟨⟨below, off⟩, inner, inside, rfl⟩
  exact ⟨⟨⟨pc, zf, interrupts, below.subset List.mem_cons_self⟩, off⟩, inside.confined.pc⟩

/-- What holds along a run once the clock is set: the machine is in the program, or an
interrupt is on its way back into it, and then the time is kept. -/
def Good (layout : Layout) (set : Word → Byte) (count : Nat) (machine : Machine) : Prop :=
  ∃ back : Machine, Path (layout.program.step monitor) Serving machine back ∧
    back.Confined Main ∧ back.mem (layout.address .d) = 10 ∧ Keeps layout set count back.mem

/-- The cells that the program writes do not matter for the time. -/
theorem Keeps.of_agree {set mem mem' : Word → Byte} {count : Nat}
    (keeps : Keeps layout set count mem)
    (agree : ∀ c, c ∉ mainCells → mem' (layout.address c) = mem (layout.address c)) :
    Keeps layout set count mem' where
  foo := by rw [agree _ (by decide), keeps.foo]
  time := by
    rw [← keeps.time, daySeconds, agree _ (by decide), agree _ (by decide), agree _ (by decide)]
    rfl
  range field := by
    rw [agree _ (by cases field <;> decide)]
    exact keeps.range field

/-- Inside the interrupt routine no interrupt is served. -/
theorem not_serving_of_armed {machine : Machine} (armed : layout.armed machine = true) :
    ¬ Serving machine := by
  intro serving
  rw [Layout.armed, serving.2] at armed
  cases armed

/-- An instruction keeps the time. -/
theorem Good.exec {set : Word → Byte} {count : Nat} {machine next : Machine}
    (good : Good layout set count machine)
    (stepped : layout.program.step monitor machine = some next) : Good layout set count next := by
  refine Returns.advanced good ?_ stepped
  rintro ⟨confined, ten, keeps⟩ stepped
  obtain ⟨confined, agree⟩ := main_step confined stepped
  exact ⟨confined, (agree _ (by decide)).trans ten, keeps.of_agree agree⟩

/-- An interrupt counts on. -/
theorem Good.irq {set : Word → Byte} {count : Nat} {machine : Machine}
    (good : Good layout set count machine) (armed : layout.armed machine = true) :
    Good layout set (count + 1) (machine.interrupt .isr8) := by
  obtain ⟨confined, ten, keeps⟩ := Returns.of_outside good (not_serving_of_armed armed)
  obtain ⟨world, -, -, path⟩ := path_isr8 machine ten
  exact ⟨_, path.mono fun _ => And.left, ⟨confined.pc, confined.stack⟩,
    (served_of_ne (by decide) (by decide) _).trans ten, keeps.served⟩

/-- Along a run the count grows with the interrupts served. -/
theorem Good.run {set : Word → Byte} {count : Nat} {machine final : Machine}
    (good : Good layout set count machine) (events : List Event)
    (ran : run layout.react machine events = some final) :
    Good layout set (count + events.count .irq) final := by
  induction events generalizing machine count with
  | nil =>
      cases ran
      exact good
  | cons event events ih =>
      rw [run_cons, Option.bind_eq_some_iff] at ran
      obtain ⟨next, reacted, ran⟩ := ran
      cases event with
      | exec =>
          rw [List.count_cons_of_ne (by decide)]
          exact ih (good.exec reacted) ran
      | irq =>
          change (if layout.armed machine = true then _ else none) = _ at reacted
          split at reacted
          · next armed =>
              cases reacted
              rw [List.count_cons_self, Nat.add_comm _ 1, ← Nat.add_assoc]
              exact ih (good.irq armed) ran
          · cases reacted

/-- An interrupt that is being served returns. -/
theorem Good.returns {set : Word → Byte} {count : Nat} {machine : Machine}
    (good : Good layout set count machine) :
    ∃ back, Path (layout.program.step monitor) Serving machine back ∧ ¬ back.Interrupted := by
  obtain ⟨back, path, confined, -⟩ := good
  exact ⟨back, path, confined.not_interrupted⟩

/-- Outside the interrupt routine the time is kept. -/
theorem Good.keeps {set : Word → Byte} {count : Nat} {machine : Machine}
    (good : Good layout set count machine) (outside : ¬ machine.Interrupted) :
    Keeps layout set count machine.mem :=
  (Returns.of_outside good fun serving => outside serving.1).2.2

/-! ## The whole run -/

/-- The data as the assembler lays it down. -/
structure Loaded (layout : Layout) (mem : Word → Byte) : Prop extends Constants layout mem where
  stu : mem (layout.address .stu) = 18
  min : mem (layout.address .min) = 0
  sek : mem (layout.address .sek) = 0
  foo : mem (layout.address .foo) = 0
  uhran : mem (layout.address .uhran) = 0

/-- The clock is set: from the start of the program `uhrstellen` runs to its return. -/
theorem goes_set {mem : Word → Byte} (constants : Constants layout mem) (regs : Registers)
    (zf interrupts : Bool) (world : World) (keys later : List Byte) (others : 0x10 ∉ keys) :
    ∃ zf', ∃ world' : World, Library.Goes (layout.program.step monitor)
      ⟨regs, zf, interrupts, mem, [], ⟨.program, 0⟩, { world with keys := keys ++ 0x10 :: later }⟩
      ⟨regs, zf', interrupts, setting layout keys .hours mem, [], ⟨.program, 1⟩,
        { world' with keys := later }⟩ := by
  obtain ⟨ax, bx, cx, dx⟩ := regs
  have call : layout.Goes
      ⟨⟨ax, bx, cx, dx⟩, zf, interrupts, mem, [], ⟨.program, 0⟩,
        { world with keys := keys ++ 0x10 :: later }⟩
      ⟨⟨ax, bx, cx, dx⟩, zf, interrupts, mem, [.back ⟨.program, 1⟩], ⟨.uhrstellen, 0⟩,
        { world with keys := keys ++ 0x10 :: later }⟩ := goes_run 1 rfl
  obtain ⟨zf', world', goes⟩ := goes_uhrstellen ⟨ax, bx, cx, dx⟩ zf constants ⟨.program, 1⟩ world
    keys later others
  exact ⟨zf', world', Program.goes_step (call.trans (Program.goes_within goes [] interrupts))⟩

/-- A state of the program with no interrupt counted yet. -/
theorem good_set {mem : Word → Byte} (range : InRange layout mem)
    (ten : mem (layout.address .d) = 10) (foo : mem (layout.address .foo) = 0) (regs : Registers)
    (zf interrupts : Bool) (world : World) :
    Good layout mem 0 ⟨regs, zf, interrupts, mem, [], ⟨.program, 1⟩, world⟩ := by
  have hours : (mem (layout.address .stu)).toNat < 24 := range .hours
  have minutes : (mem (layout.address .min)).toNat < 60 := range .minutes
  have seconds : (mem (layout.address .sek)).toNat < 60 := range .seconds
  have keeps : Keeps layout mem 0 mem := by
    refine ⟨congrArg BitVec.toNat foo, ?_, range⟩
    unfold daySeconds
    omega
  have inMain : Main ⟨.program, 1⟩ := by decide
  exact ⟨_, .refl _, ⟨inMain, fun _ member => absurd member List.not_mem_nil⟩, ten, keeps⟩

/-- The memory once `IVTABinit` has put the address of `isr8` at the vector. -/
def vectored (layout : Layout) (mem : Word → Byte) : Word → Byte :=
  Function.update
    (Function.update mem (layout.address .vector) (Pair.ofWord (layout.entry .isr8)).lo)
    (layout.address .vectorHigh) (Pair.ofWord (layout.entry .isr8)).hi

/-- With interrupts on and the vector at `isr8` an interrupt is served. -/
theorem armed_of_vectored {machine : Machine} {mem : Word → Byte}
    (interrupts : machine.interrupts = true) (vector : machine.mem = vectored layout mem) :
    layout.armed machine = true := by
  have low : layout.address .vector ≠ layout.address .vectorHigh :=
    mt (layout.address_inj _ _).mp (by decide)
  rw [Layout.armed, interrupts, vector, vectored, Bool.true_and, beq_iff_eq,
    Function.update_self, Function.update_of_ne low, Function.update_self]
  exact Pair.word_ofWord (layout.entry .isr8)

/-- The initialisation ends with interrupts on and their vector at `isr8`. -/
theorem goes_armed (regs : Registers) (zf interrupts : Bool) (mem : Word → Byte) (world : World) :
    ∃ machine, Library.Goes (layout.program.step monitor)
      ⟨regs, zf, interrupts, mem, [], ⟨.program, 1⟩, world⟩ machine ∧
      layout.armed machine = true := by
  obtain ⟨ax, bx, cx, dx⟩ := regs
  have off : layout.program.step monitor
      ⟨⟨ax, bx, cx, dx⟩, zf, interrupts, mem, [], ⟨.program, 1⟩, world⟩ =
      some ⟨⟨ax, bx, cx, dx⟩, zf, false, mem, [], ⟨.program, 2⟩, world⟩ := rfl
  have inits : ∃ regs' world', ∃ zf', layout.Goes
      ⟨⟨ax, bx, cx, dx⟩, zf, false, mem, [], ⟨.program, 2⟩, world⟩
      ⟨regs', zf', false, vectored layout mem, [], ⟨.program, 6⟩, world'⟩ :=
    ⟨_, _, _, goes_run 28 rfl⟩
  obtain ⟨regs', world', zf', goes⟩ := inits
  have on : layout.program.step monitor
      ⟨regs', zf', false, vectored layout mem, [], ⟨.program, 6⟩, world'⟩ =
      some ⟨regs', zf', true, vectored layout mem, [], ⟨.program, 7⟩, world'⟩ := rfl
  exact ⟨_, .head off ((Program.goes_step goes).tail on), armed_of_vectored rfl rfl⟩

/-- **The clock keeps time over whole runs.** Whatever keys are pressed before the first
Enter, `uhrstellen` returns with a time of day, and the program goes on to a state in which
interrupts are served. Whatever interleaving of instructions and timer interrupts follows,
an interrupt that is being served returns; and whenever none is being served, the counter is the
number of interrupts modulo 100, the time is the time set plus a second for every hundred
interrupts, and it is a time of day. -/
theorem clock_keeps_time (layout : Layout) (mem : Word → Byte) (loaded : Loaded layout mem)
    (regs : Registers) (zf interrupts : Bool) (world : World) (keys later : List Byte)
    (pressed : world.keys = keys ++ 0x10 :: later) (others : 0x10 ∉ keys) :
    ∃ set : Machine,
      Library.Goes (layout.program.step monitor)
        ⟨regs, zf, interrupts, mem, [], ⟨.program, 0⟩, world⟩ set ∧
      set.pc = ⟨.program, 1⟩ ∧ set.stack = [] ∧ set.world.keys = later ∧
      InRange layout set.mem ∧
      (∃ ready, Library.Goes (layout.program.step monitor) set ready ∧
        layout.armed ready = true) ∧
      ∀ events final, run layout.react set events = some final →
        (∃ back, Path (layout.program.step monitor) Serving final back ∧ ¬ back.Interrupted) ∧
        (¬ final.Interrupted →
          (final.mem (layout.address .foo)).toNat = events.count .irq % 100 ∧
          daySeconds layout final.mem =
            (daySeconds layout set.mem + events.count .irq / 100) % 86400 ∧
          (final.mem (layout.address .stu)).toNat < 24 ∧
          (final.mem (layout.address .min)).toNat < 60 ∧
          (final.mem (layout.address .sek)).toNat < 60) := by
  obtain ⟨zf', world', goes⟩ := goes_set loaded.toConstants regs zf interrupts world keys later
    others
  rw [← pressed] at goes
  have range : InRange layout (setting layout keys .hours mem) := setting_inRange keys .hours mem
  have good := good_set range ((setting_of_ne (by decide) _ _ _).trans loaded.d)
    ((setting_of_ne (by decide) _ _ _).trans loaded.foo) regs zf' interrupts
    { world' with keys := later }
  refine ⟨_, goes, rfl, rfl, rfl, range, goes_armed _ _ _ _ _, fun events final ran =>
    ⟨(good.run events ran).returns, fun outside => ?_⟩⟩
  have keeps := (good.run events ran).keeps outside
  rw [Nat.zero_add] at keeps
  exact ⟨keeps.foo, keeps.time, keeps.range .hours, keeps.range .minutes, keeps.range .seconds⟩

/-- The sample data are those of the assembler. -/
theorem sampleData_loaded : Loaded sampleLayout sampleData := by
  refine ⟨sampleData_constants, ?_, ?_, ?_, ?_, ?_⟩ <;> decide

/-- One interrupt, from a state in which it is served until it has returned. -/
theorem run_interrupt {set ready : Machine}
    (goes : Library.Goes (layout.program.step monitor) set ready)
    (armed : layout.armed ready = true)
    (returns : ∀ events final, run layout.react set events = some final →
      ∃ back, Path (layout.program.step monitor) Serving final back ∧ ¬ back.Interrupted) :
    ∃ events final, run layout.react set events = some final ∧ events.count .irq = 1 ∧
      ¬ final.Interrupted := by
  obtain ⟨before, toReady⟩ := Goes.run layout.react .exec goes
  have enters : run layout.react set (List.replicate before .exec ++ [.irq]) =
      some (ready.interrupt .isr8) := by
    rw [run_append, toReady]
    change (if layout.armed ready = true then some (ready.interrupt .isr8) else none).bind some = _
    rw [if_pos armed]
    rfl
  obtain ⟨back, path, outside⟩ := returns _ _ enters
  obtain ⟨inside, toBack⟩ := Goes.run layout.react .exec path.goes
  refine ⟨(List.replicate before .exec ++ [.irq]) ++ List.replicate inside .exec, back, ?_, ?_,
    outside⟩
  · rw [run_append, enters]
    exact toBack
  · simp [List.count_append, List.count_replicate]

/-- The clock is set with three keys and Enter; an interrupt is served and the time is kept. -/
theorem clock_keeps_time_sample :
    ∃ set : Machine, set.pc = ⟨.program, 1⟩ ∧ InRange sampleLayout set.mem ∧
      (∀ events final, run sampleLayout.react set events = some final → ¬ final.Interrupted →
        daySeconds sampleLayout final.mem =
          (daySeconds sampleLayout set.mem + events.count .irq / 100) % 86400) ∧
      ∃ events final, run sampleLayout.react set events = some final ∧ events.count .irq = 1 ∧
        ¬ final.Interrupted := by
  obtain ⟨set, -, pc, -, -, range, ⟨ready, goes, armed⟩, keeps⟩ := clock_keeps_time sampleLayout
    sampleData sampleData_loaded ⟨⟨0, 0⟩, ⟨0, 0⟩, ⟨0, 0⟩, ⟨0, 0⟩⟩ false false sampleWorld
    [0x17, 0x11, 0x16] [] rfl (by decide)
  exact ⟨set, pc, range, fun events final ran outside => ((keeps events final ran).2 outside).2.1,
    run_interrupt goes armed fun events final ran => (keeps events final ran).1⟩

end CPrograms.PemeClock
