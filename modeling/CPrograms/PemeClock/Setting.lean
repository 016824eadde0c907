import CPrograms.PemeClock.Routines

/-!
# Setting the clock

`uhrstellen` brings the three fields into range, shows the time and waits for a key, until
the key is Enter. Plus and minus change the selected field, go selects the next one. The
memory it returns with is computed from the keys by `setting`; it is in range whatever the
keys were, since every pass starts with bringing it there.
-/

namespace CPrograms.PemeClock

open Library I8086

namespace Field

/-- The cell that holds the limit of a field. -/
def overflow : Field → Cell
  | hours => .stuueberlauf
  | minutes => .minsekueberlauf
  | seconds => .minsekueberlauf

/-- The field that go selects after one. -/
def next : Field → Field
  | hours => minutes
  | minutes => seconds
  | seconds => hours

/-- A field brought into range: one below zero becomes the largest, others wrap around. -/
def normal (field : Field) (value : Byte) : Byte :=
  .ofNat 8 ((if value = 255 then field.limit - 1 else value).toNat % field.limit.toNat)

/-- The normal form of a byte is in range. -/
theorem normal_lt (field : Field) (value : Byte) :
    (field.normal value).toNat < field.limit.toNat := by
  have positive : 0 < field.limit.toNat := by cases field <;> decide
  have small := Nat.mod_lt (if value = 255 then field.limit - 1 else value).toNat positive
  have bound := field.limit.isLt
  rw [normal, BitVec.toNat_ofNat, Nat.mod_eq_of_lt (by omega)]
  exact small

end Field

variable (layout : Layout)

/-- The bytes of the data that the program only reads. -/
structure Constants (mem : Word → Byte) : Prop where
  d : mem (layout.address .d) = 10
  stuueberlauf : mem (layout.address .stuueberlauf) = 24
  minsekueberlauf : mem (layout.address .minsekueberlauf) = 60

/-- The time is one of a day. -/
def InRange (mem : Word → Byte) : Prop :=
  ∀ field : Field, (mem (layout.address field.cell)).toNat < field.limit.toNat

/-- Change one field. -/
def adjust (field : Field) (change : Byte → Byte) (mem : Word → Byte) : Word → Byte :=
  Function.update mem (layout.address field.cell) (change (mem (layout.address field.cell)))

/-- The memory after the first part of a pass of `uhrstellen`. -/
def normalised (mem : Word → Byte) : Word → Byte :=
  adjust layout .seconds Field.seconds.normal
    (adjust layout .minutes Field.minutes.normal (adjust layout .hours Field.hours.normal mem))

/-- What a key other than Enter does to the selection and to the memory. -/
def pressed (key : Byte) (field : Field) (mem : Word → Byte) : Field × (Word → Byte) :=
  if key = 0x16 then (field, adjust layout field (· + 1) mem)
  else if key = 0x17 then (field, adjust layout field (· - 1) mem)
  else if key = 0x11 then (field.next, mem)
  else (field, mem)

/-- The memory with which `uhrstellen` returns when the keys are followed by Enter. -/
def setting : List Byte → Field → (Word → Byte) → Word → Byte
  | [], _, mem => normalised layout mem
  | key :: keys, field, mem =>
      let after := pressed layout key field (normalised layout mem)
      setting keys after.1 after.2

/-- The memory each time it is shown, up to the one when the keys are used up. -/
def displays : List Byte → Field → (Word → Byte) → List (Word → Byte)
  | [], _, mem => [normalised layout mem]
  | key :: keys, field, mem =>
      let after := pressed layout key field (normalised layout mem)
      normalised layout mem :: displays keys after.1 after.2

variable {layout}

/-- Adjusting a field leaves the other cells alone. -/
theorem adjust_of_ne {field : Field} {c : Cell} (other : c ≠ field.cell) (change : Byte → Byte)
    (mem : Word → Byte) : adjust layout field change mem (layout.address c) =
      mem (layout.address c) := by
  apply Function.update_of_ne
  rw [ne_eq, Layout.address_inj]
  exact other

/-- Adjusting a field changes its cell. -/
theorem adjust_self (field : Field) (change : Byte → Byte) (mem : Word → Byte) :
    adjust layout field change mem (layout.address field.cell) =
      change (mem (layout.address field.cell)) :=
  Function.update_self _ _ _

/-- Setting the clock touches the three fields only. -/
theorem setting_of_outside {a : Word} (outside : ∀ field : Field, a ≠ layout.address field.cell)
    (keys : List Byte) (field : Field) (mem : Word → Byte) :
    setting layout keys field mem a = mem a := by
  have unchanged : ∀ field change mem, adjust layout field change mem a = mem a :=
    fun field change mem => Function.update_of_ne (outside field) _ _
  have normal : ∀ mem, normalised layout mem a = mem a := by
    intro mem
    rw [normalised, unchanged, unchanged, unchanged]
  induction keys generalizing field mem with
  | nil => exact normal mem
  | cons key keys ih =>
      rw [setting, ih, ← normal mem]
      unfold pressed
      split
      · exact unchanged field (· + 1) _
      · split
        · exact unchanged field (· - 1) _
        · split <;> rfl

/-- The keys change the three fields only. -/
theorem setting_of_ne {c : Cell} (other : c ∉ Field.cells) (keys : List Byte)
    (field : Field) (mem : Word → Byte) :
    setting layout keys field mem (layout.address c) = mem (layout.address c) := by
  apply setting_of_outside
  intro field
  rw [ne_eq, Layout.address_inj]
  rintro rfl
  exact other field.cell_mem

/-- Every field is brought into range by itself. -/
theorem normalised_apply (field : Field) (mem : Word → Byte) :
    normalised layout mem (layout.address field.cell) =
      field.normal (mem (layout.address field.cell)) := by
  cases field with
  | hours =>
      rw [normalised, adjust_of_ne (by decide), adjust_of_ne (by decide), adjust_self]
  | minutes =>
      rw [normalised, adjust_of_ne (by decide), adjust_self, adjust_of_ne (by decide)]
  | seconds =>
      rw [normalised, adjust_self, adjust_of_ne (by decide), adjust_of_ne (by decide)]

/-- The normal form is a time of day. -/
theorem normalised_inRange (mem : Word → Byte) : InRange layout (normalised layout mem) := by
  intro field
  rw [normalised_apply]
  exact field.normal_lt _

/-- Whatever is pressed, the time that is set is in range. -/
theorem setting_inRange (keys : List Byte) (field : Field) (mem : Word → Byte) :
    InRange layout (setting layout keys field mem) := by
  induction keys generalizing field mem with
  | nil => exact normalised_inRange mem
  | cons key keys ih => exact ih _ _

/-- The constants are not in the three fields. -/
theorem Constants.of_agree {mem mem' : Word → Byte} (constants : Constants layout mem)
    (agree : ∀ c : Cell, c ∉ Field.cells →
      mem' (layout.address c) = mem (layout.address c)) : Constants layout mem' where
  d := (agree _ (by decide)).trans constants.d
  stuueberlauf := (agree _ (by decide)).trans constants.stuueberlauf
  minsekueberlauf := (agree _ (by decide)).trans constants.minsekueberlauf

/-- The sample data have the constants. -/
theorem sampleData_constants : Constants sampleLayout sampleData := by
  refine ⟨?_, ?_, ?_⟩ <;> decide

/-- Adjusting a field leaves the constants alone. -/
theorem adjust_constants {mem : Word → Byte} (constants : Constants layout mem) (field : Field)
    (change : Byte → Byte) : Constants layout (adjust layout field change mem) := by
  refine constants.of_agree fun c other => adjust_of_ne ?_ change mem
  rintro rfl
  exact other field.cell_mem

/-- The normal form leaves the constants alone. -/
theorem normalised_constants {mem : Word → Byte} (constants : Constants layout mem) :
    Constants layout (normalised layout mem) :=
  adjust_constants (adjust_constants (adjust_constants constants _ _) _ _) _ _

/-- A key leaves the constants alone. -/
theorem pressed_constants {mem : Word → Byte} (constants : Constants layout mem) (key : Byte)
    (field : Field) : Constants layout (pressed layout key field mem).2 := by
  unfold pressed
  split
  · exact adjust_constants constants field (· + 1)
  · split
    · exact adjust_constants constants field (· - 1)
    · split <;> exact constants

/-- The overflow cell of a field holds its limit. -/
theorem overflow_constants {mem : Word → Byte} (constants : Constants layout mem) (field : Field) :
    mem (layout.address field.overflow) = field.limit := by
  cases field
  · exact constants.stuueberlauf
  · exact constants.minsekueberlauf
  · exact constants.minsekueberlauf

/-! ## The code -/

namespace Field

/-- Where `uhrstellen` starts to bring a field into range. -/
private def startAt : Field → Address Label
  | hours => ⟨.nochmal2, 0⟩
  | minutes => ⟨.st, 2⟩
  | seconds => ⟨.mi, 2⟩

/-- Where it has compared the field with 255. -/
private def testAt : Field → Address Label
  | hours => ⟨.nochmal2, 3⟩
  | minutes => ⟨.st, 5⟩
  | seconds => ⟨.mi, 5⟩

/-- Where it divides. -/
private def divideAt : Field → Address Label
  | hours => ⟨.st, 0⟩
  | minutes => ⟨.mi, 0⟩
  | seconds => ⟨.se, 0⟩

/-- Where it goes on behind the field. -/
private def doneAt : Field → Address Label
  | hours => ⟨.st, 2⟩
  | minutes => ⟨.mi, 2⟩
  | seconds => ⟨.se, 2⟩

end Field

/-- The division that brings a field into range, and the store of its remainder. -/
private theorem goes_divide (field : Field) (value : Byte) (bx cx dx : Pair) (zf : Bool)
    {mem : Word → Byte} (constants : Constants layout mem) (stack : List (Slot Label))
    (world : World) :
    ∃ ax', layout.Goes
      ⟨⟨⟨0, value⟩, bx, cx, dx⟩, zf, false, mem, stack, field.divideAt, world⟩
      ⟨⟨ax', bx, cx, dx⟩, zf, false, Function.update mem (layout.address field.cell)
        (.ofNat 8 (value.toNat % field.limit.toNat)), stack, field.doneAt, world⟩ := by
  have cell := congrArg BitVec.toNat (overflow_constants constants field)
  have positive : 0 < field.limit.toNat := by cases field <;> decide
  have divided : layout.program.plainStep monitor
      ⟨⟨⟨0, value⟩, bx, cx, dx⟩, zf, false, mem, stack, field.divideAt, world⟩ =
      some ⟨⟨⟨.ofNat 8 (value.toNat % field.limit.toNat),
        .ofNat 8 (value.toNat / field.limit.toNat)⟩, bx, cx, dx⟩, zf, false, mem, stack,
        ⟨field.divideAt.label, 1⟩, world⟩ := by
    cases field <;> exact exec_div rfl cell positive
  refine ⟨⟨.ofNat 8 (value.toNat % field.limit.toNat),
    .ofNat 8 (value.toNat / field.limit.toNat)⟩, .head divided ?_⟩
  cases field <;> exact goes_run 1 rfl

/-- One field is brought into range. -/
private theorem goes_normal (field : Field) (ax bx cx dx : Pair) (zf : Bool)
    {mem : Word → Byte} (constants : Constants layout mem) (stack : List (Slot Label))
    (world : World) :
    ∃ ax' zf', layout.Goes
      ⟨⟨ax, bx, cx, dx⟩, zf, false, mem, stack, field.startAt, world⟩
      ⟨⟨ax', bx, cx, dx⟩, zf', false, adjust layout field field.normal mem, stack, field.doneAt,
        world⟩ := by
  have test : layout.Goes ⟨⟨ax, bx, cx, dx⟩, zf, false, mem, stack, field.startAt, world⟩
      ⟨⟨⟨0, mem (layout.address field.cell)⟩, bx, cx, dx⟩,
        decide (mem (layout.address field.cell) = 255), false, mem, stack, field.testAt,
        world⟩ := by
    cases field <;> exact goes_run 3 rfl
  unfold adjust Field.normal
  by_cases below : mem (layout.address field.cell) = 255
  · rw [decide_eq_true below] at test
    have largest : layout.Goes
        ⟨⟨⟨0, mem (layout.address field.cell)⟩, bx, cx, dx⟩, true, false, mem, stack,
          field.testAt, world⟩
        ⟨⟨⟨0, field.limit - 1⟩, bx, cx, dx⟩, true, false, mem, stack, field.divideAt, world⟩ := by
      cases field <;> exact goes_run 2 rfl
    obtain ⟨ax', divide⟩ := goes_divide field (field.limit - 1) bx cx dx true constants stack world
    rw [if_pos below]
    exact ⟨ax', true, (test.trans largest).trans divide⟩
  · rw [decide_eq_false below] at test
    have jump : layout.Goes
        ⟨⟨⟨0, mem (layout.address field.cell)⟩, bx, cx, dx⟩, false, false, mem, stack,
          field.testAt, world⟩
        ⟨⟨⟨0, mem (layout.address field.cell)⟩, bx, cx, dx⟩, false, false, mem, stack,
          field.divideAt, world⟩ := by
      cases field <;> exact goes_run 1 rfl
    obtain ⟨ax', divide⟩ := goes_divide field (mem (layout.address field.cell)) bx cx dx false
      constants stack world
    rw [if_neg below]
    exact ⟨ax', false, (test.trans jump).trans divide⟩

/-- The first part of a pass: the fields are brought into range and shown, up to the wait for a
key. -/
private theorem goes_prompt (ax bx cx dx : Pair) (zf : Bool) {mem : Word → Byte}
    (constants : Constants layout mem) (stack : List (Slot Label)) (world : World) :
    ∃ lo, ∃ world' : World,
      world'.digits = world.digits ++ timeDigits layout (normalised layout mem) ∧
      layout.Goes
        ⟨⟨ax, bx, cx, dx⟩, zf, false, mem, stack, ⟨.nochmal2, 0⟩, world⟩
        ⟨⟨⟨1, lo⟩, bx, cx, dx⟩, true, false, normalised layout mem, stack, ⟨.se, 4⟩,
          { world' with keys := world.keys }⟩ := by
  obtain ⟨ax₁, zf₁, hours⟩ := goes_normal .hours ax bx cx dx zf constants stack world
  have later := adjust_constants constants .hours Field.hours.normal
  obtain ⟨ax₂, zf₂, minutes⟩ := goes_normal .minutes ax₁ bx cx dx zf₁ later stack world
  have later := adjust_constants later .minutes Field.minutes.normal
  obtain ⟨ax₃, zf₃, seconds⟩ := goes_normal .seconds ax₂ bx cx dx zf₂ later stack world
  have normal := (hours.trans minutes).trans seconds
  change layout.Goes _ ⟨⟨ax₃, bx, cx, dx⟩, zf₃, false, normalised layout mem, stack, ⟨.se, 2⟩,
    world⟩ at normal
  have constants := normalised_constants constants
  generalize normalised layout mem = mem' at normal constants ⊢
  have call : layout.Goes
      ⟨⟨ax₃, bx, cx, dx⟩, zf₃, false, mem', stack, ⟨.se, 2⟩, world⟩
      ⟨⟨ax₃, bx, cx, dx⟩, zf₃, false, mem', .back ⟨.se, 3⟩ :: stack, ⟨.uhrzeitausgeben, 0⟩,
        world⟩ := goes_run 1 rfl
  have display := Program.goes_within (goes_uhrzeitausgeben ⟨ax₃, bx, cx, dx⟩ zf₃ ⟨.se, 3⟩
    world constants.d) stack false
  have shown := @digits_showing_timeShown layout world mem' ⟨ax₃, bx, cx, dx⟩
  generalize timeShown layout mem' ⟨ax₃, bx, cx, dx⟩ = calls at display shown
  have ready : layout.Goes
      ⟨⟨ax₃, bx, cx, dx⟩, true, false, mem', stack, ⟨.se, 3⟩, world.showing calls⟩
      ⟨⟨⟨1, ax₃.lo⟩, bx, cx, dx⟩, true, false, mem', stack, ⟨.se, 4⟩, world.showing calls⟩ :=
    goes_run 1 rfl
  exact ⟨ax₃.lo, world.showing calls, shown, ((normal.trans call).trans display).trans ready⟩

/-- A key is waited for and read. -/
private theorem goes_readKey (lo : Byte) (bx cx dx : Pair) (zf : Bool) (mem : Word → Byte)
    (stack : List (Slot Label)) (world : World) (key : Byte) (keys : List Byte) :
    ∃ hi, ∃ world' : World, world'.digits = world.digits ∧ layout.Goes
      ⟨⟨⟨1, lo⟩, bx, cx, dx⟩, zf, false, mem, stack, ⟨.se, 4⟩, { world with keys := key :: keys }⟩
      ⟨⟨⟨hi, key⟩, bx, cx, dx⟩, zf, false, mem, stack, ⟨.se, 5⟩, { world' with keys := keys }⟩ :=
  ⟨(world.residue world.served).hi, { world with served := world.served + 1 }, rfl, goes_run 1 rfl⟩

section Keys

variable (field : Field) (hi key : Byte) (cx dx : Pair) (mem : Word → Byte)
  (stack : List (Slot Label)) (world : World)

/-- The machine with a key in `al` and the address of the selected field in `bx`. -/
private abbrev asking (layout : Layout) (zf : Bool) (pc : Address Label) : Machine :=
  ⟨⟨⟨hi, key⟩, .ofWord (layout.address field.cell), cx, dx⟩, zf, false, mem, stack, pc, world⟩

/-- Plus counts the selected field up. -/
private theorem goes_plus (zf : Bool) :
    layout.Goes (asking field hi 0x16 cx dx mem stack world layout zf ⟨.se, 5⟩)
      (asking field hi 0x16 cx dx (adjust layout field (· + 1) mem) stack world layout false
        ⟨.nochmal2, 0⟩) := by
  have change : layout.Goes (asking field hi 0x16 cx dx mem stack world layout zf ⟨.se, 5⟩)
      (asking field hi 0x16 cx dx
        (Function.update mem (Pair.ofWord (layout.address field.cell)).word
          (mem (Pair.ofWord (layout.address field.cell)).word + 1)) stack world layout false
        ⟨.nochmal2, 0⟩) := goes_run 9 rfl
  rw [Pair.word_ofWord] at change
  exact change

/-- Minus counts it down. -/
private theorem goes_minus (zf : Bool) :
    layout.Goes (asking field hi 0x17 cx dx mem stack world layout zf ⟨.se, 5⟩)
      (asking field hi 0x17 cx dx (adjust layout field (· - 1) mem) stack world layout false
        ⟨.nochmal2, 0⟩) := by
  have change : layout.Goes (asking field hi 0x17 cx dx mem stack world layout zf ⟨.se, 5⟩)
      (asking field hi 0x17 cx dx
        (Function.update mem (Pair.ofWord (layout.address field.cell)).word
          (mem (Pair.ofWord (layout.address field.cell)).word - 1)) stack world layout false
        ⟨.nochmal2, 0⟩) := goes_run 9 rfl
  rw [Pair.word_ofWord] at change
  exact change

/-- Any other key but Enter is compared with go. -/
private theorem goes_other (zf : Bool) (notPlus : key ≠ 0x16) (notMinus : key ≠ 0x17)
    (notEnter : key ≠ 0x10) :
    layout.Goes (asking field hi key cx dx mem stack world layout zf ⟨.se, 5⟩)
      (asking field hi key cx dx mem stack world layout (decide (key = 0x11)) ⟨.go2, 1⟩) := by
  have plus : layout.Goes (asking field hi key cx dx mem stack world layout zf ⟨.se, 5⟩)
      (asking field hi key cx dx mem stack world layout (decide (key = 0x16)) ⟨.se, 6⟩) :=
    goes_run 1 rfl
  have minus : layout.Goes (asking field hi key cx dx mem stack world layout false ⟨.se, 6⟩)
      (asking field hi key cx dx mem stack world layout (decide (key = 0x17)) ⟨.minus2, 1⟩) :=
    goes_run 2 rfl
  have enter : layout.Goes (asking field hi key cx dx mem stack world layout false ⟨.minus2, 1⟩)
      (asking field hi key cx dx mem stack world layout (decide (key = 0x10)) ⟨.eingabe2, 1⟩) :=
    goes_run 2 rfl
  have go : layout.Goes (asking field hi key cx dx mem stack world layout false ⟨.eingabe2, 1⟩)
      (asking field hi key cx dx mem stack world layout (decide (key = 0x11)) ⟨.go2, 1⟩) :=
    goes_run 2 rfl
  rw [decide_eq_false notPlus] at plus
  rw [decide_eq_false notMinus] at minus
  rw [decide_eq_false notEnter] at enter
  exact ((plus.trans minus).trans enter).trans go

/-- Go selects the next field. -/
private theorem goes_select :
    ∃ zf', layout.Goes (asking field hi key cx dx mem stack world layout true ⟨.go2, 1⟩)
      (asking field.next hi key cx dx mem stack world layout zf' ⟨.nochmal2, 0⟩) := by
  have first : layout.Goes (asking field hi key cx dx mem stack world layout true ⟨.go2, 1⟩)
      (asking field hi key cx dx mem stack world layout
        (decide ((Pair.ofWord (layout.address field.cell)).word = layout.address .stu))
        ⟨.go2, 3⟩) := goes_run 2 rfl
  have second : layout.Goes (asking field hi key cx dx mem stack world layout false ⟨.go2, 3⟩)
      (asking field hi key cx dx mem stack world layout
        (decide ((Pair.ofWord (layout.address field.cell)).word = layout.address .min))
        ⟨.minset, 1⟩) := goes_run 2 rfl
  rw [Pair.word_ofWord] at first second
  simp only [Layout.address_inj] at first second
  cases field with
  | hours => exact ⟨_, first.trans (goes_run 3 rfl)⟩
  | minutes => exact ⟨_, (first.trans second).trans (goes_run 3 rfl)⟩
  | seconds => exact ⟨_, (first.trans second).trans (goes_run 3 rfl)⟩

/-- The second part of a pass: a key other than Enter does what it is for. -/
private theorem goes_pressed (zf : Bool) (other : key ≠ 0x10) :
    ∃ zf', layout.Goes (asking field hi key cx dx mem stack world layout zf ⟨.se, 5⟩)
      (asking (pressed layout key field mem).1 hi key cx dx (pressed layout key field mem).2 stack
        world layout zf' ⟨.nochmal2, 0⟩) := by
  unfold pressed
  by_cases isPlus : key = 0x16
  · subst isPlus
    exact ⟨_, goes_plus field hi cx dx mem stack world zf⟩
  · rw [if_neg isPlus]
    by_cases isMinus : key = 0x17
    · subst isMinus
      exact ⟨_, goes_minus field hi cx dx mem stack world zf⟩
    · rw [if_neg isMinus]
      have asked := @goes_other layout field hi key cx dx mem stack world zf isPlus isMinus other
      by_cases isGo : key = 0x11
      · rw [decide_eq_true isGo] at asked
        rw [if_pos isGo]
        obtain ⟨zf', select⟩ := @goes_select layout field hi key cx dx mem stack world
        exact ⟨zf', asked.trans select⟩
      · rw [decide_eq_false isGo] at asked
        rw [if_neg isGo]
        exact ⟨_, asked.trans (goes_run 1 rfl)⟩

end Keys

/-- The loop of `uhrstellen` up to the wait for the key behind some keys without Enter. -/
private theorem goes_setting (field : Field) (ax cx dx : Pair) (zf : Bool) {mem : Word → Byte}
    (constants : Constants layout mem) (stack : List (Slot Label)) (world : World)
    (keys later : List Byte) (others : 0x10 ∉ keys) :
    ∃ lo bx, ∃ world' : World,
      world'.digits =
        world.digits ++ (displays layout keys field mem).flatMap (timeDigits layout) ∧
      layout.Goes
        ⟨⟨ax, .ofWord (layout.address field.cell), cx, dx⟩, zf, false, mem, stack,
          ⟨.nochmal2, 0⟩, { world with keys := keys ++ later }⟩
        ⟨⟨⟨1, lo⟩, bx, cx, dx⟩, true, false, setting layout keys field mem, stack, ⟨.se, 4⟩,
          { world' with keys := later }⟩ := by
  induction keys generalizing field ax zf mem world with
  | nil =>
      obtain ⟨lo, world', shown, goes⟩ := goes_prompt ax (.ofWord (layout.address field.cell)) cx dx
        zf constants stack { world with keys := later }
      refine ⟨lo, _, world', ?_, goes⟩
      rw [shown, displays, List.flatMap_singleton]
      rfl
  | cons key keys ih =>
      rw [List.mem_cons, not_or] at others
      obtain ⟨lo, world₁, shown, prompt⟩ := goes_prompt ax (.ofWord (layout.address field.cell)) cx
        dx zf constants stack { world with keys := key :: (keys ++ later) }
      obtain ⟨hi, world₂, same, read⟩ := @goes_readKey layout lo
        (.ofWord (layout.address field.cell)) cx dx true (normalised layout mem) stack world₁ key
        (keys ++ later)
      obtain ⟨zf₁, press⟩ := goes_pressed field hi key cx dx (normalised layout mem) stack
        { world₂ with keys := keys ++ later } true (Ne.symm others.1)
      have constants := pressed_constants (normalised_constants constants) key field
      obtain ⟨lo', bx, world', shown', rest⟩ := ih
        (pressed layout key field (normalised layout mem)).1 ⟨hi, key⟩ zf₁ constants world₂ others.2
      refine ⟨lo', bx, world', ?_, ((prompt.trans read).trans press).trans rest⟩
      rw [shown', same, shown, displays, List.flatMap_cons, ← List.append_assoc]
      rfl

/-- What `uhrstellen` saves, selects and goes on with. -/
private theorem goes_start (regs : Registers) (zf : Bool) (mem : Word → Byte) (p : Address Label)
    (world : World) :
    layout.Goes ⟨regs, zf, false, mem, [.back p], ⟨.uhrstellen, 0⟩, world⟩
      ⟨⟨regs.ax, .ofWord (layout.address Field.hours.cell), regs.cx, regs.dx⟩, zf, false, mem,
        [.word regs.cx, .word regs.bx, .word regs.ax, .back p], ⟨.nochmal2, 0⟩, world⟩ := by
  obtain ⟨ax, bx, cx, dx⟩ := regs
  exact goes_run 4 rfl

/-- Without Enter `uhrstellen` comes to wait for a key. -/
theorem goes_uhrstellen_wait (regs : Registers) (zf : Bool) {mem : Word → Byte}
    (constants : Constants layout mem) (p : Address Label) (world : World)
    (keys later : List Byte) (others : 0x10 ∉ keys) :
    ∃ lo bx, ∃ world' : World,
      world'.digits =
        world.digits ++ (displays layout keys .hours mem).flatMap (timeDigits layout) ∧
      layout.Goes
        ⟨regs, zf, false, mem, [.back p], ⟨.uhrstellen, 0⟩, { world with keys := keys ++ later }⟩
        ⟨⟨⟨1, lo⟩, bx, regs.cx, regs.dx⟩, true, false, setting layout keys .hours mem,
          [.word regs.cx, .word regs.bx, .word regs.ax, .back p], ⟨.se, 4⟩,
          { world' with keys := later }⟩ := by
  obtain ⟨lo, bx, world', shown, loop⟩ := goes_setting .hours regs.ax regs.cx regs.dx zf constants
    [.word regs.cx, .word regs.bx, .word regs.ax, .back p] world keys later others
  exact ⟨lo, bx, world', shown, (goes_start regs zf mem p _).trans loop⟩

/-- At Enter it returns, and has shown the time once for every key. -/
theorem goes_uhrstellen_shown (regs : Registers) (zf : Bool) {mem : Word → Byte}
    (constants : Constants layout mem) (p : Address Label) (world : World)
    (keys later : List Byte) (others : 0x10 ∉ keys) :
    ∃ zf', ∃ world' : World,
      world'.digits =
        world.digits ++ (displays layout keys .hours mem).flatMap (timeDigits layout) ∧
      layout.Goes
        ⟨regs, zf, false, mem, [.back p], ⟨.uhrstellen, 0⟩,
          { world with keys := keys ++ 0x10 :: later }⟩
        ⟨regs, zf', false, setting layout keys .hours mem, [], p,
          { world' with keys := later }⟩ := by
  obtain ⟨lo, bx, world₁, shown, wait⟩ := goes_uhrstellen_wait regs zf constants p world keys
    (0x10 :: later) others
  obtain ⟨ax, bx₀, cx, dx⟩ := regs
  obtain ⟨hi, world', same, read⟩ := @goes_readKey layout lo bx cx dx true
    (setting layout keys .hours mem) [.word cx, .word bx₀, .word ax, .back p] world₁ 0x10 later
  refine ⟨_, world', same.trans shown, (wait.trans read).trans (goes_run 11 rfl)⟩

/-- **`uhrstellen` returns at the first Enter**, with its registers as before and the time
that the keys have set. -/
theorem goes_uhrstellen (regs : Registers) (zf : Bool) {mem : Word → Byte}
    (constants : Constants layout mem) (p : Address Label) (world : World)
    (keys later : List Byte) (others : 0x10 ∉ keys) :
    ∃ zf', ∃ world' : World, layout.Goes
      ⟨regs, zf, false, mem, [.back p], ⟨.uhrstellen, 0⟩,
        { world with keys := keys ++ 0x10 :: later }⟩
      ⟨regs, zf', false, setting layout keys .hours mem, [], p, { world' with keys := later }⟩ := by
  obtain ⟨zf', world', -, goes⟩ := goes_uhrstellen_shown regs zf constants p world keys later others
  exact ⟨zf', world', goes⟩

end CPrograms.PemeClock
