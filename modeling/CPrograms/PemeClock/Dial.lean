import CPrograms.PemeClock.Setting

/-!
# The dial of the clock

What setting the clock is for, in terms of a time of day and a selected field: plus and
minus turn the selected field around its range, go selects the next field. `uhrstellen`
steps the bytes of the fields out of range and repairs them in the next pass; what it shows,
and what it returns with, are the positions of the dial.
-/

namespace CPrograms.PemeClock

open Library I8086

/-- How many values a field has. -/
def Field.size : Field → Nat
  | hours => 24
  | minutes => 60
  | seconds => 60

instance fieldSizeNeZero (field : Field) : NeZero field.size :=
  ⟨by cases field <;> decide⟩

/-- The limit of a field is its size. -/
theorem Field.toNat_limit (field : Field) : field.limit.toNat = field.size := by
  cases field <;> rfl

/-- No field has more than sixty values. -/
theorem Field.size_le (field : Field) : field.size ≤ 60 := by
  cases field <;> decide

/-- A time of day. -/
abbrev TimeOfDay := (field : Field) → Fin field.size

/-- The decimal digits of a time of day, each with its position. -/
def TimeOfDay.digits (time : TimeOfDay) : List (Byte × Byte) :=
  [Field.hours, .minutes, .seconds].flatMap fun field => field.digits (time field)

/-- A time of day and the field that plus and minus change. -/
structure Dial where
  selected : Field
  time : TimeOfDay

namespace Dial

/-- Change the selected field. -/
def turn (dial : Dial) (change : Fin dial.selected.size → Fin dial.selected.size) : Dial :=
  { dial with time := Function.update dial.time dial.selected (change (dial.time dial.selected)) }

/-- What a key other than Enter is for. -/
def press (dial : Dial) (key : Byte) : Dial :=
  if key = 0x16 then dial.turn (· + 1)
  else if key = 0x17 then dial.turn (· - 1)
  else if key = 0x11 then { dial with selected := dial.selected.next }
  else dial

/-- Turning changes the selected field. -/
theorem turn_self (dial : Dial) (change : Fin dial.selected.size → Fin dial.selected.size) :
    (dial.turn change).time dial.selected = change (dial.time dial.selected) :=
  Function.update_self _ _ _

/-- Turning leaves the other fields alone. -/
theorem turn_of_ne (dial : Dial) (change : Fin dial.selected.size → Fin dial.selected.size)
    {field : Field} (other : field ≠ dial.selected) :
    (dial.turn change).time field = dial.time field :=
  Function.update_of_ne other _ _

end Dial

/-- The fields in memory are a time of day. -/
def Holds (layout : Layout) (mem : Word → Byte) (time : TimeOfDay) : Prop :=
  ∀ field, (mem (layout.address field.cell)).toNat = (time field : Nat)

/-! ## Bytes out of range -/

namespace Field

/-- The normal form of a byte: -1 becomes the largest value, everything else a remainder. -/
theorem toNat_normal (field : Field) (value : Byte) :
    (field.normal value).toNat =
      (if value.toNat = 255 then field.size - 1 else value.toNat) % field.size := by
  by_cases top : value = 255
  · subst top
    cases field <;> rfl
  · have notTop : value.toNat ≠ 255 := fun same => top (BitVec.eq_of_toNat_eq same)
    have small := field.size_le
    have bound := Nat.mod_lt value.toNat (Nat.pos_of_ne_zero (NeZero.ne field.size))
    rw [normal, if_neg top, if_neg notTop, toNat_limit, BitVec.toNat_ofNat,
      Nat.mod_eq_of_lt (by omega)]

variable {field : Field} {value : Byte} {n : Fin field.size}

/-- A byte in range stays. -/
theorem toNat_normal_self (same : value.toNat = n) : (field.normal value).toNat = n := by
  have small := field.size_le
  rw [toNat_normal, if_neg (by omega), same, Nat.mod_eq_of_lt n.isLt]

/-- One step up is taken around the range. -/
theorem toNat_normal_add_one (same : value.toNat = n) :
    (field.normal (value + 1)).toNat = (n + 1 : Fin field.size) := by
  have small := field.size_le
  have bound := n.isLt
  have next : (value + 1).toNat = n + 1 := by
    rw [BitVec.toNat_add, same]
    exact Nat.mod_eq_of_lt (show (n : Nat) + 1 < 256 by omega)
  rw [toNat_normal, next, if_neg (by omega), Fin.val_add, Fin.val_one', Nat.add_mod_mod]

/-- One step down too, through the byte 255. -/
theorem toNat_normal_sub_one (same : value.toNat = n) :
    (field.normal (value - 1)).toNat = (n - 1 : Fin field.size) := by
  have small := field.size_le
  have more : 1 < field.size := by cases field <;> decide
  have bound := n.isLt
  have one : ((1 : Fin field.size) : Nat) = 1 := by
    rw [Fin.val_one', Nat.mod_eq_of_lt more]
  have down : ((n - 1 : Fin field.size) : Nat) = (field.size - 1 + n) % field.size := by
    rw [Fin.sub_def, one]
  have before : (value - 1).toNat = (255 + n) % 256 := by
    rw [BitVec.toNat_sub, same]
    rfl
  rw [toNat_normal, before, down]
  rcases Nat.eq_zero_or_pos (n : Nat) with zero | positive
  · rw [zero]
    rfl
  · have wrapped : (255 + n) % 256 = (n : Nat) - 1 := by omega
    have turned : field.size - 1 + n = (n : Nat) - 1 + field.size := by omega
    rw [wrapped, if_neg (by omega), turned, Nat.add_mod_right]

end Field

variable {layout : Layout} {mem : Word → Byte}

/-- A time of day is left as it is by the normal form. -/
theorem holds_normalised {time : TimeOfDay} (holds : Holds layout mem time) :
    Holds layout (normalised layout mem) time := by
  intro field
  rw [normalised_apply]
  exact Field.toNat_normal_self (holds field)

/-- A change of the selected byte that is repaired to a turn of the field. -/
theorem holds_adjust (dial : Dial) (holds : Holds layout mem dial.time) (change : Byte → Byte)
    (turned : Fin dial.selected.size → Fin dial.selected.size)
    (repaired : ∀ (value : Byte) (n : Fin dial.selected.size), value.toNat = n →
      (dial.selected.normal (change value)).toNat = turned n) :
    Holds layout (normalised layout (adjust layout dial.selected change mem))
      (dial.turn turned).time := by
  intro field
  rw [normalised_apply]
  by_cases same : field = dial.selected
  · rw [same, adjust_self, Dial.turn_self]
    exact repaired _ _ (holds dial.selected)
  · have other : field.cell ≠ dial.selected.cell := fun equal => same (Field.cell_injective equal)
    rw [adjust_of_ne other, Dial.turn_of_ne dial turned same]
    exact Field.toNat_normal_self (holds field)

/-- **A key turns the dial.** After a key other than Enter and the repair of the next pass the
memory holds what the dial shows. -/
theorem holds_pressed (dial : Dial) (holds : Holds layout mem dial.time) (key : Byte) :
    (pressed layout key dial.selected mem).1 = (dial.press key).selected ∧
      Holds layout (normalised layout (pressed layout key dial.selected mem).2)
        (dial.press key).time := by
  by_cases plus : key = 0x16
  · rw [pressed, Dial.press, if_pos plus, if_pos plus]
    exact ⟨rfl, holds_adjust dial holds (· + 1) (· + 1) fun _ _ => Field.toNat_normal_add_one⟩
  · by_cases minus : key = 0x17
    · rw [pressed, Dial.press, if_neg plus, if_pos minus, if_neg plus, if_pos minus]
      exact ⟨rfl, holds_adjust dial holds (· - 1) (· - 1) fun _ _ => Field.toNat_normal_sub_one⟩
    · rw [pressed, Dial.press, if_neg plus, if_neg minus, if_neg plus, if_neg minus]
      by_cases go : key = 0x11
      · rw [if_pos go, if_pos go]
        exact ⟨rfl, holds_normalised holds⟩
      · rw [if_neg go, if_neg go]
        exact ⟨rfl, holds_normalised holds⟩

/-- The memory that keys set is the position they turn the dial to. -/
theorem holds_setting (dial : Dial) (holds : Holds layout (normalised layout mem) dial.time)
    (keys : List Byte) :
    Holds layout (setting layout keys dial.selected mem) (keys.foldl Dial.press dial).time := by
  induction keys generalizing dial mem with
  | nil => exact holds
  | cons key keys ih =>
      obtain ⟨selects, turned⟩ := holds_pressed dial holds key
      rw [setting, List.foldl_cons, selects]
      exact ih _ turned

/-- The digits in memory are those of the time it holds. -/
theorem timeDigits_of_holds {time : TimeOfDay} (holds : Holds layout mem time) :
    timeDigits layout mem = time.digits := by
  simp only [timeDigits, TimeOfDay.digits, List.flatMap_cons, List.flatMap_nil, holds _]

/-- What is shown are the positions of the dial. -/
theorem flatMap_displays (dial : Dial) (holds : Holds layout (normalised layout mem) dial.time)
    (keys : List Byte) :
    (displays layout keys dial.selected mem).flatMap (timeDigits layout) =
      (keys.scanl Dial.press dial).flatMap fun dial => dial.time.digits := by
  induction keys generalizing dial mem with
  | nil => rw [displays, List.scanl_nil, List.flatMap_singleton, List.flatMap_singleton,
      timeDigits_of_holds holds]
  | cons key keys ih =>
      obtain ⟨selects, turned⟩ := holds_pressed dial holds key
      rw [displays, List.scanl_cons, List.flatMap_cons, List.flatMap_cons,
        timeDigits_of_holds holds, selects, ih _ turned]

/-! ## Setting the clock -/

/-- **Setting the clock turns the dial.** From a time of day in memory and for any keys without
Enter, `uhrstellen` has shown the position of the dial before the first key and after each of
them, in decimal digits, and waits for another key. When the next key is Enter, it returns to its
caller with the registers as before, the position of the dial in memory and the rest of the
memory untouched. -/
theorem uhrstellen_turns_dial (layout : Layout) (mem : Word → Byte)
    (constants : Constants layout mem) (time : TimeOfDay) (valid : Holds layout mem time)
    (regs : Registers) (zf interrupts : Bool) (stack : List (Slot Label)) (p : Address Label)
    (world : World) (keys : List Byte) (others : 0x10 ∉ keys) :
    (∃ waiting : Machine,
      Library.Goes (layout.program.step monitor)
        ⟨regs, zf, interrupts, mem, .back p :: stack, ⟨.uhrstellen, 0⟩,
          { world with keys := keys }⟩ waiting ∧
      waiting.pc = ⟨.se, 4⟩ ∧ .back p :: stack <:+ waiting.stack ∧
      layout.program.step monitor waiting = none ∧
      Holds layout waiting.mem (keys.foldl Dial.press ⟨.hours, time⟩).time ∧
      waiting.world.digits = world.digits ++
        (keys.scanl Dial.press ⟨.hours, time⟩).flatMap fun dial => dial.time.digits) ∧
    ∀ later, ∃ final : Machine,
      Library.Goes (layout.program.step monitor)
        ⟨regs, zf, interrupts, mem, .back p :: stack, ⟨.uhrstellen, 0⟩,
          { world with keys := keys ++ 0x10 :: later }⟩ final ∧
      final.pc = p ∧ final.stack = stack ∧ final.regs = regs ∧ final.world.keys = later ∧
      Holds layout final.mem (keys.foldl Dial.press ⟨.hours, time⟩).time ∧
      (∀ a, (∀ field : Field, a ≠ layout.address field.cell) → final.mem a = mem a) ∧
      final.world.digits = world.digits ++
        (keys.scanl Dial.press ⟨.hours, time⟩).flatMap fun dial => dial.time.digits := by
  have holds : Holds layout (normalised layout mem) (Dial.mk .hours time).time :=
    holds_normalised valid
  have set := holds_setting _ holds keys
  have shows := flatMap_displays _ holds keys
  constructor
  · obtain ⟨lo, bx, world', shown, goes⟩ := goes_uhrstellen_wait regs zf constants p world keys []
      others
    rw [List.append_nil] at goes
    have within := Program.goes_step (Program.goes_within goes stack interrupts)
    refine ⟨_, within, rfl, ?_, rfl, set, shown.trans (by rw [shows])⟩
    exact ⟨[.word regs.cx, .word regs.bx, .word regs.ax], rfl⟩
  · intro later
    obtain ⟨zf', world', shown, goes⟩ := goes_uhrstellen_shown regs zf constants p world keys later
      others
    have within := Program.goes_step (Program.goes_within goes stack interrupts)
    exact ⟨_, within, rfl, rfl, rfl, rfl, set,
      fun a outside => setting_of_outside outside keys .hours mem, shown.trans (by rw [shows])⟩

/-- The time the program is loaded with. -/
def sampleTime : TimeOfDay
  | .hours => 18
  | .minutes => 0
  | .seconds => 0

/-- The sample data hold the sample time. -/
theorem sampleData_holds : Holds sampleLayout sampleData sampleTime := by
  intro field
  cases field <;> decide

/-- From 18:00:00 the keys minus, go, minus, Enter set 17:59:00. -/
theorem uhrstellen_turns_dial_sample :
    ∃ final : Machine, Library.Goes (sampleLayout.program.step monitor)
        ⟨⟨⟨0, 0⟩, ⟨0, 0⟩, ⟨0, 0⟩, ⟨0, 0⟩⟩, false, false, sampleData, [.back ⟨.program, 1⟩],
          ⟨.uhrstellen, 0⟩, { sampleWorld with keys := [0x17, 0x11, 0x17, 0x10] }⟩ final ∧
      final.pc = ⟨.program, 1⟩ ∧ (final.mem (sampleLayout.address .stu)).toNat = 17 ∧
      (final.mem (sampleLayout.address .min)).toNat = 59 ∧
      (final.mem (sampleLayout.address .sek)).toNat = 0 := by
  obtain ⟨-, returns⟩ := uhrstellen_turns_dial sampleLayout sampleData sampleData_constants
    sampleTime sampleData_holds ⟨⟨0, 0⟩, ⟨0, 0⟩, ⟨0, 0⟩, ⟨0, 0⟩⟩ false false [] ⟨.program, 1⟩
    sampleWorld [0x17, 0x11, 0x17] (by decide)
  obtain ⟨final, goes, pc, -, -, -, holds, -⟩ := returns []
  exact ⟨final, goes, pc, holds .hours, holds .minutes, holds .seconds⟩

end CPrograms.PemeClock
