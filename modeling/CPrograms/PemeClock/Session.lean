import CPrograms.PemeClock.Dial
import CPrograms.PemeClock.Safety
import CPrograms.PemeClock.Viewer

/-!
# A whole session with the clock

The program from its first instruction on: the clock is set, the interrupt is switched on, an
address is read, and the main loop serves presses, while the timer interrupts. The parts are put
together, so that the time, the address and the calls at the end are known for every
interleaving.
-/

namespace CPrograms.PemeClock

open Library I8086

variable {layout : Layout}

/-! ## Until the clock is set -/

/-- The labels of `uhrstellen` and of what it calls. -/
def settingLabels : List Label :=
  [.uhrstellen, .nochmal2, .st, .mi, .se, .minus2, .eingabe2, .go2, .minset, .sekset,
    .stellenReturn, .uhrzeitausgeben, .printdec]

/-- The addresses of the program until the clock is set. -/
def Setting (pc : Address Label) : Prop :=
  pc.label ∈ settingLabels ∨ pc = ⟨.program, 0⟩ ∨ pc = ⟨.program, 1⟩

instance decidableSetting : DecidablePred Setting :=
  fun _ => inferInstanceAs (Decidable (_ ∨ _ ∨ _))

/-- The one service of `int 5` that `uhrstellen` asks for is a key. -/
def keyAt (pc : Address Label) : Instr Label Cell → Bool
  | .int 5 => asked pc = some (.ah, 1)
  | _ => true

private theorem code_setting : ∀ label ∈ .program :: settingLabels,
    ∀ offset ∈ List.range (code label).length, Setting ⟨label, offset⟩ →
    ∀ instr ∈ (code label)[offset]?, instr.plain = true →
      (∀ l ∈ instr.targets, Setting ⟨l, 0⟩) ∧
        (instr.continues = true → Setting (text.next ⟨label, offset⟩)) ∧
        asked.Keeps ⟨label, offset⟩ (text.next ⟨label, offset⟩) instr ∧
        keyAt ⟨label, offset⟩ instr = true := by
  decide +kernel

/-- A state of the program before the clock is set, with no address taken from the input. -/
structure Adjusts (typed : List Word) (machine : Machine) : Prop where
  confined : machine.Confined Setting
  asked : asked.Hold machine.pc machine
  typed : machine.world.typed = typed

/-- A key is read without touching the typed addresses. -/
theorem typed_of_key {regs : Registers} {world world' : World} {ax : Pair} (key : regs.ax.hi = 1)
    (served : monitor.service 5 regs world = some (ax, world')) : world'.typed = world.typed := by
  simp only [monitor, key, ↓reduceIte] at served
  split at served <;> cases served
  rfl

/-- Until the clock is set no address is taken from the input. -/
theorem Adjusts.step {typed : List Word} (machine next : Machine) (adjusts : Adjusts typed machine)
    (stepped : layout.program.plainStep monitor machine = some next) : Adjusts typed next := by
  obtain ⟨instr, fetched, executed⟩ := Option.bind_eq_some_iff.mp stepped
  split at executed
  · next plain =>
      obtain ⟨place, -⟩ := List.getElem?_eq_some_iff.mp fetched
      have label : machine.pc.label ∈ .program :: settingLabels := by
        rcases adjusts.confined.pc with member | start | set
        · exact List.mem_cons_of_mem _ member
        · exact start ▸ List.mem_cons_self
        · exact set ▸ List.mem_cons_self
      obtain ⟨targets, onward, known, key⟩ := code_setting machine.pc.label label
        machine.pc.offset (List.mem_range.mpr place) adjusts.confined.pc instr fetched plain
      refine ⟨Program.confined_exec ?_ targets ?_ executed,
        Facts.Hold.exec ?_ ?_ known executed, ?_⟩
      · exact onward
      · exact adjusts.confined.stack
      · exact ⟨adjusts.asked.here, adjusts.asked.back⟩
      · exact fun back zf interrupts member => adjusts.confined.stack _ member
      · rw [← adjusts.typed]
        cases asking : asks instr with
        | false => exact (input_exec asking executed).2
        | true =>
            unfold asks at asking
            split at asking
            · obtain ⟨⟨ax, world⟩, served, rfl⟩ := Option.map_eq_some_iff.mp executed
              exact typed_of_key (adjusts.asked.here _ (of_decide_eq_true key)) served
            · cases asking
  · cases executed

/-- A time of day in seconds. -/
def TimeOfDay.seconds (time : TimeOfDay) : Nat :=
  time .hours * 3600 + time .minutes * 60 + time .seconds

/-- The program is loaded with a time of day. -/
theorem Loaded.holds {mem : Word → Byte} (loaded : Loaded layout mem) :
    Holds layout mem sampleTime := by
  intro field
  cases field with
  | hours => exact (congrArg BitVec.toNat loaded.stu).trans rfl
  | minutes => exact (congrArg BitVec.toNat loaded.min).trans rfl
  | seconds => exact (congrArg BitVec.toNat loaded.sek).trans rfl

end CPrograms.PemeClock
