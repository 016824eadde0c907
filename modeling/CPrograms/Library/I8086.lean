import CPrograms.Library.Runs
import Mathlib.Data.BitVec
import Mathlib.Logic.Function.Basic

/-!
# A small 8086

The instructions of the 8086 that small assembler programs are written in, with the
zero flag and the interrupt flag. A program is given by its labelled blocks and by the
addresses of its named memory cells. The stack is a list apart from the memory. Software
interrupts are services of a monitor, which change `ax` and the world outside and nothing
else; the frame of flags and address that `int` pushes is popped by the service, and is left out.
A hardware interrupt saves where the program was and enters a routine that ends with `iret`.

Code that neither touches the interrupt flag nor returns from an interrupt is plain. It
runs in the same way above any stack and with any interrupt flag (`Program.goes_within`), so its
effect is computed once, above the empty stack.
-/

namespace CPrograms.Library.I8086

abbrev Byte := BitVec 8

abbrev Word := BitVec 16

/-- A register of sixteen bits as its two bytes. -/
structure Pair where
  hi : Byte
  lo : Byte
  deriving DecidableEq

namespace Pair

/-- The number in a register. -/
def word (pair : Pair) : Word := pair.hi ++ pair.lo

/-- The register that holds a number. -/
def ofWord (w : Word) : Pair := ⟨w.extractLsb' 8 8, w.extractLsb' 0 8⟩

/-- A number that is put into a register is the number in it. -/
@[simp] theorem word_ofWord (w : Word) : (ofWord w).word = w := by
  apply BitVec.eq_of_getLsbD_eq
  intro i _
  simp only [word, ofWord, BitVec.getLsbD_append, BitVec.getLsbD_extractLsb']
  split
  · simp_all
  · rename_i bound _
    simp only [show i - 8 < 8 by omega, decide_true, Bool.true_and]
    congr 1
    omega

end Pair

/-- The registers of sixteen bits. -/
inductive WordReg where
  | ax | bx | cx | dx
  deriving DecidableEq

/-- The registers of eight bits. -/
inductive ByteReg where
  | al | ah | bl | bh | cl | ch | dl | dh
  deriving DecidableEq

/-- The four registers that programs here use. -/
structure Registers where
  ax : Pair
  bx : Pair
  cx : Pair
  dx : Pair
  deriving DecidableEq

namespace Registers

/-- The register of a name. -/
def pair (regs : Registers) : WordReg → Pair
  | .ax => regs.ax
  | .bx => regs.bx
  | .cx => regs.cx
  | .dx => regs.dx

/-- Write a register. -/
def setPair (regs : Registers) : WordReg → Pair → Registers
  | .ax, value => { regs with ax := value }
  | .bx, value => { regs with bx := value }
  | .cx, value => { regs with cx := value }
  | .dx, value => { regs with dx := value }

/-- The byte register of a name. -/
def byte (regs : Registers) : ByteReg → Byte
  | .al => regs.ax.lo
  | .ah => regs.ax.hi
  | .bl => regs.bx.lo
  | .bh => regs.bx.hi
  | .cl => regs.cx.lo
  | .ch => regs.cx.hi
  | .dl => regs.dx.lo
  | .dh => regs.dx.hi

/-- Write a byte register. -/
def setByte (regs : Registers) : ByteReg → Byte → Registers
  | .al, value => { regs with ax := ⟨regs.ax.hi, value⟩ }
  | .ah, value => { regs with ax := ⟨value, regs.ax.lo⟩ }
  | .bl, value => { regs with bx := ⟨regs.bx.hi, value⟩ }
  | .bh, value => { regs with bx := ⟨value, regs.bx.lo⟩ }
  | .cl, value => { regs with cx := ⟨regs.cx.hi, value⟩ }
  | .ch, value => { regs with cx := ⟨value, regs.cx.lo⟩ }
  | .dl, value => { regs with dx := ⟨regs.dx.hi, value⟩ }
  | .dh, value => { regs with dx := ⟨value, regs.dx.lo⟩ }

end Registers

universe u v w

/-- Where a byte can be written: a register, a named memory cell, or the cell `[bx]`. -/
inductive Place (Cell : Type v) where
  | reg (r : ByteReg)
  | cell (c : Cell)
  | atBx

/-- Where a byte can be read. -/
inductive Source (Cell : Type v) where
  | place (p : Place Cell)
  | imm (value : Byte)

/-- The instructions. `movOffset` and `cmpOffset` take the address of a cell as their
operand, `movEntry` that of a label; `storePair` writes a register to two neighbouring
cells; `delay` is a jump to the next instruction. -/
inductive Instr (Label : Type u) (Cell : Type v) where
  | mov (dst : Place Cell) (src : Source Cell)
  | movImm (dst : WordReg) (value : Word)
  | movOffset (dst : WordReg) (c : Cell)
  | movEntry (dst : WordReg) (l : Label)
  | movPair (dst src : WordReg)
  | storePair (low high : Cell) (src : WordReg)
  | add (dst : Place Cell) (src : Source Cell)
  | and (dst : Place Cell) (src : Source Cell)
  | cmp (dst : Place Cell) (src : Source Cell)
  | cmpOffset (dst : WordReg) (c : Cell)
  | inc (dst : Place Cell)
  | dec (dst : Place Cell)
  | incPair (dst : WordReg)
  | decPair (dst : WordReg)
  | div (src : Source Cell)
  | push (src : WordReg)
  | pop (dst : WordReg)
  | jmp (l : Label)
  | jne (l : Label)
  | call (l : Label)
  | ret
  | iret
  | delay
  | cli
  | sti
  | int (number : Nat)
  | input (port : Byte)
  | output (port : Byte)

/-- A place in the code: a label and how many instructions behind it. -/
structure Address (Label : Type u) where
  label : Label
  offset : Nat
  deriving DecidableEq

/-- A stack entry: a pushed register, a return address, or what an interrupt saved. -/
inductive Slot (Label : Type u) where
  | word (value : Pair)
  | back (pc : Address Label)
  | frame (pc : Address Label) (zf interrupts : Bool)

/-- Blocks of code with the label each runs on into, and the addresses of the memory cells
and of the labels. -/
structure Program (Label : Type u) (Cell : Type v) where
  code : Label → List (Instr Label Cell)
  following : Label → Label
  address : Cell → Word
  entry : Label → Word

/-- The world outside: what a software interrupt leaves in `ax`, and the ports. A service
that has no result waits. -/
structure Monitor (World : Type w) where
  service : Nat → Registers → World → Option (Pair × World)
  input : Byte → World → Byte
  output : Byte → Byte → World → World

/-- The state of the machine and of the world outside. -/
structure State (Label : Type u) (World : Type w) where
  regs : Registers
  zf : Bool
  interrupts : Bool
  mem : Word → Byte
  stack : List (Slot Label)
  pc : Address Label
  world : World

variable {Label : Type u} {Cell : Type v} {World : Type w}

namespace Program

variable (program : Program Label Cell)

/-- The instruction at an address. -/
def fetch (pc : Address Label) : Option (Instr Label Cell) := (program.code pc.label)[pc.offset]?

/-- The instruction behind one, in its block or at the head of the following one. -/
def next (pc : Address Label) : Address Label :=
  if pc.offset + 1 < (program.code pc.label).length then ⟨pc.label, pc.offset + 1⟩
  else ⟨program.following pc.label, 0⟩

/-- The byte at a place. -/
def peek (state : State Label World) : Place Cell → Byte
  | .reg r => state.regs.byte r
  | .cell c => state.mem (program.address c)
  | .atBx => state.mem state.regs.bx.word

/-- The byte of a source operand. -/
def read (state : State Label World) : Source Cell → Byte
  | .place p => program.peek state p
  | .imm value => value

/-- Write a byte to a place. -/
def write (state : State Label World) : Place Cell → Byte → State Label World
  | .reg r, value => { state with regs := state.regs.setByte r value }
  | .cell c, value => { state with mem := Function.update state.mem (program.address c) value }
  | .atBx, value => { state with mem := Function.update state.mem state.regs.bx.word value }

variable (monitor : Monitor World)

/-- The effect of an instruction, once the program counter is behind it. A division whose
quotient does not fit a byte has none, nor has a pop or return from the wrong kind of
stack entry. The zero flag, which a division leaves undefined, is left alone. -/
def exec (state : State Label World) : Instr Label Cell → Option (State Label World)
  | .mov dst src => some (program.write state dst (program.read state src))
  | .movImm dst value => some { state with regs := state.regs.setPair dst (.ofWord value) }
  | .movOffset dst c =>
      some { state with regs := state.regs.setPair dst (.ofWord (program.address c)) }
  | .movEntry dst l =>
      some { state with regs := state.regs.setPair dst (.ofWord (program.entry l)) }
  | .movPair dst src =>
      some { state with regs := state.regs.setPair dst (state.regs.pair src) }
  | .storePair low high src =>
      some { state with
        mem := Function.update
          (Function.update state.mem (program.address low) (state.regs.pair src).lo)
          (program.address high) (state.regs.pair src).hi }
  | .add dst src =>
      let result := program.peek state dst + program.read state src
      some { program.write state dst result with zf := decide (result = 0) }
  | .and dst src =>
      let result := program.peek state dst &&& program.read state src
      some { program.write state dst result with zf := decide (result = 0) }
  | .cmp dst src =>
      some { state with zf := decide (program.peek state dst = program.read state src) }
  | .cmpOffset dst c =>
      some { state with zf := decide ((state.regs.pair dst).word = program.address c) }
  | .inc dst =>
      let result := program.peek state dst + 1
      some { program.write state dst result with zf := decide (result = 0) }
  | .dec dst =>
      let result := program.peek state dst - 1
      some { program.write state dst result with zf := decide (result = 0) }
  | .incPair dst =>
      let result := (state.regs.pair dst).word + 1
      some { state with regs := state.regs.setPair dst (.ofWord result), zf := decide (result = 0) }
  | .decPair dst =>
      let result := (state.regs.pair dst).word - 1
      some { state with regs := state.regs.setPair dst (.ofWord result), zf := decide (result = 0) }
  | .div src =>
      let dividend := state.regs.ax.word.toNat
      let divisor := (program.read state src).toNat
      if divisor = 0 ∨ 256 ≤ dividend / divisor then none
      else some { state with regs := { state.regs with
        ax := ⟨.ofNat 8 (dividend % divisor), .ofNat 8 (dividend / divisor)⟩ } }
  | .push src => some { state with stack := .word (state.regs.pair src) :: state.stack }
  | .pop dst =>
      match state.stack with
      | .word value :: stack =>
          some { state with regs := state.regs.setPair dst value, stack := stack }
      | _ => none
  | .jmp l => some { state with pc := ⟨l, 0⟩ }
  | .jne l => some { state with pc := if state.zf then state.pc else ⟨l, 0⟩ }
  | .call l => some { state with stack := .back state.pc :: state.stack, pc := ⟨l, 0⟩ }
  | .ret =>
      match state.stack with
      | .back pc :: stack => some { state with stack := stack, pc := pc }
      | _ => none
  | .iret =>
      match state.stack with
      | .frame pc zf interrupts :: stack =>
          some { state with stack := stack, pc := pc, zf := zf, interrupts := interrupts }
      | _ => none
  | .delay => some state
  | .cli => some { state with interrupts := false }
  | .sti => some { state with interrupts := true }
  | .int number =>
      -- the service as a whole, with the frame that it pops again
      (monitor.service number state.regs state.world).map fun (ax, world) =>
        { state with regs := { state.regs with ax := ax }, world := world }
  | .input port =>
      some { state with regs := state.regs.setByte .al (monitor.input port state.world) }
  | .output port =>
      some { state with world := monitor.output port (state.regs.byte .al) state.world }

/-- Fetch an instruction, advance the program counter, and execute the instruction. -/
def step (state : State Label World) : Option (State Label World) :=
  (program.fetch state.pc).bind fun instr =>
    program.exec monitor { state with pc := program.next state.pc } instr

end Program

namespace State

/-- Save where the program is, switch interrupts off and enter the routine. -/
def interrupt (state : State Label World) (routine : Label) : State Label World :=
  { state with
    stack := .frame state.pc state.zf state.interrupts :: state.stack
    interrupts := false
    pc := ⟨routine, 0⟩ }

/-- The same state above another stack and with another interrupt flag. -/
def within (state : State Label World) (below : List (Slot Label)) (interrupts : Bool) :
    State Label World :=
  { state with stack := state.stack ++ below, interrupts := interrupts }

/-- A state inside an interrupt routine: an interrupt has saved the flags and is to return. -/
def Interrupted (state : State Label World) : Prop :=
  ∃ pc zf interrupts, Slot.frame pc zf interrupts ∈ state.stack

/-- The states that keep a stack below theirs and an interrupt flag. -/
def Above (below : List (Slot Label)) (interrupts : Bool) (state : State Label World) : Prop :=
  below <:+ state.stack ∧ state.interrupts = interrupts

end State

/-- The instructions that do not touch the interrupt flag. -/
def Instr.plain : Instr Label Cell → Bool
  | .iret => false
  | .cli => false
  | .sti => false
  | _ => true

namespace Program

variable (program : Program Label Cell) (monitor : Monitor World)

/-- A step of plain code. -/
def plainStep (state : State Label World) : Option (State Label World) :=
  (program.fetch state.pc).bind fun instr =>
    if instr.plain then program.exec monitor { state with pc := program.next state.pc } instr
    else none

variable {program monitor}

/-- A plain instruction does the same above another stack. -/
theorem exec_within {state final : State Label World} {instr : Instr Label Cell}
    (plain : instr.plain = true) (executed : program.exec monitor state instr = some final)
    (below : List (Slot Label)) (interrupts : Bool) :
    program.exec monitor (state.within below interrupts) instr =
      some (final.within below interrupts) := by
  cases instr with
  | iret | cli | sti => cases plain
  | mov dst _ | add dst _ | and dst _ | inc dst | dec dst =>
      cases executed
      cases dst <;> rfl
  | pop dst =>
      simp only [exec] at executed
      split at executed
      · next stack shape =>
          cases executed
          simp only [exec, State.within, shape, List.cons_append]
      · cases executed
  | ret =>
      simp only [exec] at executed
      split at executed
      · next stack shape =>
          cases executed
          simp only [exec, State.within, shape, List.cons_append]
      · cases executed
  | div src =>
      simp only [exec] at executed
      split at executed
      · cases executed
      · next fits =>
          cases executed
          exact if_neg fits
  | int number =>
      obtain ⟨⟨ax, world⟩, served, rfl⟩ := Option.map_eq_some_iff.mp executed
      simp only [exec, State.within, served, Option.map_some]
  | _ =>
      cases executed
      rfl

/-- A plain step is the same above another stack. -/
theorem plainStep_within {state final : State Label World}
    (stepped : program.plainStep monitor state = some final) (below : List (Slot Label))
    (interrupts : Bool) :
    program.plainStep monitor (state.within below interrupts) =
      some (final.within below interrupts) := by
  obtain ⟨instr, fetched, executed⟩ := Option.bind_eq_some_iff.mp stepped
  split at executed
  · next plain =>
      change (program.fetch state.pc).bind _ = _
      rw [fetched, Option.bind_some, if_pos plain]
      exact exec_within plain executed below interrupts
  · cases executed

/-- A number of steps of plain code. The state is taken apart before each step, so that the
run of a program on a given state with unknown contents can be computed. -/
def runPlain (program : Program Label Cell) (monitor : Monitor World) :
    Nat → State Label World → Option (State Label World)
  | 0, state => some state
  | count + 1, ⟨⟨ax, bx, cx, dx⟩, zf, interrupts, mem, stack, ⟨label, offset⟩, world⟩ =>
      (program.plainStep monitor
        ⟨⟨ax, bx, cx, dx⟩, zf, interrupts, mem, stack, ⟨label, offset⟩, world⟩).bind
        (runPlain program monitor count)

/-- A computed run is a way. -/
theorem goes_of_runPlain {count : Nat} {state final : State Label World}
    (ran : runPlain program monitor count state = some final) :
    Goes (program.plainStep monitor) state final := by
  induction count generalizing state with
  | zero =>
      cases ran
      exact .refl
  | succ count ih =>
      obtain ⟨next, stepped, ran⟩ := Option.bind_eq_some_iff.mp ran
      exact .head stepped (ih ran)

/-- A plain step is a step. -/
theorem step_of_plainStep {state final : State Label World}
    (stepped : program.plainStep monitor state = some final) :
    program.step monitor state = some final := by
  obtain ⟨instr, fetched, executed⟩ := Option.bind_eq_some_iff.mp stepped
  split at executed
  · rw [step, fetched]
    exact executed
  · cases executed

/-- A way of plain steps is a way. -/
theorem goes_step {state final : State Label World}
    (goes : Goes (program.plainStep monitor) state final) :
    Goes (program.step monitor) state final :=
  Relation.ReflTransGen.mono (fun _ _ => step_of_plainStep) _ _ goes

/-- Plain code runs in the same way in every context. -/
theorem goes_within {state final : State Label World}
    (goes : Goes (program.plainStep monitor) state final) (below : List (Slot Label))
    (interrupts : Bool) :
    Goes (program.plainStep monitor) (state.within below interrupts)
      (final.within below interrupts) := by
  induction goes with
  | refl => exact .refl
  | tail _ stepped ih => exact .tail ih (plainStep_within stepped below interrupts)

/-- In a context, plain code stays above the stack of the context and keeps what it keeps
without one. -/
theorem path_within {invariant : State Label World → Prop}
    (keeps : ∀ state next, invariant state → program.plainStep monitor state = some next →
      invariant next) {state final : State Label World}
    (goes : Goes (program.plainStep monitor) state final) (holds : invariant state)
    (below : List (Slot Label)) (interrupts : Bool) :
    Path (program.step monitor)
      (fun outer => outer.Above below interrupts ∧
        ∃ inner, invariant inner ∧ inner.within below interrupts = outer)
      (state.within below interrupts) (final.within below interrupts) := by
  induction goes using Relation.ReflTransGen.head_induction_on with
  | refl => exact .refl _
  | @head state next stepped _ ih =>
      exact .step ⟨⟨List.suffix_append _ _, rfl⟩, state, holds, rfl⟩
        (step_of_plainStep (plainStep_within stepped below interrupts))
        (ih (keeps state next holds stepped))

end Program

/-! ## What code can do, read off its text -/

/-- The cells an instruction may write. -/
def Instr.stores : Instr Label Cell → List Cell
  | .mov (.cell c) _ | .add (.cell c) _ | .and (.cell c) _ | .inc (.cell c) | .dec (.cell c) => [c]
  | .storePair low high _ => [low, high]
  | _ => []

/-- The instructions that write to the cell `[bx]`. -/
def Instr.indirect : Instr Label Cell → Bool
  | .mov .atBx _ | .add .atBx _ | .and .atBx _ | .inc .atBx | .dec .atBx => true
  | _ => false

/-- The labels an instruction may continue at. -/
def Instr.targets : Instr Label Cell → List Label
  | .jmp l | .jne l | .call l => [l]
  | _ => []

/-- The instructions that may go on with the one behind them. -/
def Instr.continues : Instr Label Cell → Bool
  | .jmp _ | .ret | .iret => false
  | _ => true

/-- A stack entry that leads back to an allowed address, if anywhere. -/
def Slot.Allowed (allowed : Address Label → Prop) : Slot Label → Prop
  | .word _ => True
  | .back pc => allowed pc
  | .frame _ _ _ => False

/-- A state of code that stays at allowed addresses: it is at one, and its stack holds
pushed registers and allowed return addresses only. -/
structure State.Confined (allowed : Address Label → Prop) (state : State Label World) : Prop where
  pc : allowed state.pc
  stack : ∀ slot ∈ state.stack, slot.Allowed allowed

/-- Code that stays at allowed addresses is not inside an interrupt routine. -/
theorem State.Confined.not_interrupted {allowed : Address Label → Prop} {state : State Label World}
    (confined : state.Confined allowed) : ¬ state.Interrupted :=
  fun ⟨_, _, _, member⟩ => confined.stack _ member

namespace Program

variable {program : Program Label Cell} {monitor : Monitor World}

/-- Writing a register or a named cell leaves the other addresses alone. -/
theorem mem_write {state : State Label World} {place : Place Cell} {value : Byte} {a : Word}
    (direct : place ≠ .atBx) (other : ∀ c, place = .cell c → program.address c ≠ a) :
    (program.write state place value).mem a = state.mem a := by
  cases place with
  | reg r => rfl
  | cell c => exact Function.update_of_ne (other c rfl).symm _ _
  | atBx => exact absurd rfl direct

/-- A byte that an instruction does not write keeps its value. -/
theorem mem_exec {state final : State Label World} {instr : Instr Label Cell} {a : Word}
    (direct : instr.indirect = false) (other : ∀ c ∈ instr.stores, program.address c ≠ a)
    (executed : program.exec monitor state instr = some final) : final.mem a = state.mem a := by
  cases instr with
  | mov dst _ | add dst _ | and dst _ | inc dst | dec dst =>
      cases executed
      apply mem_write
      · rintro rfl
        cases direct
      · rintro c rfl
        exact other c List.mem_cons_self
  | storePair low high src =>
      cases executed
      have notLow := other low List.mem_cons_self
      have notHigh := other high (List.mem_cons_of_mem _ List.mem_cons_self)
      exact (Function.update_of_ne notHigh.symm _ _).trans
        (Function.update_of_ne notLow.symm _ _)
  | pop dst | ret | iret | div src =>
      simp only [exec] at executed
      split at executed <;> cases executed
      rfl
  | int number =>
      obtain ⟨⟨ax, world⟩, -, rfl⟩ := Option.map_eq_some_iff.mp executed
      rfl
  | _ =>
      cases executed
      rfl

/-- Only a service and an output can change the world. -/
theorem world_exec {state final : State Label World} {instr : Instr Label Cell}
    (executed : program.exec monitor state instr = some final) :
    final.world = state.world ∨
      (∃ number ax, instr = .int number ∧
        monitor.service number state.regs state.world = some (ax, final.world)) ∨
      ∃ port value, final.world = monitor.output port value state.world := by
  cases instr with
  | mov dst _ | add dst _ | and dst _ | inc dst | dec dst =>
      cases executed
      cases dst <;> exact .inl rfl
  | pop dst | ret | iret | div src =>
      simp only [exec] at executed
      split at executed <;> cases executed
      exact .inl rfl
  | int number =>
      obtain ⟨⟨ax, world⟩, served, rfl⟩ := Option.map_eq_some_iff.mp executed
      exact .inr (.inl ⟨number, ax, rfl, served⟩)
  | output port =>
      cases executed
      exact .inr (.inr ⟨port, _, rfl⟩)
  | _ =>
      cases executed
      exact .inl rfl

/-- Code that goes on, jumps and calls to allowed addresses only stays at them. -/
theorem confined_exec {allowed : Address Label → Prop} {state final : State Label World}
    {instr : Instr Label Cell} (onward : instr.continues = true → allowed state.pc)
    (targets : ∀ l ∈ instr.targets, allowed ⟨l, 0⟩)
    (stack : ∀ slot ∈ state.stack, slot.Allowed allowed)
    (executed : program.exec monitor state instr = some final) : final.Confined allowed := by
  cases instr with
  | mov dst _ | add dst _ | and dst _ | inc dst | dec dst =>
      cases executed
      cases dst <;> exact ⟨onward rfl, stack⟩
  | push src =>
      cases executed
      exact ⟨onward rfl, List.forall_mem_cons.mpr ⟨trivial, stack⟩⟩
  | jmp l =>
      cases executed
      exact ⟨targets l List.mem_cons_self, stack⟩
  | jne l =>
      cases executed
      refine ⟨?_, stack⟩
      change allowed (if state.zf = true then state.pc else ⟨l, 0⟩)
      split
      · exact onward rfl
      · exact targets l List.mem_cons_self
  | call l =>
      cases executed
      exact ⟨targets l List.mem_cons_self, List.forall_mem_cons.mpr ⟨onward rfl, stack⟩⟩
  | pop dst =>
      simp only [exec] at executed
      split at executed <;> cases executed
      next shape =>
        rw [shape, List.forall_mem_cons] at stack
        exact ⟨onward rfl, stack.2⟩
  | ret =>
      simp only [exec] at executed
      split at executed <;> cases executed
      next shape =>
        rw [shape, List.forall_mem_cons] at stack
        exact ⟨stack.1, stack.2⟩
  | iret =>
      simp only [exec] at executed
      split at executed <;> cases executed
      next shape =>
        rw [shape, List.forall_mem_cons] at stack
        exact stack.1.elim
  | div src =>
      simp only [exec] at executed
      split at executed <;> cases executed
      exact ⟨onward rfl, stack⟩
  | int number =>
      obtain ⟨⟨ax, world⟩, -, rfl⟩ := Option.map_eq_some_iff.mp executed
      exact ⟨onward rfl, stack⟩
  | _ =>
      cases executed
      exact ⟨onward rfl, stack⟩

end Program

end CPrograms.Library.I8086
