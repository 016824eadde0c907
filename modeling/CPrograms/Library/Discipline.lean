import CPrograms.Library.I8086

/-!
# Stack discipline, checked on the text

In disciplined code every routine pops what it has pushed before it returns: at each address
a fixed number of registers lies above the return address. The check looks at one instruction
after the other. Code that passes it never pops or returns from the wrong kind of stack entry, and
its stack stays within a bound that is read off the calls.
-/

namespace CPrograms.Library.I8086

universe u v w

variable {Label : Type u} {Cell : Type v} {World : Type w}

/-- The words a stack entry takes: an interrupt saves the flags, the code segment and the
address. -/
def Slot.size : Slot Label → Nat
  | .word _ | .back _ => 1
  | .frame _ _ _ => 3

/-- The words on a stack; the frame of a software interrupt is never among them. -/
def stackSize : List (Slot Label) → Nat
  | [] => 0
  | slot :: stack => slot.size + stackSize stack

/-- The words of two stacks add up. -/
theorem stackSize_append (first second : List (Slot Label)) :
    stackSize (first ++ second) = stackSize first + stackSize second := by
  induction first with
  | nil => exact (Nat.zero_add _).symm
  | cons slot first ih => rw [List.cons_append, stackSize, stackSize, ih, Nat.add_assoc]

/-- A saved register takes one word. -/
theorem stackSize_map_word (saved : List Pair) :
    stackSize (saved.map (Slot.word : Pair → Slot Label)) = saved.length := by
  induction saved with
  | nil => rfl
  | cons pair saved ih =>
      rw [List.map_cons, stackSize, ih, List.length_cons, Slot.size, Nat.add_comm]

/-- Code in routines: the addresses that are looked at, the routine a label belongs to, how many
registers are saved at an address, whether a routine is called, and how many words of the
stack it needs together with all it calls. -/
structure Discipline (Label : Type u) where
  inside : Address Label → Bool
  routine : Label → Label
  height : Address Label → Nat
  called : Label → Bool
  need : Label → Nat

/-- The registers saved in front of an instruction, when those at the head of its block are
known. -/
def Program.heightFrom (code : Label → List (Instr Label Cell)) (base : Label → Nat)
    (pc : Address Label) : Nat :=
  ((code pc.label).take pc.offset).foldl (fun height instr =>
    match instr with
    | .push _ => height + 1
    | .pop _ => height - 1
    | _ => height) (base pc.label)

namespace Discipline

variable (discipline : Discipline Label) (program : Program Label Cell)

/-- An address with an instruction, and with no more saved than the routine has room for. -/
def Sound (pc : Address Label) : Prop :=
  discipline.inside pc = true ∧ (program.fetch pc).isSome = true ∧
    discipline.height pc ≤ discipline.need (discipline.routine pc.label)

/-- An address of the same routine at which a given number of registers is saved. -/
def Arrives (pc : Address Label) (height : Nat) (target : Address Label) : Prop :=
  discipline.Sound program target ∧
    discipline.routine target.label = discipline.routine pc.label ∧
    discipline.height target = height

/-- What the check asks of an instruction: `next` is the address behind it. -/
def Keeps (pc next : Address Label) : Instr Label Cell → Prop
  | .push _ => discipline.Arrives program pc (discipline.height pc + 1) next
  | .pop _ => 0 < discipline.height pc ∧
      discipline.Arrives program pc (discipline.height pc - 1) next
  | .jmp l => discipline.Arrives program pc (discipline.height pc) ⟨l, 0⟩
  | .jne l => discipline.Arrives program pc (discipline.height pc) next ∧
      discipline.Arrives program pc (discipline.height pc) ⟨l, 0⟩
  | .call l => discipline.Arrives program pc (discipline.height pc) next ∧
      discipline.Sound program ⟨l, 0⟩ ∧ discipline.height ⟨l, 0⟩ = 0 ∧
      discipline.height pc + 1 + discipline.need (discipline.routine l) ≤
        discipline.need (discipline.routine pc.label)
  | .ret => discipline.height pc = 0 ∧ discipline.called (discipline.routine pc.label) = true
  | .iret => True
  | _ => discipline.Arrives program pc (discipline.height pc) next

/-- What lies below the saved registers of a routine: the way back to its caller, down to a
routine that nobody has called. -/
inductive Below (bottom : Label) : Label → List (Slot Label) → Prop where
  | bottom : Below bottom bottom []
  | call {routine : Label} {back : Address Label} {saved : List Pair} {below : List (Slot Label)} :
      discipline.Sound program back → saved.length = discipline.height back →
      discipline.height back + 1 + discipline.need routine ≤
        discipline.need (discipline.routine back.label) →
      Below bottom (discipline.routine back.label) below →
      Below bottom routine (.back back :: (saved.map .word ++ below))

/-- A stack as the discipline wants it at an address. -/
def Framed (bottom : Label) (pc : Address Label) (stack : List (Slot Label)) : Prop :=
  discipline.Sound program pc ∧ ∃ (saved : List Pair) (below : List (Slot Label)),
    saved.length = discipline.height pc ∧ stack = saved.map .word ++ below ∧
    discipline.Below program bottom (discipline.routine pc.label) below

instance decidableSound (pc : Address Label) : Decidable (discipline.Sound program pc) :=
  inferInstanceAs (Decidable (_ ∧ _ ∧ _))

variable [DecidableEq Label]

instance decidableArrives (pc : Address Label) (height : Nat) (target : Address Label) :
    Decidable (discipline.Arrives program pc height target) :=
  inferInstanceAs (Decidable (_ ∧ _ ∧ _))

instance decidableKeeps (pc next : Address Label) (instr : Instr Label Cell) :
    Decidable (discipline.Keeps program pc next instr) := by
  unfold Keeps
  split <;> infer_instance

end Discipline

/-- The instructions that can fail for another reason than the stack, or leave a routine that
was not called. -/
def Instr.risky : Instr Label Cell → Bool
  | .div _ | .int _ | .iret => true
  | _ => false

namespace Discipline

variable {discipline : Discipline Label} {program : Program Label Cell} {monitor : Monitor World}
  {bottom : Label}

/-- Where the code arrives with as many saved registers as allowed, the stack is in order. -/
theorem Arrives.framed {pc target : Address Label} {height : Nat}
    (arrives : discipline.Arrives program pc height target) {saved : List Pair}
    {below : List (Slot Label)} (length : saved.length = height)
    (rest : discipline.Below program bottom (discipline.routine pc.label) below) :
    discipline.Framed program bottom target (saved.map .word ++ below) := by
  obtain ⟨sound, same, level⟩ := arrives
  exact ⟨sound, saved, below, length.trans level.symm, rfl, same ▸ rest⟩

/-- **The discipline is kept.** An instruction that passes the check leaves the stack as the
discipline wants it at the address the machine goes on with. -/
theorem Framed.exec {pc : Address Label} {state final : State Label World}
    {instr : Instr Label Cell} (uncalled : discipline.called bottom = false)
    (framed : discipline.Framed program bottom pc state.stack)
    (keeps : discipline.Keeps program pc state.pc instr)
    (executed : program.exec monitor state instr = some final) :
    discipline.Framed program bottom final.pc final.stack := by
  obtain ⟨regs, zf, interrupts, mem, stack, next, world⟩ := state
  obtain ⟨sound, saved, below, length, rfl, rest⟩ := framed
  cases instr with
  | mov dst _ | add dst _ | and dst _ | inc dst | dec dst =>
      cases executed
      cases dst <;> exact keeps.framed length rest
  | push src =>
      cases executed
      change discipline.Framed program bottom next ((regs.pair src :: saved).map .word ++ below)
      exact keeps.framed (congrArg (· + 1) length) rest
  | pop dst =>
      obtain ⟨positive, arrives⟩ := keeps
      cases saved with
      | nil =>
          rw [← length] at positive
          exact absurd positive (Nat.lt_irrefl 0)
      | cons value saved =>
          cases executed
          exact arrives.framed (by rw [← length]; rfl) rest
  | jmp l =>
      cases executed
      exact keeps.framed length rest
  | jne l =>
      cases executed
      cases zf
      · exact keeps.2.framed length rest
      · exact keeps.1.framed length rest
  | call l =>
      obtain ⟨⟨sound', same, level⟩, entry, none, room⟩ := keeps
      cases executed
      refine ⟨entry, [], _, none.symm, rfl, .call sound' (length.trans level.symm) ?_ (same ▸ rest)⟩
      rw [level, same]
      exact room
  | ret =>
      obtain ⟨none, called⟩ := keeps
      rw [none, List.length_eq_zero_iff] at length
      subst length
      generalize routine : discipline.routine pc.label = r at rest called
      cases rest with
      | bottom =>
          rw [uncalled] at called
          cases called
      | call sound' length' _ rest =>
          cases executed
          exact ⟨sound', _, _, length', rfl, rest⟩
  | iret =>
      -- There is no interrupt frame to return to.
      cases saved with
      | nil =>
          generalize discipline.routine pc.label = r at rest
          cases rest <;> cases executed
      | cons value saved => cases executed
  | div src =>
      simp only [Program.exec] at executed
      split at executed <;> cases executed
      exact keeps.framed length rest
  | int number =>
      obtain ⟨⟨ax, world'⟩, -, rfl⟩ := Option.map_eq_some_iff.mp executed
      exact keeps.framed length rest
  | _ =>
      cases executed
      exact keeps.framed length rest

/-- **Disciplined code does not fail at the stack.** -/
theorem Framed.exists_exec {pc : Address Label} {state : State Label World}
    {instr : Instr Label Cell} (uncalled : discipline.called bottom = false)
    (framed : discipline.Framed program bottom pc state.stack)
    (keeps : discipline.Keeps program pc state.pc instr) (safe : instr.risky = false) :
    ∃ final, program.exec monitor state instr = some final := by
  obtain ⟨regs, zf, interrupts, mem, stack, next, world⟩ := state
  obtain ⟨-, saved, below, length, rfl, rest⟩ := framed
  cases instr with
  | pop dst =>
      obtain ⟨positive, -⟩ := keeps
      cases saved with
      | nil =>
          rw [← length] at positive
          exact absurd positive (Nat.lt_irrefl 0)
      | cons value saved => exact ⟨_, rfl⟩
  | ret =>
      obtain ⟨none, called⟩ := keeps
      rw [none, List.length_eq_zero_iff] at length
      subst length
      generalize discipline.routine pc.label = r at rest called
      cases rest with
      | bottom =>
          rw [uncalled] at called
          cases called
      | call => exact ⟨_, rfl⟩
  | iret | div | int => cases safe
  | _ => exact ⟨_, rfl⟩

/-- Below the registers of a routine no more is left than its caller's room. -/
theorem Below.stackSize_le {routine : Label} {below : List (Slot Label)}
    (rest : discipline.Below program bottom routine below) :
    stackSize below + discipline.need routine ≤ discipline.need bottom := by
  induction rest with
  | bottom => exact Nat.le_of_eq (Nat.zero_add _)
  | call _ length room _ ih =>
      rw [stackSize, stackSize_append, stackSize_map_word, length, Slot.size]
      omega

/-- **The stack is bounded** by the room of the routine that nobody has called. -/
theorem Framed.stackSize_le {pc : Address Label} {stack : List (Slot Label)}
    (framed : discipline.Framed program bottom pc stack) :
    stackSize stack ≤ discipline.need bottom := by
  obtain ⟨⟨-, -, small⟩, saved, below, length, rfl, rest⟩ := framed
  have bound := rest.stackSize_le
  rw [stackSize_append, stackSize_map_word, length]
  omega

end Discipline

/-! ## Registers -/

/-- The two bytes of a register. -/
def WordReg.bytes : WordReg → List ByteReg
  | .ax => [.al, .ah]
  | .bx => [.bl, .bh]
  | .cx => [.cl, .ch]
  | .dx => [.dl, .dh]

/-- The bytes of the registers that an instruction may change. -/
def Instr.changes : Instr Label Cell → List ByteReg
  | .mov (.reg r) _ | .add (.reg r) _ | .and (.reg r) _ | .inc (.reg r) | .dec (.reg r) => [r]
  | .movImm dst _ | .movOffset dst _ | .movEntry dst _ | .movPair dst _ | .incPair dst
  | .decPair dst | .pop dst => dst.bytes
  | .div _ | .int _ => [.al, .ah]
  | .input _ => [.al]
  | _ => []

/-- Setting a byte register leaves the others alone. -/
theorem Registers.byte_setByte {regs : Registers} {r r' : ByteReg} (other : r ≠ r')
    (value : Byte) : (regs.setByte r' value).byte r = regs.byte r := by
  cases r <;> cases r' <;> first | rfl | exact absurd rfl other

/-- Setting a register pair leaves the bytes of the others alone. -/
theorem Registers.byte_setPair {regs : Registers} {r : ByteReg} {dst : WordReg}
    (other : r ∉ dst.bytes) (value : Pair) : (regs.setPair dst value).byte r = regs.byte r := by
  cases r <;> cases dst <;> first | rfl | exact absurd (by decide) other

/-- A byte of a register that an instruction does not change keeps its value. -/
theorem Program.byte_exec {program : Program Label Cell} {monitor : Monitor World}
    {state final : State Label World} {instr : Instr Label Cell} {r : ByteReg}
    (other : r ∉ instr.changes) (executed : program.exec monitor state instr = some final) :
    final.regs.byte r = state.regs.byte r := by
  cases instr with
  | mov dst _ | add dst _ | and dst _ | inc dst | dec dst =>
      cases executed
      cases dst with
      | reg r' => exact Registers.byte_setByte (List.ne_of_not_mem_cons other) _
      | cell | atBx => rfl
  | movImm | movOffset | movEntry | movPair | incPair | decPair =>
      cases executed
      exact Registers.byte_setPair other _
  | pop dst =>
      simp only [exec] at executed
      split at executed <;> cases executed
      exact Registers.byte_setPair other _
  | div src =>
      simp only [exec] at executed
      split at executed <;> cases executed
      cases r <;> first | rfl | exact absurd (by simp [Instr.changes]) other
  | int number =>
      obtain ⟨⟨ax, world⟩, -, rfl⟩ := Option.map_eq_some_iff.mp executed
      cases r <;> first | rfl | exact absurd (by simp [Instr.changes]) other
  | input port =>
      cases executed
      exact Registers.byte_setByte (List.ne_of_not_mem_cons other) _
  | ret | iret =>
      simp only [exec] at executed
      split at executed <;> cases executed
      rfl
  | _ =>
      cases executed
      rfl

/-! ## Facts about registers -/

/-- What is known of a register at an address. -/
abbrev Facts (Label : Type u) := Address Label → Option (ByteReg × Byte)

/-- The register an instruction loads with a byte of the text. -/
def Instr.loads : Instr Label Cell → Option (ByteReg × Byte)
  | .mov (.reg r) (.imm value) => some (r, value)
  | _ => none

/-- The instructions that push a return address. -/
def Instr.calls : Instr Label Cell → Bool
  | .call _ => true
  | _ => false

/-- What is known behind an instruction it has loaded, or it was known before. At a label and
behind a call nothing is known. -/
def Facts.Keeps (facts : Facts Label) (pc next : Address Label) (instr : Instr Label Cell) : Prop :=
  (∀ l ∈ instr.targets, facts ⟨l, 0⟩ = none) ∧ (instr.calls = true → facts next = none) ∧
    (instr.continues = true → ∀ fact ∈ facts next,
      instr.loads = some fact ∨ facts pc = some fact ∧ fact.1 ∉ instr.changes)

instance decidableFactsKeeps [DecidableEq Label] (facts : Facts Label) (pc next : Address Label)
    (instr : Instr Label Cell) : Decidable (facts.Keeps pc next instr) :=
  inferInstanceAs (Decidable (_ ∧ _ ∧ _))

/-- The facts hold at an address, and nothing is claimed of the addresses to return to. -/
structure Facts.Hold (facts : Facts Label) (pc : Address Label) (state : State Label World) :
    Prop where
  here : ∀ fact ∈ facts pc, state.regs.byte fact.1 = fact.2
  back : ∀ back, Slot.back back ∈ state.stack → facts back = none

/-- Where an instruction goes on. -/
theorem Program.pc_exec {program : Program Label Cell} {monitor : Monitor World}
    {state final : State Label World} {instr : Instr Label Cell}
    (executed : program.exec monitor state instr = some final) :
    (instr.continues = true ∧ final.pc = state.pc) ∨ (∃ l ∈ instr.targets, final.pc = ⟨l, 0⟩) ∨
      (instr.continues = false ∧ instr.targets = [] ∧ Slot.back final.pc ∈ state.stack) ∨
      ∃ zf interrupts, Slot.frame final.pc zf interrupts ∈ state.stack := by
  cases instr with
  | mov dst _ | add dst _ | and dst _ | inc dst | dec dst =>
      cases executed
      cases dst <;> exact .inl ⟨rfl, rfl⟩
  | jmp l | call l =>
      cases executed
      exact .inr (.inl ⟨l, List.mem_cons_self, rfl⟩)
  | jne l =>
      cases executed
      obtain ⟨regs, zf, interrupts, mem, stack, pc, world⟩ := state
      cases zf
      · exact .inr (.inl ⟨l, List.mem_cons_self, rfl⟩)
      · exact .inl ⟨rfl, rfl⟩
  | ret =>
      simp only [exec] at executed
      split at executed <;> cases executed
      next shape => exact .inr (.inr (.inl ⟨rfl, rfl, shape ▸ List.mem_cons_self⟩))
  | iret =>
      simp only [exec] at executed
      split at executed <;> cases executed
      next shape => exact .inr (.inr (.inr ⟨_, _, shape ▸ List.mem_cons_self⟩))
  | pop dst | div src =>
      simp only [exec] at executed
      split at executed <;> cases executed
      exact .inl ⟨rfl, rfl⟩
  | int number =>
      obtain ⟨⟨ax, world⟩, -, rfl⟩ := Option.map_eq_some_iff.mp executed
      exact .inl ⟨rfl, rfl⟩
  | _ =>
      cases executed
      exact .inl ⟨rfl, rfl⟩

/-- Only a call puts a return address on the stack. -/
theorem Program.back_exec {program : Program Label Cell} {monitor : Monitor World}
    {state final : State Label World} {instr : Instr Label Cell}
    (executed : program.exec monitor state instr = some final) {back : Address Label}
    (member : Slot.back back ∈ final.stack) :
    Slot.back back ∈ state.stack ∨ instr.calls = true ∧ back = state.pc := by
  cases instr with
  | mov dst _ | add dst _ | and dst _ | inc dst | dec dst =>
      cases executed
      cases dst <;> exact .inl member
  | push src =>
      cases executed
      exact .inl ((List.mem_cons.mp member).resolve_left (by simp))
  | call l =>
      cases executed
      rcases List.mem_cons.mp member with same | below
      · cases same
        exact .inr ⟨rfl, rfl⟩
      · exact .inl below
  | pop dst | ret | iret =>
      simp only [exec] at executed
      split at executed <;> cases executed
      next shape => exact .inl (shape ▸ List.mem_cons_of_mem _ member)
  | div src =>
      simp only [exec] at executed
      split at executed <;> cases executed
      exact .inl member
  | int number =>
      obtain ⟨⟨ax, world⟩, -, rfl⟩ := Option.map_eq_some_iff.mp executed
      exact .inl member
  | _ =>
      cases executed
      exact .inl member

namespace Facts

variable {facts : Facts Label} {program : Program Label Cell} {monitor : Monitor World}

/-- An instruction that loads a byte leaves it in its register. -/
theorem byte_of_loads {state final : State Label World} {instr : Instr Label Cell}
    {fact : ByteReg × Byte} (loads : instr.loads = some fact)
    (executed : program.exec monitor state instr = some final) :
    final.regs.byte fact.1 = fact.2 := by
  unfold Instr.loads at loads
  split at loads <;> cases loads
  next r value =>
    cases executed
    cases r <;> rfl

/-- **Facts are kept** by instructions that pass the check. -/
theorem Hold.exec {pc : Address Label} {state final : State Label World}
    {instr : Instr Label Cell} (holds : facts.Hold pc state)
    (unframed : ∀ back zf interrupts, Slot.frame back zf interrupts ∉ state.stack)
    (keeps : facts.Keeps pc state.pc instr)
    (executed : program.exec monitor state instr = some final) : facts.Hold final.pc final := by
  obtain ⟨targets, behindCall, onward⟩ := keeps
  constructor
  · intro fact known
    rcases Program.pc_exec executed with
      ⟨continues, next⟩ | ⟨l, target, next⟩ | ⟨-, -, back⟩ | frame
    · rw [next] at known
      rcases onward continues fact known with loads | ⟨before, spared⟩
      · exact byte_of_loads loads executed
      · exact (Program.byte_exec spared executed).trans (holds.here fact before)
    · rw [next, targets l target] at known
      cases known
    · rw [holds.back _ back] at known
      cases known
    · obtain ⟨zf, interrupts, member⟩ := frame
      exact absurd member (unframed _ zf interrupts)
  · intro back member
    rcases Program.back_exec executed member with below | ⟨calls, rfl⟩
    · exact holds.back back below
    · exact behindCall calls

end Facts

end CPrograms.Library.I8086
