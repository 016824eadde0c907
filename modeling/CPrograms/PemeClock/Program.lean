import CPrograms.Library.I8086

/-!
# The program peme-clock

The text of `peme-clock.asm`, block by block in the order of the source, for every
place the data can have in memory. The monitor's services are known only by what the
program relies on: `int 5` reads a key or a typed address into `ax`, `int 6` shows
something and leaves `ax` in any state.
-/

namespace CPrograms.PemeClock

open Library I8086

/-- The labels of the source, and `program` for its first instruction; `stellenReturn` is
the label `return` of `uhrstellen`. -/
inductive Label where
  | program | nochmal | minus | eingabe | go
  | prePICinit | setMask
  | readhex | printadr
  | uhrstellen | nochmal2 | st | mi | se | minus2 | eingabe2 | go2 | minset | sekset
  | stellenReturn
  | uhraktivieren | uhrzeitausgeben
  | uhrtakt | ende
  | printdec
  | PICinit | PITinit | IVTABinit
  | isr8 | takt | isrret
  deriving DecidableEq

/-- The names of the data, and the two bytes of interrupt vector 8. -/
inductive Cell where
  | string | stu | min | sek | d | foo | uhran | stuueberlauf | minsekueberlauf | uhrformat
  | vector | vectorHigh
  deriving DecidableEq

/-- The time constant of the 10 ms interrupt. -/
def zk : Word := 18432

section Text

open Instr

private abbrev al : Place Cell := .reg .al
private abbrev ah : Place Cell := .reg .ah
private abbrev bl : Place Cell := .reg .bl
private abbrev dl : Place Cell := .reg .dl

/-- A byte in the text. -/
private abbrev imm (value : Byte) : Source Cell := .imm value

/-- The contents of a cell. -/
private abbrev of (c : Cell) : Source Cell := .place (.cell c)

/-- The blocks of the source. -/
def code : Label → List (Instr Label Cell)
  | .program =>
      [call .uhrstellen,
        cli, call .IVTABinit, call .prePICinit, call .PICinit, call .PITinit, sti,
        call .readhex, movPair .bx .ax]
  | .nochmal =>
      [call .printadr,
        mov ah (imm 1), int 5,
        cmp al (imm 0x16), jne .minus, incPair .bx]
  | .minus => [cmp al (imm 0x17), jne .eingabe, decPair .bx]
  | .eingabe => [cmp al (imm 0x10), jne .go, call .readhex, movPair .bx .ax]
  | .go => [cmp al (imm 0x11), jne .nochmal, call .uhraktivieren, jmp .nochmal]
  | .prePICinit =>
      [mov al (imm 0b00010011), output 0xc0, delay,
        mov al (imm 0b00001000), output 0xc2,
        mov al (imm 0b00000001), output 0xc2]
  | .setMask => [mov al (imm 0b11111111), output 0xc2, ret]
  | .readhex =>
      [push .bx, push .dx,
        mov ah (imm 0), int 6,
        mov ah (imm 2), movOffset .bx .string, mov dl (imm 7), int 6,
        mov ah (imm 2), movImm .bx 0, mov dl (imm 3), int 5,
        pop .dx, pop .bx, ret]
  | .printadr =>
      [push .ax, push .dx, push .bx,
        mov ah (imm 0), int 6,
        mov ah (imm 3), mov dl (imm 7), int 6,
        mov ah (imm 4), mov bl (.place .atBx), mov dl (imm 1), int 6,
        pop .bx, pop .dx, pop .ax, ret]
  | .uhrstellen => [push .ax, push .bx, push .cx, movOffset .bx .stu]
  | .nochmal2 => [mov ah (imm 0), mov al (of .stu), cmp al (imm 255), jne .st, mov al (imm 23)]
  | .st =>
      [div (of .stuueberlauf), mov (.cell .stu) (.place ah),
        mov ah (imm 0), mov al (of .min), cmp al (imm 255), jne .mi, mov al (imm 59)]
  | .mi =>
      [div (of .minsekueberlauf), mov (.cell .min) (.place ah),
        mov ah (imm 0), mov al (of .sek), cmp al (imm 255), jne .se, mov al (imm 59)]
  | .se =>
      [div (of .minsekueberlauf), mov (.cell .sek) (.place ah), call .uhrzeitausgeben,
        mov ah (imm 1), int 5,
        cmp al (imm 0x16), jne .minus2, inc .atBx]
  | .minus2 => [cmp al (imm 0x17), jne .eingabe2, dec .atBx]
  | .eingabe2 => [cmp al (imm 0x10), jne .go2, jmp .stellenReturn]
  | .go2 =>
      [cmp al (imm 0x11), jne .nochmal2,
        cmpOffset .bx .stu, jne .minset, movOffset .bx .min, jmp .nochmal2]
  | .minset => [cmpOffset .bx .min, jne .sekset, movOffset .bx .sek, jmp .nochmal2]
  | .sekset => [movOffset .bx .stu, jmp .nochmal2]
  | .stellenReturn => [pop .cx, pop .bx, pop .ax, ret]
  | .uhraktivieren =>
      [push .ax, mov (.cell .uhran) (imm 1),
        mov ah (imm 1), int 5, mov (.cell .uhran) (imm 0),
        pop .ax, ret]
  | .uhrzeitausgeben =>
      [push .ax, push .dx, push .bx,
        mov ah (imm 2), movOffset .bx .uhrformat, mov dl (imm 7), int 6,
        mov al (of .stu), mov dl (imm 7), call .printdec,
        mov al (of .min), mov dl (imm 4), call .printdec,
        mov al (of .sek), mov dl (imm 1), call .printdec,
        pop .bx, pop .dx, pop .ax, ret]
  | .uhrtakt =>
      [inc (.cell .sek), cmp (.cell .sek) (imm 60), jne .ende, mov (.cell .sek) (imm 0),
        inc (.cell .min), cmp (.cell .min) (imm 60), jne .ende, mov (.cell .min) (imm 0),
        inc (.cell .stu), cmp (.cell .stu) (imm 24), jne .ende, mov (.cell .stu) (imm 0)]
  | .ende => [ret]
  | .printdec =>
      [push .cx, mov ah (imm 0), div (of .d), movPair .cx .ax,
        mov ah (imm 1), mov al (.place (.reg .cl)), add al (imm 48), int 6,
        mov ah (imm 1), mov al (.place (.reg .ch)), add al (imm 48), dec dl, int 6,
        pop .cx, ret]
  | .PICinit => [input 0xc2, and al (imm 0b11111110), output 0xc2, ret]
  | .PITinit =>
      [mov al (imm 0b01110110), output 0xa6,
        mov al (imm (Pair.ofWord zk).lo), output 0xa2,
        mov al (imm (Pair.ofWord zk).hi), output 0xa2, ret]
  | .IVTABinit => [movEntry .ax .isr8, storePair .vector .vectorHigh .ax, ret]
  | .isr8 =>
      [push .ax, cmp (.cell .uhran) (imm 1), jne .takt, call .uhrzeitausgeben]
  | .takt =>
      [inc (.cell .foo), cmp (.cell .foo) (imm 100), jne .isrret,
        mov (.cell .foo) (imm 0), call .uhrtakt]
  | .isrret => [mov al (imm 0x20), output 0xc0, pop .ax, iret]

end Text

/-- The label of the next block of the source. The last block does not run on. -/
def following : Label → Label
  | .program => .nochmal
  | .nochmal => .minus
  | .minus => .eingabe
  | .eingabe => .go
  | .go => .prePICinit
  | .prePICinit => .setMask
  | .setMask => .readhex
  | .readhex => .printadr
  | .printadr => .uhrstellen
  | .uhrstellen => .nochmal2
  | .nochmal2 => .st
  | .st => .mi
  | .mi => .se
  | .se => .minus2
  | .minus2 => .eingabe2
  | .eingabe2 => .go2
  | .go2 => .minset
  | .minset => .sekset
  | .sekset => .stellenReturn
  | .stellenReturn => .uhraktivieren
  | .uhraktivieren => .uhrzeitausgeben
  | .uhrzeitausgeben => .uhrtakt
  | .uhrtakt => .ende
  | .ende => .printdec
  | .printdec => .PICinit
  | .PICinit => .PITinit
  | .PITinit => .IVTABinit
  | .IVTABinit => .isr8
  | .isr8 => .takt
  | .takt => .isrret
  | .isrret => .isrret

/-- Where the assembler puts the program: the data lies in one piece behind the interrupt
vector 8 and does not wrap around. -/
structure Layout where
  data : Word
  entry : Label → Word
  behind : 0x22 ≤ data.toNat
  fits : data.toNat + 21 ≤ 0x10000

namespace Layout

/-- How far a piece of data lies behind the first one. -/
def offset : Cell → Nat
  | .string => 0
  | .stu => 4
  | .min => 5
  | .sek => 6
  | .d => 7
  | .foo => 8
  | .uhran => 9
  | .stuueberlauf => 10
  | .minsekueberlauf => 11
  | .uhrformat => 12
  | .vector => 0
  | .vectorHigh => 0

/-- The address of a cell. -/
def address (layout : Layout) : Cell → Word
  | .vector => 0x20
  | .vectorHigh => 0x21
  | c => layout.data + .ofNat 16 (offset c)

/-- Where a cell lies, as a number. -/
private def place (layout : Layout) : Cell → Nat
  | .vector => 0x20
  | .vectorHigh => 0x21
  | c => layout.data.toNat + offset c

private theorem toNat_address (layout : Layout) (c : Cell) :
    (layout.address c).toNat = layout.place c := by
  have fits := layout.fits
  cases c
  case vector | vectorHigh => rfl
  all_goals
    simp only [address, place, offset, BitVec.toNat_add, BitVec.toNat_ofNat]
    omega

/-- Different cells have different addresses. -/
@[simp] theorem address_inj (layout : Layout) (c c' : Cell) :
    layout.address c = layout.address c' ↔ c = c' := by
  constructor
  · intro same
    have same := congrArg BitVec.toNat same
    rw [toNat_address, toNat_address] at same
    have behind := layout.behind
    cases c <;> cases c' <;> simp only [place, offset] at same <;> first | rfl | omega
  · rintro rfl
    rfl

/-- The program at its place. -/
def program (layout : Layout) : Program Label Cell where
  code := code
  following := following
  address := layout.address
  entry := layout.entry

end Layout

/-- The text alone, at no particular place. -/
def text : Program Label Cell := ⟨code, following, fun _ => 0, fun _ => 0⟩

/-- The world outside: the keys that will be pressed, the addresses that will be typed,
what services leave in the parts of `ax` nobody relies on, what has been shown, and the
ports. -/
structure World where
  keys : List Byte
  typed : List Word
  residue : Nat → Pair
  served : Nat
  shown : List Registers
  ports : Byte → Byte
  sent : List (Byte × Byte)

/-- The monitor: `int 5` waits for a key (`ah = 1`) or for an address (`ah = 2`), `int 6`
shows what its registers ask for. -/
def monitor : Monitor World where
  service number regs world :=
    let residue := world.residue world.served
    let world := { world with served := world.served + 1 }
    match number with
    | 5 =>
        if regs.ax.hi = 1 then
          match world.keys with
          | [] => none
          | key :: keys => some (⟨residue.hi, key⟩, { world with keys := keys })
        else if regs.ax.hi = 2 then
          match world.typed with
          | [] => none
          | address :: typed => some (.ofWord address, { world with typed := typed })
        else none
    | 6 => some (residue, { world with shown := regs :: world.shown })
    | _ => none
  input port world := world.ports port
  output port value world := { world with sent := (port, value) :: world.sent }

/-- A state of the clock. -/
abbrev Machine := State Label World

/-- The instruction that takes keys and typed addresses. -/
def asks : Instr Label Cell → Bool
  | .int 5 => true
  | _ => false

/-- All other instructions leave the input alone. -/
theorem input_exec {program : Program Label Cell} {machine next : Machine}
    {instr : Instr Label Cell} (silent : asks instr = false)
    (executed : program.exec monitor machine instr = some next) :
    next.world.keys = machine.world.keys ∧ next.world.typed = machine.world.typed := by
  rcases Program.world_exec executed with same | ⟨number, ax, rfl, served⟩ | ⟨port, value, sent⟩
  · rw [same]
    exact ⟨rfl, rfl⟩
  · simp only [monitor] at served
    split at served
    · cases silent
    · rw [Option.some.injEq, Prod.mk.injEq] at served
      rw [← served.2]
      exact ⟨rfl, rfl⟩
    · cases served
  · rw [sent]
    exact ⟨rfl, rfl⟩

/-- What a timer interrupt and an instruction of the program do to the machine. -/
inductive Event where
  | exec
  | irq
  deriving DecidableEq

namespace Layout

variable (layout : Layout)

/-- Interrupt 8 is served when interrupts are on and its vector is `isr8`. -/
def armed (machine : Machine) : Bool :=
  machine.interrupts &&
    (machine.mem (layout.address .vectorHigh) ++ machine.mem (layout.address .vector) ==
      layout.entry .isr8)

/-- One instruction, or the entry into `isr8` where an interrupt can be served. -/
def react (machine : Machine) : Event → Option Machine
  | .exec => layout.program.step monitor machine
  | .irq => if layout.armed machine then some (machine.interrupt .isr8) else none

/-- Plain code of the program. -/
abbrev Goes : Machine → Machine → Prop := Library.Goes (layout.program.plainStep monitor)

end Layout

/-- A place for the data and for `isr8`. -/
def sampleLayout : Layout where
  data := 0x0300
  entry _ := 0x0200
  behind := by decide
  fits := by decide

/-- The data as loaded there. -/
def sampleData (address : Word) : Byte :=
  if address = 0x0304 then 18
  else if address = 0x0307 then 10
  else if address = 0x030a then 24
  else if address = 0x030b then 60
  else 0

/-- The keys minus, go, plus, Enter. -/
def sampleWorld : World := ⟨[0x17, 0x11, 0x16, 0x10], [], fun _ => ⟨0, 0⟩, 0, [], fun _ => 0, []⟩

end CPrograms.PemeClock
