/-
**Lowering to the intermediate language.**

Every function of a program becomes a function of the intermediate language with an operand stack
of its own.  It is given the address of its local slots and an address where it says whether it
returns a cell.  Every instruction becomes a block.  A function that runs off its end returns.
-/

import StackCompiler.Lowering.Frame
import StackCompiler.Lowering.Functions
import StackCompiler.Lowering.Il
import StackCompiler.Mips.Service

namespace StackCompiler.Lowering.ToIl

open Il

/-! ### Cells -/

/-- The type of 64 bits. -/
def long : Text := text "l"

/-- The type of 32 bits. -/
def word : Text := text "w"

/-- An assignment of the result of an operation. -/
def assign (t : Temp) (type : Text) (operation : String) (values : List Value) : Statement :=
  .assign t type (text operation) values

/-- Gives a temporary an address that lies `n` bytes from another. -/
def displace (t : Temp) (operation : String) (base : Temp) (n : Int64) : Statement :=
  assign t long operation [.temp base, .number n.toInt]

/-- The size and type of an operand stack cell. -/
structure Cell where
  size : Int64
  type : Text
deriving DecidableEq, Repr

namespace Cell

/-- The cell that settings ask for. -/
def ofSettings (s : Settings) : Cell :=
  if s.wordSize = 0 then ⟨8, long⟩ else ⟨s.wordSize, s.wordType⟩

/-- Whether a cell has 64 bits. -/
def isLong (c : Cell) : Bool := c.type == long

/-- Reserves room for `n` cells. -/
def reserve (c : Cell) (t : Temp) (n : Int64) : Statement :=
  assign t long (if c.size = 8 then "alloc8" else "alloc4") [.number (c.size * n).toInt]

/-- Loads a cell. -/
def load (c : Cell) (t address : Temp) : Statement :=
  .assign t c.type (text "load" ++ c.type) [.temp address]

/-- Stores a cell. -/
def store (c : Cell) (v : Value) (address : Temp) : Statement := .store c.type v (.temp address)

/-- The statements that push a value. -/
def push (c : Cell) (v : Value) : List Statement :=
  [c.store v .top, displace .top "add" .top c.size]

/-- The statements that pop into a temporary. -/
def pop (c : Cell) (t : Temp) : List Statement :=
  [displace .top "sub" .top c.size, c.load t .top]

/-- Returns the top cell from a block, and says whether there was one. -/
def handOver (c : Cell) (b : Block) (isEmpty v : Temp) : List Line :=
  [.statement (assign isEmpty word "ceql" [.temp .top, .temp .stack]),
   .statement (.branch (.temp isEmpty) (.withoutCell b) (.withCell b)),
   .block (.withCell b)] ++
  (c.pop v).map Line.statement ++
  [.statement (.store word (.number 1) (.temp .hasValue)),
   .statement (.ret (.temp v)),
   .block (.withoutCell b),
   .statement (.store word (.number 0) (.temp .hasValue)),
   .statement (.ret (.number 0))]

end Cell

/-! ### Writing lines -/

/-- The lines of an instruction while they are written. -/
structure Draft where
  written : List Line := []
  temps : Nat
deriving DecidableEq, Repr

/-- Writes lines, or fails. -/
abbrev Writing := StateT Draft (Except Cause)

namespace Writing

/-- Writes lines. -/
def put (ls : List Line) : Writing Unit := modify fun d => { d with written := d.written ++ ls }

/-- Writes statements. -/
def emit (ss : List Statement) : Writing Unit := put (ss.map Line.statement)

/-- A temporary that was not used yet. -/
def fresh : Writing Temp := do
  let d ← get
  set { d with temps := d.temps + 1 }
  return .fresh (d.temps + 1)

/-- Pops a value. -/
def pop (c : Cell) : Writing Value := do
  let t ← fresh
  emit (c.pop t)
  return .temp t

/-- Pushes a value. -/
def push (c : Cell) (v : Value) : Writing Unit := emit (c.push v)

/-- A cell as 64 bits. -/
def widen (c : Cell) (v : Value) : Writing Value := do
  if c.isLong then return v
  let t ← fresh
  emit [assign t long "extsw" [v]]
  return .temp t

/-- A result of 64 bits as a cell. -/
def narrow (c : Cell) (t : Temp) : Writing Value := do
  if c.isLong then return .temp t
  let u ← fresh
  emit [assign u word "copy" [.temp t]]
  return .temp u

/-- The lines of a finished draft, and the number of temporaries taken, after `temps` others. -/
def lines (writing : Writing Unit) (temps : Nat) : Except Cause (List Line × Nat) :=
  (writing.run { temps }).map fun (_, d) => (d.written, d.temps)

end Writing

open Writing

/-! ### Operations -/

/-- What the lines of an instruction depend on. -/
structure Context where
  cell : Cell
  frame : Frame
  functions : Functions
  inside : Lowering.Function

/-- An operation on the two topmost cells. -/
def binary (c : Cell) (operation : Text) : Writing Unit := do
  let b ← pop c
  let a ← pop c
  let r ← fresh
  emit [.assign r c.type operation [a, b]]
  push c (.temp r)

/-- A comparison of the two topmost cells. -/
def compare (c : Cell) (operation : String) : Writing Unit :=
  binary c (text operation ++ c.type)

/-- Whether the topmost cell is zero. -/
def negate (c : Cell) : Writing Unit := do
  let a ← pop c
  let r ← fresh
  emit [.assign r c.type (text "ceq" ++ c.type) [a, .number 0]]
  push c (.temp r)

/-- Pushes the topmost cell again. -/
def duplicate (c : Cell) : Writing Unit := do
  let p ← fresh
  let v ← fresh
  emit [displace p "sub" .top c.size, c.load v p]
  push c (.temp v)

/-- Exchanges the two topmost cells. -/
def exchange (c : Cell) : Writing Unit := do
  let p₁ ← fresh
  let p₂ ← fresh
  let x ← fresh
  let y ← fresh
  emit [displace p₁ "sub" .top c.size, displace p₂ "sub" .top (2 * c.size), c.load x p₁,
    c.load y p₂, c.store (.temp x) p₂, c.store (.temp y) p₁]

/-- The address of the local slot that an instruction names. -/
def slotAddress (c : Context) (ins : Instruction) : Writing Temp := do
  let n := Int64.ofNat (ins.half 0)
  if c.frame.localSlots ≤ n then throw (.slotRange (ins.half 0) c.frame.localSlots)
  let p ← fresh
  emit [displace p "add" .locals (n * c.cell.size)]
  return p

/-- Pushes a local slot. -/
def loadLocal (c : Context) (ins : Instruction) : Writing Unit := do
  let p ← slotAddress c ins
  let v ← fresh
  emit [c.cell.load v p]
  push c.cell (.temp v)

/-- Pops into a local slot. -/
def storeLocal (c : Context) (ins : Instruction) : Writing Unit := do
  let p ← slotAddress c ins
  let v ← pop c.cell
  emit [c.cell.store v p]

/-- The block that a jump goes to.  It has to stand in the same function. -/
def targetBlock (c : Context) (ins : Instruction) : Writing Block := do
  let t := ins.target
  if !c.functions.startsAt t then throw (.badTarget t)
  if t < c.inside.start ∨ c.inside.stop ≤ t then
    throw (.crossFunction t c.inside.start c.inside.stop)
  return .place t.toNat

/-- A jump to another instruction. -/
def jump (c : Context) (ins : Instruction) : Writing Unit := do
  let b ← targetBlock c ins
  emit [.jump b]

/-- Pops a cell and jumps if it is zero. -/
def jumpIfZero (c : Context) (offset : Nat) (ins : Instruction) : Writing Unit := do
  let b ← targetBlock c ins
  let v ← pop c.cell
  put [.statement (.branch v (.fallThrough offset) b), .block (.fallThrough offset)]

/-- Pops a cell and jumps unless it is zero. -/
def jumpUnlessZero (c : Context) (offset : Nat) (ins : Instruction) : Writing Unit := do
  let b ← targetBlock c ins
  let v ← pop c.cell
  put [.statement (.branch v b (.fallThrough offset)), .block (.fallThrough offset)]

/-- Hands the topmost cell over to a caller, if there is one. -/
def handOver (c : Cell) (b : Block) : Writing Unit := do
  let isEmpty ← fresh
  let v ← fresh
  put (c.handOver b isEmpty v)

/-- Copies argument `k` into the local slots of the callee. -/
def copyArgument (c : Cell) (offset k : Nat) : Writing Unit := do
  let source ← fresh
  let target ← fresh
  let v ← fresh
  emit [displace source "add" .top (Int64.ofNat k * c.size), c.load v source,
    displace target "add" (.callee offset) (Int64.ofNat k * c.size), c.store (.temp v) target]

/-- A call of a function. -/
def call (c : Context) (offset : Nat) (ins : Instruction) : Writing Unit := do
  let count := ins.half 1
  if c.frame.localSlots < Int64.ofNat count then
    throw (.argumentRange count c.frame.localSlots)
  if count ≠ 0 then emit [displace .top "sub" .top (Int64.ofNat count * c.cell.size)]
  (List.range count).forM (copyArgument c.cell offset)
  let r ← fresh
  let h ← fresh
  put ([.statement (.call (some (r, c.cell.type)) (.function (ins.half 0))
      [.typed long (.temp (.callee offset)), .typed long (.temp (.calleeHasValue offset))]),
    .statement (assign h word "loadw" [.temp (.calleeHasValue offset)]),
    .statement (.branch (.temp h) (.result offset) (.returned offset)),
    .block (.result offset)] ++
    (c.cell.push (.temp r)).map Line.statement ++ [.block (.returned offset)])

/-! ### Services -/

/-- Pops arguments; they are returned in the order in which they were pushed. -/
def popArguments (c : Cell) : Nat → List Value → Writing (List Value)
  | 0, arguments => return arguments
  | count + 1, arguments => do
    let v ← pop c
    popArguments c count (v :: arguments)

/-- An argument as 32 bits; none is zero. -/
def wordArgument (c : Cell) (argument : Option Value) : Writing Value := do
  match argument with
  | some v =>
    if c.isLong then
      let w ← fresh
      emit [assign w word "copy" [v]]
      return .temp w
    else return v
  | none => return .number 0

/-- Prints a value with a pattern. -/
def printWith (pattern : Global) (type : Text) (v : Value) : Writing Unit :=
  emit [.call none .printf [.typed long (.global pattern), .others, .typed type v]]

/-- The lines of a service with its first argument, and its result. -/
def serve (c : Cell) (argument : Option Value) : Service → Writing Value
  | .printNumber => do
    printWith .numberPattern c.type (argument.getD (.number 0))
    return .number 0
  | .printString => do
    let v ← widen c (argument.getD (.number 0))
    printWith .stringPattern long v
    return .number 0
  | .printCharacter => do
    let v ← wordArgument c argument
    emit [.call none .putchar [.typed word v]]
    return .number 0
  | .extendHeap => do
    let p ← fresh
    let n ← widen c (argument.getD (.number 0))
    emit [.call (some (p, long)) .calloc [.typed long n, .typed long (.number 1)]]
    narrow c p
  | .exitZero => do
    emit [.call none .exit [.typed word (.number 0)]]
    return .number 0
  | .exitStatus => do
    let v ← wordArgument c argument
    emit [.call none .exit [.typed word v]]
    return .number 0

/-- A request for a service. -/
def service (c : Cell) (ins : Instruction) : Writing Unit := do
  let count := ins.half 1
  if 4 < count then throw (.serviceArguments count)
  let arguments ← popArguments c count []
  match Service.ofNumber? (ins.half 0) with
  | none => throw (.unsupportedService (ins.half 0))
  | some s =>
    let result ← serve c arguments.head? s
    push c result

/-! ### Arrays -/

/-- Pushes the address of a new array. -/
def newArray (c : Cell) : Writing Unit := do
  let v ← pop c
  let n ← widen c v
  let p ← fresh
  emit [.call (some (p, long)) .calloc [.typed long n, .typed long (.number 4)]]
  let r ← narrow c p
  push c r

/-- Allocates a string and a zero behind it. -/
def newString (c : Cell) : Writing Unit := do
  let v ← pop c
  let n ← widen c v
  let p ← fresh
  let more ← fresh
  emit [assign more long "add" [n, .number 1],
    .call (some (p, long)) .calloc [.typed long (.temp more), .typed long (.number 1)]]
  let r ← narrow c p
  push c r

/-- Turns the index of a four-byte element into an offset. -/
def scaleIndex (index : Value) : Writing Value := do
  let scaled ← fresh
  emit [assign scaled long "mul" [index, .number 4]]
  return .temp scaled

/-- Pops an index and a base and returns the address of the element, of four bytes or of one. -/
def elementAddress (c : Cell) (wide : Bool) : Writing Value := do
  let v ← pop c
  let index ← widen c v
  let u ← pop c
  let base ← widen c u
  let offset ← if wide then scaleIndex index else pure index
  let address ← fresh
  emit [assign address long "add" [base, offset]]
  return .temp address

/-- Pushes an element of an array. -/
def loadElement (c : Cell) (wide : Bool) : Writing Unit := do
  let address ← elementAddress c wide
  let v ← fresh
  emit [assign v c.type (if wide then "loadsw" else "loadub") [address]]
  push c (.temp v)

/-- Pops into an element of an array. -/
def storeElement (c : Cell) (wide : Bool) : Writing Unit := do
  let v ← pop c
  let address ← elementAddress c wide
  emit [.store (text (if wide then "w" else "b")) v address]

/-! ### Instructions -/

/-- **The lines of an instruction** behind the start of its block. -/
def operation (c : Context) (offset : Nat) (ins : Instruction) : Writing Unit :=
  match ins.op with
  | .iconst => push c.cell (.number (ins.operand 0).toInt)
  | .iadd => binary c.cell (text "add")
  | .isub => binary c.cell (text "sub")
  | .imul => binary c.cell (text "mul")
  | .idiv => binary c.cell (text "div")
  | .and => binary c.cell (text "and")
  | .or => binary c.cell (text "or")
  | .xor => binary c.cell (text "xor")
  | .shl => binary c.cell (text "shl")
  | .shr => binary c.cell (text "sar")
  | .ilt => compare c.cell "cslt"
  | .igt => compare c.cell "csgt"
  | .ieq => compare c.cell "ceq"
  | .not => negate c.cell
  | .dup => duplicate c.cell
  | .swap => exchange c.cell
  | .pop => emit [displace .top "sub" .top c.cell.size]
  | .load => loadLocal c ins
  | .store => storeLocal c ins
  | .jmp => jump c ins
  | .jmpz => jumpIfZero c offset ins
  | .jmpnz => jumpUnlessZero c offset ins
  | .invoke => call c offset ins
  | .ret => handOver c.cell (.place offset)
  | .print => do
    let v ← pop c.cell
    printWith .linePattern c.cell.type v
  | .syscall => service c.cell ins
  | .newarray => newArray c.cell
  | .newstr => newString c.cell
  | .iaload => loadElement c.cell true
  | .baload => loadElement c.cell false
  | .iastore => storeElement c.cell true
  | .bastore => storeElement c.cell false
  | .entry | .global | .unknown _ => return

/-- The lines of an instruction, markers and unknown ones included, after `temps` temporaries. -/
def instruction (c : Context) (temps offset : Nat) (ins : Instruction) :
    Except Cause (List Line × Nat) :=
  match ins.op with
  | .entry => .ok ([.comment (text "entry: " ++ ins.symbol)], temps)
  | .global => .ok ([.comment (text "global: " ++ ins.symbol)], temps)
  | .unknown _ => .ok ([.comment (text "unrecognized instruction " ++ ins.render)], temps)
  | _ => do
    let (ls, temps) ← (operation c offset ins).lines temps
    return (.block (.place offset) :: .comment ins.render :: ls, temps)

/-! ### Programs -/

/-- The module of a program. -/
structure Output where
  module : Module
  frame : Frame
  remarks : List Remark
deriving DecidableEq, Repr

/-- Lines while they are written. -/
structure Progress where
  lines : Array Line := #[]
  temps : Nat

/-- Adds the lines of an instruction. -/
def Progress.add (c : Context) (p : Progress) (ins : Instruction) (offset : Nat) :
    Except Failure Progress :=
  match instruction c p.temps offset ins with
  | .ok (ls, temps) => .ok { lines := p.lines ++ ls, temps }
  | .error cause => .error (.instruction offset ins cause)

/-- The lines before the instructions of a function: the operand stack, and room for every call. -/
def opening (c : Context) (located : List (Instruction × Nat)) : List Line :=
  [.block .start, .statement (c.cell.reserve .stack c.frame.depth),
   .statement (assign .top long "copy" [.temp .stack])] ++
  located.flatMap fun (ins, offset) =>
    if ins.op = .invoke then
      [.statement (c.cell.reserve (.callee offset) c.frame.localSlots),
       .statement (assign (.calleeHasValue offset) long "alloc4" [.number 4])]
    else []

/-- The lines behind the instructions of a function, which return from it. -/
def closing (c : Context) (temps : Nat) : List Line :=
  .block (.stop c.inside.start) ::
    c.cell.handOver (.stop c.inside.start) (.fresh (temps + 1)) (.fresh (temps + 2))

/-- A function, and the number of temporaries taken, after `temps` others. -/
def function (c : Context) (located : List (Instruction × Nat)) (temps : Nat) :
    Except Failure (Il.Function × Nat) := do
  let p ← located.foldlM (fun p (ins, offset) => Progress.add c p ins offset) { temps }
  return ({ type := c.cell.type
            name := .function c.inside.start
            parameters := [.locals, .hasValue]
            lines := opening c located ++ p.lines.toList ++ closing c p.temps }, p.temps + 2)

/-- The function that runs the program: it calls the entry function, and the cell that this
returns is the status. -/
def entryPoint (cell : Cell) (frame : Frame) (entry : Nat) : Il.Function where
  exported := true
  type := word
  name := .main
  parameters := []
  lines :=
    [.block .start,
     .statement (cell.reserve .locals frame.localSlots),
     .statement (assign .entryHasValue long "alloc4" [.number 4]),
     .statement (.call (some (.entryResult, cell.type)) (.function entry)
       [.typed long (.temp .locals), .typed long (.temp .entryHasValue)]),
     .statement (assign .entryFlag word "loadw" [.temp .entryHasValue]),
     .statement (.branch (.temp .entryFlag) .value .noValue),
     .block .value] ++
    (if cell.isLong then
      [.statement (assign .status word "copy" [.temp .entryResult]),
       .statement (.ret (.temp .status))]
     else [.statement (.ret (.temp .entryResult))]) ++
    [.block .noValue, .statement (.ret (.number 0))]

/-- The patterns with which numbers and texts are printed. -/
def patterns (cell : Cell) : List Data :=
  let number := text (if cell.isLong then "%ld" else "%d")
  [⟨.numberPattern, number⟩, ⟨.linePattern, number ++ text "\n"⟩, ⟨.stringPattern, text "%s"⟩]

/-- What there is to say about the instructions of a function. -/
def remarksOn (located : List (Instruction × Nat)) : List Remark :=
  located.filterMap fun (ins, offset) =>
    if ins.op.isKnown then none else some ⟨offset, .skipped ins⟩

/-- **The module of a program.** -/
def lower (p : Program) (s : Settings) : Except Failure Output := do
  let cell := Cell.ofSettings s
  let frame := Frame.ofProgram p s
  frame.check
  let functions ← Functions.ofList p.instructions s.features.implicitEntry
  let located := p.instructions.zip (Instruction.offsets p.instructions)
  let body (f : Lowering.Function) := (located.take f.last).drop f.first
  let (lowered, _) ← functions.functions.foldlM
    (fun (done, temps) f => do
      let (g, temps) ← function ⟨cell, frame, functions, f⟩ (body f) temps
      return (done ++ [g], temps))
    (([], 0) : List Il.Function × Nat)
  return { module := { data := patterns cell
                       functions := lowered ++ [entryPoint cell frame functions.entry] }
           frame
           remarks := functions.functions.flatMap fun f => remarksOn (body f) }

end StackCompiler.Lowering.ToIl
