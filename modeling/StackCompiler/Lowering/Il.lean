/-
**The intermediate language.**

A module of the intermediate language consists of data and functions; a function is divided into
blocks, and a block ends with a jump or a return.  Statements are values; their text is what a
compiler for the language reads.
-/

import StackCompiler.Text.Quoted

namespace StackCompiler.Il

open Numeral (decimal signed)

/-! ### Names -/

/-- The names of blocks. -/
inductive Block where
  /-- The first block of a function. -/
  | start
  | place (offset : Nat)
  /-- Behind a jump that is not taken. -/
  | fallThrough (offset : Nat)
  /-- Where the result of a call is pushed. -/
  | result (offset : Nat)
  /-- Behind a call. -/
  | returned (offset : Nat)
  /-- The end of the function that starts at an offset. -/
  | stop (offset : Nat)
  /-- Where a return from a block has a cell to hand over. -/
  | withCell (b : Block)
  /-- Where a return from a block has none. -/
  | withoutCell (b : Block)
  /-- Where the program ends with a status. -/
  | value
  /-- Where the program ends without one. -/
  | noValue
deriving DecidableEq, Repr

/-- The label of a block. -/
def Block.render : Block → Text
  | start => text "start"
  | place offset => text "L" ++ decimal offset
  | fallThrough offset => text "L" ++ decimal offset ++ text "_f"
  | result offset => text "L" ++ decimal offset ++ text "_push"
  | returned offset => text "L" ++ decimal offset ++ text "_ret"
  | stop offset => text "f" ++ decimal offset ++ text "_end"
  | withCell b => b.render ++ text "_val"
  | withoutCell b => b.render ++ text "_none"
  | value => text "value"
  | noValue => text "none"

/-- Temporaries. -/
inductive Temp where
  /-- A temporary with a number of its own. -/
  | fresh (n : Nat)
  | stack
  | top
  | locals
  /-- Where a function says whether it returns a cell. -/
  | hasValue
  /-- The local slots of the function that is called at an offset. -/
  | callee (offset : Nat)
  /-- Where the function that is called at an offset says whether it returns a cell. -/
  | calleeHasValue (offset : Nat)
  /-- Where the entry function says whether it returns a cell. -/
  | entryHasValue
  | entryResult
  /-- Whether the entry function returned a cell. -/
  | entryFlag
  | status
deriving DecidableEq, Repr

/-- The name of a temporary. -/
def Temp.render : Temp → Text
  | fresh n => text "%.t" ++ decimal n
  | stack => text "%stk"
  | top => text "%sp"
  | locals => text "%loc"
  | hasValue => text "%hasval"
  | callee offset => text "%call" ++ decimal offset
  | calleeHasValue offset => text "%hv" ++ decimal offset
  | entryHasValue => text "%hv"
  | entryResult => text "%r"
  | entryFlag => text "%h"
  | status => text "%rw"

/-- Functions and data. -/
inductive Global where
  | function (start : Nat)
  | main
  | printf
  | putchar
  | calloc
  | exit
  | numberPattern
  | linePattern
  | stringPattern
deriving DecidableEq, Repr

/-- The text of a function or of data. -/
def Global.render : Global → Text
  | function start => text "$vm_f" ++ decimal start
  | main => text "$main"
  | printf => text "$printf"
  | putchar => text "$putchar"
  | calloc => text "$calloc"
  | exit => text "$exit"
  | numberPattern => text "$vm_fmt_int"
  | linePattern => text "$vm_fmt_int_nl"
  | stringPattern => text "$vm_fmt_str"

/-- What a statement works on. -/
inductive Value where
  | temp (t : Temp)
  | number (n : Int)
  | global (g : Global)
deriving DecidableEq, Repr

/-- A value as text. -/
def Value.render : Value → Text
  | temp t => t.render
  | number n => signed n
  | global g => g.render

/-! ### Statements -/

/-- An argument of a call. -/
inductive Argument where
  | typed (type : Text) (v : Value)
  /-- The arguments that follow are not declared. -/
  | others
deriving DecidableEq, Repr

/-- An argument as text. -/
def Argument.render : Argument → Text
  | typed type v => type ++ text " " ++ v.render
  | others => text "..."

/-- The statements of a block. -/
inductive Statement where
  /-- Gives a temporary the result of an operation. -/
  | assign (t : Temp) (type operation : Text) (values : List Value)
  | store (type : Text) (v address : Value)
  /-- Calls a function, perhaps for its result. -/
  | call (result : Option (Temp × Text)) (f : Global) (arguments : List Argument)
  | jump (b : Block)
  /-- Goes to the first block unless a value is zero, and else to the second. -/
  | branch (v : Value) (nonzero isZero : Block)
  | ret (v : Value)
deriving DecidableEq, Repr

/-- Texts with commas between them. -/
def commas (ts : List Text) : Text := Text.join (text ", ") ts

/-- What stands before the operation of a statement with a result. -/
def assigned (t : Temp) (type : Text) : Text := t.render ++ text " =" ++ type ++ text " "

/-- The text of the name of a block in a statement. -/
def reference (b : Block) : Text := text "@" ++ b.render

/-- A statement as text. -/
def Statement.render : Statement → Text
  | assign t type operation values =>
    assigned t type ++ operation ++ text " " ++ commas (values.map Value.render)
  | store type v address => text "store" ++ type ++ text " " ++ commas [v.render, address.render]
  | call result f arguments =>
    (result.map fun (t, type) => assigned t type).getD [] ++ text "call " ++ f.render ++
      text "(" ++ commas (arguments.map Argument.render) ++ text ")"
  | jump b => text "jmp " ++ reference b
  | branch v nonzero isZero => text "jnz " ++ commas [v.render, reference nonzero, reference isZero]
  | ret v => text "ret " ++ v.render

/-! ### Functions and modules -/

/-- The lines of a function. -/
inductive Line where
  | block (b : Block)
  | statement (s : Statement)
  | comment (body : Text)
deriving DecidableEq, Repr

/-- A line as text. -/
def Line.render : Line → Text
  | block b => text "@" ++ b.render
  | statement s => text "\t" ++ s.render
  | comment body => text "# " ++ body

/-- A function of a module. -/
structure Function where
  /-- Whether it is seen from outside. -/
  exported : Bool := false
  /-- The type of its result. -/
  type : Text
  name : Global
  /-- Its parameters, all of them addresses. -/
  parameters : List Temp
  lines : List Line
deriving DecidableEq, Repr

/-- A function as text. -/
def Function.render (f : Function) : Text :=
  (if f.exported then text "export " else []) ++ text "function " ++ f.type ++ text " " ++
    f.name.render ++ text "(" ++ commas (f.parameters.map fun t => text "l " ++ t.render) ++
    text ") \x7b\n" ++ Text.unlines (f.lines.map Line.render) ++ text "\x7d\n"

/-- A string as data. -/
structure Data where
  name : Global
  /-- Its bytes, without the zero at their end. -/
  bytes : Text
deriving DecidableEq, Repr

/-- Data as text. -/
def Data.render (d : Data) : Text :=
  text "data " ++ d.name.render ++ text " = \x7b b " ++ Text.quote d.bytes ++ text ", b 0 \x7d\n"

/-- A module: its data and its functions. -/
structure Module where
  data : List Data
  functions : List Function
deriving DecidableEq, Repr

/-- **The text of a module.** -/
def Module.render (m : Module) : Text :=
  m.data.flatMap Data.render ++ m.functions.flatMap fun f => text "\n" ++ f.render

end StackCompiler.Il
