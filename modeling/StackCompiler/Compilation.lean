/-
**Compiling a code section.**

A code section is decoded, its symbols are placed, and the program is lowered for the target that
the settings name.  For MIPS the listing is assembled as well.
-/

import StackCompiler.Assembly.Image
import StackCompiler.Bytecode.Code
import StackCompiler.Lowering.Mips
import StackCompiler.Lowering.ToIl
import StackCompiler.Symbol.Placement

namespace StackCompiler

open Lowering (Frame Remark)

/-- What a program is lowered to. -/
inductive Lowered where
  | mips (o : Lowering.Mips.Output)
  | il (o : Lowering.ToIl.Output)
deriving DecidableEq, Repr

namespace Lowered

/-- The frame of the code. -/
def frame : Lowered → Frame
  | mips o => o.frame
  | il o => o.frame

/-- The remarks on the code. -/
def remarks : Lowered → List Remark
  | mips o => o.remarks
  | il o => o.remarks

/-- The lines of a listing, none for the intermediate language. -/
def lines : Lowered → List Text
  | mips o => o.lines.map Listing.Line.render
  | il _ => []

/-- The text of the intermediate language, none for MIPS. -/
def ilText : Lowered → Text
  | mips _ => []
  | il o => o.module.render

end Lowered

/-- What code is produced for. -/
inductive Target where
  | mips
  | il
deriving DecidableEq, Repr

/-- The target with a name; MIPS needs none. -/
def Target.ofName? (name : Text) : Option Target :=
  if name.isEmpty ∨ name = mipsTarget then some .mips
  else if name = ilTarget then some .il
  else none

/-- The text for a target that does not exist. -/
def Target.unsupported (name : Text) : Text :=
  text "unsupported target '" ++ name ++ text "'. Supported: 'mips', 'qbe'"

/-- Produces code for a target. -/
def Target.lower (t : Target) (p : Program) (s : Settings) : Except Lowering.Failure Lowered :=
  match t with
  | mips => (Lowering.Mips.lower p s).map .mips
  | il => (Lowering.ToIl.lower p s).map .il

/-- What compiling produces. -/
structure Compilation where
  format : Format
  decoded : List Instruction
  program : Program
  dropped : List Symbol
  lowered : Lowered
  remarks : List Remark
  image : Option Assembly.Image

namespace Compilation

/-- Why a code section can not be compiled. -/
inductive Failure where
  | settings (f : Settings.Failure)
  | decode (e : Code.DecodeError)
  | target (name : Text)
  | lowering (f : Lowering.Failure)
  | assembly (f : Assembly.Failure)
deriving DecidableEq, Repr

/-- The text of a failure to assemble. -/
def assemblyMessage : Assembly.Failure → Text
  | .line e => e.message
  | .noMnemonic n => text "line " ++ Numeral.decimal n ++ text ": no mnemonic"

/-- The text of a failure. -/
def Failure.message : Failure → Text
  | settings f => f.message
  | decode e => text "decode: " ++ e.message
  | target name => Target.unsupported name
  | lowering f => text "codegen: " ++ f.message
  | assembly f => text "assemble: " ++ assemblyMessage f

/-- The program of a list of instructions and symbols, and the symbols that have no place in it. -/
def placed (list : List Instruction) (symbols : List Symbol) (s : Settings) :
    Program × List Symbol :=
  let placement := Symbol.resolve list symbols (some s.entryNames)
  let depth := if s.stackDepth ≠ 0 then s.stackDepth
    else Int64.ofNat (Instruction.estimateDepth placement.instructions)
  (⟨placement.instructions, depth⟩, placement.dropped)

/-- Assembles the lines of a listing, if the settings name the target. -/
def assembled (lowered : Lowered) (s : Settings) : Except Failure (Option Assembly.Image) :=
  if s.target = mipsTarget then
    match Assembly.assemble s.features.laElide lowered.lines with
    | .ok image => .ok (some image)
    | .error f => .error (.assembly f)
  else .ok none

end Compilation

open Compilation in
/-- **Compiles a code section with its symbols.** -/
def compile (code : List UInt8) (symbols : List Symbol) (s : Settings) :
    Except Compilation.Failure Compilation := do
  s.validate.mapError .settings
  let (format, decoded) ← (Code.decode code).mapError .decode
  let (program, dropped) := placed decoded symbols s
  match Target.ofName? s.target with
  | none => .error (.target s.target)
  | some target =>
    let lowered ← (target.lower program s).mapError .lowering
    let image ← assembled lowered s
    return { format, decoded, program, dropped, lowered, image
             remarks := dropped.map (fun d => ⟨d.address.toNat, .dropped d⟩) ++ lowered.remarks }

end StackCompiler
