/-
**Settings.**

Settings say for which target code is produced, how frames are laid out, which symbols name the
entry of a program, and which features and warnings are on.  Counts are 64-bit numbers with a sign,
and arithmetic on them wraps around.
-/

import StackCompiler.Libraries
import StackCompiler.Settings.Switch
import StackCompiler.Symbol.Basic

namespace StackCompiler

/-- The target that stands for machine code. -/
def mipsTarget : Text := text "mips"

/-- The target that stands for the intermediate language. -/
def ilTarget : Text := text "qbe"

/-- The format of hexadecimal digits. -/
def hexFormat : Text := text "hex"

/-- The format of bytes. -/
def binFormat : Text := text "bin"

/-- The settings of a compilation. -/
structure Settings where
  target : Text := mipsTarget
  /-- The architecture for which the target was chosen. -/
  arch : Text := []
  ilTarget : Text := []
  /-- The number of bytes of a cell in the intermediate language; zero stands for eight. -/
  wordSize : Int64 := 0
  /-- The type of a cell in the intermediate language. -/
  wordType : Text := []
  entryNames : List Text := defaultEntryNames
  localSlots : Int64 := 16
  /-- The number of operand stack cells of a frame; zero lets it be found out. -/
  stackDepth : Int64 := 0
  stackTop : UInt32 := 0x7fffeff8
  format : Text := hexFormat
  warningsAsErrors : Bool := false
  features : Features := {}
  warnings : Warnings := {}
deriving DecidableEq, Repr

namespace Settings

/-- The greatest number of local slots that can be reached from the frame pointer. -/
def maxLocalSlots : Int64 := 4096

/-- Why settings can not be honoured, or a settings file not be applied. -/
inductive Failure where
  | localSlots (n : Int64)
  | negativeDepth (n : Int64)
  | unalignedStackTop (address : UInt32)
  | unknownFormat (format : Text)
  | noEntryNames
  | unknownWarning (name : Text)
  | unknownFeature (name : Text)
  | malformedFile
deriving DecidableEq, Repr

/-- The text of a failure. -/
def Failure.message : Failure → Text
  | localSlots n =>
    text "local slot count " ++ Numeral.signed n.toInt ++ text " out of range [1, 4096]"
  | negativeDepth n => text "negative stack depth " ++ Numeral.signed n.toInt
  | unalignedStackTop address =>
    text "stack top 0x" ++ Numeral.hex address.toNat ++ text " is not 8-byte aligned"
  | unknownFormat format =>
    text "unknown output format '" ++ format ++ text "'. Supported: 'hex', 'bin'"
  | noEntryNames => text "no entry symbol names configured"
  | unknownWarning name => text "unknown warning '" ++ name ++ text "' in config file"
  | unknownFeature name => text "unknown feature '" ++ name ++ text "' in config file"
  | malformedFile => text "parsing config file"

/-- **Whether settings can be honoured**; the first thing that is wrong is reported. -/
def validate (s : Settings) : Except Failure Unit := do
  if s.localSlots < 1 ∨ maxLocalSlots < s.localSlots then .error (.localSlots s.localSlots)
  else if s.stackDepth < 0 then .error (.negativeDepth s.stackDepth)
  else if s.stackTop &&& 7 ≠ 0 then .error (.unalignedStackTop s.stackTop)
  else if s.format ≠ hexFormat ∧ s.format ≠ binFormat then .error (.unknownFormat s.format)
  else if s.entryNames.isEmpty then .error .noEntryNames
  else .ok ()

/-! ### Targets -/

/-- The bytes and the type of a cell for a target of the intermediate language, if it is known. -/
def cellOf? (target : Text) : Option (Int64 × Text) :=
  if ["amd64_sysv", "amd64_apple", "arm64", "arm64_apple", "rv64"].any (text · == target) then
    some (8, text "l")
  else if ["arm", "rv32"].any (text · == target) then some (4, text "w")
  else none

/-- Chooses a target of the intermediate language. -/
def setIlTarget (s : Settings) (target notice : Text) : Settings × Text :=
  let quoted := text "'" ++ target ++ text "'"
  let (cell, warning) := match cellOf? target with
    | some cell => (cell, [])
    | none => ((8, text "l"),
        text "vmc: warning: unrecognized or unsupported QBE target " ++ quoted ++ text ".\n" ++
        text "vmc: warning: defaulting to 64-bit properties. Compilation may fail.\n")
  ({ s with target := StackCompiler.ilTarget, ilTarget := target,
            wordSize := cell.1, wordType := cell.2 },
    text "vmc: info: " ++ notice ++ quoted ++ text "\n" ++ warning)

/-- **Chooses a target** and returns what there is to say about it.  The target is `mips`, `qbe`
for the intermediate language of the given system, or the name of a target of that language. -/
def setTarget [Libraries] (s : Settings) (system arch target : Text) : Settings × Text :=
  let s := { s with arch }
  if target.isEmpty ∨ target = mipsTarget then
    ({ s with target := mipsTarget, wordSize := 4, wordType := text "w" }, [])
  else if target = StackCompiler.ilTarget then
    s.setIlTarget (Libraries.nativeTarget system arch)
      (text "no QBE target specified, defaulting to host target ")
  else s.setIlTarget target (text "using specified QBE target ")

end Settings

end StackCompiler
