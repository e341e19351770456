/-
**The compiler as a tool.**

The compiler reads one file, compiles or assembles it, and writes, shows or runs the result.  What
the command line asks for is gathered first; then settings are made of it, from the settings file to
the flags; and then the input is dealt with.
-/

import StackCompiler.Assembly.WordFile
import StackCompiler.CommandLine.App
import StackCompiler.Compilation
import StackCompiler.Machine.Run
import StackCompiler.Object.Container
import StackCompiler.Settings.Diagnostic
import StackCompiler.Settings.File
import StackCompiler.Settings.Groups
import StackCompiler.Settings.Selection
import StackCompiler.Text.Path
import StackCompiler.Tools.Host

namespace StackCompiler.Tools.Compiler

open CommandLine (App Flag FlagSet Value)
open Numeral (decimal signed)

/-! ### The command line -/

/-- The flags of the compiler. -/
def flags : List Flag :=
  let flag (name short : String) (value : Value) (usage expected : String) : Flag :=
    .ofValue (text name) (text short) value (text usage) (text expected)
  [flag "output" "o" (.text []) "Place the output into <file>. '-' writes to stdout." "file",
   flag "format" "" (.text hexFormat) "Machine code output format (hex, bin)." "fmt",
   flag "target" "t" (.text mipsTarget)
     "Backend: 'mips', 'qbe' or a QBE target such as 'amd64_sysv'." "backend/target",
   flag "config" "c" (.text []) "Read settings from a YAML file before applying flags." "file",
   flag "entry" "e" (.list []) "Treat symbols with this name as the entry point (repeatable)."
     "name",
   flag "locals" "" (.int 0) "Local slots per frame." "n",
   flag "depth" "" (.int 0) "Operand stack cells per frame (0 estimates it)." "n",
   flag "max-steps" "" (.int 50000000) "Instruction limit for --run." "n",
   flag "dump-ir" "d" (.bool false) "Print the decoded instructions (or the QBE IL) and exit." "",
   flag "emit-asm" "S" (.bool false) "Write MIPS assembly instead of machine code." "",
   flag "run" "r" (.bool false) "Execute the program in the built-in MIPS emulator." "",
   flag "assemble" "a" (.bool false) "Treat the input as MIPS assembly and only assemble it." "",
   flag "raw" "" (.bool false)
     "Treat the input as a bare code section without a container header." "",
   flag "list-flags" "" (.bool false) "Print every warning and feature switch with its state." ""]

/-- All flags.  Their names differ, so that all of them can be defined. -/
def flagSet : FlagSet :=
  let fs := (({} : FlagSet).defineAll flags).1
  let fs := (fs.defineFamily (text "W")
    (text "Enable or disable a warning (e.g. -Wall, -Wno-depth, -Werror)") (text "warning")).1
  let fs := (fs.defineFamily (text "F")
    (text "Enable or disable a feature (e.g. -Fno-la-elide)") (text "feature")).1
  (({} : Settings).defineGroups fs).1

/-- The compiler as a command. -/
def app : App where
  name := text "vmc"
  usage := text "<input>"
  synopsis := text "[options] <input>"
  description := text ("Translates KATS/OATS stack bytecode into MIPS32 machine code, " ++
    "or into native code through QBE.")
  authors := [text "xplshn"]
  repository := text "<https://github.com/xplshn/vmc>"
  flags := flagSet

/-- What the command line asks for. -/
structure Options where
  output : Text
  settingsFile : Text
  entryNames : List Text
  /-- These are set only if they are given. -/
  target : Option Text
  format : Option Text
  locals : Option Int64
  depth : Option Int64
  maxSteps : Int64
  switches : List Text
  dump : Bool
  emitAssembly : Bool
  run : Bool
  assemble : Bool
  raw : Bool
  listFlags : Bool
deriving DecidableEq, Repr

/-- The text of a flag. -/
def textOf (fs : FlagSet) (name : String) : Text :=
  match fs.value? (text name) with
  | some (.text t) => t
  | _ => []

/-- The list of a flag. -/
def listOf (fs : FlagSet) (name : String) : List Text :=
  match fs.value? (text name) with
  | some (.list ts) => ts
  | _ => []

/-- The integer of a flag. -/
def intOf (fs : FlagSet) (name : String) : Int64 :=
  match fs.value? (text name) with
  | some (.int n) => n
  | _ => 0

/-- Whether a flag is on. -/
def isOn (fs : FlagSet) (name : String) : Bool := fs.value? (text name) == some (.bool true)

/-- Whether a flag is a switch of a warning or feature. -/
def isSwitch (name : Text) : Bool :=
  1 < name.length && (name.head? == some 87 || name.head? == some 70)

/-- **What the flags ask for.**  Switches with a name of their own count before the others. -/
def Options.ofFlags (fs : FlagSet) : Options where
  output := textOf fs "output"
  settingsFile := textOf fs "config"
  entryNames := listOf fs "entry"
  target := if fs.changed (text "target") then some (textOf fs "target") else none
  format := if fs.changed (text "format") then some (textOf fs "format") else none
  locals := if fs.changed (text "locals") then some (intOf fs "locals") else none
  depth := if fs.changed (text "depth") then some (intOf fs "depth") else none
  maxSteps := intOf fs "max-steps"
  switches := fs.visitedNames.filter isSwitch ++
    (listOf fs "W").map (text "W" ++ ·) ++ (listOf fs "F").map (text "F" ++ ·)
  dump := isOn fs "dump-ir"
  emitAssembly := isOn fs "emit-asm"
  run := isOn fs "run"
  assemble := isOn fs "assemble"
  raw := isOn fs "raw"
  listFlags := isOn fs "list-flags"

/-- The target to set.  Without a settings file there is always one. -/
def Options.targetToSet (o : Options) : Option Text :=
  if o.settingsFile.isEmpty then some (o.target.getD mipsTarget) else o.target

/-- The settings with what the flags say besides target and switches. -/
def Options.apply (o : Options) (s : Settings) : Settings :=
  { s with
    format := o.format.getD s.format
    entryNames := if o.entryNames.isEmpty then s.entryNames else o.entryNames
    localSlots := o.locals.getD s.localSlots
    stackDepth := o.depth.getD s.stackDepth }

/-! ### Output -/

/-- **Where the result goes**: to the file that is asked for, or else to one named after the input,
with another extension. -/
def outputName (output input : Text) (extension : String) : Text :=
  if !output.isEmpty then output
  else
    let name := Text.dropBack (Path.extension input) (Path.base input) ++ text extension
    if name = Path.base input then name ++ text extension else name

/-- A line for every instruction, with its offset unless it is a marker. -/
def instructionLines (list : List Instruction) : Text :=
  (list.zip (Instruction.offsets list)).flatMap fun (ins, offset) =>
    Text.padLeft 6 32 (if ins.op.isMarker then [] else decimal offset) ++ text "  " ++
      ins.render ++ text "\n"

/-- The remark on the size of frames. -/
def frameRemark (f : Lowering.Frame) : Text :=
  text "reserving " ++ signed f.depth.toInt ++ text " operand stack cells per frame (" ++
    signed f.size.toInt ++ text " bytes, " ++ signed f.localSlots.toInt ++ text " locals)"

/-- The warnings about a compilation that are to be reported. -/
def reported (s : Settings) (input : Text) (c : Compilation) : List Text :=
  let remarks := c.remarks.map fun r =>
    Diagnostic.warning s (some r.matter.warning)
      { file := input, offset := Int64.ofNat r.offset } r.matter.message
  (remarks ++ [Diagnostic.warning s (some .depth) { file := input } (frameRemark c.lowered.frame)]
    ).filterMap id

/-- The exit code of a program that ended with a status: its lowest byte. -/
def exitCode (status : Int32) : UInt8 := status.toUInt32.toUInt8

/-- The exit code of a failure. -/
def failed : UInt8 := 1

/-- The fuel of a run without a limit. -/
def runFuel : Nat := Nat.pow 2 62

variable {m : Type → Type} [Monad m] [Libraries]

/-- Reports an error and exits. -/
def fail {α : Type} (host : Host m) (p : Position) (message : Text) : Run m α := do
  host.err (Diagnostic.error p message)
  Run.exit failed

/-- Goes on with a value, or reports what is wrong and gives up. -/
def orFail {ε α : Type} (host : Host m) (p : Position) (message : ε → Text) :
    Except ε α → Run m α
  | .ok a => pure a
  | .error e => fail host p (message e)

/-- Writes a result where it belongs. -/
def emit (host : Host m) (o : Options) (input : Text) (extension : String) (result : Text) :
    Run m Unit := do
  let name := outputName o.output input extension
  if name = text "-" then host.out result
  else
    orFail host {} (fun e : FileError =>
      text "could not create '" ++ name ++ text "': " ++ e.writing name) (← host.write name result)

/-- Writes an image in the format that the settings name. -/
def emitImage (host : Host m) (o : Options) (s : Settings) (input : Text) (image : Assembly.Image) :
    Run m Unit :=
  if s.format = binFormat then
    emit host o input ".bin" (WordFile.toBytes image.words.toList)
  else emit host o input ".hex" (WordFile.toHex image.words.toList)

/-! ### The tool -/

/-- The settings of the settings file, if there is one. -/
def fileSettings (host : Host m) (o : Options) : Run m Settings := do
  if o.settingsFile.isEmpty then return {}
  let position : Position := { file := o.settingsFile }
  let contents ← orFail host position (fun e : FileError =>
    text "reading config file: " ++ e.reading o.settingsFile) (← host.read o.settingsFile)
  let applied := ({} : Settings).applyYaml host.system host.arch contents
  host.err applied.notices
  match applied.failure with
  | some f => fail host position f.message
  | none => return applied.settings

/-- The features and warnings. -/
def listing (s : Settings) : Text :=
  text "Features:\n" ++ Diagnostic.features s ++ text "Warnings:\n" ++ Diagnostic.warnings s

/-- The settings after the flags. -/
def flagSettings (host : Host m) (o : Options) (s : Settings) : Run m Settings := do
  let (s, notices) := match o.targetToSet with
    | some target => s.setTarget host.system host.arch target
    | none => (s, [])
  host.err notices
  let s := o.apply s
  orFail host {} Settings.Failure.message s.validate
  return s

/-- Assembles a file. -/
def assembleInput (host : Host m) (o : Options) (s : Settings) (input : Text) : Run m Unit := do
  let contents ← match ← host.read input with
    | .ok contents => pure contents
    -- A directory can be opened, so that only reading it goes wrong.
    | .error .directory => fail host { file := input } (FileError.directory.reading input)
    | .error e =>
      fail host {} (text "could not read file '" ++ input ++ text "': " ++ e.reading input)
  let scanned := Lines.scan Lines.usualBound contents
  if scanned.stopped then fail host { file := input } Lines.stoppedMessage
  match Assembly.assemble s.features.laElide scanned.lines with
  | .ok image => emitImage host o s input image
  | .error (.line e) =>
    fail host { file := input, line := Int64.ofNat e.line } e.message
  | .error f => fail host { file := input } (Compilation.assemblyMessage f)

/-- The program of a file. -/
def inputContainer (o : Options) (contents : Text) : Except Text Container :=
  if o.raw then
    ((Container.rawBytes contents).map fun code => { code }).mapError (·.message)
  else (Container.decode contents).mapError (·.message)

/-- Runs an image. -/
def runImage (host : Host m) (o : Options) (input : Text) (image : Assembly.Image) :
    Run m Unit := do
  let (machine, outcome) := (Machine.ofWords image.words).runLimited runFuel o.maxSteps
  host.out machine.output.toList
  match outcome with
  | .fault f => fail host { file := input } (text "emulator: " ++ f.message)
  | _ => Run.exit (exitCode machine.exitCode)

/-- Does what was asked with a compilation. -/
def deliver (host : Host m) (o : Options) (s : Settings) (input : Text) (c : Compilation) :
    Run m Unit := do
  match c.image with
  | none =>
    if o.dump then host.out c.lowered.ilText
    else
      fail host { file := input }
        (text "no native code can be made for '" ++ s.ilTarget ++ text "'")
  | some image =>
    if o.dump then host.out (instructionLines c.program.instructions)
    else if o.run then runImage host o input image
    else if o.emitAssembly then emit host o input ".s" (Text.unlines c.lowered.lines)
    else emitImage host o s input image

/-- Compiles a file. -/
def compileInput (host : Host m) (o : Options) (s : Settings) (input : Text) : Run m Unit := do
  let contents ← orFail host {} (fun e : FileError =>
    text "could not read file '" ++ input ++ text "': " ++ e.reading input) (← host.read input)
  let position : Position := { file := input }
  let container ← orFail host position id (inputContainer o contents)
  let c ← orFail host position Compilation.Failure.message
    (compile container.code container.symbols s)
  let warnings := reported s input c
  host.err warnings.flatten
  if s.warningsAsErrors && !warnings.isEmpty then
    fail host position (decimal warnings.length ++ text " warning(s) treated as errors")
  deliver host o s input c

/-- Does what was asked. -/
def act (host : Host m) (o : Options) (args : List Text) : Run m Unit := do
  let s ← fileSettings host o
  let (s, unknown) := s.selectAll o.switches
  for name in unknown do
    host.err ((Diagnostic.warning s (some .extra) {}
      (text "unrecognized switch '-" ++ name ++ text "'")).getD [])
  if o.listFlags then host.out (listing s)
  else
    let s ← flagSettings host o s
    match args with
    | [input] => if o.assemble then assembleInput host o s input else compileInput host o s input
    | _ => fail host {} (text "expected exactly one input file, got " ++ decimal args.length)

/-- **The tool.**  It gives its exit code. -/
def tool (host : Host m) (arguments : List Text) : m UInt8 :=
  Run.code do
    match app.start arguments with
    | (_, .misdefined e) => host.err (e.message ++ text "\n"); Run.exit failed
    | (a, .refused e) => host.err (a.refusal host.page e); Run.exit failed
    | (a, .help) => host.out (a.helpPage host.page (← host.year))
    | (a, .go args) => act host (.ofFlags a.flags) args

end StackCompiler.Tools.Compiler
