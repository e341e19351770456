/-
**Assembled images.**

Assembling goes over the statements twice.  The first pass fixes the number of words of every
instruction and with it the address of every label; the second encodes the instructions, now that
all labels are known.  Both stop at the first line that is wrong.
-/

import StackCompiler.Assembly.Encoding
import StackCompiler.Assembly.Statement

namespace StackCompiler.Assembly

/-- An instruction with the number of words that are laid out for it. -/
structure Sized where
  line : Nat
  source : Text
  mnemonic : Mnemonic
  operands : List Text
  words : Nat
deriving Repr

/-! ### The first pass -/

/-- What the first pass knows after some statements. -/
structure Plan where
  labels : Labels := {}
  address : UInt32 := 0
  sized : Array Sized := #[]

namespace Plan

/-- Gives a label the current address, unless it already has one. -/
def define (p : Plan) (name : Text) : Except Cause Plan :=
  if p.labels.contains name then .error (.duplicateLabel name)
  else .ok { p with labels := p.labels.insert name p.address }

/-- Places a statement with its words. -/
def place (elide : Bool) (p : Plan) (s : Statement) (w : Written) : Except Cause Plan :=
  match Mnemonic.ofName? w.mnemonic with
  | none => .error (.unknownMnemonic w.mnemonic)
  | some m => do
    let words ← m.size elide p.labels w.operands
    return { p with
      address := p.address + words.toUInt32 * 4
      sized := p.sized.push ⟨s.line, s.source, m, w.operands, words⟩ }

/-- Lays out a statement: first its labels, then its instruction. -/
def add (elide : Bool) (p : Plan) (s : Statement) : Except Cause Plan := do
  let p ← s.labels.foldlM define p
  match s.instruction with
  | none => return p
  | some w => place elide p s w

end Plan

/-- **The first pass.** -/
def layOut (elide : Bool) (statements : List Statement) : Except LineError Plan :=
  statements.foldlM
    (fun p s => (p.add elide s).mapError fun cause => ⟨s.line, s.source, cause⟩) {}

/-! ### The second pass -/

/-- An assembled program. -/
structure Image where
  /-- The words, from address zero on. -/
  words : Array UInt32 := #[]
  labels : Labels := {}
  /-- The address of the first word of every instruction, with its line. -/
  sources : Array (UInt32 × Nat) := #[]

/-- What is said when an instruction takes another number of words than were laid out. -/
def driftDetail (s : Sized) (encoded : Nat) : Text :=
  text s.mnemonic.name ++ text " encoded " ++ Numeral.decimal encoded ++ text " words, sized " ++
    Numeral.decimal s.words

namespace Image

/-- The address behind the last word. -/
def endAddress (i : Image) : UInt32 := i.words.size.toUInt32 * 4

/-- Encodes an instruction behind the words already there. -/
def add (i : Image) (s : Sized) : Except Cause Image := do
  let pc := i.endAddress
  let words ← s.mnemonic.encode i.labels pc s.words s.operands
  if words.length = s.words then
    return { i with words := i.words ++ words, sources := i.sources.push (pc, s.line) }
  else .error (.addressDrift (driftDetail s words.length))

end Image

/-- **The second pass.** -/
def emit (p : Plan) : Except LineError Image :=
  p.sized.toList.foldlM
    (fun i s => (i.add s).mapError fun cause => ⟨s.line, s.source, cause⟩) { labels := p.labels }

/-- **Assembles lines.**  With `elide`, the lower half of an address is left out where the first
pass knows that it is zero. -/
def assemble (elide : Bool) (lines : List Text) : Except Failure Image := do
  let statements ← Statement.parseAll lines
  (layOut elide statements >>= emit).mapError .line

end StackCompiler.Assembly
