/-
**Placing symbols in a program.**

A defined symbol whose address is the offset of an instruction becomes a marker before that
instruction: an entry marker if its name is an entry name, else a visibility marker if all see it.
A defined symbol whose address is no such offset is dropped.  One walk over the instructions does
this.  It counts offsets in 32 bits and takes down which addresses of symbols it has met.
-/

import StackCompiler.Stack.Instruction
import StackCompiler.Symbol.Basic

namespace StackCompiler

/-- A program with its markers. -/
structure Placement where
  /-- The instructions, with a marker for every symbol that has one. -/
  instructions : List Instruction
  /-- The defined symbols at whose address no instruction starts. -/
  dropped : List Symbol
  /-- The offset of the first entry marker. -/
  entry : Option Nat
deriving DecidableEq, Repr

namespace Symbol

/-- The defined symbols of a table under their addresses. -/
abbrev Index := List (UInt32 × List Symbol)

/-- An index with one more symbol, behind the others of its address. -/
def Index.add : Index → Symbol → Index
  | [], s => [(s.address, [s])]
  | (a, list) :: index, s =>
      if a = s.address then (a, list ++ [s]) :: index else (a, list) :: add index s

/-- The index of a table. -/
def index (symbols : List Symbol) : Index :=
  (symbols.filter (·.defined)).foldl Index.add []

/-- How far the walk over the instructions has come. -/
structure Walk where
  /-- The instructions that were passed, with their markers. -/
  output : Array Instruction := #[]
  /-- The addresses of the index at which an instruction starts. -/
  used : List UInt32 := []
  /-- The offset of the first entry marker. -/
  entry : Option Nat := none
  /-- Where the next instruction starts. -/
  address : UInt32 := 0

/-- Puts the marker of a symbol before the next instruction, if the symbol has one. -/
def Walk.mark (entryNames : List Text) (w : Walk) (s : Symbol) : Walk :=
  if entryNames.contains s.name then
    { w with output := w.output.push { op := .entry, symbol := s.name }
             entry := w.entry.or (some w.address.toNat) }
  else if s.binding = globalBinding then
    { w with output := w.output.push { op := .global, symbol := s.name } }
  else w

/-- Passes an instruction. -/
def Walk.pass (index : Index) (entryNames : List Text) (w : Walk) (ins : Instruction) : Walk :=
  let w := match index.lookup w.address with
    | some list => list.foldl (mark entryNames) { w with used := w.address :: w.used }
    | none => w
  { w with output := w.output.push ins, address := w.address + ins.width.toUInt32 }

/-- **Places the symbols of a table in a list of instructions.** -/
def place (list : List Instruction) (symbols : List Symbol) (entryNames : List Text) :
    Placement :=
  let w := list.foldl (Walk.pass (index symbols) entryNames) {}
  { instructions := w.output.toList
    dropped := symbols.filter fun s => s.defined && !w.used.contains s.address
    entry := w.entry }

/-- Places symbols, where the entry names are the default ones if none are given. -/
def resolve (list : List Instruction) (symbols : List Symbol)
    (entryNames : Option (List Text)) : Placement :=
  place list symbols (entryNames.getD defaultEntryNames)

end Symbol

end StackCompiler
