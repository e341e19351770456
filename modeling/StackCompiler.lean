import StackCompiler.Main
import StackCompiler.Proofs.Abbreviations
import StackCompiler.Proofs.AssemblyOutcomes
import StackCompiler.Proofs.CutContainers
import StackCompiler.Proofs.CutSections
import StackCompiler.Proofs.FileOrder
import StackCompiler.Proofs.FlatMemory
import StackCompiler.Proofs.FrameRoom
import StackCompiler.Proofs.FunctionRanges
import StackCompiler.Proofs.GroupSwitches
import StackCompiler.Proofs.HeapBlocks
import StackCompiler.Proofs.HexForms
import StackCompiler.Proofs.InertInstructions
import StackCompiler.Proofs.ModuleStructure
import StackCompiler.Proofs.NameEffects
import StackCompiler.Proofs.NamesInComments
import StackCompiler.Proofs.OverflowTraps
import StackCompiler.Proofs.ReproducibleReports
import StackCompiler.Proofs.ResumedRuns
import StackCompiler.Proofs.ScratchRegisters
import StackCompiler.Proofs.Shorthands
import StackCompiler.Proofs.SkippedCases
import StackCompiler.Proofs.SwitchOrder
import StackCompiler.Proofs.SymbolPlacement
