/-
**What lowering writes by itself.**

A listing holds names and remarks that come from the program; all its other lines are made by
lowering.  This module goes through the lines of every instruction once and says of each three
things.  No name of the program stands in it.  It names no operation that checks its result for
overflow: cells are added and subtracted without a check, and so are the offsets of the stack and
the addresses of frames.  And it does something with labels of instructions only, never with those
before the first or behind the last one.

* `Lowering.Mips.drafted_operation` — **the lines of an operation are all of this**;
* `Lowering.Mips.unchecked_of_lower` — **no line of a listing names an operation that checks for
  overflow**.
-/

import StackCompiler.Proofs.GeneratedLines
import StackCompiler.Proofs.ListingWords
import StackCompiler.Proofs.RenamedPrograms

namespace StackCompiler

/-! ### Kinds of lines -/

/-- Whether an operation checks its result for overflow, if the machine is told to. -/
def Operation.checksOverflow : Operation → Bool
  | add | addi | sub => true
  | _ => false

/-- Whether a mnemonic names an operation that checks for overflow.  An abbreviation names none. -/
def Assembly.Mnemonic.checksOverflow : Assembly.Mnemonic → Bool
  | operation o => o.checksOverflow
  | _ => false

namespace Listing

/-- Whether no name of the program stands in a line, remarks on instructions apart. -/
def Line.own : Line → Bool
  | textSection | place _ _ | nothingFor _ => true
  | label l => l.isMade
  | code _ os => os.all Operand.isMade
  | visible _ | comment _ => false

/-- Whether a line names no operation that checks for overflow. -/
def Line.unchecked : Line → Bool
  | code m _ => !m.checksOverflow
  | _ => true

/-- Whether a line does nothing, in the place of an unknown instruction. -/
def Line.isNothing : Line → Bool
  | nothingFor _ => true
  | _ => false

/-- Whether a line does something, and defines and uses labels of instructions only. -/
def Line.inner (l : Line) : Bool :=
  !l.isNothing && l.defines.all (·.offset?.isSome) && l.uses.all (·.offset?.isSome)

/-- Whether a line may stand among those of an instruction. -/
def Line.drafted (l : Line) : Bool := l.own && l.unchecked && l.inner

/-- Names and remarks name no operation. -/
theorem Line.unchecked_of_isAside {l : Line} (h : l.isAside) : l.unchecked := by
  cases l with
  | code m os => cases h
  | _ => rfl

end Listing

namespace Lowering

open Listing

/-! ### The lines of an instruction -/

namespace Mips

open Drafting

section Drafted

theorem drafted_flatMap {ks : List Nat} {lines : Nat → List Line}
    (h : ∀ k, (lines k).all Line.drafted) : (ks.flatMap lines).all Line.drafted := by
  rw [List.all_flatMap, List.all_eq_true]
  exact fun k _ => h k

theorem drafted_callLines (f : Frame) (offset count : Nat) :
    (callLines f offset count).all Line.drafted := by
  have harguments : (argumentLines count).all Line.drafted := by
    unfold argumentLines
    split
    · rfl
    · rw [List.all_cons, drafted_flatMap fun _ => rfl]
      rfl
  have hheader : (headerLines f offset count).all Line.drafted := by
    unfold headerLines
    split <;> rfl
  rw [callLines, List.all_append, hheader, List.all_append, harguments]
  rfl

variable {c : Context} {offset : Nat} {ins : Instruction} {ls : List Line}

/-- **In the lines of an operation stands no name of the program, and none of them names an
operation that checks for overflow.** -/
theorem drafted_operation (h : (operation c offset ins).lines = .ok ls) : ls.all Line.drafted := by
  unfold operation at h
  cases hop : ins.op with rw [hop] at h
  | load | store =>
      rw [← Except.ok.inj (slot_lines h).2]
      rfl
  | jmp | jmpz | jmpnz =>
      rw [← Except.ok.inj (targetLabel_lines h)]
      rfl
  | invoke =>
      rw [(call_lines h).2, List.all_append, drafted_callLines]
      rfl
  | ret =>
      dsimp only at h
      split at h <;> rw [← Except.ok.inj h] <;> rfl
  | syscall =>
      rw [(service_lines h).2, List.all_append, drafted_flatMap fun _ => rfl]
      rfl
  | _ =>
      rw [← Except.ok.inj h]
      rfl

theorem drafted_draft (h : draft c offset ins = .ok ls) : ∀ l ∈ ls, l.drafted := by
  obtain ⟨ls, hls, rfl⟩ := map_ok_iff.1 h
  exact List.forall_mem_cons.2 ⟨rfl, List.all_eq_true.1 (drafted_operation hls)⟩

theorem own_draft (h : draft c offset ins = .ok ls) : ∀ l ∈ ls, l.own := by
  intro l hl
  have hdrafted := drafted_draft h l hl
  simp only [Line.drafted, Bool.and_eq_true] at hdrafted
  exact hdrafted.1.1

theorem unchecked_draft (h : draft c offset ins = .ok ls) : ∀ l ∈ ls, l.unchecked := by
  intro l hl
  have hdrafted := drafted_draft h l hl
  simp only [Line.drafted, Bool.and_eq_true] at hdrafted
  exact hdrafted.1.2

theorem inner_draft (h : draft c offset ins = .ok ls) : ∀ l ∈ ls, l.inner := by
  intro l hl
  have hdrafted := drafted_draft h l hl
  simp only [Line.drafted, Bool.and_eq_true] at hdrafted
  exact hdrafted.2

end Drafted

/-! ### Listings -/

section Listings

variable {c : Context} {w w' : Progress} {ins : Instruction} {offset : Nat}

/-- **What an instruction adds to a listing.**  A marker adds names and remarks, an instruction that
nobody knows a line that does nothing, and any other instruction the lines of its draft. -/
theorem Progress.add_lines (h : w.add c ins offset = .ok w') :
    ∃ ls, w'.lines.toList = w.lines.toList ++ ls ∧
      (ins.op.isMarker = true ∧ (∀ l ∈ ls, l.isAside) ∨
        (∃ n, ins.op = .unknown n) ∧ ls = [.nothingFor ins] ∨
        Ordinary ins ∧ draft c offset ins = .ok ls) := by
  rcases kind_cases ins with hop | hop | ⟨n, hop⟩ | hordinary
  · simp only [Progress.add, hop] at h
    obtain rfl := Except.ok.inj h
    exact ⟨_, Array.toList_push, Or.inl ⟨by rw [hop]; rfl, List.forall_mem_singleton.2 rfl⟩⟩
  · simp only [Progress.add, hop] at h
    obtain rfl := Except.ok.inj h
    refine ⟨_, Array.toList_appendList, Or.inl ⟨by rw [hop]; rfl, ?_⟩⟩
    unfold declare
    split
    · exact List.forall_mem_singleton.2 rfl
    · split
      · exact List.forall_mem_singleton.2 rfl
      · exact List.forall_mem_cons.2 ⟨rfl, List.forall_mem_singleton.2 rfl⟩
  · simp only [Progress.add, hop] at h
    obtain rfl := Except.ok.inj h
    exact ⟨_, Array.toList_push, Or.inr (Or.inl ⟨⟨n, hop⟩, rfl⟩)⟩
  · obtain ⟨ls, hls, hlines⟩ := Progress.add_ordinary hordinary h
    exact ⟨ls, hlines, Or.inr (Or.inr ⟨hordinary, hls⟩)⟩

section Forall

variable {P : Line → Prop} (haside : ∀ l : Line, l.isAside → P l)
  (hnothing : ∀ ins, P (.nothingFor ins))
  (hdraft : ∀ offset ins ls, draft c offset ins = .ok ls → ∀ l ∈ ls, P l)

include haside hnothing hdraft

/-- What holds of names and remarks, of lines that do nothing and of drafts holds of all lines that
an instruction adds. -/
theorem forall_lines_add (h : ∀ l ∈ w.lines.toList, P l) (hadd : w.add c ins offset = .ok w') :
    ∀ l ∈ w'.lines.toList, P l := by
  obtain ⟨ls, hlines, hls⟩ := Progress.add_lines hadd
  rw [hlines]
  refine List.forall_mem_append.2 ⟨h, ?_⟩
  rcases hls with ⟨-, hasides⟩ | ⟨-, rfl⟩ | ⟨-, hls⟩
  · exact fun l hl => haside l (hasides l hl)
  · exact List.forall_mem_singleton.2 (hnothing ins)
  · exact hdraft _ _ _ hls

/-- **What holds of these lines holds of all that instructions add.** -/
theorem forall_lines_addAll (h : ∀ l ∈ w.lines.toList, P l) {xs : List (Instruction × Nat)}
    (hadd : xs.foldlM (fun w x => Progress.add c w x.1 x.2) w = .ok w') :
    ∀ l ∈ w'.lines.toList, P l :=
  foldlM_keeps (forall_lines_add haside hnothing hdraft) h hadd

end Forall

/-- **No line of a listing names an operation that checks for overflow.** -/
theorem unchecked_of_lower {p : Program} {s : Settings} {out : Output} (h : lower p s = .ok out) :
    ∀ l ∈ out.lines, l.unchecked := by
  obtain ⟨fs, w, -, -, hw, -, hlines⟩ := lower_ok h
  have hprologue : (prologue ⟨Frame.ofProgram p s, fs⟩ s.stackTop).all Line.unchecked := rfl
  have hexit : ∀ l ∈ (if needsExit fs p.instructions then epilogue else []), l.unchecked := by
    split
    · decide
    · exact List.forall_mem_nil _
  have hwritten : ∀ l ∈ w.lines.toList, l.unchecked :=
    forall_lines_addAll (fun _ => Line.unchecked_of_isAside) (fun _ => rfl)
      (fun _ _ _ => unchecked_draft) (List.forall_mem_nil _) hw
  rw [hlines]
  exact List.forall_mem_append.2 ⟨List.forall_mem_append.2
    ⟨List.all_eq_true.1 hprologue, hwritten⟩, hexit⟩

end Listings

end Mips

end Lowering

end StackCompiler
