/-
**Remarks on unknown instructions.**

An instruction that nobody knows does nothing, and a warning says so.  Lowering to MIPS comes by
every instruction and remarks on each unknown one, in order and with its offset.  Lowering to the
intermediate language goes through the functions of the program, which end with its last byte.  An
unknown instruction has no bytes: behind the last byte it belongs to no function, and nothing is
said about it.

* `Lowering.Mips.onUnknown_add`, `Lowering.Mips.onUnknown_lower` — **MIPS remarks on every unknown
  instruction**;
* `Lowering.unknown_remarked` — **which unknown instructions are remarked on**.
-/

import StackCompiler.Proofs.BackendAgreement
import StackCompiler.Proofs.RenamedPrograms

namespace StackCompiler.Lowering

open Instruction (offsets totalSize)

/-- The unknown instructions with their offsets. -/
def unknownIn (list : List Instruction) : List (Instruction × Nat) :=
  (list.zip (offsets list)).filter fun x => !x.1.op.isKnown

/-- The remarks on unknown instructions. -/
def onUnknown (remarks : List Remark) : List Remark :=
  remarks.filter fun r => r.matter.warning = .unknownOp

theorem onUnknown_append (rs rs' : List Remark) :
    onUnknown (rs ++ rs') = onUnknown rs ++ onUnknown rs' :=
  List.filter_append rs rs'

/-! ### MIPS -/

namespace Mips

variable {c : Context} {w w' : Progress}

/-- What is wrong with a name is no matter of instructions. -/
theorem onUnknown_declare (names : List Text) (name : Text) (offset : Nat) :
    onUnknown ((declare names name).2.map (Remark.mk offset)).toList = [] := by
  unfold declare
  split
  · rfl
  · split
    · rfl
    · rfl

/-- **One instruction is remarked on if it is unknown.** -/
theorem onUnknown_add {ins : Instruction} {offset : Nat} (h : w.add c ins offset = .ok w') :
    onUnknown w'.remarks.toList = onUnknown w.remarks.toList ++
      if ins.op.isKnown then [] else [⟨offset, .becameNop ins⟩] := by
  rcases kind_cases ins with hop | hop | ⟨n, hop⟩ | hordinary
  · simp only [Progress.add, hop] at h
    obtain rfl := Except.ok.inj h
    simp [hop, Op.isKnown]
  · simp only [Progress.add, hop] at h
    obtain rfl := Except.ok.inj h
    rw [Array.toList_appendList, onUnknown_append, onUnknown_declare]
    simp [hop, Op.isKnown]
  · simp only [Progress.add, hop] at h
    obtain rfl := Except.ok.inj h
    rw [Array.toList_push, onUnknown_append, hop]
    rfl
  · rw [Progress.add_eq hordinary] at h
    split at h
    · obtain rfl := Except.ok.inj h
      simp [hordinary.isKnown]
    · cases h

/-- The unknown ones among the instructions are remarked on, in order. -/
theorem onUnknown_addAll {xs : List (Instruction × Nat)}
    (h : xs.foldlM (fun w x => Progress.add c w x.1 x.2) w = .ok w') :
    onUnknown w'.remarks.toList = onUnknown w.remarks.toList ++
      (xs.filter fun x => !x.1.op.isKnown).map fun x => ⟨x.2, .becameNop x.1⟩ := by
  induction xs generalizing w with
  | nil =>
      obtain rfl := foldlM_nil_ok_iff.1 h
      simp
  | cons x xs ih =>
      obtain ⟨r, hr, h⟩ := foldlM_cons_ok_iff.1 h
      rw [ih h, onUnknown_add hr, List.append_assoc, List.filter_cons]
      cases x.1.op.isKnown <;> rfl

/-- **MIPS remarks on every unknown instruction.** -/
theorem onUnknown_lower {p : Program} {s : Settings} {out : Output} (h : lower p s = .ok out) :
    onUnknown out.remarks = (unknownIn p.instructions).map fun x => ⟨x.2, .becameNop x.1⟩ := by
  obtain ⟨⟨⟩, -, h⟩ := bind_ok_iff.1 h
  obtain ⟨fs, -, h⟩ := bind_ok_iff.1 h
  obtain ⟨w, hw, rfl⟩ := bind_pure_ok_iff.1 h
  exact onUnknown_addAll hw

end Mips

/-! ### The intermediate language -/

namespace Functions

variable {list : List Instruction}

/-- Where the functions have not ended, offsets are before the last byte. -/
theorem lt_of_within {x : Instruction × Nat}
    (hx : x ∈ (list.zip (offsets list)).take
      ((offsets list).findIdx (totalSize list ≤ ·))) :
    x.2 < totalSize list := by
  obtain ⟨i, hi, rfl⟩ := List.mem_take_iff_getElem.1 hx
  rw [List.getElem_zip]
  exact Nat.lt_of_not_le (of_decide_eq_false
    (List.not_of_lt_findIdx (Nat.lt_of_lt_of_le hi (Nat.min_le_left _ _))))

/-- **The functions hold what starts before the last byte.** -/
theorem flatMap_body_eq_filter {implicitEntry : Bool} {fs : Functions}
    (hfs : ofList list implicitEntry = .ok fs) :
    fs.functions.flatMap (body (list.zip (offsets list))) =
      (list.zip (offsets list)).filter (·.2 < totalSize list) := by
  rw [flatMap_body hfs]
  generalize hn : (offsets list).findIdx (totalSize list ≤ ·) = n
  conv_rhs => rw [← List.take_append_drop n (list.zip (offsets list))]
  subst hn
  rw [List.filter_append, List.filter_eq_self.2 fun x hx => decide_eq_true (lt_of_within hx),
    List.filter_eq_nil_iff.2 fun x hx => ?_, List.append_nil]
  exact fun hlt => Nat.not_lt.2 (le_of_behind hx) (of_decide_eq_true hlt)

end Functions

namespace ToIl

theorem remarksOn_eq (located : List (Instruction × Nat)) :
    remarksOn located = (located.filter fun x => !x.1.op.isKnown).map fun x =>
      ⟨x.2, .skipped x.1⟩ := by
  induction located with
  | nil => rfl
  | cons x located ih =>
      rw [List.filter_cons]
      cases hx : x.1.op.isKnown <;> simp_all [remarksOn]

theorem remarksOn_flatMap {fs : List Lowering.Function}
    (body : Lowering.Function → List (Instruction × Nat)) :
    (fs.flatMap fun f => remarksOn (body f)) = remarksOn (fs.flatMap body) :=
  (List.filterMap_flatMap ..).symm

/-- **The intermediate language remarks on the unknown instructions before the last byte.** -/
theorem remarks_lower {p : Program} {s : Settings} {out : Output} (h : lower p s = .ok out) :
    out.remarks = ((unknownIn p.instructions).filter
      (·.2 < totalSize p.instructions)).map fun x => ⟨x.2, .skipped x.1⟩ := by
  obtain ⟨⟨⟩, -, h⟩ := bind_ok_iff.1 h
  obtain ⟨fs, hfs, h⟩ := bind_ok_iff.1 h
  obtain ⟨r, -, rfl⟩ := bind_pure_ok_iff.1 h
  calc (fs.functions.flatMap fun f => remarksOn (Functions.body _ f))
      = remarksOn (fs.functions.flatMap (Functions.body _)) := remarksOn_flatMap _
    _ = _ := by
      rw [Functions.flatMap_body_eq_filter hfs, remarksOn_eq, unknownIn, List.filter_filter,
        List.filter_filter]
      simp only [Bool.and_comm]

end ToIl

/-! ### Both -/

/-- **Which unknown instructions are remarked on.**  If both accept a program, the remarks of MIPS
on unknown instructions are one for each of them, in order and with its offset, and those of the
intermediate language one for each that starts before the last byte.  They are remarks at the same
offsets exactly if none stands behind it. -/
theorem unknown_remarked {p : Program} {s : Settings} {out : Mips.Output} {out' : ToIl.Output}
    (h : Mips.lower p s = .ok out) (h' : ToIl.lower p s = .ok out') :
    onUnknown out.remarks = (unknownIn p.instructions).map (fun x => ⟨x.2, .becameNop x.1⟩) ∧
    onUnknown out'.remarks = ((unknownIn p.instructions).filter
      (·.2 < totalSize p.instructions)).map (fun x => ⟨x.2, .skipped x.1⟩) ∧
    ((onUnknown out'.remarks).map (·.offset) = (onUnknown out.remarks).map (·.offset) ↔
      ∀ x ∈ unknownIn p.instructions, x.2 < totalSize p.instructions) := by
  have hall : onUnknown out'.remarks = out'.remarks := by
    rw [ToIl.remarks_lower h']
    refine List.filter_eq_self.2 fun r hr => ?_
    obtain ⟨x, -, rfl⟩ := List.mem_map.1 hr
    rfl
  rw [hall, Mips.onUnknown_lower h, ToIl.remarks_lower h']
  refine ⟨rfl, rfl, ?_⟩
  rw [List.map_map, List.map_map]
  constructor
  · intro heq
    have hlength := congrArg List.length heq
    rw [List.length_map, List.length_map, List.length_filter_eq_length_iff] at hlength
    exact fun x hx => of_decide_eq_true (hlength x hx)
  · intro hbefore
    rw [List.filter_eq_self.2 fun x hx => decide_eq_true (hbefore x hx)]
    rfl

/-- An unknown instruction before another one is remarked on by both. -/
theorem unknown_remarked_before :
    let p : Program := ⟨[⟨.unknown 99, [], []⟩, ⟨.ret, [], []⟩], 1⟩
    ∃ out out', Mips.lower p {} = .ok out ∧ ToIl.lower p {} = .ok out' ∧
      onUnknown out.remarks = [⟨0, .becameNop ⟨.unknown 99, [], []⟩⟩] ∧
      onUnknown out'.remarks = [⟨0, .skipped ⟨.unknown 99, [], []⟩⟩] := by
  intro p
  obtain ⟨out, hout⟩ := isOk_iff.1 (show (Mips.lower p {}).isOk = true by decide +kernel)
  obtain ⟨out', hout'⟩ := isOk_iff.1 (show (ToIl.lower p {}).isOk = true by decide +kernel)
  obtain ⟨hremarks, hremarks', -⟩ := unknown_remarked hout hout'
  exact ⟨out, out', hout, hout', hremarks.trans (by decide), hremarks'.trans (by decide)⟩

/-- **An unknown instruction behind the last byte is dropped without a remark** by the intermediate
language, and not by MIPS. -/
theorem unknown_unremarked :
    let p : Program := ⟨[⟨.ret, [], []⟩, ⟨.unknown 99, [], []⟩], 1⟩
    ∃ out out', Mips.lower p {} = .ok out ∧ ToIl.lower p {} = .ok out' ∧
      onUnknown out.remarks = [⟨1, .becameNop ⟨.unknown 99, [], []⟩⟩] ∧ out'.remarks = [] := by
  intro p
  obtain ⟨out, hout⟩ := isOk_iff.1 (show (Mips.lower p {}).isOk = true by decide +kernel)
  obtain ⟨out', hout'⟩ := isOk_iff.1 (show (ToIl.lower p {}).isOk = true by decide +kernel)
  exact ⟨out, out', hout, hout', (Mips.onUnknown_lower hout).trans (by decide),
    (ToIl.remarks_lower hout').trans (by decide)⟩

end StackCompiler.Lowering
