/-
**The lines of a module.**

The text of a module is a sequence of lines: one for each string, and for each function an empty
line, a line that opens it, its own lines, and a line that closes it.  What is lowered to a module
are the functions of a program, one after the other, and a function that runs the entry function.

* `Il.Module.render_eq`, `Il.Module.splitOn_render` — **a module is its lines**.
-/

import Mathlib.Data.List.Forall2
import StackCompiler.Proofs.BackendAgreement
import StackCompiler.Proofs.TextLines

namespace StackCompiler

open Instruction (offset_le offsets totalSize)

/-! ### Modules as lines -/

namespace Il

/-- The first line of a function. -/
def Function.header (f : Function) : Text :=
  (if f.exported then text "export " else []) ++ text "function " ++ f.type ++ text " " ++
    f.name.render ++ text "(" ++ commas (f.parameters.map fun t => text "l " ++ t.render) ++
    text ") \x7b"

/-- The lines of a function. -/
def Function.texts (f : Function) : List Text :=
  [] :: f.header :: (f.lines.map Line.render ++ [text "\x7d"])

/-- The line of data. -/
def Data.line (d : Data) : Text :=
  text "data " ++ d.name.render ++ text " = \x7b b " ++ Text.quote d.bytes ++ text ", b 0 \x7d"

/-- Whether a line is a comment. -/
def isComment (line : Text) : Bool := line.head? == some 35

/-- The lines of a module. -/
def Module.texts (m : Module) : List Text :=
  m.data.map Data.line ++ m.functions.flatMap Function.texts

theorem Function.render_eq (f : Function) : text "\n" ++ f.render = Text.unlines f.texts := by
  have hnewline : text "\n" = [Text.newline] := rfl
  have hopen : text ") \x7b\n" = text ") \x7b" ++ [Text.newline] := rfl
  have hclose : text "\x7d\n" = text "\x7d" ++ [Text.newline] := rfl
  simp only [render, texts, header, Text.unlines, hnewline, hopen, hclose, List.flatMap_cons,
    List.flatMap_append, List.flatMap_nil, List.append_assoc, List.nil_append, List.append_nil,
    List.cons_append]

theorem Data.render_eq (d : Data) : d.render = d.line ++ [Text.newline] := by
  have hclose : text ", b 0 \x7d\n" = text ", b 0 \x7d" ++ [Text.newline] := rfl
  simp only [render, line, hclose, List.append_assoc]

theorem unlines_append (ts us : List Text) :
    Text.unlines (ts ++ us) = Text.unlines ts ++ Text.unlines us := List.flatMap_append

/-- **A module is its lines.** -/
theorem Module.render_eq (m : Module) : m.render = Text.unlines m.texts := by
  have hdata : m.data.flatMap Data.render = Text.unlines (m.data.map Data.line) := by
    rw [Text.unlines, List.flatMap_map]
    exact List.flatMap_congr fun d _ => d.render_eq
  have hfunctions : m.functions.flatMap (fun f => text "\n" ++ f.render) =
      Text.unlines (m.functions.flatMap Function.texts) := by
    rw [Text.unlines, List.flatMap_assoc]
    exact List.flatMap_congr fun f _ => f.render_eq
  rw [render, texts, unlines_append, hdata, hfunctions]

theorem Module.splitOn_render (m : Module) :
    Text.splitOn Text.newline m.render = m.texts.flatMap (Text.splitOn Text.newline) ++ [[]] := by
  have hsplit := Text.splitOn_unlines m.texts []
  rwa [List.append_nil, ← m.render_eq] at hsplit

end Il

/-! ### The instructions of a function -/

namespace Lowering.Functions

variable {list : List Instruction} {implicitEntry : Bool} {fs : Functions}

/-- The instructions before the first one at or behind an offset are those before the offset. -/
theorem lt_findIdx_iff {i o n : Nat} (hi : (offsets list)[i]? = some o) :
    i < (offsets list).findIdx (n ≤ ·) ↔ o < n := by
  constructor
  · intro hlt
    obtain ⟨hlength, rfl⟩ := List.getElem?_eq_some_iff.1 hi
    simpa using List.not_of_lt_findIdx hlt
  · intro ho
    by_contra hge
    have hlength := Instruction.lt_length_of_offset hi
    rw [← Instruction.length_offsets list] at hlength
    have hfound : (offsets list).findIdx (n ≤ ·) < (offsets list).length := by omega
    have hle := of_decide_eq_true (List.findIdx_getElem (w := hfound))
    have hmono := offset_le (List.getElem?_eq_getElem hfound) hi (by omega)
    omega

/-- **The instructions of a function are those from its start on and before its end.** -/
theorem mem_body_between {entry start stop : Nat} {x : Instruction × Nat} :
    x ∈ body (list.zip (offsets list))
        (between (offsets list) entry start stop) ↔
      x ∈ list.zip (offsets list) ∧ start ≤ x.2 ∧ x.2 < stop := by
  simp only [body, between, List.mem_iff_getElem?, List.getElem?_drop, List.getElem?_take]
  constructor
  · rintro ⟨i, hi⟩
    split at hi
    · next hlt =>
      have ho := (List.getElem?_zip_eq_some.1 hi).2
      refine ⟨⟨_, hi⟩, ?_, (lt_findIdx_iff ho).1 hlt⟩
      have hle := (lt_findIdx_iff (n := start) ho).not
      omega
    · cases hi
  · rintro ⟨⟨i, hi⟩, hstart, hstop⟩
    have ho := (List.getElem?_zip_eq_some.1 hi).2
    have hlt := (lt_findIdx_iff (n := stop) ho).2 hstop
    have hge := (lt_findIdx_iff (n := start) ho).not
    refine ⟨i - (offsets list).findIdx (start ≤ ·), ?_⟩
    rw [Nat.add_sub_cancel' (by omega), if_pos hlt, hi]

/-- The functions of a program hold the instructions before its last byte. -/
theorem mem_bodies_iff (hfs : ofList list implicitEntry = .ok fs) {x : Instruction × Nat} :
    x ∈ fs.functions.flatMap (body (list.zip (offsets list))) ↔
      x ∈ list.zip (offsets list) ∧ x.2 < totalSize list := by
  have hbody : x ∈ body (list.zip (offsets list))
      (between (offsets list) 0 0 (totalSize list)) ↔ _ := mem_body_between
  rw [body, between, findIdx_zero, List.drop_zero] at hbody
  rw [flatMap_body hfs, hbody]
  simp only [Nat.zero_le, true_and]

end Lowering.Functions

/-! ### The parts of a lowered program -/

namespace Lowering.ToIl

/-- **The parts of a function.** -/
theorem function_ok {c : Context} {xs : List (Instruction × Nat)} {temps : Nat}
    {r : Il.Function × Nat} (h : function c xs temps = .ok r) :
    ∃ w, xs.foldlM (fun w x => Progress.add c w x.1 x.2) { temps } = .ok w ∧
      r = ({ type := c.cell.type, name := .function c.inside.start
             parameters := [.locals, .hasValue]
             lines := opening c xs ++ w.lines.toList ++ closing c w.temps }, w.temps + 2) := by
  obtain ⟨w, hw, h⟩ := bind_ok_iff.1 h
  exact ⟨w, hw, (pure_ok_iff.1 h).symm⟩

theorem addFunctions_ok {cell : Cell} {frame : Frame} {fs : Functions}
    {located : List (Instruction × Nat)} {functions : List Lowering.Function}
    {d r : List Il.Function × Nat}
    (h : functions.foldlM (addFunction cell frame fs located) d = .ok r) :
    ∃ gs, r.1 = d.1 ++ gs ∧ List.Forall₂ (fun f g => ∃ temps temps',
      function ⟨cell, frame, fs, f⟩ (Functions.body located f) temps = .ok (g, temps'))
        functions gs := by
  induction functions generalizing d with
  | nil =>
      obtain rfl := foldlM_nil_ok_iff.1 h
      exact ⟨[], (List.append_nil _).symm, .nil⟩
  | cons f functions ih =>
      obtain ⟨d', hd', h⟩ := foldlM_cons_ok_iff.1 h
      obtain ⟨g, hg, hd'⟩ := bind_ok_iff.1 hd'
      obtain rfl := pure_ok_iff.1 hd'
      obtain ⟨gs, hr, hgs⟩ := ih h
      exact ⟨g.1 :: gs, by rw [hr, List.append_assoc, List.singleton_append],
        .cons ⟨d.2, g.2, hg⟩ hgs⟩

/-- **The parts of a module.** -/
theorem lower_ok {p : Program} {s : Settings} {out : Output} (h : lower p s = .ok out) :
    ∃ fs gs, Functions.ofList p.instructions s.features.implicitEntry = .ok fs ∧
      List.Forall₂ (fun f g => ∃ temps temps',
        function ⟨Cell.ofSettings s, Frame.ofProgram p s, fs, f⟩
          (Functions.body (p.instructions.zip (offsets p.instructions)) f) temps =
            .ok (g, temps')) fs.functions gs ∧
      out.module = { data := patterns (Cell.ofSettings s)
                     functions := gs ++
                       [entryPoint (Cell.ofSettings s) (Frame.ofProgram p s) fs.entry] } := by
  obtain ⟨-, -, h⟩ := bind_ok_iff.1 h
  obtain ⟨fs, hfs, h⟩ := bind_ok_iff.1 h
  obtain ⟨⟨gs, temps⟩, hwalk, h⟩ := bind_ok_iff.1 h
  obtain ⟨gs', hgs, hlowered⟩ := addFunctions_ok hwalk
  obtain rfl : gs = gs' := hgs
  obtain rfl := pure_ok_iff.1 h
  exact ⟨fs, gs, hfs, hlowered, rfl⟩

end Lowering.ToIl

end StackCompiler
