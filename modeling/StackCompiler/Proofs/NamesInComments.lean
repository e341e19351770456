/-
**Names in the comments of a module.**

In the intermediate language the name of a marker stands in a comment, as it is.  A comment ends
with its line, so what follows a line end in a name is read as code, unless it starts a comment of
its own.  Programs that only differ in names therefore have the same code, line by line, if and only
if every name stays in its comments.  Markers behind the last byte of a program stand in no
function.

* `Lowering.ToIl.codeLines_renamed` — **programs that only differ in names have the same code if and
  only if names stay in comments**.
-/

import StackCompiler.Proofs.ModuleLines
import StackCompiler.Proofs.PairedOutcomes
import StackCompiler.Proofs.RenamedPrograms

namespace StackCompiler

open Instruction (offsets op_unnamed totalSize unnamedAt)
open Il.Function (texts)
open Lowering.Functions (body ofList startsIn)

/-! ### Code and comments -/

namespace Il

open Text (newline splitOn)

/-- **The lines of a text that are no comments.** -/
def codeLines (t : Text) : List Text := (splitOn newline t).filter fun line => !isComment line

/-- The lines of a name behind its first that are no comments. -/
def stray (name : Text) : List Text :=
  (splitOn newline name).tail.filter fun line => !isComment line

/-- A name whose further lines are comments. -/
def StaysComment (name : Text) : Prop := ∀ line ∈ (splitOn newline name).tail, isComment line

instance (name : Text) : Decidable (StaysComment name) :=
  inferInstanceAs (Decidable (∀ line ∈ (splitOn newline name).tail, isComment line = true))

theorem stray_eq_nil_iff {name : Text} : stray name = [] ↔ StaysComment name := by
  simp [stray, StaysComment]

/-- A comment that ends with a name has the code that the name brings along. -/
theorem codeLines_comment {front : Text} (hfront : isComment front) (hline : newline ∉ front)
    (name : Text) : codeLines (front ++ name) = stray name := by
  obtain ⟨part, parts, hname⟩ := Text.splitOn_eq_cons newline name
  obtain ⟨c, front, rfl⟩ : ∃ c rest, front = c :: rest := by
    cases front with
    | nil => cases hfront
    | cons c rest => exact ⟨c, rest, rfl⟩
  have hfirst : isComment (c :: front ++ part) = true := hfront
  rw [codeLines, Text.splitOn_append_of_not_mem hline, stray, hname, List.modifyHead_cons,
    List.filter_cons_of_neg (by rw [hfirst]; decide), List.tail_cons]

/-- Lines, the same lines without the names at the end of some comments, and these names. -/
inductive Named : List Text → List Text → List Text → Prop where
  | nil : Named [] [] []
  | line {ts us names : List Text} (t : Text) (h : Named ts us names) :
      Named (t :: ts) (t :: us) names
  | name {ts us names : List Text} {front : Text} (hfront : isComment front)
      (hline : newline ∉ front) (name : Text) (h : Named ts us names) :
      Named ((front ++ name) :: ts) (front :: us) (name :: names)

namespace Named

variable {ts us ts' us' names names' : List Text}

theorem refl (ts : List Text) : Named ts ts [] := by
  induction ts with
  | nil => exact .nil
  | cons t ts ih => exact ih.line t

theorem append (h : Named ts us names) (h' : Named ts' us' names') :
    Named (ts ++ ts') (us ++ us') (names ++ names') := by
  induction h with
  | nil => exact h'
  | line t _ ih => exact ih.line t
  | name hfront hline name _ ih => exact ih.name hfront hline name

theorem length_codeLines (h : Named ts us names) :
    (ts.flatMap codeLines).length =
      (us.flatMap codeLines).length + (names.flatMap stray).length := by
  induction h with
  | nil => rfl
  | line t _ ih =>
      rw [List.flatMap_cons, List.flatMap_cons, List.length_append, List.length_append, ih,
        Nat.add_assoc]
  | @name _ _ _ front hfront hline name _ ih =>
      have hnone : codeLines front = [] := by
        have hcode := codeLines_comment hfront hline []
        rwa [List.append_nil] at hcode
      rw [List.flatMap_cons, List.flatMap_cons, List.flatMap_cons, List.length_append,
        List.length_append, List.length_append, ih, codeLines_comment hfront hline, hnone,
        List.length_nil]
      omega

/-- **Names change the code unless they stay in comments.** -/
theorem codeLines_eq_iff (h : Named ts us names) :
    ts.flatMap codeLines = us.flatMap codeLines ↔ ∀ name ∈ names, StaysComment name := by
  constructor
  · intro heq name hname
    have hlength := h.length_codeLines
    rw [heq] at hlength
    have hnone : names.flatMap stray = [] := List.eq_nil_of_length_eq_zero (by omega)
    exact stray_eq_nil_iff.1 (List.flatMap_eq_nil_iff.1 hnone name hname)
  · intro hnames
    induction h with
    | nil => rfl
    | line t _ ih => rw [List.flatMap_cons, List.flatMap_cons, ih hnames]
    | @name _ _ _ front hfront hline name _ ih =>
        obtain ⟨hname, hnames⟩ := List.forall_mem_cons.1 hnames
        have hnone : codeLines front = [] := by
          have hcode := codeLines_comment hfront hline []
          rwa [List.append_nil] at hcode
        rw [List.flatMap_cons, List.flatMap_cons, ih hnames, codeLines_comment hfront hline,
          stray_eq_nil_iff.2 hname, hnone]

end Named

/-- Functions whose lines only differ in names. -/
theorem named_texts {f g : Function} {names : List Text} (hheader : f.header = g.header)
    (h : Named (f.lines.map Line.render) (g.lines.map Line.render) names) :
    Named f.texts g.texts names := by
  have hclosed := h.append (.refl [text "\x7d"])
  rw [List.append_nil] at hclosed
  rw [Function.texts, Function.texts, hheader]
  exact (hclosed.line _).line _

theorem codeLines_render (m : Module) : codeLines m.render = m.texts.flatMap codeLines ++ [[]] := by
  rw [codeLines, m.splitOn_render, List.filter_append, List.filter_flatMap]
  rfl

end Il

/-! ### The module of a program without names -/

namespace Lowering.ToIl

open Il

/-- The names of markers. -/
def markerNames (xs : List (Instruction × Nat)) : List Text :=
  (xs.filter fun x => x.1.op.isMarker).map fun x => x.1.symbol

theorem markerNames_flatMap {α : Type} (f : α → List (Instruction × Nat)) (as : List α) :
    markerNames (as.flatMap f) = as.flatMap fun a => markerNames (f a) := by
  rw [markerNames, List.filter_flatMap, List.map_flatMap]
  rfl

section Unnamed

variable {c : Context} {x : Instruction × Nat}

theorem markerNames_marker (h : x.1.op.isMarker = true) : markerNames [x] = [x.1.symbol] := by
  simp [markerNames, h]

theorem markerNames_other (h : x.1.op.isMarker = false) : markerNames [x] = [] := by
  simp [markerNames, h]

/-- A marker that has lost its name leaves the front of its comment. -/
theorem named_marker {kind : Text} (hkind : Text.newline ∉ kind) (h : x.1.op.isMarker = true) :
    Named [(Line.comment (kind ++ x.1.symbol)).render]
      [(Line.comment (kind ++ x.1.unnamed.symbol)).render] (markerNames [x]) := by
  rw [markerNames_marker h, Instruction.unnamed_of_marker h, Line.render, Line.render,
    List.append_nil, ← List.append_assoc]
  refine Named.nil.name rfl ?_ _
  rw [List.mem_append]
  rintro (hmem | hmem)
  · revert hmem
    decide
  · exact hkind hmem

/-- **A marker is a comment with its name**, and every other instruction has the same lines. -/
theorem instruction_unnamed (c : Context) (temps : Nat) (x : Instruction × Nat) :
    Together (fun r r' => r.2 = r'.2 ∧
        Named (r.1.map Line.render) (r'.1.map Line.render) (markerNames [x]))
      (instruction c temps x.2 x.1) (instruction c temps x.2 x.1.unnamed) := by
  have hsame : x.1.op.isMarker = false → Together (fun r r' => r.2 = r'.2 ∧
        Named (r.1.map Line.render) (r'.1.map Line.render) (markerNames [x]))
      (instruction c temps x.2 x.1) (instruction c temps x.2 x.1.unnamed) := by
    intro hop
    rw [Instruction.unnamed_of_not_marker hop, markerNames_other hop]
    cases instruction c temps x.2 x.1 with
    | error cause => exact .error trivial
    | ok r => exact .ok ⟨rfl, .refl _⟩
  -- only the two markers write their names
  rcases kind_cases x.1 with hop | hop | ⟨n, hop⟩ | hordinary
  iterate 2
    · simp only [instruction, op_unnamed, hop]
      exact .ok ⟨rfl, named_marker (by decide) (by rw [hop]; rfl)⟩
  · exact hsame (by rw [hop]; rfl)
  · exact hsame hordinary.1

/-- The lines so far. -/
def Progress.texts (w : Progress) : List Text := w.lines.toList.map Line.render

/-- One instruction adds its name, if it is a marker. -/
theorem add_unnamed {w w' : Progress} {names : List Text}
    (h : w.temps = w'.temps ∧ Named w.texts w'.texts names) (x : Instruction × Nat) :
    Together (fun v v' => v.temps = v'.temps ∧ Named v.texts v'.texts (names ++ markerNames [x]))
      (w.add c x.1 x.2) (w'.add c x.1.unnamed x.2) := by
  have hins := instruction_unnamed c w.temps x
  rw [Progress.add, Progress.add, ← h.1]
  rcases paired_iff.1 hins with ⟨_, _, hp, hp', -⟩ | ⟨r, r', hp, hp', htemps, hnamed⟩
  · rw [hp, hp']
    exact .error trivial
  · rw [hp, hp']
    refine .ok ⟨htemps, ?_⟩
    simp only [Progress.texts, Array.toList_appendList, List.map_append]
    exact h.2.append hnamed

theorem opening_unnamed (xs : List (Instruction × Nat)) :
    opening c (xs.map unnamedAt) = opening c xs := by
  simp only [opening, List.flatMap_map, unnamedAt, op_unnamed]

/-- **The lines of a function without names.** -/
theorem function_unnamed (c : Context) (xs : List (Instruction × Nat)) (temps : Nat) :
    Together (fun r r' => r.2 = r'.2 ∧ Named r.1.texts r'.1.texts (markerNames xs))
      (function c xs temps) (function c (xs.map unnamedAt) temps) := by
  have hwalk : Together (fun w w' : Progress => w.temps = w'.temps ∧
        Named w.texts w'.texts (markerNames xs))
      (xs.foldlM (fun w x => Progress.add c w x.1 x.2) { temps })
      ((xs.map unnamedAt).foldlM (fun w x => Progress.add c w x.1 x.2) { temps }) := by
    rw [← List.flatMap_singleton' xs, markerNames_flatMap, List.flatMap_singleton' xs]
    refine Paired.foldlM_collect
      (R := fun names (w w' : Progress) => w.temps = w'.temps ∧ Named w.texts w'.texts names)
      (Q := fun x y => y = unnamedAt x) ?_ ?_ [] ⟨rfl, .nil⟩
    · rw [List.forall₂_map_right_iff]
      exact List.forall₂_same.2 fun _ _ => rfl
    · rintro x _ rfl names w w' h
      exact add_unnamed h x
  refine hwalk.bind fun w w' h => .ok ⟨congrArg (· + 2) h.1, ?_⟩
  refine named_texts rfl ?_
  have hlines := ((Named.refl ((opening c xs).map Line.render)).append h.2).append
    (Named.refl ((closing c w'.temps).map Line.render))
  rw [List.append_nil] at hlines
  simp only [opening_unnamed, List.map_append, h.1]
  exact hlines

end Unnamed

theorem addFunction_unnamed {cell : Cell} {frame : Frame} {fs : Functions}
    (located : List (Instruction × Nat)) {names : List Text} {d d' : List Il.Function × Nat}
    (h : d.2 = d'.2 ∧ Named (d.1.flatMap texts) (d'.1.flatMap texts) names)
    (f : Lowering.Function) :
    Together (fun r r' => r.2 = r'.2 ∧ Named (r.1.flatMap texts)
        (r'.1.flatMap texts) (names ++ markerNames (body located f)))
      (addFunction cell frame fs located d f)
      (addFunction cell frame fs (located.map unnamedAt) d' f) := by
  have hbody : body (located.map unnamedAt) f = (body located f).map unnamedAt := by
    rw [body, body, List.map_drop, List.map_take]
  rw [addFunction, addFunction, hbody, ← h.1]
  refine (function_unnamed _ _ d.2).bind fun r r' hr => .ok ⟨hr.1, ?_⟩
  rw [List.flatMap_append, List.flatMap_append, List.flatMap_singleton, List.flatMap_singleton]
  exact h.2.append hr.2

/-- **The module of a program without names.** -/
theorem lower_unnamed {p : Program} {s : Settings} {fs : Functions}
    (hfs : ofList p.instructions s.features.implicitEntry = .ok fs) :
    Together (fun out out' => Named out.module.texts out'.module.texts (markerNames
        (fs.functions.flatMap (body
          (p.instructions.zip (offsets p.instructions))))))
      (lower p s) (lower p.unnamed s) := by
  have hwalk : ∀ cell frame, Together (fun r r' : List Il.Function × Nat => r.2 = r'.2 ∧
        Named (r.1.flatMap texts) (r'.1.flatMap texts) (markerNames
          (fs.functions.flatMap (body
            (p.instructions.zip (offsets p.instructions))))))
      (fs.functions.foldlM (addFunction cell frame fs
        (p.instructions.zip (offsets p.instructions))) ([], 0))
      (fs.functions.foldlM (addFunction cell frame fs
        ((p.instructions.zip (offsets p.instructions)).map unnamedAt))
          ([], 0)) := by
    intro cell frame
    rw [markerNames_flatMap]
    refine Paired.foldlM_collect (R := fun names (r r' : List Il.Function × Nat) => r.2 = r'.2 ∧
      Named (r.1.flatMap texts) (r'.1.flatMap texts) names) (Q := Eq)
      (List.forall₂_refl _) ?_ [] ⟨rfl, .nil⟩
    rintro f _ rfl names d d' h
    exact addFunction_unnamed _ h f
  rw [lower, lower, Frame.ofProgram_unnamed]
  simp only [Program.unnamed, Functions.ofList_unnamed, Instruction.offsets_unnamed,
    Instruction.located_unnamed, hfs]
  cases (Frame.ofProgram p s).check with
  | error e => exact .error trivial
  | ok _ =>
      refine (hwalk (Cell.ofSettings s) (Frame.ofProgram p s)).bind fun r r' h => .ok ?_
      have hall := (Named.refl ((patterns (Cell.ofSettings s)).map Data.line)).append
        (h.2.append (.refl
          (entryPoint (Cell.ofSettings s) (Frame.ofProgram p s) fs.entry).texts))
      rw [List.nil_append, List.append_nil] at hall
      simp only [Module.texts, List.flatMap_append, List.flatMap_singleton]
      exact hall

/-! ### Programs that only differ in names -/

/-- The code of a program changes with its names, unless they stay in comments. -/
theorem codeLines_unnamed {p : Program} {s : Settings} {out out' : Output}
    (hp : lower p s = .ok out) (hp' : lower p.unnamed s = .ok out') :
    codeLines out.module.render = codeLines out'.module.render ↔
      ∀ x ∈ p.instructions.zip (offsets p.instructions), x.1.op.isMarker →
        x.2 < totalSize p.instructions → StaysComment x.1.symbol := by
  obtain ⟨fs, -, hfs, -⟩ := lower_ok hp
  have hboth := lower_unnamed hfs
  rw [hp, hp'] at hboth
  cases hboth with
  | ok hnamed =>
      rw [codeLines_render, codeLines_render, List.append_left_inj, hnamed.codeLines_eq_iff]
      simp only [markerNames, List.mem_map, List.mem_filter, Functions.mem_bodies_iff hfs]
      constructor
      · intro h x hx hmarker hlt
        exact h _ ⟨x, ⟨⟨hx, hlt⟩, hmarker⟩, rfl⟩
      · rintro h _ ⟨x, ⟨⟨hx, hlt⟩, hmarker⟩, rfl⟩
        exact h x hx hmarker hlt

/-- A return that has a name. -/
def namedReturn (name : Text) : Program := ⟨[⟨.global, [], name⟩, ⟨.ret, [], []⟩], 1⟩

/-- The return is accepted, whatever its name is. -/
theorem lower_namedReturn (name : Text) : ∃ out, lower (namedReturn name) {} = .ok out := by
  have hstarts : startsIn ((namedReturn name).instructions.zip [0, 0]) = [0] := by
    show ([0, 0] : List Nat).mergeSort.eraseReps = [0]
    rw [List.mergeSort_of_pairwise (by decide)]
    rfl
  have hoffsets : offsets (namedReturn name).instructions = [0, 0] := rfl
  have hfs : ofList (namedReturn name).instructions true = .ok ⟨[⟨0, 1, 0, 2, true⟩], 0,
      Functions.boundariesOf ((namedReturn name).instructions.zip [0, 0])⟩ := by
    unfold ofList
    simp only [hoffsets, hstarts]
    rfl
  have hcheck : (Frame.ofProgram (namedReturn name) {}).check = .ok () := by
    rw [show Frame.ofProgram (namedReturn name) {} = Frame.ofProgram (namedReturn []) {} from rfl]
    decide
  rw [lower]
  simp only [hfs, hcheck]
  exact ⟨_, rfl⟩

/-- **Programs that only differ in names have the same code if and only if names stay in comments.**
Let two programs differ in the names of their markers only, let both be accepted, and let the names
of the first stay in comments.  Then the lines of both that are no comments are the same, if and
only if the names of the second that stand in a function stay in comments too. -/
theorem codeLines_renamed {p p' : Program} {s : Settings} {out out' : Output}
    (h : p'.unnamed = p.unnamed) (hp : lower p s = .ok out) (hp' : lower p' s = .ok out')
    (hnames : ∀ ins ∈ p.instructions, ins.op.isMarker → StaysComment ins.symbol) :
    codeLines out'.module.render = codeLines out.module.render ↔
      ∀ x ∈ p'.instructions.zip (offsets p'.instructions), x.1.op.isMarker →
        x.2 < totalSize p'.instructions → StaysComment x.1.symbol := by
  obtain ⟨fs, -, hfs, -⟩ := lower_ok hp
  obtain ⟨out₀, hout₀, -⟩ := (together_iff.1 (lower_unnamed hfs)).1 out hp
  have hsame : codeLines out.module.render = codeLines out₀.module.render :=
    (codeLines_unnamed hp hout₀).2 fun x hx hmarker _ =>
      hnames x.1 (List.of_mem_zip hx).1 hmarker
  rw [hsame]
  exact codeLines_unnamed hp' (h ▸ hout₀)

/-- A name with a line end, behind which a comment stands. -/
theorem codeLines_renamed_comment :
    let p := namedReturn (text "f")
    let p' := namedReturn (text "g\n# h")
    p'.unnamed = p.unnamed ∧ ∃ out out', lower p {} = .ok out ∧ lower p' {} = .ok out' ∧
      codeLines out'.module.render = codeLines out.module.render := by
  intro p p'
  obtain ⟨out, hout⟩ := lower_namedReturn (text "f")
  obtain ⟨out', hout'⟩ := lower_namedReturn (text "g\n# h")
  exact ⟨rfl, out, out', hout, hout',
    (codeLines_renamed (show p'.unnamed = p.unnamed from rfl) hout hout' (by decide)).2 (by decide)⟩

/-- **A name can add code**: behind its line end this one calls a function. -/
theorem codeLines_name_with_code :
    let p := namedReturn (text "f")
    let p' := namedReturn (text "f\n\tcall $exit(w 7)")
    p'.unnamed = p.unnamed ∧ ∃ out out', lower p {} = .ok out ∧ lower p' {} = .ok out' ∧
      codeLines out'.module.render ≠ codeLines out.module.render := by
  intro p p'
  obtain ⟨out, hout⟩ := lower_namedReturn (text "f")
  obtain ⟨out', hout'⟩ := lower_namedReturn (text "f\n\tcall $exit(w 7)")
  obtain ⟨out₀, hout₀⟩ := lower_namedReturn []
  have hplain : codeLines out.module.render = codeLines out₀.module.render :=
    (codeLines_unnamed (p := p) hout hout₀).2 (by decide)
  refine ⟨rfl, out, out', hout, hout', fun heq => ?_⟩
  have hstays := (codeLines_unnamed (p := p') hout' hout₀).1 (heq.trans hplain)
  revert hstays
  decide

end Lowering.ToIl

end StackCompiler
