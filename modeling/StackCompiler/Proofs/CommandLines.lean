/-
**What a command line does to a set of flags.**

Reading goes through the arguments from left to right, and each of them stands for itself, assigns a
value or makes the next one a value.  For a line of long options with their values, among arguments
that stand for themselves, this can be said in full.  Nothing in a value is looked at, so nothing is
lost or taken for something else: each flag is assigned its values in order, and all else is kept.

* `CommandLine.FlagSet.parse_arguments` — **a line of long options and other arguments is read
  faithfully**.
-/

import Mathlib.Data.List.Nodup
import StackCompiler.CommandLine.FlagSet
import StackCompiler.Proofs.AsciiText

namespace StackCompiler.CommandLine

/-! ### Values -/

namespace Value

/-- The truth value of a switch; nothing stands for true. -/
def truth? (t : Text) : Option Bool := if t.isEmpty then some true else readBool? t

/-- The integer of a value. -/
def number? (t : Text) : Option Int64 :=
  (Numeral.readSigned none 64 t).toOption.map Int64.ofInt

/-- A flag with this value can be set from a text. -/
def Accepts : Value → Text → Prop
  | bool _, t => (truth? t).isSome
  | int _, t => (number? t).isSome
  | text _, _ | list _, _ => True

/-- **A value after texts were assigned to it**: the last one counts, except for lists, which keep
all of them. -/
def settle (v : Value) (ts : List Text) : Value :=
  match v with
  | text t => text (ts.getLast?.getD t)
  | bool b => bool ((ts.getLast?.bind truth?).getD b)
  | int n => int ((ts.getLast?.bind number?).getD n)
  | list us => list (us ++ ts)

theorem settle_nil (v : Value) : v.settle [] = v := by
  cases v <;> simp [settle]

theorem assign_bool (b : Bool) (t : Text) :
    (bool b).assign t = match truth? t with
      | some b' => .ok (bool b')
      | none => .error (.badBool t) := by
  rw [assign, truth?]
  split <;> rfl

theorem assign_settle {v : Value} {t : Text} (h : v.Accepts t) (ts : List Text) :
    (v.settle ts).assign t = .ok (v.settle (ts ++ [t])) := by
  cases v with
  | text | list => simp [settle, assign]
  | bool b =>
      obtain ⟨b', hb⟩ := Option.isSome_iff_exists.1 h
      simp only [settle, List.getLast?_concat, Option.bind_some, hb, Option.getD_some, assign_bool]
  | int n =>
      obtain ⟨n', hn⟩ := Option.isSome_iff_exists.1 h
      simp only [settle, List.getLast?_concat, Option.bind_some, hn, Option.getD_some, assign]
      unfold number? at hn
      cases hread : Numeral.readSigned none 64 t with
      | error e => simp [hread, Except.toOption] at hn
      | ok n => simpa [hread, Except.toOption] using hn

end Value

namespace FlagSet

/-! ### Sets of flags -/

/-- **The sets of flags that there can be**: those that definitions and command lines leave, also if
something was wrong with them. -/
inductive Made : FlagSet → Prop where
  | empty : Made {}
  | define {fs : FlagSet} (f : Flag) : Made fs → Made (fs.define f).1
  | defineFamily {fs : FlagSet} (name usage expected : Text) :
      Made fs → Made (fs.defineFamily name usage expected).1
  | defineGroup {fs : FlagSet} (g : Group) : Made fs → Made (fs.defineGroup g).1
  | parse {fs : FlagSet} (arguments : List Text) : Made fs → Made (fs.parse arguments).1

/-- No flag and no family is without a name. -/
def Named (fs : FlagSet) : Prop := (∀ f ∈ fs.flags, f.name ≠ []) ∧ [] ∉ fs.families

variable {fs : FlagSet}

theorem named_define (h : fs.Named) (f : Flag) :
    (fs.define f).1.Named ∧ ((fs.define f).2 = none → f.name ≠ []) := by
  unfold define
  split
  · exact ⟨h, nofun⟩
  · next hname =>
    have hne : f.name ≠ [] := by simpa using hname
    have hflags : ∀ g ∈ fs.flags ++ [f], g.name ≠ [] :=
      List.forall_mem_append.2 ⟨h.1, List.forall_mem_singleton.2 hne⟩
    split
    · exact ⟨h, fun _ => hne⟩
    · dsimp only
      split
      · exact ⟨⟨hflags, h.2⟩, fun _ => hne⟩
      · split <;> exact ⟨⟨hflags, h.2⟩, fun _ => hne⟩

theorem named_defineAll (h : fs.Named) (flags : List Flag) : (fs.defineAll flags).1.Named := by
  induction flags generalizing fs with
  | nil => exact h
  | cons f flags ih =>
      have hf := (named_define h f).1
      rw [defineAll]
      rcases hdefine : fs.define f with ⟨fs', _ | e⟩ <;> rw [hdefine] at hf
      · exact ih hf
      · exact hf

/-! ### Assignments -/

section Assignments

variable (fs) (name : Text)

theorem value?_visit (other : Text) : (fs.visit name).value? other = fs.value? other := by
  unfold visit
  split <;> rfl

theorem args_visit : (fs.visit name).args = fs.args := by
  unfold visit
  split <;> rfl

theorem mem_visited_visit {t : Text} : t ∈ (fs.visit name).visited ↔ t ∈ fs.visited ∨ t = name := by
  unfold visit
  split
  · next h =>
    rw [or_iff_left_of_imp]
    rintro rfl
    exact List.contains_iff_mem.1 h
  · exact List.mem_append.trans (or_congr_right List.mem_singleton)

theorem nodup_visited_visit (h : fs.visited.Nodup) : (fs.visit name).visited.Nodup := by
  unfold visit
  split
  · exact h
  · next hnew =>
    refine List.nodup_append.2 ⟨h, List.nodup_singleton name, ?_⟩
    rintro t ht _ hname rfl
    obtain rfl := List.mem_singleton.1 hname
    exact hnew (List.contains_iff_mem.2 ht)

theorem lookup_setValue (v : Value) (other : Text) :
    (fs.setValue name v).lookup other =
      (fs.lookup other).map fun f => if f.name = name then { f with value := v } else f := by
  have hname : ((fun f : Flag => f.name == other) ∘ fun f =>
      if f.name = name then { f with value := v } else f) = fun f => f.name == other := by
    funext f
    rw [Function.comp_apply]
    split <;> rfl
  rw [lookup, setValue, List.find?_map, hname, lookup]

/-- **Replacing a value** changes that of one flag, if it is there. -/
theorem value?_setValue (v : Value) (other : Text) :
    (fs.setValue name v).value? other =
      if other = name then (fs.value? other).map fun _ => v else fs.value? other := by
  rw [value?, lookup_setValue, value?]
  cases h : fs.lookup other with
  | none => split <;> rfl
  | some f =>
      have hf := List.find?_some h
      obtain rfl : f.name = other := beq_iff_eq.1 hf
      dsimp only [Option.map_some]
      split <;> rfl

end Assignments

theorem assign_ok {name t : Text} {v v' : Value} (hv : fs.value? name = some v)
    (h : v.assign t = .ok v') : fs.assign name t = ((fs.visit name).setValue name v', none) := by
  rw [assign]
  simp only [value?_visit, hv, h]

theorem named_assign (h : fs.Named) (name t : Text) : (fs.assign name t).1.Named := by
  have hvisit : (fs.visit name).Named := by
    unfold visit
    split <;> exact h
  unfold assign
  dsimp only
  split
  · exact hvisit
  · split
    · refine ⟨fun f hf => ?_, hvisit.2⟩
      obtain ⟨g, hg, rfl⟩ := List.mem_map.1 hf
      split
      · exact hvisit.1 g hg
      · exact hvisit.1 g hg
    · exact hvisit

/-! ### Command lines -/

/-- What assignments keep, whatever stands for itself, a command line keeps. -/
theorem parseFrom_induction {P : FlagSet → Prop} (hargs : ∀ fs args, P fs → P { fs with args })
    (hassign : ∀ fs name t, P fs → P (fs.assign name t).1) (arguments : List Text) (h : P fs) :
    P (parseFrom arguments fs).1 := by
  fun_induction parseFrom arguments fs with
  | case1 => exact h
  | case2 arg rest fs _ ih => exact ih (hargs fs _ h)
  | case3 rest fs => exact hargs fs _ h
  | case4 => exact h
  | case5 arg rest fs _ _ name value _ fs' hfs ih =>
      exact ih (by simpa [hfs] using hassign fs name value h)
  | case6 arg rest fs _ _ name value _ fs' e hfs => simpa [hfs] using hassign fs name value h
  | case7 => exact h
  | case8 arg fs _ _ name shown _ value rest fs' hfs ih =>
      exact ih (by simpa [hfs] using hassign fs name value h)
  | case9 arg fs _ _ name shown _ value rest fs' e hfs => simpa [hfs] using hassign fs name value h

theorem Made.named (h : Made fs) : fs.Named := by
  induction h with
  | empty => exact ⟨nofun, nofun⟩
  | define f _ ih => exact (named_define ih f).1
  | @defineFamily fs name usage expected _ ih =>
      obtain ⟨hfs, hname⟩ := named_define ih { name, usage, expected, value := .list [] }
      rw [FlagSet.defineFamily]
      rcases hdefine : fs.define { name, usage, expected, value := .list [] } with ⟨fs', _ | e⟩ <;>
        rw [hdefine] at hfs hname
      · refine ⟨hfs.1, fun hmem => ?_⟩
        rcases List.mem_append.1 hmem with hmem | hmem
        · exact hfs.2 hmem
        · exact hname rfl (List.mem_singleton.1 hmem).symm
      · exact hfs
  | @defineGroup fs g _ ih =>
      have hall := named_defineAll ih (g.entries.flatMap switchesOf)
      rw [FlagSet.defineGroup]
      rcases hdefine : fs.defineAll (g.entries.flatMap switchesOf) with ⟨fs', _ | e⟩ <;>
        rw [hdefine] at hall <;> exact hall
  | @parse fs arguments _ ih =>
      have hstart : Named { fs with args := [] } := ih
      exact parseFrom_induction (P := Named) (fun _ _ h => h)
        (fun _ name t h => named_assign h name t) arguments hstart

/-- Reads on behind an assignment, unless it failed. -/
def readOn (rest : List Text) : FlagSet × Option ParseError → FlagSet × Option ParseError
  | (fs, none) => parseFrom rest fs
  | (fs, some e) => (fs, some e)

theorem parseFrom_assign {arg name t : Text} (hpos : isPositional arg = false)
    (hend : arg ≠ [45, 45]) (h : fs.request arg = .ok (.assign name t)) (rest : List Text) :
    parseFrom (arg :: rest) fs = readOn rest (fs.assign name t) := by
  rw [parseFrom, hpos, if_neg Bool.false_ne_true, if_neg hend, h]
  dsimp only
  rcases fs.assign name t with ⟨fs', _ | e⟩ <;> rfl

end FlagSet

/-! ### Long options -/

/-- A long option with its value, or an argument that stands for itself. -/
inductive Argument where
  | option (name value : Text)
  | plain (t : Text)
deriving DecidableEq, Repr

namespace Argument

/-- A long option with its value, as it stands on the command line. -/
def long (name value : Text) : Text := 45 :: 45 :: (name ++ 61 :: value)

/-- An argument as text. -/
def render : Argument → Text
  | option name value => long name value
  | plain t => t

/-- The value for a flag. -/
def valueFor? (flag : Text) : Argument → Option Text
  | option name value => if name = flag then some value else none
  | plain _ => none

/-- The text of an argument that is no option. -/
def plain? : Argument → Option Text
  | option _ _ => none
  | plain t => some t

/-- An argument that can be read: there is a flag that accepts the value, or the text is too short
for a flag or does not start with a dash. -/
def Fits (fs : FlagSet) : Argument → Prop
  | option name value => ∃ v, fs.value? name = some v ∧ v.Accepts value
  | plain t => t.length < 2 ∨ t.head? ≠ some 45

end Argument

namespace FlagSet

open Argument (long)

variable {fs : FlagSet}

/-- **A long option assigns its value.**  The value is not looked at. -/
theorem parseFrom_option {name : Text} {f : Flag} (hf : fs.lookup name = some f) (hne : name ≠ [])
    (hname : 61 ∉ name) (value : Text) (rest : List Text) :
    parseFrom (long name value :: rest) fs = readOn rest (fs.assign name value) := by
  refine parseFrom_assign rfl ?_ ?_ rest
  · intro h
    have hlength := congrArg List.length h
    simp [long] at hlength
  · have hcut : Text.cut 61 (Text.dropFront [45] (Text.dropFront [45] (long name value))) =
        (name, some value) := Text.cut_append (fun d hd => ne_of_mem_of_not_mem hd hname) value
    rw [request]
    simp only [hcut, hf, List.isEmpty_eq_false_iff.2 hne, Bool.false_eq_true, if_false]

/-- **What is left of a line** of long options and other arguments. -/
structure Settled (start : FlagSet) (line : List Argument) (fs : FlagSet) : Prop where
  values : ∀ name, fs.value? name =
    (start.value? name).map (·.settle (line.filterMap (Argument.valueFor? name)))
  visited : ∀ name, name ∈ fs.visited ↔ name ∈ start.visited ∨ ∃ value, .option name value ∈ line
  args : fs.args = line.filterMap Argument.plain?

variable {start : FlagSet} {line : List Argument}

theorem Settled.plain (h : Settled start line fs) (t : Text) :
    Settled start (line ++ [.plain t]) { fs with args := fs.args ++ [t] } := by
  refine ⟨fun name => ?_, fun name => ?_, ?_⟩
  · rw [List.filterMap_append, show ([Argument.plain t].filterMap (Argument.valueFor? name)) = []
      from rfl, List.append_nil]
    exact h.values name
  · simpa using h.visited name
  · rw [List.filterMap_append, ← h.args]
    rfl

theorem Settled.option (h : Settled start line fs) {name value : Text} {v : Value}
    (hv : start.value? name = some v) (hvalue : v.Accepts value) :
    ∃ fs', fs.assign name value = (fs', none) ∧
      Settled start (line ++ [.option name value]) fs' := by
  have hnow := h.values name
  rw [hv, Option.map_some] at hnow
  refine ⟨_, assign_ok hnow (Value.assign_settle hvalue _), fun other => ?_, fun other => ?_, ?_⟩
  · rw [value?_setValue, value?_visit, List.filterMap_append]
    by_cases hother : other = name
    · subst hother
      rw [if_pos rfl, hnow, hv]
      simp [Argument.valueFor?]
    · rw [if_neg hother, h.values other]
      simp [Argument.valueFor?, Ne.symm hother]
  · rw [show ((fs.visit name).setValue name _).visited = (fs.visit name).visited from rfl,
      mem_visited_visit, h.visited]
    simp only [List.mem_append, List.mem_singleton, Argument.option.injEq]
    grind
  · rw [List.filterMap_append, show ((fs.visit name).setValue name _).args = (fs.visit name).args
      from rfl, args_visit, h.args]
    simp [Argument.plain?]

/-- Arguments are read one by one, up to the two dashes that end the flags. -/
theorem Settled.parseFrom (hstart : start.Named) (hnames : ∀ f ∈ start.flags, 61 ∉ f.name)
    (h : Settled start line fs) (more : List Argument) (hmore : ∀ a ∈ more, a.Fits start)
    (tail : List Text) :
    ∃ fs', FlagSet.parseFrom (more.map Argument.render ++ [45, 45] :: tail) fs = (fs', none) ∧
      (∃ settled, Settled start (line ++ more) settled ∧
        fs' = { settled with args := settled.args ++ tail }) := by
  induction more generalizing fs line with
  | nil => exact ⟨_, rfl, fs, by rwa [List.append_nil], rfl⟩
  | cons a more ih =>
      have hrest : ∀ b ∈ more, b.Fits start := fun b hb => hmore b (List.mem_cons_of_mem a hb)
      rw [List.append_cons line a more, List.map_cons, List.cons_append]
      cases a with
      | plain t =>
          have ht : isPositional t = true := by
            simpa [isPositional, Argument.Fits] using hmore _ List.mem_cons_self
          rw [Argument.render, FlagSet.parseFrom, if_pos ht]
          exact ih (h.plain t) hrest
      | option name value =>
          obtain ⟨v, hv, hvalue⟩ := hmore _ List.mem_cons_self
          obtain ⟨fs₁, hassign, hsettled⟩ := h.option hv hvalue
          obtain ⟨f, hf, -⟩ := Option.map_eq_some_iff.1 hv
          have hmem := List.mem_of_find?_eq_some hf
          have hname : f.name = name := by simpa using List.find?_some hf
          subst hname
          have hvalue := h.values f.name
          rw [hv] at hvalue
          obtain ⟨g, hg, -⟩ := Option.map_eq_some_iff.1 hvalue
          rw [Argument.render, parseFrom_option hg (hstart.1 f hmem) (hnames f hmem), hassign]
          exact ih hsettled hrest

/-- **A line of long options and other arguments is read faithfully.**  It is accepted; every flag
has been assigned the values that the line gives it, in order, and just these flags were assigned;
and the arguments are those that stand for themselves, with all that follows two dashes. -/
theorem parse_arguments (hmade : fs.Made) (hnames : ∀ f ∈ fs.flags, 61 ∉ f.name)
    (line : List Argument) (hline : ∀ a ∈ line, a.Fits fs) (tail : List Text) :
    ∃ fs', fs.parse (line.map Argument.render ++ text "--" :: tail) = (fs', none) ∧
      (∀ name, fs'.value? name =
        (fs.value? name).map (·.settle (line.filterMap (Argument.valueFor? name)))) ∧
      (∀ name, name ∈ fs'.visited ↔ name ∈ fs.visited ∨ ∃ value, .option name value ∈ line) ∧
      fs'.args = line.filterMap Argument.plain? ++ tail := by
  have hstart : Settled fs [] { fs with args := [] } := by
    refine ⟨fun name => ?_, fun name => by simp, rfl⟩
    rw [show value? { fs with args := [] } name = fs.value? name from rfl]
    simp [Value.settle_nil]
  obtain ⟨_, hparse, settled, hsettled, rfl⟩ := hstart.parseFrom hmade.named hnames line hline tail
  exact ⟨_, hparse, hsettled.values, hsettled.visited, congrArg (· ++ tail) hsettled.args⟩

/-- One flag of each kind. -/
def sample : FlagSet :=
  ((((define {} { name := text "output", shorthand := text "o", value := .text [] }).1.define
    { name := text "entry", shorthand := text "e", value := .list [] }).1.define
    { name := text "depth", value := .int 0 }).1.define
    { name := text "run", shorthand := text "r", value := .bool true }).1

theorem made_sample : sample.Made := .define _ (.define _ (.define _ (.define _ .empty)))

/-- Values that hold the sign behind a name, start with dashes or are empty. -/
theorem parse_arguments_sample :
    ∃ fs', sample.parse ([text "--output=x", text "-", text "--entry=--run", text "--output=a=b",
        text "in", text "--entry=", text "--run=false", text "--depth=0x10"] ++
        text "--" :: [text "--run"]) = (fs', none) ∧
      fs'.value? (text "output") = some (.text (text "a=b")) ∧
      fs'.value? (text "entry") = some (.list [text "--run", []]) ∧
      fs'.value? (text "depth") = some (.int 16) ∧ fs'.value? (text "run") = some (.bool false) ∧
      fs'.args = [text "-", text "in", text "--run"] := by
  obtain ⟨fs', hparse, hvalues, -, hargs⟩ := parse_arguments made_sample (by decide +kernel)
    [.option (text "output") (text "x"), .plain (text "-"), .option (text "entry") (text "--run"),
     .option (text "output") (text "a=b"), .plain (text "in"), .option (text "entry") [],
     .option (text "run") (text "false"), .option (text "depth") (text "0x10")]
    (by
      simp only [List.forall_mem_cons, Argument.Fits]
      exact ⟨⟨_, rfl, trivial⟩, by decide, ⟨_, rfl, trivial⟩, ⟨_, rfl, trivial⟩, by decide,
        ⟨_, rfl, trivial⟩, ⟨.bool true, rfl, show (Value.truth? _).isSome by decide⟩,
        ⟨.int 0, rfl, show (Value.number? _).isSome by decide +kernel⟩, List.forall_mem_nil _⟩)
    [text "--run"]
  refine ⟨fs', hparse, (hvalues _).trans ?_, (hvalues _).trans ?_, (hvalues _).trans ?_,
    (hvalues _).trans ?_, hargs⟩
  all_goals decide +kernel

end FlagSet

end StackCompiler.CommandLine
