/-
**Which of two switches prevails.**

Every warning and every feature can be turned on and off by a switch of its own, and a command line
may hold both.  What is left of a command line when the settings are made is the set of its
switches: each counts once, and they are made in the order of their names, the groups before all
others.  So where both switches of a pair are given, their names say which one prevails, and not
their order.

* `Tools.Compiler.switches_by_name` — **the switches of a command line count by their names**, so
  that the last one decides unless it is the one that comes first by name.
-/

import Mathlib.Data.List.Induction
import Mathlib.Data.Set.List
import StackCompiler.Proofs.CommandLines
import StackCompiler.Tools.Compiler

namespace StackCompiler

open CommandLine (FlagSet Value App)

/-! ### Switches -/

/-- What can be turned on and off. -/
inductive Item where
  | warning (w : Warning)
  | feature (f : Feature)
deriving DecidableEq, Repr

namespace Item

/-- All warnings and features. -/
def all : List Item := Warning.all.map .warning ++ Feature.all.map .feature

/-- The letter of its flags. -/
def mark : Item → Text
  | warning _ => text "W"
  | feature _ => text "F"

/-- Its name. -/
def name : Item → Text
  | warning w => text w.name
  | feature f => text f.name

/-- Whether it is on. -/
def isOn (s : Settings) : Item → Bool
  | warning w => s.warnings.get w
  | feature f => s.features.get f

/-- Switches it. -/
def set (s : Settings) (on : Bool) : Item → Settings
  | warning w => { s with warnings := s.warnings.set w on }
  | feature f => { s with features := s.features.set f on }

theorem isOn_set (s : Settings) (on : Bool) (x y : Item) :
    y.isOn (x.set s on) = if x = y then on else y.isOn s := by
  cases x with
  | warning w =>
      cases y with
      | warning v => simp only [isOn, set, Warnings.get_set, warning.injEq]
      | feature g => rfl
  | feature f =>
      cases y with
      | warning v => rfl
      | feature g => simp only [isOn, set, Features.get_set, feature.injEq]

end Item

/-- A switch of the command line. -/
structure Switch where
  item : Item
  on : Bool
deriving DecidableEq, Repr

namespace Switch

/-- All switches. -/
def all : List Switch := Item.all.flatMap fun x => [⟨x, true⟩, ⟨x, false⟩]

/-- The name of a switch, such as `Wno-depth`. -/
def name (c : Switch) : Text :=
  c.item.mark ++ (if c.on then [] else Settings.Selection.no) ++ c.item.name

/-- The argument for a switch. -/
def argument (c : Switch) : Text := 45 :: c.name

theorem mem_all (c : Switch) : c ∈ all := by
  obtain ⟨x, on⟩ := c
  cases x with
  | warning w => cases w <;> cases on <;> decide
  | feature f => cases f <;> cases on <;> decide

/-- What holds of the switches one by one holds of all of them. -/
theorem forall_of_all {p : Switch → Prop} (h : ∀ c ∈ all, p c) (c : Switch) : p c := h c (mem_all c)

theorem name_inj {c d : Switch} : c.name = d.name ↔ c = d :=
  ⟨forall_of_all (p := fun c => ∀ d, c.name = d.name → c = d)
    (fun c hc => forall_of_all (by revert c; decide +kernel)) c d, congrArg name⟩

/-- What the last switch of an item says. -/
def lastOn (line : List Switch) (x : Item) : Option Bool :=
  (line.reverse.find? (·.item == x)).map (·.on)

theorem lastOn_concat (line : List Switch) (c : Switch) (x : Item) :
    lastOn (line ++ [c]) x = if c.item = x then some c.on else lastOn line x := by
  rw [lastOn, List.reverse_append, List.reverse_singleton, List.singleton_append, List.find?_cons]
  by_cases h : c.item = x
  · rw [if_pos h, show (c.item == x) = true from beq_iff_eq.2 h]
    rfl
  · rw [if_neg h, show (c.item == x) = false from beq_eq_false_iff_ne.2 h]
    rfl

theorem mem_of_lastOn {line : List Switch} {x : Item} {on : Bool} (h : lastOn line x = some on) :
    ⟨x, on⟩ ∈ line := by
  obtain ⟨c, hc, rfl⟩ := Option.map_eq_some_iff.1 h
  have hitem := List.find?_some hc
  obtain rfl : c.item = x := beq_iff_eq.1 hitem
  exact List.mem_reverse.1 (List.mem_of_find?_eq_some hc)

theorem lastOn_eq_none {line : List Switch} {x : Item} (h : lastOn line x = none) (on : Bool) :
    ⟨x, on⟩ ∉ line := by
  intro hmem
  have hnone := List.find?_eq_none.1 (Option.map_eq_none_iff.1 h) _ (List.mem_reverse.2 hmem)
  exact hnone (beq_self_eq_true x)

end Switch

/-! ### Choosing switches -/

namespace Switch

/-- Follows a switch. -/
def apply (s : Settings) (c : Switch) : Settings := c.item.set s c.on

/-- Whether a switch is for several warnings. -/
def isGroup (c : Switch) : Bool := Settings.isGroup c.name

theorem parse_argument : ∀ c : Switch,
    Settings.Selection.parse c.argument =
      match c.item with
      | .warning w => .warning (text w.name) c.on
      | .feature f => .feature (text f.name) c.on :=
  forall_of_all (by decide +kernel)

theorem selectText_argument (s : Settings) (c : Switch) :
    s.selectText c.argument = some (c.apply s) := by
  rw [Settings.selectText, parse_argument]
  obtain ⟨x, on⟩ := c
  cases x with
  | warning w =>
      have hall : text w.name ≠ text "all" := by cases w <;> decide
      have herror : text w.name ≠ text "error" := by cases w <;> decide
      have hname : Warning.ofName? (text w.name) = some w := by cases w <;> decide
      simp only [Settings.select, if_neg hall, if_neg herror, hname]
      rfl
  | feature f =>
      have hname : Feature.ofName? (text f.name) = some f := by cases f <;> decide
      simp only [Settings.select, hname]
      rfl

/-- Switches in the order in which they are made. -/
def inTurn (cs : List Switch) : List Switch := cs.filter isGroup ++ cs.filter (!·.isGroup)

theorem mem_inTurn {cs : List Switch} {c : Switch} : c ∈ inTurn cs ↔ c ∈ cs := by
  rw [inTurn, List.mem_append, List.mem_filter, List.mem_filter]
  cases c.isGroup <;> simp

theorem isOn_foldl_apply (s : Settings) (cs : List Switch) (x : Item) :
    x.isOn (cs.foldl apply s) = (lastOn cs x).getD (x.isOn s) := by
  induction cs using List.reverseRecOn with
  | nil => rfl
  | append_singleton cs c ih =>
      rw [List.foldl_append, List.foldl_cons, List.foldl_nil, apply, Item.isOn_set,
        lastOn_concat, ih]
      split <;> rfl

end Switch

namespace Settings

theorem selectAll_names (s : Settings) (cs : List Switch) :
    s.selectAll (cs.map Switch.name) = ((Switch.inTurn cs).foldl Switch.apply s, []) := by
  have hname : ∀ (s : Settings) (c : Switch), s.selectText (45 :: c.name) = some (c.apply s) :=
    Switch.selectText_argument
  have hothers : ∀ (cs : List Switch) (s : Settings),
      cs.foldl (fun (p : Settings × List Text) c => (c.apply p.1, p.2)) (s, []) =
        (cs.foldl Switch.apply s, []) := by
    intro cs
    induction cs with
    | nil => exact fun _ => rfl
    | cons c cs ih => exact fun s => ih (c.apply s)
  simp only [selectAll, List.filter_map, List.foldl_map, hname, Option.getD_some]
  rw [Switch.inTurn, List.foldl_append]
  exact hothers _ _

end Settings

/-! ### What a set of switches comes to -/

namespace Switch

/-- **The order in which switches are made**: the groups before all others, and then by name. -/
def Before (c d : Switch) : Prop :=
  (c.isGroup = true ∧ d.isGroup = false) ∨ (c.isGroup = d.isGroup ∧ c.name < d.name)

instance (c d : Switch) : Decidable (Before c d) :=
  inferInstanceAs (Decidable (_ ∨ _))

theorem Before.asymm {c d : Switch} (h : Before c d) : ¬Before d c := by
  rintro (⟨hd, hc⟩ | ⟨hgroup, hname⟩)
  · obtain ⟨hc', -⟩ | ⟨hgroup', -⟩ := h
    · exact absurd (hc'.symm.trans hc) (by decide)
    · exact absurd (hc.symm.trans (hgroup'.trans hd)) (by decide)
  · obtain ⟨hc', hd'⟩ | ⟨-, hname'⟩ := h
    · exact absurd (hc'.symm.trans (hgroup.symm.trans hd')) (by decide)
    · exact List.lt_asymm hname hname'

theorem pairwise_inTurn {cs : List Switch} (h : cs.Pairwise fun c d => c.name < d.name) :
    (inTurn cs).Pairwise Before := by
  have hfilter : ∀ (p : Switch → Bool) (b : Bool), (∀ c, p c = true → c.isGroup = b) →
      (cs.filter p).Pairwise Before := by
    intro p b hp
    refine (h.filter p).imp_of_mem ?_
    intro c d hc hd hname
    exact .inr ⟨(hp c (List.mem_filter.1 hc).2).trans (hp d (List.mem_filter.1 hd).2).symm, hname⟩
  refine List.pairwise_append.2
    ⟨hfilter _ true fun _ => id, hfilter _ false fun _ => (Bool.not_eq_true' _).mp, ?_⟩
  intro c hc d hd
  exact .inl ⟨(List.mem_filter.1 hc).2, (Bool.not_eq_true' _).mp (List.mem_filter.1 hd).2⟩

end Switch

/-- What the two switches of an item come to together. -/
def Item.prevails (x : Item) : Bool := decide (Switch.Before ⟨x, false⟩ ⟨x, true⟩)

-- Only two items stay on if both of their switches are given.
example : Item.all.filter Item.prevails = [.warning .unknownOp, .warning .symbolName] := by
  decide +kernel

namespace Switch

/-- **What a set of switches says about an item.** -/
def settled (line : List Switch) (x : Item) : Option Bool :=
  if ⟨x, true⟩ ∈ line then
    if ⟨x, false⟩ ∈ line then some x.prevails else some true
  else if ⟨x, false⟩ ∈ line then some false else none

theorem settled_congr {line line' : List Switch} (h : ∀ c, c ∈ line ↔ c ∈ line') (x : Item) :
    settled line x = settled line' x := by
  unfold settled
  simp only [h]

/-- The last of switches that stand in order says what the set of them says. -/
theorem lastOn_of_pairwise {cs : List Switch} (h : cs.Pairwise Before) (x : Item) :
    lastOn cs x = settled cs x := by
  induction cs using List.reverseRecOn with
  | nil => rfl
  | append_singleton cs c ih =>
      obtain ⟨hcs, -, hbefore⟩ := List.pairwise_append.1 h
      rw [lastOn_concat]
      by_cases hitem : c.item = x
      · obtain ⟨y, on⟩ := c
        obtain rfl : y = x := hitem
        rw [if_pos rfl]
        have hother : ∀ d, d ∈ cs ++ [⟨y, on⟩] → d ≠ ⟨y, on⟩ → Before d ⟨y, on⟩ := by
          intro d hd hne
          obtain hd | hd := List.mem_append.1 hd
          · exact hbefore d hd _ (List.mem_singleton_self _)
          · exact absurd (List.mem_singleton.1 hd) hne
        have hself := List.mem_append_right cs (List.mem_singleton_self (⟨y, on⟩ : Switch))
        unfold settled
        cases on with
        | true =>
            rw [if_pos hself]
            split
            · next hoff => rw [Item.prevails, decide_eq_true (hother _ hoff (by simp))]
            · rfl
        | false =>
            rw [if_pos hself, if_pos hself]
            split
            · next hon => rw [Item.prevails, decide_eq_false (hother _ hon (by simp)).asymm]
            · rfl
      · have hmem : ∀ on, (⟨x, on⟩ : Switch) ∈ cs ++ [c] ↔ ⟨x, on⟩ ∈ cs := by
          intro on
          rw [List.mem_append, List.mem_singleton, or_iff_left_iff_imp]
          rintro rfl
          exact absurd rfl hitem
        rw [if_neg hitem, ih hcs]
        simp only [settled, hmem]

/-- The last switch of an item says what the set of switches says, unless both switches of the item
are given and it is the one that does not prevail. -/
theorem lastOn_eq_settled_iff (line : List Switch) (x : Item) :
    lastOn line x = settled line x ↔
      (⟨x, true⟩ ∈ line ∧ ⟨x, false⟩ ∈ line → lastOn line x = some x.prevails) := by
  unfold settled
  cases h : lastOn line x with
  | none => simp [lastOn_eq_none h]
  | some on =>
      have hmem := mem_of_lastOn h
      cases on with
      | true => by_cases hoff : ⟨x, false⟩ ∈ line <;> simp [hmem, hoff]
      | false => by_cases hon : ⟨x, true⟩ ∈ line <;> simp [hmem, hon]

theorem getD_settled_eq_iff (line : List Switch) (x : Item) (on : Bool) :
    (settled line x).getD on = (lastOn line x).getD on ↔ lastOn line x = settled line x := by
  refine ⟨fun h => ?_, fun h => by rw [h]⟩
  unfold settled at h ⊢
  cases hlast : lastOn line x with
  | none => simp [lastOn_eq_none hlast]
  | some last =>
      rw [hlast] at h
      have hmem := mem_of_lastOn hlast
      cases last with
      | true => by_cases hoff : ⟨x, false⟩ ∈ line <;> simp_all
      | false => by_cases hon : ⟨x, true⟩ ∈ line <;> simp_all

end Switch

/-- **What choosing switches by name does to an item.** -/
theorem Settings.isOn_selectAll (s : Settings) {cs line : List Switch}
    (hsorted : cs.Pairwise fun c d => c.name < d.name) (hmem : ∀ c, c ∈ cs ↔ c ∈ line) (x : Item) :
    x.isOn (s.selectAll (cs.map Switch.name)).1 = (Switch.settled line x).getD (x.isOn s) := by
  rw [selectAll_names, Switch.isOn_foldl_apply,
    Switch.lastOn_of_pairwise (Switch.pairwise_inTurn hsorted),
    Switch.settled_congr fun c => Switch.mem_inTurn.trans (hmem c)]

/-! ### Reading switches -/

namespace Tools.Compiler

open CommandLine (helpFlag)

/-- The flags of the program with that for help. -/
def started : FlagSet := (flagSet.define helpFlag).1

theorem define_helpFlag : flagSet.define helpFlag = (started, none) := by
  have h : (flagSet.define helpFlag).2 = none := by decide +kernel
  exact Prod.ext rfl h

theorem started_values : started.value? (text "W") = some (.list []) ∧
    started.value? (text "F") = some (.list []) ∧
    started.value? helpFlag.name = some (.bool false) ∧ started.visited = [] ∧
    ∀ c ∈ Switch.all, (started.value? c.name).any Value.isBool = true := by
  decide +kernel

theorem name_ne : ∀ c : Switch, c.name ≠ text "W" ∧ c.name ≠ text "F" ∧ c.name ≠ helpFlag.name :=
  Switch.forall_of_all (by decide +kernel)

/-- **What is left of switches**: each was visited, and nothing else has changed. -/
structure Left (fs : FlagSet) (line : List Switch) : Prop where
  switch : ∀ c : Switch, ∃ on, fs.value? c.name = some (.bool on)
  others : ∀ name, (∀ c : Switch, c.name ≠ name) → fs.value? name = started.value? name
  args : fs.args = []
  nodup : fs.visited.Nodup
  visited : ∀ t, t ∈ fs.visited ↔ t ∈ line.map Switch.name

theorem left_nil : Left { started with args := [] } [] := by
  obtain ⟨-, -, -, hvisited, hbool⟩ := started_values
  refine ⟨?_, fun _ _ => rfl, rfl, ?_, ?_⟩
  · intro c
    obtain ⟨v, hv, hbool⟩ := (Option.any_eq_true _ _).1 (Switch.forall_of_all hbool c)
    cases v with
    | bool on => exact ⟨on, hv⟩
    | text _ | int _ | list _ => cases hbool
  · rw [hvisited]
    exact .nil
  · intro t
    rw [hvisited]
    exact Iff.rfl

namespace Left

variable {fs : FlagSet} {line : List Switch}

/-- A switch on the command line asks for itself. -/
theorem request (h : Left fs line) (c : Switch) :
    fs.request c.argument = .ok (.assign c.name []) := by
  have hcut : ∀ c : Switch, Text.cut 61 (Text.dropFront [45] (Text.dropFront [45] c.argument)) =
      (c.name, none) := Switch.forall_of_all (by decide +kernel)
  have hempty : ∀ c : Switch, c.name.isEmpty = false := Switch.forall_of_all (by decide +kernel)
  obtain ⟨on, hon⟩ := h.switch c
  obtain ⟨f, hf, hvalue⟩ := Option.map_eq_some_iff.1 hon
  unfold FlagSet.request
  simp only [hcut, hempty, hf, hvalue, Value.isBool, Bool.false_eq_true, if_false, if_true]

theorem assign (h : Left fs line) (c : Switch) :
    ∃ fs', fs.assign c.name [] = (fs', none) ∧ Left fs' (line ++ [c]) := by
  obtain ⟨on, hon⟩ := h.switch c
  refine ⟨_, FlagSet.assign_ok hon rfl, ?_, ?_, ?_, ?_, ?_⟩
  · intro d
    obtain ⟨on, hon⟩ := h.switch d
    rw [FlagSet.value?_setValue, FlagSet.value?_visit, hon]
    split
    · exact ⟨true, rfl⟩
    · exact ⟨on, rfl⟩
  · intro name hname
    rw [FlagSet.value?_setValue, if_neg (hname c).symm, FlagSet.value?_visit]
    exact h.others name hname
  · exact (FlagSet.args_visit fs c.name).trans h.args
  · exact FlagSet.nodup_visited_visit fs c.name h.nodup
  · intro t
    rw [List.map_append, List.mem_append, List.map_singleton, List.mem_singleton, ← h.visited]
    exact FlagSet.mem_visited_visit fs c.name

/-- **A command line of switches is read to its end.** -/
theorem parseFrom (h : Left fs line) (rest : List Switch) :
    ∃ fs', FlagSet.parseFrom (rest.map Switch.argument) fs = (fs', none) ∧
      Left fs' (line ++ rest) := by
  induction rest generalizing fs line with
  | nil => exact ⟨fs, rfl, by rwa [List.append_nil]⟩
  | cons c rest ih =>
      have hflag : ∀ c : Switch, FlagSet.isPositional c.argument = false ∧ c.argument ≠ [45, 45] :=
        Switch.forall_of_all (by decide +kernel)
      obtain ⟨fs₁, hassign, hleft⟩ := h.assign c
      obtain ⟨fs', hparse, hleft⟩ := ih hleft
      refine ⟨fs', ?_, by rwa [List.append_assoc] at hleft⟩
      rw [List.map_cons, FlagSet.parseFrom_assign (hflag c).1 (hflag c).2 (h.request c), hassign]
      exact hparse

/-- Of the flags only the switches are asked for, each once and in the order of their names. -/
theorem switches (h : Left fs line) :
    ∃ cs : List Switch, (Options.ofFlags fs).switches = cs.map Switch.name ∧
      (cs.Pairwise fun c d => c.name < d.name) ∧ ∀ c, c ∈ cs ↔ c ∈ line := by
  have hperm : (fs.visitedNames).Perm fs.visited := List.mergeSort_perm _ _
  have hrange : ∀ t ∈ fs.visitedNames, t ∈ Set.range Switch.name := by
    intro t ht
    obtain ⟨c, -, hc⟩ := List.mem_map.1 ((h.visited t).1 (hperm.mem_iff.1 ht))
    exact ⟨c, hc⟩
  obtain ⟨cs, hcs⟩ : fs.visitedNames ∈ Set.range (List.map Switch.name) := by
    rw [Set.range_list_map]
    exact hrange
  refine ⟨cs, ?_, ?_, ?_⟩
  · have hwarnings := (h.others _ fun c => (name_ne c).1).trans started_values.1
    have hfeatures := (h.others _ fun c => (name_ne c).2.1).trans started_values.2.1
    have hall : ∀ c : Switch, isSwitch c.name = true := Switch.forall_of_all (by decide +kernel)
    have hfilter : fs.visitedNames.filter isSwitch = fs.visitedNames := by
      refine List.filter_eq_self.2 fun t ht => ?_
      obtain ⟨c, rfl⟩ := hrange t ht
      exact hall c
    show fs.visitedNames.filter isSwitch ++ (listOf fs "W").map _ ++ (listOf fs "F").map _ = _
    simp only [listOf, hwarnings, hfeatures, hfilter, List.map_nil, List.append_nil, hcs]
  · have hsorted : fs.visitedNames.Pairwise (· ≤ ·) := by
      refine (@List.pairwise_mergeSort _ (fun a b : Text => decide (a ≤ b)) ?_ ?_ _).imp
        of_decide_eq_true
      · intro a b c hab hbc
        exact decide_eq_true (List.le_trans (of_decide_eq_true hab) (of_decide_eq_true hbc))
      · intro a b
        simpa only [Bool.or_eq_true, decide_eq_true_eq] using List.le_total a b
    have hnodup : fs.visitedNames.Nodup := hperm.nodup_iff.2 h.nodup
    have hlt := hsorted.imp₂ (fun _ _ => Std.lt_of_le_of_ne) hnodup
    rw [← hcs] at hlt
    exact List.pairwise_map.1 hlt
  · intro c
    rw [← List.mem_map_of_injective (fun _ _ => Switch.name_inj.1), hcs, hperm.mem_iff, h.visited,
      List.mem_map_of_injective (fun _ _ => Switch.name_inj.1)]

end Left

/-- A command line of switches is accepted, and asks for its switches in the order of their names.
-/
theorem start_switches (line : List Switch) :
    ∃ (a : App) (cs : List Switch), app.start (line.map Switch.argument) = (a, .go []) ∧
      (Options.ofFlags a.flags).switches = cs.map Switch.name ∧
      (cs.Pairwise fun c d => c.name < d.name) ∧ ∀ c, c ∈ cs ↔ c ∈ line := by
  obtain ⟨fs, hparse, hleft⟩ := left_nil.parseFrom line
  obtain ⟨cs, hswitches, hsorted, hmem⟩ := hleft.switches
  refine ⟨{ app with flags := fs }, cs, ?_, hswitches, hsorted, by rwa [List.nil_append] at hmem⟩
  have hhelp := (hleft.others _ fun c => (name_ne c).2.2).trans started_values.2.2.1
  unfold App.start
  rw [show app.flags.define helpFlag = (started, none) from define_helpFlag]
  dsimp only
  rw [FlagSet.parse, hparse]
  dsimp only
  rw [hhelp, if_neg (by decide), hleft.args]

/-- **The switches of a command line count by their names.**  A command line of switches is accepted
whole, every switch is recognized, and an item is as the set of its switches says: as its only
switch, or where both are given, as the one that is made last whatever their order on the command
line.  So the last switch on the command line decides, unless both are given and it is not the one
that prevails. -/
theorem switches_by_name (s : Settings) (line : List Switch) :
    ∃ a, app.start (line.map Switch.argument) = (a, .go []) ∧
      (s.selectAll (Options.ofFlags a.flags).switches).2 = [] ∧
      ∀ x : Item,
        x.isOn (s.selectAll (Options.ofFlags a.flags).switches).1 =
          (Switch.settled line x).getD (x.isOn s) ∧
        (x.isOn (s.selectAll (Options.ofFlags a.flags).switches).1 =
            (Switch.lastOn line x).getD (x.isOn s) ↔
          (⟨x, true⟩ ∈ line ∧ ⟨x, false⟩ ∈ line → Switch.lastOn line x = some x.prevails)) := by
  obtain ⟨a, cs, hstart, hswitches, hsorted, hmem⟩ := start_switches line
  refine ⟨a, hstart, ?_, ?_⟩
  · rw [hswitches, Settings.selectAll_names]
  · intro x
    rw [hswitches, Settings.isOn_selectAll s hsorted hmem]
    refine ⟨rfl, ?_⟩
    rw [Switch.getD_settled_eq_iff, Switch.lastOn_eq_settled_iff]

/-- A warning that is turned off last stays on, and one that is turned on last stays off. -/
theorem last_switch_overruled :
    (∃ a, app.start [text "-Wunknown-op", text "-Wno-unknown-op"] = (a, .go []) ∧
      (({} : Settings).selectAll (Options.ofFlags a.flags).switches).1.warnings.unknownOp = true) ∧
    ∃ a, app.start [text "-Wno-depth", text "-Wdepth"] = (a, .go []) ∧
      (({} : Settings).selectAll (Options.ofFlags a.flags).switches).1.warnings.depth = false := by
  constructor
  · obtain ⟨a, cs, hstart, hswitches, hsorted, hmem⟩ :=
      start_switches [⟨.warning .unknownOp, true⟩, ⟨.warning .unknownOp, false⟩]
    refine ⟨a, hstart, ?_⟩
    rw [hswitches]
    exact (Settings.isOn_selectAll {} hsorted hmem (.warning .unknownOp)).trans (by decide +kernel)
  · obtain ⟨a, cs, hstart, hswitches, hsorted, hmem⟩ :=
      start_switches [⟨.warning .depth, false⟩, ⟨.warning .depth, true⟩]
    refine ⟨a, hstart, ?_⟩
    rw [hswitches]
    exact (Settings.isOn_selectAll {} hsorted hmem (.warning .depth)).trans (by decide +kernel)

end Tools.Compiler

end StackCompiler
