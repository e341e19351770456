/-
**Groups yield to single switches.**

Choices are made in two rounds, the groups in the first and all others in the second, and in each
round a later choice overrules an earlier one.  So what decides on a warning is the last name of its
own, and only where there is none the last name of the group, wherever the two stand.

* `Settings.selectAll_by_last` — **the last name of its own decides on a setting, and else the last
  name of its group**.
-/

import Mathlib.Data.List.Infix
import StackCompiler.Settings.Selection

namespace StackCompiler

theorem Text.dropFront_append (front t : Text) : dropFront front (front ++ t) = t := by
  rw [dropFront, List.isPrefixOf?_eq_some_iff_append_eq.2 rfl, Option.getD_some]

theorem Text.dropFront_of_not_prefix {front t : Text} (h : front.isPrefixOf t = false) :
    dropFront front t = t := by
  rw [← List.isSome_isPrefixOf?_eq_isPrefixOf, Option.isSome_eq_false_iff] at h
  rw [dropFront, Option.isNone_iff_eq_none.1 h, Option.getD_none]

namespace Settings

open Selection (no)

/-! ### What names ask for -/

/-- What a name asks of an item: `W<item>` turns it on, and `Wno-<item>` turns it off. -/
def asked (letter : UInt8) (item name : Text) : Option Bool :=
  if name = letter :: item then some true
  else if name = letter :: (no ++ item) then some false
  else none

/-- What the last of the names that ask anything of an item asks of it. -/
def lastAsked (letter : UInt8) (item : Text) (names : List Text) : Option Bool :=
  (names.filterMap (asked letter item)).getLast?

/-- A name that is no group, does not say whether warnings are errors, and belongs to no warning and
to no feature. -/
def asksNothing (name : Text) : Bool :=
  !isGroup name && (asked 87 (text "error") name).isNone &&
    Warning.all.all (fun w => (asked 87 (text w.name) name).isNone) &&
    Feature.all.all fun f => (asked 70 (text f.name) name).isNone

variable {item : Text}

/-- A name asks for what is left of it behind its letter and behind `no-`, as long as the item does
not itself start with `no-`. -/
theorem asked_cons (c d : UInt8) (hitem : no.isPrefixOf item = false) (rest : Text) :
    asked c item (d :: rest) =
      if d = c ∧ Text.dropFront no rest = item then some (!no.isPrefixOf rest)
      else none := by
  cases hno : no.isPrefixOf rest with
  | true =>
      obtain ⟨body, rfl⟩ := List.isPrefixOf_iff_prefix.1 hno
      have hbody : no ++ body ≠ item := fun h => by simp [← h, hno] at hitem
      simp [asked, hbody, Text.dropFront_append]
  | false =>
      have hbody : rest ≠ no ++ item := by
        rintro rfl
        exact absurd hno (by simp [List.isPrefixOf_iff_prefix])
      simp [asked, hbody, Text.dropFront_of_not_prefix hno]

/-! ### One choice -/

theorem mem_warnings (w : Warning) : w ∈ Warning.all := by cases w <;> decide

theorem mem_features (f : Feature) : f ∈ Feature.all := by cases f <;> decide

theorem warningOfName?_iff {w : Warning} :
    Warning.ofName? item = some w ↔ item = text w.name := by
  refine ⟨fun h => ?_, fun h => by subst h; cases w <;> decide⟩
  have hw := List.find?_some h
  exact (beq_iff_eq.1 hw).symm

theorem featureOfName?_iff {f : Feature} :
    Feature.ofName? item = some f ↔ item = text f.name := by
  refine ⟨fun h => ?_, fun h => by subst h; cases f <;> decide⟩
  have hf := List.find?_some h
  exact (beq_iff_eq.1 hf).symm

section Warning

variable (s : Settings) (item : Text) (on : Bool)

theorem get_setAllWarnings {w : Warning} (hw : w ≠ .pedantic) :
    (s.setAllWarnings on).warnings.get w = on := by
  cases w with
  | pedantic => exact absurd rfl hw
  | unknownOp | droppedSymbol | symbolName | depth | extra => rfl

theorem warnings_select {w : Warning} (hw : w ≠ .pedantic) :
    ((s.select (.warning item on)).getD s).warnings.get w =
      if item = text w.name ∨ item = text "all" then on else s.warnings.get w := by
  have hne : text w.name ≠ text "all" ∧ text w.name ≠ text "error" := by cases w <;> decide
  have hown : Warning.ofName? item = some w ↔ item = text w.name := warningOfName?_iff
  rw [select]
  cases hname : Warning.ofName? item <;> grind [Warnings.get_set, get_setAllWarnings]

theorem errors_select : ((s.select (.warning item on)).getD s).warningsAsErrors =
    if item = text "error" then on else s.warningsAsErrors := by
  have hne : text "error" ≠ text "all" := by decide
  rw [select]
  cases hname : Warning.ofName? item <;> grind [setAllWarnings]

theorem features_select : ((s.select (.warning item on)).getD s).features = s.features := by
  rw [select]
  cases hname : Warning.ofName? item <;> grind [setAllWarnings]

theorem select_warning_eq_none : s.select (.warning item on) = none ↔
    item ≠ text "all" ∧ item ≠ text "error" ∧ ∀ w : Warning, item ≠ text w.name := by
  simp only [select, ne_eq, ← warningOfName?_iff, ← Option.eq_none_iff_forall_ne_some]
  cases hname : Warning.ofName? item <;> grind

end Warning

/-- The settings after one choice, which are the old ones if it chooses nothing. -/
def step (s : Settings) (name : Text) : Settings := (s.selectText (45 :: name)).getD s

/-- **What one choice does**, if its name starts with a letter for the kind. -/
theorem step_spec {name : Text} (hname : name.head? = some 87 ∨ name.head? = some 70)
    (s : Settings) :
    (∀ w : Warning, w ≠ .pedantic → (step s name).warnings.get w =
      ((asked 87 (text w.name) name).or (asked 87 (text "all") name)).getD (s.warnings.get w)) ∧
    (∀ f : Feature,
      (step s name).features.get f = (asked 70 (text f.name) name).getD (s.features.get f)) ∧
    (step s name).warningsAsErrors = (asked 87 (text "error") name).getD s.warningsAsErrors ∧
    (s.selectText (45 :: name) = none ↔
      asked 87 (text "all") name = none ∧ asked 87 (text "error") name = none ∧
      (∀ w : Warning, asked 87 (text w.name) name = none) ∧
      ∀ f : Feature, asked 70 (text f.name) name = none) := by
  have hall : no.isPrefixOf (text "all") = false := by decide
  have herror : no.isPrefixOf (text "error") = false := by decide
  have hwarning : ∀ w : Warning, no.isPrefixOf (text w.name) = false := by
    intro w
    cases w <;> decide
  have hfeature : ∀ f : Feature, no.isPrefixOf (text f.name) = false := by
    intro f
    cases f <;> decide
  obtain ⟨rest, rfl | rfl⟩ : ∃ rest, name = 87 :: rest ∨ name = 70 :: rest := by
    cases name with
    | nil => simp at hname
    | cons c rest => exact ⟨rest, by simpa using hname⟩
  all_goals
    simp only [asked_cons _ _ hall, asked_cons _ _ herror, asked_cons _ _ (hwarning _),
      asked_cons _ _ (hfeature _)]
  · have hselect : ∀ s : Settings, s.selectText (45 :: 87 :: rest) = s.select
        (.warning (Text.dropFront no rest) (!no.isPrefixOf rest)) :=
      fun _ => rfl
    simp only [step, hselect]
    generalize Text.dropFront no rest = item, (!no.isPrefixOf rest) = on
    refine ⟨fun w hw => ?_, fun f => ?_, ?_, ?_⟩
    · rw [warnings_select s item on hw]
      grind
    · rw [features_select]
      grind
    · rw [errors_select]
      grind
    · rw [select_warning_eq_none]
      grind
  · have hselect : ∀ s : Settings, s.selectText (45 :: 70 :: rest) = s.select
        (.feature (Text.dropFront no rest) (!no.isPrefixOf rest)) :=
      fun _ => rfl
    simp only [step, hselect]
    generalize Text.dropFront no rest = item, (!no.isPrefixOf rest) = on
    simp only [select, ← featureOfName?_iff]
    cases hname : Feature.ofName? item <;> grind [Features.get_set]

/-! ### Two rounds of choices -/

/-- In one round the last choice that touches a setting decides on it. -/
theorem observe_foldl {observe : Settings → Bool} {effect : Text → Option Bool} {names : List Text}
    (hstep : ∀ name ∈ names, ∀ s, observe (step s name) = (effect name).getD (observe s))
    (s : Settings) :
    observe (names.foldl step s) = (names.filterMap effect).getLast?.getD (observe s) := by
  induction names using List.reverseRecOn with
  | nil => rfl
  | append_singleton names name ih =>
      rw [List.foldl_append, List.foldl_cons, List.foldl_nil, hstep name (by simp),
        ih fun n hn => hstep n (by simp [hn]), List.filterMap_append, List.getLast?_append]
      cases h : effect name <;> simp [h]

/-- One round passes over the names that choose nothing, and returns them. -/
theorem foldl_select {unknown : Text → Bool} {names : List Text}
    (h : ∀ n ∈ names, ∀ s : Settings, (s.selectText (45 :: n)).isNone = unknown n)
    (s : Settings) (seen : List Text) :
    names.foldl (fun (p : Settings × List Text) name =>
      match p.1.selectText (45 :: name) with
      | some s => (s, p.2)
      | none => (p.1, p.2 ++ [name])) (s, seen) =
    (names.foldl step s, seen ++ names.filter unknown) := by
  induction names generalizing s seen with
  | nil => simp
  | cons n names ih =>
      have hrec := ih fun m hm => h m (List.mem_cons_of_mem n hm)
      rw [List.foldl_cons, List.foldl_cons, List.filter_cons, ← h n List.mem_cons_self s, step]
      cases s.selectText (45 :: n) with
      | none => exact (hrec s _).trans (by simp)
      | some s' => exact (hrec s' seen).trans (by simp)

section Rounds

variable {names : List Text}

/-- **What two rounds of choices do to a setting**: what the second round asks counts before what
the first asks. -/
theorem observe_rounds (observe : Settings → Bool) (early late : Text → Option Bool)
    (hstep : ∀ name ∈ names, ∀ s,
      observe (step s name) = ((late name).or (early name)).getD (observe s))
    (hearly : ∀ name, isGroup name = false → early name = none)
    (hlate : ∀ name, isGroup name = true → late name = none) (s : Settings) :
    observe ((names.filter (!isGroup ·)).foldl step ((names.filter isGroup).foldl step s)) =
      ((names.filterMap late).getLast?.or (names.filterMap early).getLast?).getD (observe s) := by
  have hround : ∀ p : Text → Bool, ∀ n ∈ names.filter p, ∀ s,
      observe (step s n) = ((late n).or (early n)).getD (observe s) :=
    fun p n hn => hstep n (List.mem_of_mem_filter hn)
  have hfirst : (fun n => if isGroup n then (late n).or (early n) else none) = early := by
    funext n
    cases hn : isGroup n <;> simp [hn, hearly, hlate]
  have hsecond : (fun n => if !isGroup n then (late n).or (early n) else none) = late := by
    funext n
    cases hn : isGroup n <;> simp [hn, hearly, hlate]
  rw [observe_foldl (hround _), observe_foldl (hround _), List.filterMap_filter,
    List.filterMap_filter, hfirst, hsecond]
  cases (names.filterMap late).getLast? <;> rfl

theorem asked_of_not_group {name : Text} (h : isGroup name = false) :
    asked 87 (text "all") name = none := by
  simp only [isGroup, Bool.or_eq_false_iff, beq_eq_false_iff_ne] at h
  exact (if_neg h.1.1).trans (if_neg h.1.2)

theorem asked_of_group {name : Text} (h : isGroup name = true) :
    (∀ w : Warning, w ≠ .pedantic → asked 87 (text w.name) name = none) ∧
    (∀ f : Feature, asked 70 (text f.name) name = none) ∧ asked 87 (text "error") name = none := by
  have hcases : ∀ name ∈ [text "Wall", text "Wno-all", text "Wpedantic"],
      (∀ w ∈ Warning.all, w ≠ .pedantic → asked 87 (text w.name) name = none) ∧
      (∀ f ∈ Feature.all, asked 70 (text f.name) name = none) ∧
      asked 87 (text "error") name = none := by decide +kernel
  obtain ⟨hw, hf, he⟩ := hcases name (by simpa [isGroup, or_assoc] using h)
  exact ⟨fun w => hw w (mem_warnings w), fun f => hf f (mem_features f), he⟩

variable (hnames : ∀ name ∈ names, name.head? = some 87 ∨ name.head? = some 70)

include hnames in
theorem selectAll_eq (s : Settings) :
    s.selectAll names =
      ((names.filter (!isGroup ·)).foldl step ((names.filter isGroup).foldl step s),
        names.filter asksNothing) := by
  have hunknown : ∀ n ∈ names.filter (!isGroup ·), ∀ s : Settings,
      (s.selectText (45 :: n)).isNone = asksNothing n := by
    intro n hn s
    obtain ⟨hmem, hgroup⟩ := List.mem_filter.1 hn
    have hall := asked_of_not_group (by simpa using hgroup)
    rw [Bool.eq_iff_iff, Option.isNone_iff_eq_none, (step_spec (hnames n hmem) s).2.2.2,
      asksNothing]
    simp only [hgroup, hall, Bool.true_and, Bool.and_eq_true, List.all_eq_true, true_and,
      Option.isNone_iff_eq_none, mem_warnings, mem_features, forall_const, and_assoc]
  have hgroup : ∀ n, (asksNothing n && !isGroup n) = asksNothing n := by
    intro n
    rw [asksNothing]
    cases isGroup n <;> simp
  refine (foldl_select hunknown _ []).trans ?_
  rw [List.nil_append, List.filter_filter]
  simp only [hgroup]
  rfl

end Rounds

/-- **The last name of its own decides on a setting, and else the last name of its group.**  The
names that are returned are those that ask for nothing. -/
theorem selectAll_by_last (s : Settings) (names : List Text)
    (hnames : ∀ name ∈ names, name.head? = some 87 ∨ name.head? = some 70) :
    (∀ w : Warning, w ≠ .pedantic → (s.selectAll names).1.warnings.get w =
      ((lastAsked 87 (text w.name) names).or (lastAsked 87 (text "all") names)).getD
        (s.warnings.get w)) ∧
    (∀ f : Feature, (s.selectAll names).1.features.get f =
      (lastAsked 70 (text f.name) names).getD (s.features.get f)) ∧
    (s.selectAll names).1.warningsAsErrors =
      (lastAsked 87 (text "error") names).getD s.warningsAsErrors ∧
    (s.selectAll names).2 = names.filter asksNothing := by
  have hspec := fun n hn s => step_spec (hnames n hn) s
  have hnone : names.filterMap (fun _ => (none : Option Bool)) = [] := by simp
  rw [selectAll_eq hnames]
  refine ⟨fun w hw => ?_, fun f => ?_, ?_, rfl⟩
  · exact observe_rounds (·.warnings.get w) _ _ (fun n hn s => (hspec n hn s).1 w hw)
      (fun n => asked_of_not_group) (fun n hn => (asked_of_group hn).1 w hw) s
  · have h := observe_rounds (·.features.get f) (fun _ => none) _
      (fun n hn s => by rw [Option.or_none]; exact (hspec n hn s).2.1 f)
      (fun n _ => rfl) (fun n hn => (asked_of_group hn).2.1 f) s
    rwa [hnone, List.getLast?_nil, Option.or_none] at h
  · have h := observe_rounds warningsAsErrors (fun _ => none) _
      (fun n hn s => by rw [Option.or_none]; exact (hspec n hn s).2.2.1)
      (fun n _ => rfl) (fun n hn => (asked_of_group hn).2.2) s
    rwa [hnone, List.getLast?_nil, Option.or_none] at h

/-- Switches stand before and behind the groups, and two names choose nothing. -/
theorem selectAll_by_last_mixed :
    let names := [text "Wno-extra", text "Wall", text "Wdepth", text "Wno-all", text "Wno-no-depth",
      text "Werror", text "Fno-la-elide", text "Fall"]
    let (s, unknown) := ({} : Settings).selectAll names
    (∀ name ∈ names, name.head? = some 87 ∨ name.head? = some 70) ∧
      (s.warnings.extra = false ∧ s.warnings.depth = true ∧ s.warnings.unknownOp = false) ∧
      s.features.laElide = false ∧ s.warningsAsErrors = true ∧
      unknown = [text "Wno-no-depth", text "Fall"] := by
  intro names
  have hnames : ∀ name ∈ names, name.head? = some 87 ∨ name.head? = some 70 := by decide
  obtain ⟨hw, hf, he, hu⟩ := selectAll_by_last {} names hnames
  refine ⟨hnames, ⟨(hw .extra (by decide)).trans ?_, (hw .depth (by decide)).trans ?_,
    (hw .unknownOp (by decide)).trans ?_⟩, (hf .laElide).trans ?_, he.trans ?_, hu.trans ?_⟩
  all_goals decide +kernel

end Settings

end StackCompiler
