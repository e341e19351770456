/-
**The switches of a settings file have no order.**

A settings file names each of its switches once, and they are applied one by one in any order, up to
the first name that belongs to nothing.  Two orders come to the same: switches of different names do
not touch each other, and a name that belongs to nothing is found wherever it stands.

* `Settings.foldl_applySwitch_perm` — the order of switches makes no difference;
* `Settings.result_applyFile` — applying a file as a fold over its switches;
* `Settings.applyFile_perm` — **the order of the switches of a file makes no difference**.
-/

import Mathlib.Data.List.Nodup
import StackCompiler.Proofs.GroupSwitches
import StackCompiler.Settings.File
import StackCompiler.Tools.Standard

namespace StackCompiler.Settings

/-! ### Switches one by one -/

section Switches

variable {κ : Type} (ofName? : Text → Option κ) (set : Settings → κ → Bool → Settings)

/-- Applies one switch, if nothing has failed before. -/
def applySwitch (before : Option Settings) (entry : Text × Bool) : Option Settings :=
  before.bind fun s => (ofName? entry.1).map fun k => set s k entry.2

theorem foldl_applySwitch_none (entries : List (Text × Bool)) :
    entries.foldl (applySwitch ofName? set) none = none := by
  induction entries with
  | nil => rfl
  | cons e entries ih => exact ih

/-- The settings after something that may have failed, if it did not. -/
def result (outcome : Settings × Option Failure) : Option Settings :=
  if outcome.2.isNone then some outcome.1 else none

theorem eq_of_result_eq {outcome outcome' : Settings × Option Failure}
    (h : result outcome = result outcome') :
    (outcome.2 = none ↔ outcome'.2 = none) ∧ (outcome.2 = none → outcome.1 = outcome'.1) := by
  obtain ⟨s, _ | e⟩ := outcome <;> obtain ⟨s', _ | e'⟩ := outcome' <;> simp_all [result]

variable {ofName? set}

/-- What applies switches up to the first name that belongs to nothing is a fold over them. -/
theorem result_eq_foldl {apply : Settings → List (Text × Bool) → Settings × Option Failure}
    (failure : Text → Failure) (hnil : ∀ s, apply s [] = (s, none))
    (hcons : ∀ s name on rest, apply s ((name, on) :: rest) = match ofName? name with
      | none => (s, some (failure name))
      | some k => apply (set s k on) rest)
    (s : Settings) (entries : List (Text × Bool)) :
    result (apply s entries) = entries.foldl (applySwitch ofName? set) (some s) := by
  induction entries generalizing s with
  | nil => rw [hnil]; rfl
  | cons e rest ih =>
      obtain ⟨name, on⟩ := e
      rw [hcons, List.foldl_cons, applySwitch, Option.bind_some]
      cases ofName? name with
      | none => exact (foldl_applySwitch_none ofName? set rest).symm
      | some k => exact ih _

/-- **The order of switches makes no difference**, if each name is given once, no two names belong
to the same and different switches do not touch each other. -/
theorem foldl_applySwitch_perm (hname : ∀ {n m : Text} {k}, ofName? n = some k →
      ofName? m = some k → n = m)
    (hset : ∀ s {k l} a b, k ≠ l → set (set s k a) l b = set (set s l b) k a)
    {entries entries' : List (Text × Bool)} (h : entries.Perm entries')
    (hkeys : (entries.map Prod.fst).Nodup) (before : Option Settings) :
    entries.foldl (applySwitch ofName? set) before =
      entries'.foldl (applySwitch ofName? set) before := by
  refine h.foldl_eq' (fun x hx y hy s => ?_) before
  by_cases hxy : x = y
  · rw [hxy]
  have hne : x.1 ≠ y.1 := fun heq => hxy (List.inj_on_of_nodup_map hkeys hx hy heq)
  cases s with
  | none => rfl
  | some s =>
      simp only [applySwitch, Option.bind_some]
      cases hx : ofName? x.1 with
      | none => cases ofName? y.1 <;> rfl
      | some k =>
          cases hy : ofName? y.1 with
          | none => rfl
          | some l =>
              have hkl : k ≠ l := by
                rintro rfl
                exact hne (hname hx hy)
              simp only [Option.map_some, Option.bind_some, hset s _ _ hkl.symm]

end Switches

/-! ### Settings files -/

/-- Settings with a warning on or off. -/
def setWarning (s : Settings) (w : Warning) (on : Bool) : Settings :=
  { s with warnings := s.warnings.set w on }

/-- Settings with a feature on or off. -/
def setFeature (s : Settings) (f : Feature) (on : Bool) : Settings :=
  { s with features := s.features.set f on }

theorem result_setWarnings (s : Settings) (entries : List (Text × Bool)) :
    result (s.setWarnings entries) =
      entries.foldl (applySwitch Warning.ofName? setWarning) (some s) :=
  result_eq_foldl .unknownWarning (fun _ => rfl)
    (fun s name on rest => by rw [setWarnings]; cases Warning.ofName? name <;> rfl) s entries

theorem result_setFeatures (s : Settings) (entries : List (Text × Bool)) :
    result (s.setFeatures entries) =
      entries.foldl (applySwitch Feature.ofName? setFeature) (some s) :=
  result_eq_foldl .unknownFeature (fun _ => rfl)
    (fun s name on rest => by rw [setFeatures]; cases Feature.ofName? name <;> rfl) s entries

theorem setWarning_comm (s : Settings) {w v : Warning} (a b : Bool) (h : w ≠ v) :
    (s.setWarning w a).setWarning v b = (s.setWarning v b).setWarning w a := by
  cases w <;> cases v <;> first | rfl | exact absurd rfl h

theorem setFeature_comm (s : Settings) {f g : Feature} (a b : Bool) (h : f ≠ g) :
    (s.setFeature f a).setFeature g b = (s.setFeature g b).setFeature f a := by
  cases f <;> cases g <;> first | rfl | exact absurd rfl h

section Files

variable [Libraries] (s : Settings) (system arch : Text) (f : File)

/-- The settings with all of a file but its switches. -/
def withoutSwitches : Settings :=
  ((if f.target.isEmpty then (s, []) else s.setTarget system arch f.target).1).setFields f

/-- **Applying a file as a fold** over its warnings and then over its features. -/
theorem result_applyFile :
    result ((s.applyFile system arch f).settings, (s.applyFile system arch f).failure) =
      (f.features.foldl (applySwitch Feature.ofName? setFeature)
        (f.warnings.foldl (applySwitch Warning.ofName? setWarning)
          (some (s.withoutSwitches system arch f)))).bind
        fun s => s.validate.toOption.map fun _ => s := by
  rw [← result_setWarnings, applyFile, withoutSwitches]
  generalize (if f.target.isEmpty then (s, []) else s.setTarget system arch f.target) = chosen
  dsimp only
  rcases (chosen.1.setFields f).setWarnings f.warnings with ⟨s₁, _ | failure⟩
  · rw [show result (s₁, none) = some s₁ from rfl, ← result_setFeatures]
    dsimp only
    rcases s₁.setFeatures f.features with ⟨s₂, _ | failure⟩
    · cases hvalid : s₂.validate <;> simp [hvalid, result, Except.toOption]
    · rfl
  · rw [show result (s₁, some failure) = none from rfl, foldl_applySwitch_none]
    rfl

/-- **The order of the switches of a file makes no difference.**  With two orders of the same
warnings and features a file can be applied or it can not, and if it can the settings are the same.
-/
theorem applyFile_perm {warnings warnings' features features' : List (Text × Bool)}
    (hw : warnings.Perm warnings') (hwarnings : (warnings.map Prod.fst).Nodup)
    (hf : features.Perm features') (hfeatures : (features.map Prod.fst).Nodup) :
    let applied := s.applyFile system arch { f with warnings, features }
    let applied' := s.applyFile system arch { f with warnings := warnings', features := features' }
    (applied.failure = none ↔ applied'.failure = none) ∧
      (applied.failure = none → applied.settings = applied'.settings) := by
  intro applied applied'
  have h : result (applied.settings, applied.failure) =
      result (applied'.settings, applied'.failure) := by
    rw [result_applyFile, result_applyFile]
    dsimp only
    rw [foldl_applySwitch_perm (fun hn hm => (warningOfName?_iff.1 hn).trans
        (warningOfName?_iff.1 hm).symm) setWarning_comm hw hwarnings,
      foldl_applySwitch_perm (fun hn hm => (featureOfName?_iff.1 hn).trans
        (featureOfName?_iff.1 hm).symm) setFeature_comm hf hfeatures]
    rfl
  exact eq_of_result_eq h

end Files

/-- Two warnings and two features, each in both orders, on top of a target that is given. -/
theorem applyFile_perm_pairs :
    let applied := fun warnings features => ({} : Settings).applyFile (text "linux") (text "amd64")
      { target := text "qbe", localSlots := 8, warnings, features }
    let warnings := [(text "depth", true), (text "extra", false)]
    let features := [(text "la-elide", false), (text "implicit-entry", false)]
    (applied warnings features).failure = none ∧
      (applied warnings features).settings.warnings.depth = true ∧
      (applied warnings features).settings =
        (applied warnings.reverse features.reverse).settings := by
  intro applied warnings features
  have hok : (applied warnings features).failure = none := by decide +kernel
  exact ⟨hok, by decide +kernel, (applyFile_perm {} _ _
    { target := text "qbe", localSlots := 8 } (List.reverse_perm warnings).symm (by decide +kernel)
    (List.reverse_perm features).symm (by decide +kernel)).2 hok⟩

end StackCompiler.Settings
