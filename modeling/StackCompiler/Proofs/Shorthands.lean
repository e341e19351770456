/-
**Shorthands and long options.**

A flag with a shorthand can be given a value behind either, as `-o=file` and as `--output=file`.
The two are read by different rules.  Behind a shorthand the value of a switch is not looked at, so
that `-r=false` turns the switch on; and an empty value counts as none, so that the next argument is
taken for it.  In all other cases the two forms have the same effect.

* `CommandLine.FlagSet.shorthand_same_iff` — **a shorthand has the effect of the long option** for
  just the values that it carries.
-/

import StackCompiler.Proofs.CommandLines
import StackCompiler.Proofs.GroupSwitches

namespace StackCompiler.CommandLine

/-- The values that a shorthand carries: a switch can be turned on, and other flags can be given all
but the empty text. -/
def Value.Carried : Value → Text → Prop
  | bool _, t => truth? t = some true
  | text _, t | int _, t | list _, t => t ≠ []

namespace FlagSet

open Argument (long)

/-- A shorthand with a value, as it stands on the command line. -/
def short (s : UInt8) (value : Text) : Text := 45 :: s :: 61 :: value

/-- **A flag with a shorthand** that is neither the name of a flag nor the start of a family. -/
structure Shorthand (fs : FlagSet) (f : Flag) (s : UInt8) : Prop where
  flag : fs.lookup f.name = some f
  registered : fs.shorthands.lookup [s] = some f.name
  letter : s ≠ 45 ∧ s ≠ 61
  noFlag : fs.lookup [s] = none
  noFamily : ∀ name ∈ fs.families, name.head? ≠ some s
  /-- The long option can be told from its value. -/
  name : 61 ∉ f.name

/-- Two outcomes with the same values, the same flags assigned, the same arguments, and both or none
of them a failure. -/
structure SameEffect (r r' : FlagSet × Option ParseError) : Prop where
  values : ∀ name, r.1.value? name = r'.1.value? name
  visited : ∀ name, name ∈ r.1.visited ↔ name ∈ r'.1.visited
  args : r.1.args = r'.1.args
  outcome : r.2.isSome = r'.2.isSome

theorem SameEffect.refl (r : FlagSet × Option ParseError) : SameEffect r r :=
  ⟨fun _ => rfl, fun _ => Iff.rfl, rfl, rfl⟩

variable {fs : FlagSet} {f : Flag} {s : UInt8}

namespace Shorthand

/-- **What a shorthand with a value asks for.** -/
theorem request (hnamed : fs.Named) (h : Shorthand fs f s) (value : Text) :
    fs.request (short s value) =
      if f.value.isBool then .ok (.assign f.name [])
      else if value.isEmpty then .ok (.awaits f.name [45, s])
      else .ok (.assign f.name value) := by
  have hdash : Text.dropFront [45] (s :: 61 :: value) = s :: 61 :: value :=
    Text.dropFront_of_not_prefix (by simpa [List.isPrefixOf] using Ne.symm h.letter.1)
  have hcut : Text.cut 61 (s :: 61 :: value) = ([s], some value) :=
    Text.cut_append (List.forall_mem_singleton.2 h.letter.2) value
  have hfamily : fs.families.find? (fun name => name.isPrefixOf (s :: 61 :: value) &&
      name.length < (s :: 61 :: value).length) = none := by
    refine List.find?_eq_none.2 fun name hname hprefix => ?_
    cases name with
    | nil => exact hnamed.2 hname
    | cons c name =>
        simp only [List.isPrefixOf, Bool.and_eq_true, beq_iff_eq] at hprefix
        exact h.noFamily _ hname (congrArg some hprefix.1.1)
  have hshort : fs.requestShort (short s value) =
      if f.value.isBool then .ok (.assign f.name [])
      else if value.isEmpty then .ok (.awaits f.name [45, s])
      else .ok (.assign f.name value) := by
    rw [requestShort]
    simp only [short, List.drop_succ_cons, List.drop_zero, hfamily, List.take_succ_cons,
      List.take_zero, h.registered, Option.bind_some, h.flag]
    rfl
  rw [FlagSet.request, short, show Text.dropFront [45] (45 :: s :: 61 :: value) = s :: 61 :: value
    from rfl, hdash, hcut, ← hshort]
  simp only [h.noFlag, List.isEmpty_cons, Bool.false_eq_true, if_false]
  rw [if_neg (by simpa [List.isPrefixOf] using Ne.symm h.letter.1), short]

theorem value? (h : Shorthand fs f s) : fs.value? f.name = some f.value := by
  rw [FlagSet.value?, h.flag]
  rfl

variable (hnamed : fs.Named) (h : Shorthand fs f s)

include hnamed h

theorem read_long (value : Text) (rest : List Text) :
    parseFrom (long f.name value :: rest) fs = readOn rest (fs.assign f.name value) :=
  parseFrom_option h.flag (hnamed.1 f (List.mem_of_find?_eq_some h.flag)) h.name value rest

/-- A shorthand that asks for an assignment is read as the long option. -/
theorem read_short {value value' : Text}
    (hrequest : fs.request (short s value) = .ok (.assign f.name value')) (rest : List Text) :
    parseFrom (short s value :: rest) fs = parseFrom (long f.name value' :: rest) fs := by
  rw [h.read_long hnamed]
  exact parseFrom_assign rfl (by simp [short]) hrequest rest

/-- The value of a switch is not looked at. -/
theorem read_switch (hbool : f.value.isBool = true) (value : Text) (rest : List Text) :
    parseFrom (short s value :: rest) fs = parseFrom (long f.name [] :: rest) fs :=
  h.read_short hnamed (by rw [h.request hnamed, if_pos hbool]) rest

/-- An empty value counts as none, and the next argument is taken for it. -/
theorem read_empty (hbool : f.value.isBool = false) (rest : List Text) :
    parseFrom (short s [] :: rest) fs = match rest with
      | [] => (fs, some (.missingValue [45, s]))
      | next :: rest => parseFrom (long f.name next :: rest) fs := by
  rw [parseFrom, if_neg (by simp [isPositional, short]), if_neg (by simp [short]),
    h.request hnamed, hbool]
  cases rest with
  | nil => rfl
  | cons next rest =>
      simp only [Bool.false_eq_true, if_false, List.isEmpty_nil, if_true, h.read_long hnamed]
      rcases fs.assign f.name next with ⟨fs', _ | e⟩ <;> rfl

variable {value : Text}

/-- A long option alone sets the flag. -/
theorem read_long_ok {v : Value} (hv : f.value.assign value = .ok v) :
    (parseFrom [long f.name value] fs).2 = none ∧
      (parseFrom [long f.name value] fs).1.value? f.name = some v := by
  rw [h.read_long hnamed, assign_ok h.value? hv]
  refine ⟨rfl, ?_⟩
  rw [show (readOn [] ((fs.visit f.name).setValue f.name v, none)).1 =
    (fs.visit f.name).setValue f.name v from rfl, value?_setValue, if_pos rfl, value?_visit,
    h.value?]
  rfl

theorem read_long_error {e : ParseError} (he : f.value.assign value = .error e)
    (rest : List Text) : (parseFrom (long f.name value :: rest) fs).2 = some e := by
  rw [h.read_long hnamed, assign]
  simp only [value?_visit, h.value?, he]
  rfl

/-- **A value that the shorthand carries** is read as that of the long option. -/
theorem read_carried (hvalue : f.value.Carried value) (rest : List Text) :
    parseFrom (short s value :: rest) fs = parseFrom (long f.name value :: rest) fs := by
  cases hf : f.value with
  | bool b =>
      have htruth : Value.truth? value = some true := by rwa [hf] at hvalue
      have hassign : ∀ t, Value.truth? t = some true → f.value.assign t = .ok (.bool true) := by
        intro t ht
        rw [hf, Value.assign_bool, ht]
      rw [h.read_switch hnamed (by rw [hf]; rfl), h.read_long hnamed, h.read_long hnamed,
        assign_ok h.value? (hassign [] rfl), assign_ok h.value? (hassign value htruth)]
  | text | int | list =>
      have hne : value ≠ [] := by rwa [hf] at hvalue
      refine h.read_short hnamed ?_ rest
      rw [h.request hnamed, hf]
      simp [Value.isBool, hne]

/-- If the two forms have the same effect before anything that can follow, the shorthand carries the
value. -/
theorem carried_of_sameEffect (hsame : ∀ rest, SameEffect (parseFrom (short s value :: rest) fs)
      (parseFrom (long f.name value :: rest) fs)) : f.value.Carried value := by
  cases hf : f.value with
  | bool b =>
      have hon : f.value.assign [] = .ok (.bool true) := by rw [hf]; rfl
      obtain ⟨hnone, htrue⟩ := h.read_long_ok hnamed hon
      obtain ⟨hvalues, -, -, houtcome⟩ := hsame []
      rw [h.read_switch hnamed (by rw [hf]; rfl)] at hvalues houtcome
      cases htruth : Value.truth? value with
      | none =>
          have hbad : f.value.assign value = .error (.badBool value) := by
            rw [hf, Value.assign_bool, htruth]
          rw [hnone, h.read_long_error hnamed hbad] at houtcome
          cases houtcome
      | some b' =>
          have hset : f.value.assign value = .ok (.bool b') := by
            rw [hf, Value.assign_bool, htruth]
          have heq := hvalues f.name
          rw [htrue, (h.read_long_ok hnamed hset).2] at heq
          obtain rfl : true = b' := by simpa using heq
          exact htruth
  | text | list =>
      rintro rfl
      have houtcome := (hsame []).outcome
      rw [h.read_empty hnamed (by rw [hf]; rfl),
        (h.read_long_ok hnamed (show f.value.assign [] = .ok _ by rw [hf]; rfl)).1] at houtcome
      cases houtcome
  | int n =>
      -- the empty text is no number, but the argument behind it may be one
      rintro rfl
      have hzero : f.value.assign (text "0") = .ok (.int 0) := by
        rw [hf, Value.assign, show Numeral.readSigned none 64 (text "0") = .ok 0 by decide +kernel]
        rfl
      have hbad : f.value.assign [] = .error (.badInt []) := by rw [hf]; rfl
      have houtcome := (hsame [text "0"]).outcome
      rw [h.read_empty hnamed (by rw [hf]; rfl), h.read_long_error hnamed hbad] at houtcome
      dsimp only at houtcome
      rw [(h.read_long_ok hnamed hzero).1] at houtcome
      cases houtcome

end Shorthand

/-- **A shorthand has the effect of the long option for just the values that it carries.**  Where it
does not, a switch is turned on whatever its value says, and in the place of an empty value the next
argument is taken. -/
theorem shorthand_same_iff (hmade : fs.Made) (h : Shorthand fs f s) (value : Text) :
    ((∀ rest, SameEffect (fs.parse (short s value :: rest))
        (fs.parse (long f.name value :: rest))) ↔ f.value.Carried value) ∧
    (f.value.Carried value → ∀ rest, fs.parse (short s value :: rest) =
        fs.parse (long f.name value :: rest)) ∧
    (f.value.isBool = true → ∀ rest, fs.parse (short s value :: rest) =
        fs.parse (long f.name [] :: rest)) ∧
    (f.value.isBool = false → (∀ next rest, fs.parse (short s [] :: next :: rest) =
        fs.parse (long f.name next :: rest)) ∧
      (fs.parse [short s []]).2 = some (.missingValue [45, s])) := by
  -- reading starts without arguments, which is all that it changes before the first one
  have hstart : Shorthand { fs with args := [] } f s :=
    ⟨h.flag, h.registered, h.letter, h.noFlag, h.noFamily, h.name⟩
  have hnamed : Named { fs with args := [] } := hmade.named
  refine ⟨⟨hstart.carried_of_sameEffect hnamed, fun hvalue rest => ?_⟩, hstart.read_carried hnamed,
    fun hbool => hstart.read_switch hnamed hbool value, fun hbool => ⟨fun next rest => ?_, ?_⟩⟩
  · rw [show fs.parse (short s value :: rest) = _ from hstart.read_carried hnamed hvalue rest]
    exact .refl _
  · exact hstart.read_empty hnamed hbool (next :: rest)
  · rw [parse, hstart.read_empty hnamed hbool]

theorem shorthands_sample :
    Shorthand sample { name := text "output", shorthand := text "o", value := .text [] } 111 ∧
      Shorthand sample { name := text "run", shorthand := text "r", value := .bool true } 114 := by
  constructor <;> constructor <;> decide +kernel

/-- Values are given to a flag by its shorthand, one of them empty. -/
theorem shorthand_same_iff_output :
    (∀ rest, sample.parse (text "-o=a=b" :: rest) = sample.parse (text "--output=a=b" :: rest)) ∧
      ∀ rest, sample.parse (text "-o=" :: text "in" :: rest) =
        sample.parse (text "--output=in" :: rest) := by
  obtain ⟨-, hsame, -, hempty⟩ :=
    shorthand_same_iff made_sample shorthands_sample.1 (text "a=b")
  exact ⟨hsame (show text "a=b" ≠ [] by decide), (hempty rfl).1 (text "in")⟩

/-- A switch that is turned off by its shorthand is on, and an empty value takes the argument behind
it. -/
theorem shorthand_differs :
    (∃ f, Shorthand sample f 114 ∧ ¬SameEffect (sample.parse [short 114 (text "false")])
        (sample.parse [long f.name (text "false")])) ∧
      ∃ f, Shorthand sample f 111 ∧ ¬SameEffect (sample.parse [short 111 [], text "in"])
        (sample.parse [long f.name [], text "in"]) := by
  refine ⟨⟨_, shorthands_sample.2, fun h => ?_⟩, ⟨_, shorthands_sample.1, fun h => ?_⟩⟩
  · exact absurd (h.values (text "run")) (by decide +kernel)
  · exact absurd h.args (by decide +kernel)

end FlagSet

end StackCompiler.CommandLine
