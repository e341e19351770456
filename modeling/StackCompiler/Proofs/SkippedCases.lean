/-
**What skipped cases hide.**

Of the cases with one fingerprint only the first is run, and the others are skipped.  A fingerprint
is made of the input of a case and of what it is run with, but not of what is expected of it.  So a
run fails exactly if the first case of some fingerprint does not come out as expected; what is
expected of the others does not matter.  Only where cases with one fingerprint are the same but for
their names, every failure is reported.

* `Tools.Tester.failure_reported_iff` — **a run fails exactly if the first case of some fingerprint
  does not come out as expected**.
-/

import Mathlib.Data.List.Induction
import StackCompiler.Proofs.ReportOrder
import StackCompiler.Proofs.TextLines
import StackCompiler.Tools.Store
import StackCompiler.Tools.Tester

namespace StackCompiler.Regression

/-! ### Expectations -/

/-- **An outcome is as expected.**  Where an error is expected, nothing else is. -/
def Expectation.Met (e : Expectation) (o : Outcome) : Prop :=
  if e.error = [] then
    o.error = [] ∧ o.exitCode = e.exitCode.toInt ∧ (e.stdout = [] ∨ o.stdout = e.stdout) ∧
      (e.stdoutContains = [] ∨ e.stdoutContains <:+: o.stdout) ∧
      (o.warnings.length : Int) = e.warnings.toInt
  else e.error <:+: o.error

theorem problems_eq_nil_iff [Differ] {e : Expectation} {o : Outcome} :
    problems e none o = [] ↔ e.Met o := by
  unfold problems Expectation.Met errorProblems resultProblems goldenProblems
  by_cases herror : e.error = []
  · simp only [herror, List.isEmpty_nil, if_true, List.isEmpty_iff, Text.occursIn_iff,
      List.append_eq_nil_iff, ite_eq_left_iff, reduceCtorEq, imp_false, not_not, and_true,
      and_assoc]
  · have hempty : e.error.isEmpty = false := by rwa [List.isEmpty_eq_false_iff]
    rw [if_neg herror, hempty]
    simp only [Bool.false_eq_true, if_false, List.append_nil, ite_eq_left_iff, reduceCtorEq,
      imp_false, not_not, Text.occursIn_iff]

variable {j : Job}

section Reports

variable [Libraries] [Differ]

/-- A case without a golden outcome fails exactly if it does not come out as expected. -/
theorem Job.status_report (hgolden : j.golden = none) (update : Bool) :
    (j.report update).status = .fail ↔ ¬j.case.expect.Met (j.case.execute j.input) := by
  rw [← problems_eq_nil_iff]
  unfold report
  rw [hgolden, ite_self]
  dsimp only
  cases problems j.case.expect none (j.case.execute j.input) with
  | nil => simp
  | cons first rest => simp

theorem Job.status_report_ne_error (update : Bool) (j : Job) :
    (j.report update).status ≠ .error := by
  unfold report
  dsimp only
  split <;> simp

end Reports

/-! ### First cases -/

/-- A case without its name. -/
def Case.unnamed (c : Case) : Case := { c with name := [] }

variable [Libraries]

theorem Case.execute_unnamed (c : Case) (input : List UInt8) :
    c.unnamed.execute input = c.execute input := rfl

/-- The fingerprint of the case of a job. -/
def Job.fingerprint (j : Job) : UInt64 := j.case.fingerprint j.input

/-- **The first job of its fingerprint.** -/
def Job.IsFirst (js : List Job) (j : Job) : Prop :=
  ∃ before after, js = before ++ j :: after ∧ ∀ i ∈ before, i.fingerprint ≠ j.fingerprint

variable {js : List Job}

theorem Job.isFirst_concat {i j : Job} :
    IsFirst (js ++ [i]) j ↔ IsFirst js j ∨ (j = i ∧ ∀ d ∈ js, d.fingerprint ≠ i.fingerprint) := by
  constructor
  · rintro ⟨before, after, heq, hfirst⟩
    obtain rfl | ⟨after', last, rfl⟩ := List.eq_nil_or_concat after
    · obtain ⟨rfl, hij⟩ := List.append_inj' heq rfl
      obtain rfl : i = j := List.singleton_inj.1 hij
      exact .inr ⟨rfl, hfirst⟩
    · rw [List.concat_eq_append, ← List.cons_append, ← List.append_assoc] at heq
      exact .inl ⟨before, after', (List.append_inj' heq rfl).1, hfirst⟩
  · rintro (⟨before, after, rfl, hfirst⟩ | ⟨rfl, hfirst⟩)
    · exact ⟨before, after ++ [i], by rw [List.append_assoc, List.cons_append], hfirst⟩
    · exact ⟨js, [], rfl, hfirst⟩

theorem Job.IsFirst.mem (h : j.IsFirst js) : j ∈ js := by
  obtain ⟨before, after, rfl, -⟩ := h
  exact List.mem_append_right _ List.mem_cons_self

theorem Job.exists_isFirst (hj : j ∈ js) :
    ∃ i, IsFirst js i ∧ i.fingerprint = j.fingerprint := by
  induction js using List.reverseRecOn generalizing j with
  | nil => cases hj
  | append_singleton js last ih =>
      by_cases hseen : ∃ d ∈ js, d.fingerprint = j.fingerprint
      · obtain ⟨d, hd, hprint⟩ := hseen
        obtain ⟨i, hi, hprint'⟩ := ih hd
        exact ⟨i, isFirst_concat.2 (.inl hi), hprint'.trans hprint⟩
      · push Not at hseen
        obtain hmem | hlast := List.mem_append.1 hj
        · exact absurd rfl (hseen j hmem)
        · obtain rfl := List.mem_singleton.1 hlast
          exact ⟨j, isFirst_concat.2 (.inr ⟨rfl, hseen⟩), rfl⟩

/-- The job of a case. -/
def LoadedCase.job? (m : Manifest) (golden : Golden) (l : LoadedCase) : Option Job :=
  match l.input with
  | .ok input =>
    some { manifest := m.path, case := l.case, input, golden := golden.find l.case.name }
  | .error _ => none

/-- The jobs of a manifest, with those that are skipped. -/
def Loaded.listed (l : Loaded) : List Job :=
  match l.golden with
  | .ok golden => l.cases.filterMap (LoadedCase.job? l.manifest golden)
  | .error _ => []

/-- There is no golden file, and all inputs can be read. -/
structure Loaded.Readable (l : Loaded) : Prop where
  golden : l.golden = .ok []
  inputs : ∀ c ∈ l.cases, ∃ input, c.input = .ok input

omit [Libraries] in
theorem mem_listed {l : Loaded} (hl : l.Readable) {j : Job} :
    j ∈ l.listed ↔ ∃ c ∈ l.cases, ∃ input, c.input = .ok input ∧
      j = { manifest := l.manifest.path, case := c.case, input } := by
  rw [Loaded.listed, hl.golden]
  refine List.mem_filterMap.trans (exists_congr fun c => and_congr_right fun hc => ?_)
  obtain ⟨input, hinput⟩ := hl.inputs c hc
  rw [LoadedCase.job?, hinput]
  constructor
  · rintro h
    exact ⟨input, rfl, (Option.some.inj h).symm⟩
  · rintro ⟨_, hinput', rfl⟩
    obtain rfl := Except.ok.inj hinput'
    rfl

/-- **What a schedule holds of some jobs**: the first of every fingerprint is run, and the others
are skipped. -/
structure Schedule.Covers (s : Schedule) (js : List Job) : Prop where
  jobs : ∀ j, j ∈ s.jobs ↔ j.IsFirst js
  seen : ∀ print, s.seen.lookup print = none ↔ ∀ j ∈ js, j.fingerprint ≠ print
  early : ∀ r ∈ s.early, r.status = .skip

theorem Schedule.Covers.addCase {s : Schedule} (h : s.Covers js) (m : Manifest) (golden : Golden)
    {l : LoadedCase} (hj : l.job? m golden = some j) :
    (s.addCase m golden l).Covers (js ++ [j]) := by
  obtain ⟨e, hinput, -⟩ | ⟨input, first, hinput, hseen, hadd⟩ | ⟨input, hinput, hseen, hadd⟩ :=
    addCase_cases m golden s l
  · rw [LoadedCase.job?, hinput] at hj
    cases hj
  · rw [LoadedCase.job?, hinput] at hj
    have hprint : l.case.fingerprint input = j.fingerprint := by cases hj; rfl
    rw [hprint] at hseen
    have hsome : ¬∀ i ∈ js, i.fingerprint ≠ j.fingerprint := by
      rw [← h.seen, hseen]
      exact Option.some_ne_none first
    rw [hadd]
    refine ⟨fun i => ?_, fun print => ?_, List.forall_mem_append.2 ⟨h.early, by simp⟩⟩
    · rw [Job.isFirst_concat, h.jobs, or_iff_left]
      exact fun hi => hsome hi.2
    · rw [List.forall_mem_append, List.forall_mem_singleton, h.seen, iff_self_and]
      rintro hnone rfl
      exact hsome hnone
  · rw [LoadedCase.job?, hinput] at hj
    obtain rfl := Option.some.inj hj
    rw [hadd]
    refine ⟨fun i => ?_, fun print => ?_, h.early⟩
    · rw [Job.isFirst_concat, List.mem_append, List.mem_singleton, h.jobs]
      exact or_congr_right (iff_self_and.2 fun _ => (h.seen _).1 hseen)
    · rw [List.forall_mem_append, List.forall_mem_singleton, ← h.seen, List.lookup_append,
        Option.or_eq_none_iff]
      refine and_congr_right fun _ => ?_
      rw [List.lookup_cons]
      split
      · next heq =>
        exact iff_of_false (Option.some_ne_none _) fun hne => hne (beq_iff_eq.1 heq).symm
      · next hne => exact iff_of_true rfl fun heq => beq_eq_false_iff_ne.1 hne heq.symm

theorem Schedule.covers_addManifest {s : Schedule} (h : s.Covers js) {l : Loaded}
    (hl : l.Readable) : (s.addManifest l).Covers (js ++ l.listed) := by
  unfold addManifest Loaded.listed
  rw [hl.golden]
  dsimp only
  rw [List.filterMap_eq_flatMap_toList]
  refine foldl_gathers Covers (fun c hc s js h => ?_) h
  obtain ⟨input, hinput⟩ := hl.inputs c hc
  have hjob : c.job? l.manifest [] = some
      { manifest := l.manifest.path, case := c.case, input, golden := none } := by
    rw [LoadedCase.job?, hinput]
    rfl
  rw [hjob]
  exact h.addCase l.manifest [] hjob

/-- **Exactly the first cases are run.** -/
theorem covers_schedule {all : List Loaded} (hall : ∀ l ∈ all, l.Readable) :
    (schedule all).Covers (all.flatMap Loaded.listed) := by
  have hnone : Schedule.Covers {} [] := by
    refine ⟨fun j => ?_, fun print => ?_, fun r hr => ?_⟩
    · refine iff_of_false List.not_mem_nil fun hfirst => ?_
      cases hfirst.mem
    · exact iff_of_true rfl fun j hj => absurd hj List.not_mem_nil
    · cases hr
  refine Schedule.foldl_gathers Schedule.Covers (fun l hl s js h => ?_) hnone
  exact Schedule.covers_addManifest h (hall l hl)

/-! ### Failures of a run -/

section Failures

variable [Differ] {all : List Loaded} {update : Bool} {n : Nat} {rs : List Report}

/-- Reports that are those on the jobs of a schedule but for the time have their statuses. -/
theorem exists_status_iff {s : Schedule}
    (hperm : (rs.map Report.untimed).Perm
      ((s.early ++ s.jobs.map (Job.report update)).map Report.untimed)) (status : Status) :
    (∃ r ∈ rs, r.status = status) ↔
      (∃ r ∈ s.early, r.status = status) ∨ ∃ j ∈ s.jobs, (j.report update).status = status := by
  have huntimed : ∀ rs : List Report, (∃ r ∈ rs, r.status = status) ↔
      ∃ r ∈ rs.map Report.untimed, r.status = status := by
    intro rs
    simp only [List.mem_map, exists_exists_and_eq_and]
    rfl
  rw [huntimed, exists_congr fun r => and_congr_left' hperm.mem_iff, ← huntimed]
  simp only [List.mem_append, or_and_right, exists_or, List.mem_map, exists_exists_and_eq_and]

section

variable (hall : ∀ l ∈ all, l.Readable)
  (hperm : (rs.map Report.untimed).Perm
    (((schedule all).early ++ (schedule all).jobs.map (Job.report update)).map Report.untimed))

include hall hperm

/-- A report says that a case failed exactly if the first case of some fingerprint does not come out
as expected. -/
theorem exists_fail_iff :
    (∃ r ∈ rs, r.status = .fail) ↔ ∃ j : Job, j.IsFirst (all.flatMap Loaded.listed) ∧
      ¬j.case.expect.Met (j.case.execute j.input) := by
  have hcovers := covers_schedule hall
  have hearly : ¬∃ r ∈ (schedule all).early, r.status = .fail := by
    rintro ⟨r, hr, hfail⟩
    cases (hcovers.early r hr).symm.trans hfail
  rw [exists_status_iff hperm, or_iff_right hearly]
  refine exists_congr fun j => ?_
  rw [hcovers.jobs]
  refine and_congr_right fun hj => Job.status_report ?_ update
  obtain ⟨l, hl, hj⟩ := List.mem_flatMap.1 hj.mem
  obtain ⟨c, -, input, -, rfl⟩ := (mem_listed (hall l hl)).1 hj
  rfl

/-- Nothing else makes such a run fail. -/
theorem any_failed_iff : rs.any Report.failed = true ↔ ∃ r ∈ rs, r.status = .fail := by
  have hcovers := covers_schedule hall
  have herror : ¬∃ r ∈ rs, r.status = .error := by
    rw [exists_status_iff hperm]
    rintro (⟨r, hr, hr'⟩ | ⟨j, -, hj⟩)
    · cases (hcovers.early r hr).symm.trans hr'
    · exact j.status_report_ne_error update hj
  rw [List.any_eq_true]
  refine exists_congr fun r => and_congr_right fun hr => ?_
  rw [Report.failed, Bool.or_eq_true, beq_iff_eq, beq_iff_eq, or_iff_left]
  exact fun hr' => herror ⟨r, hr, hr'⟩

end

omit [Differ] in
/-- Where cases with one fingerprint are the same but for their names, no failure is passed over. -/
theorem exists_first_of_same
    (hsame : ∀ i ∈ all.flatMap Loaded.listed, ∀ j ∈ all.flatMap Loaded.listed,
      i.fingerprint = j.fingerprint → i.input = j.input ∧ i.case.unnamed = j.case.unnamed)
    {j : Job} (hj : j ∈ all.flatMap Loaded.listed)
    (hfail : ¬j.case.expect.Met (j.case.execute j.input)) :
    ∃ i : Job, i.IsFirst (all.flatMap Loaded.listed) ∧
      ¬i.case.expect.Met (i.case.execute i.input) := by
  obtain ⟨i, hi, hprint⟩ := Job.exists_isFirst hj
  obtain ⟨hinput, hcase⟩ := hsame i hi.mem j hj hprint
  have hexpect : i.case.unnamed.expect = j.case.unnamed.expect := by rw [hcase]
  have hexecute : i.case.execute i.input = j.case.execute j.input := by
    rw [← i.case.execute_unnamed, ← j.case.execute_unnamed, hcase, hinput]
  refine ⟨i, hi, ?_⟩
  rw [hexecute]
  exact hexpect ▸ hfail

end Failures

end StackCompiler.Regression

/-! ### The tester on a store -/

namespace StackCompiler.Tools

open Regression

namespace Store

/-- The golden outcomes in a store. -/
def golden (s : Store) (m : Manifest) : Except Text Golden :=
  match s.read m.goldenPath with
  | .error .missing => .ok []
  | .error e => .error (e.reading m.goldenPath)
  | .ok contents =>
    (Golden.parse contents).mapError fun e => text "parsing " ++ m.goldenPath ++ text ": " ++ e

/-- Where the input of a case is. -/
def inputPath (m : Manifest) (c : Case) : Text := Path.join (Path.directory m.path) c.input

/-- A case with its input in a store. -/
def loadedCase (s : Store) (m : Manifest) (case : Case) : LoadedCase where
  case := case
  input := (s.read (inputPath m case)).mapError (·.reading (inputPath m case))

/-- **A manifest with what belongs to it in a store.** -/
def loaded (s : Store) (m : Manifest) : Loaded where
  manifest := m
  golden := s.golden m
  cases := m.cases.map (s.loadedCase m)

variable {s : Store} {α β : Type}

theorem readable_loaded {m : Manifest} (hgolden : s.read m.goldenPath = .error .missing)
    (hinputs : ∀ c ∈ m.cases, ∃ input, s.read (inputPath m c) = .ok input) :
    (s.loaded m).Readable := by
  refine ⟨?_, List.forall_mem_map.2 fun c hc => ?_⟩
  · show s.golden m = .ok []
    simp only [golden, hgolden]
  · obtain ⟨input, hinput⟩ := hinputs c hc
    exact ⟨input, congrArg (Except.mapError _) hinput⟩

/-- What a store answers, and what becomes of it. -/
def ask {α : Type} (s : Store) (x : StateM Store α) : α × Store := x.run s

/-- What a run does to a store. -/
def exec {α : Type} (s : Store) (r : Run (StateM Store) α) : Except UInt8 α × Store := s.ask r.run

variable {s' : Store}

theorem ask_bind {x : StateM Store α} {a : α} (h : s.ask x = (a, s'))
    (f : α → StateM Store β) : s.ask (x >>= f) = s'.ask (f a) := by
  show (s.ask x).2.ask (f (s.ask x).1) = _
  rw [h]

theorem exec_bind {r : Run (StateM Store) α} {a : α} (h : s.exec r = (.ok a, s'))
    (f : α → Run (StateM Store) β) : s.exec (r >>= f) = s'.exec (f a) := by
  rw [exec, ExceptT.run_bind]
  exact ask_bind h _

theorem exec_lift {x : StateM Store α} {a : α} (h : s.ask x = (a, s'))
    (f : α → Run (StateM Store) β) : s.exec (liftM x >>= f) = s'.exec (f a) := by
  have hlift : s.exec (liftM x) = (.ok a, s') := ask_bind h fun a => pure (Except.ok a)
  exact exec_bind hlift f

theorem exec_then (s : Store) (x : StateM Store Unit) (f : Unit → Run (StateM Store) β) :
    s.exec (liftM x >>= f) = (s.ask x).2.exec (f ()) := exec_lift rfl f

theorem ask_code (s : Store) (r : Run (StateM Store) Unit) :
    (s.ask (Run.code r)).1 =
      match (s.exec r).1 with
      | .ok _ => 0
      | .error code => code := by
  have hrun : s.ask r.run = ((s.exec r).1, (s.exec r).2) := rfl
  rw [Run.code, ask_bind hrun]
  cases (s.exec r).1 <;> rfl

theorem ask_mapM {f : α → StateM Store β} {g : α → β} (h : ∀ a, s.ask (f a) = (g a, s))
    (as : List α) : s.ask (as.mapM f) = (as.map g, s) := by
  induction as with
  | nil => rfl
  | cons a as ih =>
      rw [List.mapM_cons, ask_bind (h a), ask_bind ih]
      rfl

end Store

namespace Tester

open Store

section OnStore

variable (system arch : Text) (page : Int) (year : Text) (s : Store)

theorem ask_load (m : Manifest) :
    s.ask (load (Store.host system arch page year) m) = (s.loaded m, s) := by
  have hgolden : s.ask (readGolden (Store.host system arch page year) m) = (s.golden m, s) := by
    have hread : s.ask ((Store.host system arch page year).read m.goldenPath) =
      (s.read m.goldenPath, s) := rfl
    rw [readGolden, ask_bind hread, Store.golden]
    cases s.read m.goldenPath with
    | ok contents => rfl
    | error e => cases e <;> rfl
  have hcase : ∀ c, s.ask (readCase (Store.host system arch page year) m c) =
      (s.loadedCase m c, s) := fun _ => rfl
  rw [load, ask_bind hgolden, ask_bind (ask_mapM hcase m.cases)]
  rfl

variable [Libraries] [Differ]

/-- Without time, the reports are those on the jobs. -/
theorem ask_reportAll (update : Bool) (ms : List Manifest) :
    s.ask (reportAll (Store.host system arch page year) update ms) =
      (collect (schedule (ms.map s.loaded)).early
        ((schedule (ms.map s.loaded)).jobs.map (Job.report update)), s) := by
  have htimed : ∀ j : Job, s.ask (timedReport (Store.host system arch page year) update j) =
      (j.report update, s) := by
    intro j
    rw [← j.untimed_report update]
    rfl
  rw [reportAll, ask_bind (ask_mapM (ask_load system arch page year s) ms),
    ask_bind (ask_mapM htimed _)]
  rfl

/-- **The exit code of the tester** on manifests that are found and read. -/
theorem code_act (showDuration : Nat → Text) {o : Options} (ho : o.update = false) {path : Text}
    {paths : List Text} {ms : List Manifest}
    (hexpand : s.ask (expandAll (Store.host system arch page year) o.manifests) =
      (some (path :: paths), s))
    (hread : s.exec ((path :: paths).mapM (readManifest (Store.host system arch page year))) =
      (.ok ms, s)) :
    (s.ask (Run.code (act (Store.host system arch page year) showDuration o))).1 =
      if (collect (schedule (ms.map s.loaded)).early
        ((schedule (ms.map s.loaded)).jobs.map (Job.report false))).any Report.failed
      then 1 else 0 := by
  rw [ask_code, act, exec_lift hexpand]
  dsimp only
  rw [exec_bind hread, ho, exec_lift (ask_reportAll system arch page year s false ms)]
  generalize collect _ _ = reports
  rw [exec_then, exec_then, if_neg Bool.false_ne_true]
  cases reports.any Report.failed <;> rfl

end OnStore

/-- **A run fails exactly if the first case of some fingerprint does not come out as expected.**
Let there be no golden files, and let all inputs be readable.  Then with any number of workers, some
report says that a case failed exactly if the first case of some fingerprint does not come out as
expected, and exactly then the tester ends with exit code 1.  So every failure is reported where
cases with one fingerprint have the same input and are the same but for their names. -/
theorem failure_reported_iff [Libraries] [Differ] (s : Store) {ms : List Manifest}
    (hgolden : ∀ m ∈ ms, s.read m.goldenPath = .error .missing)
    (hinputs : ∀ m ∈ ms, ∀ c ∈ m.cases, ∃ input, s.read (Store.inputPath m c) = .ok input) {n : Nat}
    (hn : 0 < n) {rs : List Report}
    (hrs : (schedule (ms.map s.loaded)).Returns (Job.Delivers false) n rs) :
    ((∃ r ∈ rs, r.status = .fail) ↔
      ∃ j : Job, j.IsFirst ((ms.map s.loaded).flatMap Loaded.listed) ∧
        ¬j.case.expect.Met (j.case.execute j.input)) ∧
    ((∀ i ∈ (ms.map s.loaded).flatMap Loaded.listed, ∀ j ∈ (ms.map s.loaded).flatMap Loaded.listed,
        i.fingerprint = j.fingerprint → i.input = j.input ∧ i.case.unnamed = j.case.unnamed) →
      (∃ m ∈ ms, ∃ c ∈ m.cases, ∃ input, s.read (Store.inputPath m c) = .ok input ∧
        ¬c.expect.Met (c.execute input)) →
      ∃ r ∈ rs, r.status = .fail) ∧
    ∀ (system arch : Text) (page : Int) (year : Text) (showDuration : Nat → Text) (o : Options)
      (path : Text) (paths : List Text), o.update = false →
      s.ask (expandAll (Store.host system arch page year) o.manifests) = (some (path :: paths), s) →
      s.exec ((path :: paths).mapM (readManifest (Store.host system arch page year))) =
        (.ok ms, s) →
      ((s.ask (Run.code (act (Store.host system arch page year) showDuration o))).1 = 1 ↔
        ∃ r ∈ rs, r.status = .fail) := by
  have hall : ∀ l ∈ ms.map s.loaded, l.Readable :=
    List.forall_mem_map.2 fun m hm => Store.readable_loaded (hgolden m hm) (hinputs m hm)
  have hperm := hrs.perm hn fun _ _ _ => Job.untimed_of_delivers
  refine ⟨exists_fail_iff hall hperm, ?_, ?_⟩
  · rintro hsame ⟨m, hm, c, hc, input, hinput, hfail⟩
    refine (exists_fail_iff hall hperm).2 ?_
    have hlisted : ({ manifest := m.path, case := c, input } : Job) ∈
        (ms.map s.loaded).flatMap Loaded.listed := by
      refine List.mem_flatMap.2 ⟨s.loaded m, List.mem_map_of_mem hm, ?_⟩
      refine (mem_listed (hall _ (List.mem_map_of_mem hm))).2
        ⟨s.loadedCase m c, List.mem_map_of_mem hc, input, ?_, rfl⟩
      rw [Store.loadedCase, hinput]
      rfl
    exact exists_first_of_same hsame hlisted hfail
  · intro system arch page year showDuration o path paths ho hexpand hread
    rw [code_act system arch page year s showDuration ho hexpand hread]
    have hcollect := (collect_perm (schedule (ms.map s.loaded)).early
      ((schedule (ms.map s.loaded)).jobs.map (Job.report false))).map Report.untimed
    rw [exists_fail_iff hall hperm, ← exists_fail_iff hall hcollect, ← any_failed_iff hall hcollect]
    split
    · next h => exact iff_of_true rfl h
    · next h => exact iff_of_false (by decide) h

/-- A pattern that stands for one file. -/
theorem ask_expandAll {system arch year patterns path : Text} {page : Int} {s : Store}
    (h : s.ask ((Text.fields patterns).mapM (expand (Store.host system arch page year))) =
      ([some [path]], s)) :
    s.ask (expandAll (Store.host system arch page year) patterns) = (some [path], s) := by
  rw [expandAll, ask_bind h]
  show (some (Text.sorted [path]), s) = _
  rw [Text.sorted, List.mergeSort_singleton]

/-- The tester is asked for the manifest `m.yaml`. -/
def oneManifest : Options where
  manifests := text "m.yaml"
  update := false
  output := text "r"
  verbose := false

/-- An empty input, and a manifest with a case that comes out as expected and another one. -/
def storeWith (case : String) : Store :=
  .ofFiles [(text "x", []), (text "m.yaml", text ("cases:\n" ++
    "- \x7bname: a, input: x, raw: true, expect: \x7berror: truncated\x7d\x7d\n" ++ case))]

/-- The manifest of such a store. -/
def manifestWith (case : Case) : Manifest where
  path := text "m.yaml"
  name := text "m"
  cases := [{ name := text "a", input := text "x", raw := true
              expect := { error := text "truncated" } }, case]

/-- Two cases that are run, of which the second does not come out as expected. -/
def failingStore : Store := storeWith "- \x7bname: b, input: x, raw: true, local_slots: 4\x7d\n"

/-- The manifest of these two cases. -/
def failingManifest : Manifest :=
  manifestWith { name := text "b", input := text "x", raw := true, localSlots := 4 }

theorem failure_reported_iff_failingStore :
    (∀ m ∈ [failingManifest], failingStore.read m.goldenPath = .error .missing) ∧
    (∀ m ∈ [failingManifest], ∀ c ∈ m.cases,
      ∃ input, failingStore.read (Store.inputPath m c) = .ok input) ∧
    ∃ rs, (schedule ([failingManifest].map failingStore.loaded)).Returns (Job.Delivers false) 3 rs ∧
      (∃ r ∈ rs, r.status = .fail) ∧
      (failingStore.ask (Run.code (act (Store.host [] [] 80 []) (fun _ => []) oneManifest))).1 =
        1 := by
  have hgolden : ∀ m ∈ [failingManifest], failingStore.read m.goldenPath = .error .missing := by
    decide +kernel
  have hempty : ∀ m ∈ [failingManifest], ∀ c ∈ m.cases,
      failingStore.read (Store.inputPath m c) = .ok [] := by decide +kernel
  have hinputs : ∀ m ∈ [failingManifest], ∀ c ∈ m.cases,
      ∃ input, failingStore.read (Store.inputPath m c) = .ok input :=
    fun m hm c hc => ⟨[], hempty m hm c hc⟩
  obtain ⟨rs, hrs⟩ :=
    (schedule ([failingManifest].map failingStore.loaded)).exists_returns
      (Job.exists_delivers false) (n := 3) (by decide)
  obtain ⟨-, hsame, hcode⟩ := failure_reported_iff failingStore hgolden hinputs (by decide) hrs
  have hfail : ∃ r ∈ rs, r.status = .fail := by
    refine hsame ?_ ?_
    · decide +kernel
    · refine ⟨failingManifest, List.mem_cons_self, _, List.mem_cons_of_mem _ List.mem_cons_self, [],
        hempty _ List.mem_cons_self _ (List.mem_cons_of_mem _ List.mem_cons_self), ?_⟩
      rw [← problems_eq_nil_iff]
      decide +kernel
  refine ⟨hgolden, hinputs, rs, hrs, hfail,
    (hcode [] [] 80 [] _ _ (text "m.yaml") [] rfl ?_ ?_).2 hfail⟩
  · exact ask_expandAll (by decide +kernel)
  · decide +kernel

/-- Two cases that differ only in what is expected of them. -/
def hidingStore : Store := storeWith "- \x7bname: b, input: x, raw: true\x7d\n"

/-- The manifest of these two cases. -/
def hidingManifest : Manifest :=
  manifestWith { name := text "b", input := text "x", raw := true }

/-- The second case does not come out as expected, but it is skipped: no report says that a case
failed, and the tester ends with exit code 0. -/
theorem failure_hidden :
    (∀ m ∈ [hidingManifest], hidingStore.read m.goldenPath = .error .missing) ∧
    (∀ m ∈ [hidingManifest], ∀ c ∈ m.cases, hidingStore.read (Store.inputPath m c) = .ok []) ∧
    (∃ c ∈ hidingManifest.cases, ¬c.expect.Met (c.execute [])) ∧
    (∀ n rs, 0 < n →
      (schedule ([hidingManifest].map hidingStore.loaded)).Returns (Job.Delivers false) n rs →
      ∀ r ∈ rs, r.status ≠ .fail) ∧
    (hidingStore.ask (Run.code (act (Store.host [] [] 80 []) (fun _ => []) oneManifest))).1 =
      0 := by
  have hgolden : ∀ m ∈ [hidingManifest], hidingStore.read m.goldenPath = .error .missing := by
    decide +kernel
  have hinputs : ∀ m ∈ [hidingManifest], ∀ c ∈ m.cases,
      hidingStore.read (Store.inputPath m c) = .ok [] := by decide +kernel
  have hall : ∀ l ∈ [hidingManifest].map hidingStore.loaded, l.Readable :=
    List.forall_mem_map.2 fun m hm =>
      Store.readable_loaded (hgolden m hm) fun c hc => ⟨[], hinputs m hm c hc⟩
  have hmet : ¬∃ j : Job,
      j.IsFirst (([hidingManifest].map hidingStore.loaded).flatMap Loaded.listed) ∧
      ¬j.case.expect.Met (j.case.execute j.input) := by
    rintro ⟨j, hfirst, hfail⟩
    have hlisted : ([hidingManifest].map hidingStore.loaded).flatMap Loaded.listed =
        hidingManifest.cases.map fun case => { manifest := text "m.yaml", case, input := [] } := by
      decide +kernel
    have hprint : ∀ c ∈ hidingManifest.cases, ∀ d ∈ hidingManifest.cases,
        c.fingerprint [] = d.fingerprint [] := by decide +kernel
    rw [hlisted] at hfirst
    obtain hfirst | ⟨-, hnew⟩ := (@Job.isFirst_concat _ [_] _ j).1 hfirst
    · obtain rfl := List.mem_singleton.1 hfirst.mem
      exact hfail (problems_eq_nil_iff.1 (by decide +kernel))
    · exact hnew _ List.mem_cons_self
        (hprint _ List.mem_cons_self _ (List.mem_cons_of_mem _ List.mem_cons_self))
  refine ⟨hgolden, hinputs, ?_, ?_, ?_⟩
  · refine ⟨_, List.mem_cons_of_mem _ List.mem_cons_self, ?_⟩
    rw [← problems_eq_nil_iff]
    decide +kernel
  · intro n rs hn hrs r hr hfail
    have hperm := hrs.perm hn fun _ _ _ => Job.untimed_of_delivers
    exact hmet ((exists_fail_iff hall hperm).1 ⟨r, hr, hfail⟩)
  · have hexpand : hidingStore.ask (expandAll (Store.host [] [] 80 []) oneManifest.manifests) =
        (some [text "m.yaml"], hidingStore) := ask_expandAll (by decide +kernel)
    have hread : hidingStore.exec ([text "m.yaml"].mapM (readManifest (Store.host [] [] 80 []))) =
        (.ok [hidingManifest], hidingStore) := by decide +kernel
    have hcollect := (collect_perm (schedule ([hidingManifest].map hidingStore.loaded)).early
      ((schedule ([hidingManifest].map hidingStore.loaded)).jobs.map (Job.report false))).map
        Report.untimed
    have hcode := code_act [] [] 80 [] hidingStore (fun _ => []) (o := oneManifest)
      rfl hexpand hread
    refine hcode.trans (if_neg fun hany => hmet ?_)
    exact (exists_fail_iff hall hcollect).1 ((any_failed_iff hall hcollect).1 hany)

end Tester

end StackCompiler.Tools
