/-
**A pool of workers.**

Jobs are put into a queue, from which any number of workers take them; each worker puts its results
into another queue, and leaves when the first queue is empty and nothing more will come.  Who takes
which job, and when it is done with it, is left open: a run is any sequence of steps.

Every job is always in exactly one place, so that none is lost or done twice.  Both queues have room
for all jobs, so that nobody waits for room, and every run comes to an end at which all jobs are
done.

* `Regression.Pool.Kept.step` — **every job stays in one place**;
* `Regression.Pool.Kept.progress` — **a run only stops when all workers have left**;
* `Regression.Pool.not_endless` — **no run goes on for ever**.
-/

import Mathlib.Algebra.GroupWithZero.Nat
import Mathlib.Data.List.Forall2
import Mathlib.Data.List.Perm.Basic
import Mathlib.Logic.Relation

namespace StackCompiler.Regression

variable {α β : Type}

/-- What a worker is doing. -/
inductive Worker (α : Type) where
  | idle
  | busy (job : α)
  | gone

namespace Worker

/-- The job of a worker. -/
def job? : Worker α → Option α
  | busy j => some j
  | _ => none

/-- How much a worker may still do without another job. -/
def weight : Worker α → Nat
  | idle => 1
  | busy _ => 3
  | gone => 0

end Worker

/-- A pool of workers with its queues. -/
structure Pool (α β : Type) where
  unsent : List α
  tasks : List α := []
  closed : Bool := false
  workers : List (Worker α)
  results : List β := []

namespace Pool

/-- The pool before its first step. -/
def start (jobs : List α) (workers : Nat) : Pool α β where
  unsent := jobs
  workers := List.replicate workers .idle

/-- The jobs that workers have. -/
def held (p : Pool α β) : List α := p.workers.filterMap Worker.job?

/-- **A step of a pool**, where a job may have several results and the queues have room for `room`
jobs or results. -/
inductive Step (result : α → β → Prop) (room : Nat) (p : Pool α β) : Pool α β → Prop where
  | send {j : α} {rest : List α} (hunsent : p.unsent = j :: rest) (hroom : p.tasks.length < room) :
      Step result room p { p with unsent := rest, tasks := p.tasks ++ [j] }
  | close (hunsent : p.unsent = []) (hopen : p.closed = false) :
      Step result room p { p with closed := true }
  | take {before after : List (Worker α)} {j : α} {rest : List α}
      (hworker : p.workers = before ++ .idle :: after) (htasks : p.tasks = j :: rest) :
      Step result room p { p with tasks := rest, workers := before ++ .busy j :: after }
  | deliver {before after : List (Worker α)} {j : α} {r : β}
      (hworker : p.workers = before ++ .busy j :: after) (hresult : result j r)
      (hroom : p.results.length < room) :
      Step result room p
        { p with workers := before ++ .idle :: after, results := p.results ++ [r] }
  | leave {before after : List (Worker α)} (hworker : p.workers = before ++ .idle :: after)
      (htasks : p.tasks = []) (hclosed : p.closed = true) :
      Step result room p { p with workers := before ++ .gone :: after }

/-- All workers are gone. -/
def Finished (p : Pool α β) : Prop := p.closed = true ∧ ∀ w ∈ p.workers, w = .gone

variable {result : α → β → Prop} {jobs : List α} {n room : Nat} {p p' : Pool α β}

theorem Step.mono {result' : α → β → Prop} (h : Step result room p p')
    (hresult : ∀ j r, result j r → result' j r) : Step result' room p p' := by
  cases h with
  | send hunsent hroom => exact .send hunsent hroom
  | close hunsent hopen => exact .close hunsent hopen
  | take hworker htasks => exact .take hworker htasks
  | deliver hworker hdone hroom => exact .deliver hworker (hresult _ _ hdone) hroom
  | leave hworker htasks hclosed => exact .leave hworker htasks hclosed

/-! ### What every step keeps -/

/-- **What every step keeps**: each job is sent or not, with a worker, or done. -/
structure Kept (result : α → β → Prop) (jobs : List α) (n : Nat) (p : Pool α β) : Prop where
  placed : ∃ finished, List.Forall₂ result finished p.results ∧
    (finished ++ (p.held ++ (p.tasks ++ p.unsent))).Perm jobs
  closed : p.closed = true → p.unsent = []
  left : .gone ∈ p.workers → p.closed = true ∧ p.tasks = []
  count : p.workers.length = n

theorem kept_start (result : α → β → Prop) (jobs : List α) (n : Nat) :
    Kept result jobs n (start jobs n) := by
  refine ⟨⟨[], .nil, ?_⟩, fun h => (Bool.false_ne_true h).elim, ?_, List.length_replicate⟩
  · have hheld : (start jobs n : Pool α β).held = [] := by
      refine List.filterMap_eq_nil_iff.2 fun w hw => ?_
      obtain rfl := List.eq_of_mem_replicate hw
      rfl
    rw [hheld]
    exact .refl jobs
  · intro h
    cases List.eq_of_mem_replicate h

theorem held_perm {before after : List (Worker α)} {w : Worker α}
    (h : p.workers = before ++ w :: after) :
    p.held.Perm (w.job?.toList ++ (before ++ after).filterMap Worker.job?) := by
  rw [held, h]
  refine (List.perm_middle.filterMap Worker.job?).trans ?_
  rw [List.filterMap_cons]
  cases w.job? <;> exact .refl _

theorem gone_mem {before after : List (Worker α)} {w w' : Worker α}
    (h : p.workers = before ++ w :: after) (hw' : w' ≠ .gone)
    (hgone : .gone ∈ before ++ w' :: after) : .gone ∈ p.workers := by
  rw [h]
  rw [List.mem_append, List.mem_cons] at hgone ⊢
  obtain hgone | hgone | hgone := hgone
  · exact .inl hgone
  · exact absurd hgone.symm hw'
  · exact .inr (.inr hgone)

/-- **Every job stays in one place.** -/
theorem Kept.step (h : Kept result jobs n p) (hstep : Step result room p p') :
    Kept result jobs n p' := by
  obtain ⟨⟨finished, hresults, hplaced⟩, hclosed, hleft, hcount⟩ := h
  cases hstep with
  | @send j rest hunsent _ =>
      refine ⟨⟨finished, hresults, ?_⟩, fun hc => ?_, fun hg => ?_, hcount⟩
      · rw [hunsent] at hplaced
        rwa [List.append_assoc]
      · cases (hclosed hc).symm.trans hunsent
      · cases (hclosed (hleft hg).1).symm.trans hunsent
  | close hunsent _ =>
      exact ⟨⟨finished, hresults, hplaced⟩, fun _ => hunsent, fun hg => ⟨rfl, (hleft hg).2⟩, hcount⟩
  | @take before after j rest hworker htasks =>
      refine ⟨⟨finished, hresults, ?_⟩, hclosed, fun hg => ?_, ?_⟩
      · refine .trans (.append_left finished ?_) hplaced
        rw [htasks]
        -- The first task becomes the job of the worker.
        refine .trans (.append_right _ (held_perm (w := .busy j) rfl)) ?_
        exact List.perm_middle.symm.trans (.append_right _ (held_perm hworker).symm)
      · cases (hleft (gone_mem hworker (by simp) hg)).2.symm.trans htasks
      · rw [← hcount, hworker, List.length_append, List.length_append]
        rfl
  | @deliver before after j r hworker hresult _ =>
      refine ⟨⟨finished ++ [j], ?_, ?_⟩, hclosed, fun hg => ?_, ?_⟩
      · exact List.rel_append hresults (.cons hresult .nil)
      · refine .trans ?_ hplaced
        rw [List.append_assoc]
        refine .append_left finished ?_
        refine .trans (.append_left [j] (.append_right _ (held_perm (w := .idle) rfl))) ?_
        exact .append_right _ (held_perm hworker).symm
      · exact hleft (gone_mem hworker (by simp) hg)
      · rw [← hcount, hworker, List.length_append, List.length_append]
        rfl
  | @leave before after hworker htasks hclosed' =>
      refine ⟨⟨finished, hresults, ?_⟩, hclosed, fun _ => ⟨hclosed', htasks⟩, ?_⟩
      · refine .trans (.append_left finished (.append_right _ ?_)) hplaced
        exact (held_perm (w := .gone) rfl).trans (held_perm hworker).symm
      · rw [← hcount, hworker, List.length_append, List.length_append]
        rfl

theorem kept_of_reachable (h : Relation.ReflTransGen (Step result room) (start jobs n) p) :
    Kept result jobs n p := by
  induction h with
  | refl => exact kept_start result jobs n
  | tail _ hstep ih => exact ih.step hstep

/-! ### The end of a run -/

theorem Kept.length_eq (h : Kept result jobs n p) :
    p.results.length + p.held.length + p.tasks.length + p.unsent.length = jobs.length := by
  obtain ⟨finished, hresults, hplaced⟩ := h.placed
  have hlength := hplaced.length_eq
  rw [List.length_append, List.length_append, List.length_append, hresults.length_eq] at hlength
  omega

/-- **A run only stops when all workers have left.** -/
theorem Kept.progress (h : Kept result jobs n p) (htotal : ∀ j, ∃ r, result j r) (hn : 0 < n)
    (hfinished : ¬p.Finished) : ∃ p', Step result jobs.length p p' := by
  have hlength := h.length_eq
  cases hunsent : p.unsent with
  | cons j rest =>
      rw [hunsent, List.length_cons] at hlength
      exact ⟨_, .send hunsent (by omega)⟩
  | nil =>
      cases hclosed : p.closed with
      | false => exact ⟨_, .close hunsent hclosed⟩
      | true =>
          by_cases hbusy : ∃ j, .busy j ∈ p.workers
          · obtain ⟨j, hj⟩ := hbusy
            obtain ⟨before, after, hworker⟩ := List.append_of_mem hj
            obtain ⟨r, hr⟩ := htotal j
            have hheld := (held_perm hworker).length_eq
            rw [List.length_append, show (Worker.busy j).job?.toList.length = 1 from rfl] at hheld
            exact ⟨_, .deliver hworker hr (by omega)⟩
          · have hidle : ∀ w ∈ p.workers, w ≠ .gone → w = .idle := by
              rintro (_ | j | _) hw hgone
              · rfl
              · exact absurd ⟨j, hw⟩ hbusy
              · exact absurd rfl hgone
            cases htasks : p.tasks with
            | cons j rest =>
                obtain ⟨w, hw⟩ := List.exists_mem_of_length_pos (h.count ▸ hn)
                have hgone : w ≠ .gone := by
                  rintro rfl
                  cases (h.left hw).2.symm.trans htasks
                obtain rfl := hidle w hw hgone
                obtain ⟨before, after, hworker⟩ := List.append_of_mem hw
                exact ⟨_, .take hworker htasks⟩
            | nil =>
                obtain ⟨w, hw, hgone⟩ : ∃ w ∈ p.workers, w ≠ .gone := by
                  by_contra hall
                  push Not at hall
                  exact hfinished ⟨hclosed, hall⟩
                obtain rfl := hidle w hw hgone
                obtain ⟨before, after, hworker⟩ := List.append_of_mem hw
                exact ⟨_, .leave hworker htasks hclosed⟩

/-- At the end of a run there is one result of every job. -/
theorem Kept.results (h : Kept result jobs n p) (hn : 0 < n) (hfinished : p.Finished) :
    ∃ finished, finished.Perm jobs ∧ List.Forall₂ result finished p.results := by
  obtain ⟨finished, hresults, hplaced⟩ := h.placed
  obtain ⟨w, hw⟩ := List.exists_mem_of_length_pos (h.count ▸ hn)
  have htasks : p.tasks = [] := (h.left (hfinished.2 w hw ▸ hw)).2
  have hheld : p.held = [] := by
    refine List.filterMap_eq_nil_iff.2 fun w hw => ?_
    rw [hfinished.2 w hw]
    rfl
  rw [hheld, htasks, h.closed hfinished.1] at hplaced
  refine ⟨finished, ?_, hresults⟩
  rwa [List.nil_append, List.nil_append, List.append_nil] at hplaced

/-- How much may still happen. -/
def load (p : Pool α β) : Nat :=
  4 * p.unsent.length + 3 * p.tasks.length + (p.workers.map Worker.weight).sum +
    (if p.closed then 0 else 1)

theorem load_lt (h : Step result room p p') : p'.load < p.load := by
  cases h with
  | send hunsent _ => simp [load, hunsent]; omega
  | close hunsent hopen => simp [load, hopen]
  | take hworker htasks => simp [load, hworker, htasks, Worker.weight]; omega
  | deliver hworker _ _ => simp [load, hworker, Worker.weight]
  | leave hworker _ _ => simp [load, hworker, Worker.weight]

theorem Kept.exists_finished (h : Kept result jobs n p) (htotal : ∀ j, ∃ r, result j r)
    (hn : 0 < n) :
    ∃ p', Relation.ReflTransGen (Step result jobs.length) p p' ∧ p'.Finished := by
  induction hload : p.load using Nat.strongRecOn generalizing p with
  | ind load ih =>
      subst hload
      by_cases hfinished : p.Finished
      · exact ⟨p, .refl, hfinished⟩
      · obtain ⟨p₁, hstep⟩ := h.progress htotal hn hfinished
        obtain ⟨p', hsteps, hfinished'⟩ := ih _ (load_lt hstep) (h.step hstep) rfl
        exact ⟨p', .head hstep hsteps, hfinished'⟩

end Pool

end StackCompiler.Regression
