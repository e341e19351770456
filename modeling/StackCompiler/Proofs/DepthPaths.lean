/-
**The estimate is the greatest depth over all paths.**

The walk over the graph of a program visits places again and again, cuts depths at a limit and stops
early when it meets it.  What it returns is described here without it.  A path starts with an empty
stack at the first instruction, at a marker or where a call goes; it follows the instructions and
their jumps, and every instruction on it turns one depth into another.  There may be infinitely many
paths, and their depths may have no bound.  The estimate is the supremum of these depths, at least
one and at most the limit.

One direction is about settled levels: if the walk stays below the limit, no path is deeper than the
levels that it leaves behind.  The other is about traces: whatever depth the walk notes for a place
belongs to a path, since below the limit nothing is ever cut.

The length of the walk is counted as well: a place that is entered in the list of work uses up a
part of what the places can still grow.

* `Paths.estimateDepth_eq_iSup` — **the walk ends, and the estimate is exact**.
-/

import Mathlib.Data.ENat.Lattice
import Mathlib.Order.CompletePartialOrder
import StackCompiler.Proofs.StackDepth

namespace StackCompiler

open Instruction (estimateDepth offsets)

namespace Flow

/-! ### How long the walk takes -/

namespace Walk

/-- What is left to visit, together with how much deeper the places can still become. -/
def effort (w : Walk) : Nat := w.potential + w.work.length

/-- A place that is entered in the list of work has used up a part of the potential. -/
theorem effort_reach (w : Walk) (i depth : Nat) : (w.reach i depth).effort ≤ w.effort := by
  rcases potential_reach w i depth with h | h
  · rw [h]
  · have hwork : (w.reach i depth).work.length ≤ w.work.length + 1 := by
      unfold reach
      split
      · split <;> simp
      · simp
    simp only [effort]
    omega

theorem effort_reachAll (w : Walk) (places : List Nat) (depth : Nat) :
    (w.reachAll places depth).effort ≤ w.effort := by
  induction places generalizing w with
  | nil => exact Nat.le_refl _
  | cons i places ih => exact Nat.le_trans (ih _) (effort_reach w i depth)

/-- Before anything is noted, every place can still become as deep as the limit allows. -/
theorem effort_replicate (n : Nat) : effort ⟨Array.replicate n 0, []⟩ = n * (depthLimit + 1) := by
  simp only [effort, potential, Array.toList_replicate, List.length_nil, Nat.add_zero]
  induction n with
  | zero => simp
  | succ n ih =>
      rw [List.replicate_succ, List.foldr_cons, ih, Nat.succ_mul]
      omega

end Walk

/-- **The walk ends within as many visits as there is effort**, and returns what it computes. -/
theorem deepestWithin_eq (flow : Flow) (w : Walk) (deepest visits : Nat) (h : w.effort < visits) :
    flow.deepestWithin visits w deepest = some (flow.deepestFrom w deepest) := by
  obtain ⟨visits, rfl⟩ : ∃ n, visits = n + 1 := ⟨visits - 1, by omega⟩
  fun_induction deepestFrom flow w deepest generalizing visits with
  | case1 deepest reached => rfl
  | case2 deepest reached i rest hnone ih =>
      have heffort : Walk.effort ⟨reached, i :: rest⟩ = Walk.effort ⟨reached, rest⟩ + 1 := rfl
      simp only [deepestWithin, hnone]
      obtain ⟨visits, rfl⟩ : ∃ n, visits = n + 1 := ⟨visits - 1, by omega⟩
      exact ih visits (by omega)
  | case3 deepest reached i rest place hplace before after deepest' hlimit =>
      simp only [deepestWithin, hplace]
      exact if_pos hlimit
  | case4 deepest reached i rest place hplace before after deepest' hlimit ih =>
      have heffort : Walk.effort ⟨reached, i :: rest⟩ = Walk.effort ⟨reached, rest⟩ + 1 := rfl
      have hless := Walk.effort_reachAll ⟨reached, rest⟩ place.next after
      simp only [deepestWithin, hplace]
      obtain ⟨visits, rfl⟩ : ∃ n, visits = n + 1 := ⟨visits - 1, by omega⟩
      exact (if_neg hlimit).trans (ih visits (by omega))

theorem effort_startWalk (flow : Flow) :
    flow.startWalk.effort ≤ flow.places.size * (depthLimit + 1) := by
  rw [← Walk.effort_replicate]
  exact Walk.effort_reachAll _ _ _

end Flow

/-! ### Paths through a list -/

namespace Paths

/-- The first instruction at an offset. -/
def FirstAt (list : List Instruction) (offset : Int) (j : Nat) : Prop :=
  ∃ n : Nat, offset = n ∧ (offsets list)[j]? = some n ∧ ∀ k < j, (offsets list)[k]? ≠ some n

/-- A path may start at the first instruction, at a marker, and where a call goes. -/
inductive IsStart (list : List Instruction) : Nat → Prop
  | first : IsStart list 0
  | marker {i : Nat} {ins : Instruction} :
      list[i]? = some ins → ins.op.isMarker = true → IsStart list i
  | callee {i j : Nat} {ins : Instruction} :
      list[i]? = some ins → ins.op = .invoke → FirstAt list ins.target j → IsStart list j

/-- A path goes on from instruction `i` with the next one, unless `i` returns or always jumps, and
with the target of a jump. -/
inductive LeadsOn (list : List Instruction) (i : Nat) (ins : Instruction) : Nat → Prop
  | next : ins.op ≠ .ret → ins.op ≠ .jmp → LeadsOn list i ins (i + 1)
  | jump {j : Nat} : ins.op = .jmp ∨ ins.op = .jmpz ∨ ins.op = .jmpnz →
      FirstAt list ins.target j → LeadsOn list i ins j

/-- **A path arrives at an instruction with a depth.** -/
inductive Reaches (list : List Instruction) : Nat → Nat → Prop
  | start {i : Nat} : IsStart list i → Reaches list i 0
  | step {i j depth : Nat} {ins : Instruction} : Reaches list i depth → list[i]? = some ins →
      LeadsOn list i ins j → Reaches list j (depth - ins.effect.pops + ins.effect.pushes)

/-- **The depths of all paths**, before and after each of their instructions. -/
def depths (list : List Instruction) : Set ℕ :=
  {k | ∃ i ins depth, list[i]? = some ins ∧ Reaches list i depth ∧
    (k = depth ∨ k = depth - ins.effect.pops + ins.effect.pushes)}

variable {list : List Instruction}

/-! ### Paths are the ways through the graph -/

theorem mem_placeAt_iff {offset : Int} {j : Nat} :
    j ∈ Flow.placeAt (firstIndex (offsets list)) offset ↔ FirstAt list offset j := by
  cases offset with
  | negSucc n =>
      constructor
      · intro h
        cases h
      · rintro ⟨m, hm, -⟩
        cases hm
  | ofNat n =>
      show j ∈ (firstIndex (offsets list))[n]?.toList ↔ _
      rw [Option.mem_toList, firstIndex_getElem?, List.idxOf?_eq_some_iff]
      constructor
      · rintro ⟨hlt, hget, hfirst⟩
        refine ⟨n, rfl, by rw [List.getElem?_eq_getElem hlt, hget], fun k hk hsome => ?_⟩
        exact hfirst k hk (List.getElem?_eq_some_iff.1 hsome).2
      · rintro ⟨m, hm, hj, hfirst⟩
        obtain rfl : n = m := Int.ofNat.inj hm
        obtain ⟨hlt, hget⟩ := List.getElem?_eq_some_iff.1 hj
        refine ⟨hlt, hget, fun k hk heq => hfirst k hk ?_⟩
        rw [List.getElem?_eq_getElem (Nat.lt_trans hk hlt), heq]

theorem mem_nextOf_iff {i j : Nat} {ins : Instruction} :
    j ∈ Flow.nextOf (firstIndex (offsets list)) i ins ↔ LeadsOn list i ins j := by
  constructor
  · intro h
    unfold Flow.nextOf at h
    split at h
    · cases h
    · rename_i hop
      exact .jump (Or.inl hop) (mem_placeAt_iff.1 h)
    · rename_i hop
      rcases List.mem_append.1 h with h | h
      · exact .jump (Or.inr (Or.inl hop)) (mem_placeAt_iff.1 h)
      · obtain rfl := List.mem_singleton.1 h
        exact .next (by simp [hop]) (by simp [hop])
    · rename_i hop
      rcases List.mem_append.1 h with h | h
      · exact .jump (Or.inr (Or.inr hop)) (mem_placeAt_iff.1 h)
      · obtain rfl := List.mem_singleton.1 h
        exact .next (by simp [hop]) (by simp [hop])
    · rename_i hret hjmp _ _
      obtain rfl := List.mem_singleton.1 h
      exact .next hret hjmp
  · intro h
    cases h with
    | next hret hjmp =>
        unfold Flow.nextOf
        split <;> simp_all
    | jump hop hfirst =>
        have hmem := mem_placeAt_iff.2 hfirst
        rcases hop with hop | hop | hop <;> simp [Flow.nextOf, hop, hmem]

theorem mem_starts_iff {j : Nat} : j ∈ (Flow.ofList list).starts ↔ IsStart list j := by
  constructor
  · intro h
    rcases List.mem_cons.1 h with rfl | h
    · exact .first
    · obtain ⟨⟨ins, i⟩, hins, h⟩ := List.mem_flatMap.1 h
      rw [List.mem_zipIdx_iff_getElem?] at hins
      rcases List.mem_append.1 h with h | h
      · split at h
        · rename_i hmarker
          obtain rfl := List.mem_singleton.1 h
          exact .marker hins hmarker
        · cases h
      · split at h
        · rename_i hop
          exact .callee hins hop (mem_placeAt_iff.1 h)
        · cases h
  · intro h
    cases h with
    | first => exact List.mem_cons_self ..
    | marker hins hmarker =>
        exact CallFrames.mem_starts_of_startsOf hins (by simp [Flow.startsOf, hmarker])
    | callee hins hop hfirst =>
        have hmem := mem_placeAt_iff.2 hfirst
        exact CallFrames.mem_starts_of_startsOf hins (by simp [Flow.startsOf, hop, hmem])

/-! ### No path is missed -/

/-- Settled levels are at least as deep as every path. -/
theorem Reaches.le_level {level : Nat → Nat} {bound : Nat}
    (hs : Flow.Settled (Flow.ofList list) level bound) {i depth : Nat} (h : Reaches list i depth)
    (hlt : i < list.length) : depth + 1 ≤ level i := by
  induction h with
  | start hstart => exact hs.start _ (mem_starts_iff.2 hstart) (by simpa using hlt)
  | step _ hins hleads ih =>
      have hnext := (hs.next hins (ih (CallFrames.lt_of_getElem? hins))).2.2
      exact hnext _ (mem_nextOf_iff.2 hleads) hlt

/-- An estimate below the limit is at least as deep as every path. -/
theorem le_estimateDepth (h : estimateDepth list < depthLimit) {k : Nat}
    (hk : k ∈ depths list) : k ≤ estimateDepth list := by
  obtain ⟨level, hs⟩ := Flow.settled_of_deepest_lt h
  obtain ⟨i, ins, depth, hins, hreach, hk⟩ := hk
  obtain ⟨hbefore, hafter, -⟩ :=
    hs.next hins (hreach.le_level hs (CallFrames.lt_of_getElem? hins))
  rcases hk with rfl | rfl
  · exact hbefore
  · exact hafter

/-! ### No depth is made up -/

/-- What a walk knows comes from paths: the level of a place is the depth of a path to it, and the
places to visit are reached by some path. -/
structure Traced (list : List Instruction) (w : Flow.Walk) : Prop where
  reaches : ∀ i depth, w.level i = depth + 1 → Reaches list i depth
  reached : ∀ i ∈ w.work, 1 ≤ w.level i

/-- Noting the depth of a path leaves a walk traced, as long as nothing is cut. -/
theorem Traced.reach {w : Flow.Walk} (h : Traced list w) {i depth : Nat}
    (hreach : Reaches list i depth) (hle : depth ≤ depthLimit) : Traced list (w.reach i depth) := by
  constructor
  · intro k d hk
    rw [Flow.Walk.level_reach] at hk
    split at hk
    · rename_i hki
      rw [Nat.min_eq_left hle] at hk
      rcases Nat.le_total (w.level k) (depth + 1) with hmax | hmax
      · rw [Nat.max_eq_right hmax] at hk
        obtain rfl : depth = d := Nat.succ.inj hk
        rwa [hki.1]
      · rw [Nat.max_eq_left hmax] at hk
        exact h.reaches k d hk
    · exact h.reaches k d hk
  · intro k hk
    by_cases hold : k ∈ w.work
    · exact Nat.le_trans (h.reached k hold) (Flow.Walk.level_le_reach w i depth k)
    · -- only `i` itself can be new, and then it has just been given a level
      unfold Flow.Walk.reach at hk
      split at hk
      · rename_i hi
        split at hk
        · obtain rfl : k = i := (List.mem_cons.1 hk).resolve_right hold
          rw [Flow.Walk.level_reach, if_pos ⟨rfl, hi⟩]
          omega
        · exact absurd hk hold
      · exact absurd hk hold

/-- **A visit notes only depths of paths.** -/
theorem Traced.reachAll {w : Flow.Walk} (h : Traced list w) {places : List Nat} {depth : Nat}
    (hreach : ∀ i ∈ places, Reaches list i depth) (hle : depth ≤ depthLimit) :
    Traced list (w.reachAll places depth) := by
  induction places generalizing w with
  | nil => exact h
  | cons i places ih =>
      rw [Flow.Walk.reachAll_cons]
      exact ih (h.reach (hreach i (by simp)) hle) fun j hj => hreach j (by simp [hj])

theorem traced_startWalk (list : List Instruction) : Traced list (Flow.ofList list).startWalk := by
  have hnone : Traced list ⟨Array.replicate (Flow.ofList list).places.size 0, []⟩ := by
    refine ⟨fun i depth h => ?_, by simp⟩
    simp only [Flow.Walk.level, Array.getD_eq_getD_getElem?, Array.getElem?_replicate] at h
    split at h <;> cases h
  exact hnone.reachAll (fun i hi => .start (mem_starts_iff.1 hi)) (Nat.zero_le _)

/-- The depths before and after a place that is visited belong to paths, and so does what the visit
notes. -/
theorem Traced.visit {reached : Array Nat} {i : Nat} {rest : List Nat} {place : Place}
    (h : Traced list ⟨reached, i :: rest⟩) (hplace : (Flow.ofList list).places[i]? = some place) :
    Flow.depthBefore ⟨reached, rest⟩ i ∈ depths list ∧
      place.effect.apply (Flow.depthBefore ⟨reached, rest⟩ i) ∈ depths list ∧
      ∀ j ∈ place.next,
        Reaches list j (place.effect.apply (Flow.depthBefore ⟨reached, rest⟩ i)) := by
  rw [Flow.ofList_places] at hplace
  obtain ⟨ins, hins, rfl⟩ := Option.map_eq_some_iff.1 hplace
  have hreach : Reaches list i (Flow.depthBefore ⟨reached, rest⟩ i) := by
    have hlevel := h.reached i (by simp)
    refine h.reaches i _ ?_
    simp only [Flow.Walk.level, Flow.depthBefore] at hlevel ⊢
    omega
  exact ⟨⟨i, ins, _, hins, hreach, Or.inl rfl⟩, ⟨i, ins, _, hins, hreach, Or.inr rfl⟩,
    fun j hj => hreach.step hins (mem_nextOf_iff.1 hj)⟩

/-- A depth that counts: the least estimate, or the depth of a path. -/
def Counts (list : List Instruction) (k : Nat) : Prop := k = 1 ∨ k ∈ depths list

theorem Counts.max {k k' : Nat} (h : Counts list k) (h' : Counts list k') :
    Counts list (max k k') := by
  rcases Nat.le_total k k' with hle | hle
  · rwa [Nat.max_eq_right hle]
  · rwa [Nat.max_eq_left hle]

/-- What a traced walk returns is a depth that counts, cut at the limit. -/
theorem attained_deepestFrom (w : Flow.Walk) (deepest : Nat) (h : Traced list w)
    (hcounts : Counts list deepest) (hlt : deepest < depthLimit) :
    ∃ k, Counts list k ∧ (Flow.ofList list).deepestFrom w deepest = min k depthLimit := by
  fun_induction Flow.deepestFrom (Flow.ofList list) w deepest with
  | case1 deepest reached => exact ⟨deepest, hcounts, by omega⟩
  | case2 deepest reached i rest hnone ih =>
      exact ih ⟨h.reaches, fun k hk => h.reached k (by simp [hk])⟩ hcounts hlt
  | case3 deepest reached i rest place hplace before after deepest' hlimit =>
      obtain ⟨hbefore, hafter, -⟩ := h.visit hplace
      exact ⟨deepest', hcounts.max (Counts.max (Or.inr hbefore) (Or.inr hafter)), by omega⟩
  | case4 deepest reached i rest place hplace before after deepest' hlimit ih =>
      obtain ⟨hbefore, hafter, hnext⟩ := h.visit hplace
      have hrest : Traced list ⟨reached, rest⟩ :=
        ⟨h.reaches, fun k hk => h.reached k (by simp [hk])⟩
      refine ih (hrest.reachAll hnext (show after ≤ depthLimit by omega)) ?_ (by omega)
      exact hcounts.max (Counts.max (Or.inr hbefore) (Or.inr hafter))

/-- The estimate is a depth that counts, cut at the limit. -/
theorem attained_estimateDepth (list : List Instruction) :
    ∃ k, Counts list k ∧ estimateDepth list = min k depthLimit :=
  attained_deepestFrom _ 1 (traced_startWalk list) (Or.inl rfl) (by decide)

theorem one_le_estimateDepth (list : List Instruction) : 1 ≤ estimateDepth list :=
  (Flow.deepestFrom_mem _ _ 1 (by decide)).1

/-! ### The estimate -/

/-- **The walk ends, and the estimate is exact.**  After at most one visit for each depth of each
instruction the walk is over, and what it returns is the supremum of the depths of all paths, at
least one and at most the limit. -/
theorem estimateDepth_eq_iSup (list : List Instruction) :
    (∃ visits ≤ list.length * (depthLimit + 1) + 1,
      (Flow.ofList list).deepestWithin visits (Flow.ofList list).startWalk 1 =
        some (estimateDepth list)) ∧
    (estimateDepth list : ℕ∞) = min (depthLimit : ℕ∞) (max 1 (⨆ k ∈ depths list, (k : ℕ∞))) := by
  refine ⟨⟨_, Nat.le_refl _, Flow.deepestWithin_eq _ _ _ _ ?_⟩, le_antisymm ?_ ?_⟩
  · have heffort := (Flow.ofList list).effort_startWalk
    rw [Flow.size_ofList_places] at heffort
    omega
  · -- the estimate is at most a depth that counts
    obtain ⟨k, hk, heq⟩ := attained_estimateDepth list
    have hle : (estimateDepth list : ℕ∞) ≤ k := by
      exact_mod_cast heq.le.trans (Nat.min_le_left _ _)
    refine le_min (by exact_mod_cast Flow.deepest_le _) (hle.trans ?_)
    rcases hk with rfl | hk
    · exact le_max_left _ _
    · exact le_max_of_le_right (le_iSup₂_of_le k hk (le_refl _))
  · rcases Nat.lt_or_ge (estimateDepth list) depthLimit with hlt | hge
    · -- below the limit, the estimate is at least one and no path is deeper
      refine min_le_of_right_le (max_le ?_ (iSup₂_le fun k hk => ?_))
      · exact_mod_cast one_le_estimateDepth list
      · exact_mod_cast le_estimateDepth hlt hk
    · exact min_le_of_left_le (by exact_mod_cast hge)

end Paths

end StackCompiler
