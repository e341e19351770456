/-
**The reserved depth is never exceeded.**

The walk over the graph of a program returns a single number, and what it knew about the places on
the way is lost.  It is recovered here: if the walk did not run into its limit, there is a level for
every place such that every start has one, and such that whatever a place makes of its level is
found again at the places it leads to.  Such levels are called settled.  They bound the operand
stack of every frame that ever runs through a place, whichever calls are made in between.

The machine that is bounded knows no values.  A frame has a place where it goes on and a number of
cells; a call takes its arguments off the frame of the caller and starts a frame of its own, and a
return hands over one cell or none.  Conditional jumps go either way.

* `CallFrames.cells_le_estimateDepth` — **every frame of every run holds at most as many cells as
  were reserved**.
-/

import Mathlib.Logic.Relation
import StackCompiler.Proofs.Offsets

namespace StackCompiler

open Instruction (effect estimateDepth lt_length_of_offset offsets width)

namespace Flow

/-! ### Computing the walk -/

/-- **The walk with a bound on its visits.**  Nothing is returned if they do not suffice. -/
def deepestWithin (flow : Flow) : Nat → Walk → Nat → Option Nat
  | 0, _, _ => none
  | _ + 1, ⟨_, []⟩, deepest => some deepest
  | visits + 1, ⟨reached, i :: rest⟩, deepest =>
    match flow.places[i]? with
    | none => deepestWithin flow visits ⟨reached, rest⟩ deepest
    | some place =>
      let before := depthBefore ⟨reached, rest⟩ i
      let after := place.effect.apply before
      let deepest := max deepest (max before after)
      if depthLimit ≤ deepest then some depthLimit
      else deepestWithin flow visits (Walk.reachAll ⟨reached, rest⟩ place.next after) deepest

variable {flow : Flow}

theorem deepestFrom_of_within {visits deepest d : Nat} {w : Walk}
    (h : flow.deepestWithin visits w deepest = some d) : flow.deepestFrom w deepest = d := by
  fun_induction deepestWithin flow visits w deepest with
  | case1 => cases h
  | case2 => rw [deepestFrom, Option.some.inj h]
  | case3 deepest visits reached i rest hnone ih =>
      rw [deepestFrom]
      simp only [hnone]
      exact ih h
  | case4 deepest visits reached i rest place hplace before after deepest' hlimit =>
      rw [deepestFrom]
      simp only [hplace]
      exact (if_pos hlimit).trans (Option.some.inj h)
  | case5 deepest visits reached i rest place hplace before after deepest' hlimit ih =>
      rw [deepestFrom]
      simp only [hplace]
      exact (if_neg hlimit).trans (ih h)

/-- The place at an offset of a list, found by search. -/
def searchAt (list : List Instruction) : Int → List Nat
  | .ofNat n => ((offsets list).idxOf? n).toList
  | .negSucc _ => []

theorem placeAt_firstIndex (list : List Instruction) (offset : Int) :
    placeAt (firstIndex (offsets list)) offset = searchAt list offset := by
  cases offset with
  | ofNat n => exact congrArg Option.toList (firstIndex_getElem? _ n)
  | negSucc n => rfl

/-- The graph of a list, with offsets that are searched for: a hash map does not reduce. -/
def searched (list : List Instruction) : Flow where
  places := (list.zipIdx.map fun (ins, i) => ⟨ins.effect, match ins.op with
    | .ret => []
    | .jmp => searchAt list ins.target
    | .jmpz | .jmpnz => searchAt list ins.target ++ [i + 1]
    | _ => [i + 1]⟩).toArray
  starts := 0 :: list.zipIdx.flatMap fun (ins, i) => (if ins.op.isMarker then [i] else []) ++
    (if ins.op = .invoke then searchAt list ins.target else [])

/-- **The estimate is what a walk finds that ends within a number of visits.** -/
theorem estimateDepth_of_within {list : List Instruction} {d : Nat} (visits : Nat)
    (h : (searched list).deepestWithin visits (searched list).startWalk 1 = some d) :
    estimateDepth list = d := by
  have hflow : ofList list = searched list := by
    simp only [ofList, nextOf, startsOf, placeAt_firstIndex]
    rfl
  rw [estimateDepth, hflow]
  exact deepestFrom_of_within h

/-! ### What the walk knows about a place -/

namespace Walk

/-- One more than the greatest depth with which a place was reached, zero if it was not. -/
def level (w : Walk) (i : Nat) : Nat := w.reached.getD i 0

theorem level_of_lt {w : Walk} {i : Nat} (h : i < w.reached.size) : w.level i = w.reached[i] := by
  simp [level, h]

@[simp] theorem size_reach (w : Walk) (i depth : Nat) :
    (w.reach i depth).reached.size = w.reached.size := by
  unfold reach
  split
  · split <;> simp
  · rfl

/-- Noting a place raises its level if it was lower, and no other. -/
theorem level_reach (w : Walk) (i depth k : Nat) :
    (w.reach i depth).level k =
      if k = i ∧ i < w.reached.size then max (w.level k) (min depth depthLimit + 1)
      else w.level k := by
  unfold reach
  by_cases hi : i < w.reached.size
  · have hlevel : w.level i = w.reached[i] := level_of_lt hi
    by_cases hk : k = i
    · subst hk
      simp only [hi, and_self, if_true, dite_true]
      split
      · simp only [level, Array.getD_eq_getD_getElem?, Array.getElem?_set_self, Option.getD_some]
        simp only [hi, Array.getElem?_eq_getElem, Option.getD_some]
        omega
      · omega
    · simp only [hk, false_and, if_false, hi, dite_true]
      split
      · simp [level, Ne.symm hk]
      · rfl
  · simp [hi]

theorem level_le_reach (w : Walk) (i depth k : Nat) : w.level k ≤ (w.reach i depth).level k := by
  rw [level_reach]
  split <;> omega

theorem mem_work_reach {w : Walk} {k : Nat} (i depth : Nat) (h : k ∈ w.work) :
    k ∈ (w.reach i depth).work := by
  unfold reach
  split
  · split
    · exact List.mem_cons_of_mem _ h
    · exact h
  · exact h

/-- A place whose level has changed is to be visited. -/
theorem level_reach_eq_or_mem (w : Walk) (i depth k : Nat) :
    (w.reach i depth).level k = w.level k ∨ k ∈ (w.reach i depth).work := by
  by_cases hk : k = i ∧ i < w.reached.size
  · obtain ⟨rfl, hi⟩ := hk
    have hlevel := level_of_lt hi
    by_cases hlt : w.reached[k] < min depth depthLimit + 1
    · right
      simp [reach, hi, hlt]
    · left
      rw [level_reach, if_pos ⟨rfl, hi⟩]
      omega
  · left
    rw [level_reach, if_neg hk]

/-! ### Noting several places -/

theorem reachAll_cons (w : Walk) (i : Nat) (places : List Nat) (depth : Nat) :
    w.reachAll (i :: places) depth = (w.reach i depth).reachAll places depth := rfl

@[simp] theorem size_reachAll (w : Walk) (places : List Nat) (depth : Nat) :
    (w.reachAll places depth).reached.size = w.reached.size := by
  induction places generalizing w with
  | nil => rfl
  | cons i places ih => rw [reachAll_cons, ih, size_reach]

theorem level_le_reachAll (w : Walk) (places : List Nat) (depth k : Nat) :
    w.level k ≤ (w.reachAll places depth).level k := by
  induction places generalizing w with
  | nil => exact Nat.le_refl _
  | cons i places ih => exact Nat.le_trans (level_le_reach w i depth k) (ih _)

theorem mem_work_reachAll {w : Walk} {k : Nat} (places : List Nat) (depth : Nat)
    (h : k ∈ w.work) : k ∈ (w.reachAll places depth).work := by
  induction places generalizing w with
  | nil => exact h
  | cons i places ih => exact ih (mem_work_reach i depth h)

theorem level_reachAll_eq_or_mem (w : Walk) (places : List Nat) (depth k : Nat) :
    (w.reachAll places depth).level k = w.level k ∨ k ∈ (w.reachAll places depth).work := by
  induction places generalizing w with
  | nil => exact Or.inl rfl
  | cons i places ih =>
      rw [reachAll_cons]
      rcases ih (w.reach i depth) with h | h
      · rcases level_reach_eq_or_mem w i depth k with h' | h'
        · exact Or.inl (h.trans h')
        · exact Or.inr (mem_work_reachAll places depth h')
      · exact Or.inr h

/-- A place that is noted has at least the level that it is noted with. -/
theorem le_level_reachAll (w : Walk) {places : List Nat} (depth : Nat) {k : Nat} (hk : k ∈ places)
    (hlt : k < w.reached.size) : min depth depthLimit + 1 ≤ (w.reachAll places depth).level k := by
  induction places generalizing w with
  | nil => cases hk
  | cons i places ih =>
      rw [reachAll_cons]
      rcases List.mem_cons.1 hk with rfl | hk
      · refine Nat.le_trans ?_ (level_le_reachAll _ _ _ _)
        rw [level_reach, if_pos ⟨rfl, hlt⟩]
        exact Nat.le_max_right _ _
      · exact ih (w.reach i depth) hk (by simpa using hlt)

end Walk

/-! ### Settled levels -/

/-- Place `i` is accounted for: the depths before and behind it are within `bound`, and the places
that it leads to are reached with the depth behind it. -/
def Passed (flow : Flow) (level : Nat → Nat) (bound i : Nat) : Prop :=
  ∀ place d, flow.places[i]? = some place → level i = d + 1 →
    d ≤ bound ∧ place.effect.apply d ≤ bound ∧
      ∀ j ∈ place.next, j < flow.places.size → place.effect.apply d + 1 ≤ level j

/-- **Levels that account for every way through a graph**, with depths within `bound`. -/
structure Settled (flow : Flow) (level : Nat → Nat) (bound : Nat) : Prop where
  start : ∀ i ∈ flow.starts, i < flow.places.size → 1 ≤ level i
  passed : ∀ i, Passed flow level bound i

/-- While a walk goes on, every place is to be visited or accounted for. -/
structure Open (flow : Flow) (w : Walk) (bound : Nat) : Prop where
  size : w.reached.size = flow.places.size
  passed : ∀ i, i ∈ w.work ∨ Passed flow w.level bound i

/-- A visit accounts for its place and keeps the others accounted for. -/
theorem Open.visit {reached : Array Nat} {i : Nat} {rest : List Nat} {place : Place}
    {bound bound' : Nat} (h : Open flow ⟨reached, i :: rest⟩ bound)
    (hplace : flow.places[i]? = some place) (hle : bound ≤ bound')
    (hbefore : depthBefore ⟨reached, rest⟩ i ≤ bound')
    (hafter : place.effect.apply (depthBefore ⟨reached, rest⟩ i) ≤ bound')
    (hlimit : bound' < depthLimit) :
    Open flow (Walk.reachAll ⟨reached, rest⟩ place.next
      (place.effect.apply (depthBefore ⟨reached, rest⟩ i))) bound' := by
  refine ⟨by rw [Walk.size_reachAll]; exact h.size, fun k => ?_⟩
  rcases Walk.level_reachAll_eq_or_mem ⟨reached, rest⟩ place.next
    (place.effect.apply (depthBefore ⟨reached, rest⟩ i)) k with hk | hk
  · -- the level of `k` is the old one, so `k` is to be visited, accounted for, or the place itself
    rcases h.passed k with hmem | hpassed
    · rcases List.mem_cons.1 hmem with rfl | hmem
      · right
        intro place' d hplace' hd
        obtain rfl : place = place' := Option.some.inj (hplace.symm.trans hplace')
        have hdepth : depthBefore ⟨reached, rest⟩ k = d := by
          have hold : Walk.level ⟨reached, rest⟩ k = d + 1 := hk.symm.trans hd
          simp only [Walk.level] at hold
          simp [depthBefore, hold]
        rw [hdepth] at hbefore hafter ⊢
        refine ⟨hbefore, hafter, fun j hj hlt => ?_⟩
        have := Walk.le_level_reachAll ⟨reached, rest⟩ (place.effect.apply d) hj
          (by rw [← h.size] at hlt; exact hlt)
        rwa [Nat.min_eq_left (by omega)] at this
      · exact Or.inl (Walk.mem_work_reachAll _ _ hmem)
    · right
      intro place' d hplace' hd
      obtain ⟨h₁, h₂, h₃⟩ := hpassed place' d hplace' (hk.symm.trans hd)
      exact ⟨Nat.le_trans h₁ hle, Nat.le_trans h₂ hle, fun j hj hlt =>
        Nat.le_trans (h₃ j hj hlt) (Walk.level_le_reachAll ⟨reached, rest⟩ _ _ j)⟩
  · exact Or.inl hk

/-- A walk that stays below the limit ends with every place accounted for, and loses no level. -/
theorem passed_of_deepestFrom_lt (flow : Flow) (w : Walk) (deepest : Nat)
    (h : Open flow w deepest) (hlt : flow.deepestFrom w deepest < depthLimit) :
    ∃ level : Nat → Nat, (∀ i, w.level i ≤ level i) ∧
      ∀ i, Passed flow level (flow.deepestFrom w deepest) i := by
  fun_induction deepestFrom flow w deepest with
  | case1 deepest reached =>
      exact ⟨_, fun i => Nat.le_refl _, fun i => (h.passed i).resolve_left (by simp)⟩
  | case2 deepest reached i rest hnone ih =>
      refine ih ⟨h.size, fun k => ?_⟩ hlt
      rcases h.passed k with hk | hk
      · rcases List.mem_cons.1 hk with rfl | hk
        · -- a number that is no place has nothing to account for
          right
          intro place d hplace
          rw [hnone] at hplace
          cases hplace
        · exact Or.inl hk
      · exact Or.inr hk
  | case3 =>
      -- the walk was cut off at the limit
      exact absurd hlt (Nat.lt_irrefl _)
  | case4 deepest reached i rest place hplace before after deepest' hlimit ih =>
      have hopen := h.visit hplace (show deepest ≤ deepest' by omega)
        (show before ≤ deepest' by omega) (show after ≤ deepest' by omega) (by omega)
      obtain ⟨level, hle, hpassed⟩ := ih hopen hlt
      exact ⟨level, fun k => Nat.le_trans (Walk.level_le_reachAll ⟨reached, rest⟩ _ _ k) (hle k),
        hpassed⟩

theorem deepestFrom_mem (flow : Flow) (w : Walk) (deepest : Nat) (h : deepest ≤ depthLimit) :
    deepest ≤ flow.deepestFrom w deepest ∧ flow.deepestFrom w deepest ≤ depthLimit := by
  fun_induction deepestFrom flow w deepest with
  | case1 deepest reached => exact ⟨Nat.le_refl _, h⟩
  | case2 deepest reached i rest hnone ih => exact ih h
  | case3 => exact ⟨h, Nat.le_refl _⟩
  | case4 deepest reached i rest place hplace before after deepest' hlimit ih =>
      exact (ih (by omega)).imp_left (Nat.le_trans (by omega))

theorem deepest_le (flow : Flow) : flow.deepest ≤ depthLimit :=
  (deepestFrom_mem flow flow.startWalk 1 (by decide)).2

/-- **A walk that stays below its limit leaves settled levels behind.** -/
theorem settled_of_deepest_lt (h : flow.deepest < depthLimit) :
    ∃ level : Nat → Nat, Settled flow level flow.deepest := by
  have hzero : ∀ i, Walk.level ⟨Array.replicate flow.places.size 0, []⟩ i = 0 := by
    intro i
    simp only [Walk.level, Array.getD_eq_getD_getElem?, Array.getElem?_replicate]
    split <;> rfl
  have hopen : Open flow flow.startWalk 1 := by
    refine ⟨by simp [startWalk], fun i => ?_⟩
    rcases Walk.level_reachAll_eq_or_mem ⟨Array.replicate flow.places.size 0, []⟩ flow.starts 0 i
      with hi | hi
    · right
      intro place d _ hd
      have hd0 : d + 1 = 0 := hd.symm.trans (hi.trans (hzero i))
      omega
    · exact Or.inl hi
  obtain ⟨level, hle, hpassed⟩ := passed_of_deepestFrom_lt flow flow.startWalk 1 hopen h
  refine ⟨level, fun i hi hlt => ?_, hpassed⟩
  refine Nat.le_trans ?_ (hle i)
  exact Walk.le_level_reachAll ⟨Array.replicate flow.places.size 0, []⟩ 0 hi (by simpa using hlt)

/-! ### The graph of a list -/

theorem ofList_places (list : List Instruction) (i : Nat) :
    (ofList list).places[i]? = list[i]?.map fun ins =>
      ⟨ins.effect, nextOf (firstIndex (offsets list)) i ins⟩ := by
  simp only [ofList, List.getElem?_toArray, List.getElem?_map, List.getElem?_zipIdx]
  cases list[i]? <;> simp

@[simp] theorem size_ofList_places (list : List Instruction) :
    (ofList list).places.size = list.length := by
  simp [ofList]

/-- The places at an offset are led by the first instruction there. -/
theorem mem_placeAt {list : List Instruction} {n j : Nat} (h : (offsets list)[j]? = some n) :
    ∃ i ≤ j, (offsets list)[i]? = some n ∧ i ∈ placeAt (firstIndex (offsets list)) (n : Int) := by
  have hmem : n ∈ offsets list := List.mem_of_getElem? h
  obtain ⟨i, hi⟩ := Option.isSome_iff_exists.1 (List.isSome_idxOf?.2 hmem)
  obtain ⟨hlt, hget, hfirst⟩ := List.idxOf?_eq_some_iff.1 hi
  refine ⟨i, ?_, ?_, ?_⟩
  · rcases Nat.lt_or_ge j i with hji | hij
    · obtain ⟨hj, hjn⟩ := List.getElem?_eq_some_iff.1 h
      exact absurd hjn (hfirst j hji)
    · exact hij
  · rw [List.getElem?_eq_getElem hlt, hget]
  · show i ∈ (firstIndex (offsets list))[n]?.toList
    rw [firstIndex_getElem?, hi]
    simp

variable {list : List Instruction} {level : Nat → Nat} {bound : Nat}

/-- What an instruction makes of a depth within its level is within the levels behind it. -/
theorem Settled.next (h : Settled (ofList list) level bound) {i c : Nat} {ins : Instruction}
    (hins : list[i]? = some ins) (hc : c + 1 ≤ level i) :
    c ≤ bound ∧ ins.effect.apply c ≤ bound ∧
      ∀ j ∈ nextOf (firstIndex (offsets list)) i ins, j < list.length →
        ins.effect.apply c + 1 ≤ level j := by
  obtain ⟨d, hd⟩ : ∃ d, level i = d + 1 := ⟨level i - 1, by omega⟩
  have hmono : ins.effect.apply c ≤ ins.effect.apply d := by
    simp only [Effect.apply]
    omega
  obtain ⟨hbefore, hafter, hnext⟩ := h.passed i _ d (by rw [ofList_places, hins]; rfl) hd
  refine ⟨by omega, Nat.le_trans hmono hafter, fun j hj hlt => ?_⟩
  exact Nat.le_trans (Nat.succ_le_succ hmono) (hnext j hj (by simpa using hlt))

/-- All instructions at one offset have at least the level of the first of them. -/
theorem Settled.level_le_of_offset (h : Settled (ofList list) level bound) {i j n : Nat}
    (hi : (offsets list)[i]? = some n) (hj : (offsets list)[j]? = some n)
    (hij : i ≤ j) : level i ≤ level j := by
  -- what stands between them has no bytes, so it does nothing to the stack and leads on
  induction hk : j - i generalizing i with
  | zero =>
      obtain rfl : i = j := by omega
      exact Nat.le_refl _
  | succ k ih =>
      have hlen := lt_length_of_offset hi
      have hlen' := lt_length_of_offset hj
      have hins : list[i]? = some list[i] := List.getElem?_eq_getElem hlen
      obtain ⟨hw, hsucc⟩ := Instruction.noBytes_of_same_offset hi hins hj (by omega)
      refine Nat.le_trans ?_ (ih hsucc (by omega) (by omega))
      rcases Nat.eq_zero_or_pos (level i) with hzero | hpos
      · omega
      · have hstep := h.next (c := level i - 1) hins (by omega)
        have happly : list[i].effect.apply (level i - 1) = level i - 1 := by
          rw [Instruction.effect_of_noBytes hw]
          rfl
        have hnext : i + 1 ∈ nextOf (firstIndex (offsets list)) i list[i] := by
          unfold width at hw
          unfold nextOf
          cases hop : list[i].op <;> simp_all [Op.width]
        have := hstep.2.2 (i + 1) hnext (by omega)
        rw [happly] at this
        omega

end Flow

/-! ### The machine with call frames -/

namespace CallFrames

/-- A frame: the instruction with which it goes on, and the number of its cells. -/
structure Frame where
  place : Nat
  cells : Nat
deriving DecidableEq, Repr

/-- The frame that runs, and those that wait for it, the latest first. -/
structure Config where
  running : Frame
  waiting : List Frame
deriving DecidableEq, Repr

/-- An instruction stands at an offset. -/
def StandsAt (list : List Instruction) (offset : Int) (j : Nat) : Prop :=
  ∃ n : Nat, offset = n ∧ (offsets list)[j]? = some n

/-- **One step of the machine.** -/
inductive Step (list : List Instruction) : Config → Config → Prop
  /-- An instruction pops and pushes, and the next one follows; a conditional jump may do so. -/
  | next {i c : Nat} {ins : Instruction} {waiting : List Frame} :
      list[i]? = some ins → ins.op ≠ .ret → ins.op ≠ .jmp → ins.op ≠ .invoke →
      ins.effect.pops ≤ c →
      Step list ⟨⟨i, c⟩, waiting⟩ ⟨⟨i + 1, c - ins.effect.pops + ins.effect.pushes⟩, waiting⟩
  /-- A jump pops and goes to its target, in the same frame. -/
  | jump {i j c : Nat} {ins : Instruction} {waiting : List Frame} :
      list[i]? = some ins → ins.op = .jmp ∨ ins.op = .jmpz ∨ ins.op = .jmpnz →
      StandsAt list ins.target j → ins.effect.pops ≤ c →
      Step list ⟨⟨i, c⟩, waiting⟩ ⟨⟨j, c - ins.effect.pops + ins.effect.pushes⟩, waiting⟩
  /-- A call takes its arguments off the frame and starts an empty one at its target. -/
  | call {i j c : Nat} {ins : Instruction} {waiting : List Frame} :
      list[i]? = some ins → ins.op = .invoke → StandsAt list ins.target j → ins.half 1 ≤ c →
      Step list ⟨⟨i, c⟩, waiting⟩ ⟨⟨j, 0⟩, ⟨i + 1, c - ins.half 1⟩ :: waiting⟩
  /-- A return drops the frame and hands at most one cell to the one that waits. -/
  | ret {i c results : Nat} {ins : Instruction} {caller : Frame} {waiting : List Frame} :
      list[i]? = some ins → ins.op = .ret → results ≤ 1 →
      Step list ⟨⟨i, c⟩, caller :: waiting⟩ ⟨⟨caller.place, caller.cells + results⟩, waiting⟩

/-- A run starts at offset zero or at a marker, with one empty frame. -/
def Starts (list : List Instruction) (s : Config) : Prop :=
  s.waiting = [] ∧ s.running.cells = 0 ∧
    (StandsAt list 0 s.running.place ∨
      ∃ ins, list[s.running.place]? = some ins ∧ ins.op.isMarker = true)

/-! ### Frames stay within settled levels -/

variable {list : List Instruction} {level : Nat → Nat} {bound : Nat}

/-- A frame holds at most as many cells as are settled for its place. -/
def Fits (list : List Instruction) (level : Nat → Nat) (bound : Nat) (f : Frame) : Prop :=
  f.cells ≤ bound ∧ (f.place < list.length → f.cells + 1 ≤ level f.place)

/-- The running frame fits, and those that wait still do when they get a result. -/
structure Bounded (list : List Instruction) (level : Nat → Nat) (bound : Nat) (s : Config) :
    Prop where
  running : Fits list level bound s.running
  waiting : ∀ f ∈ s.waiting, Fits list level bound ⟨f.place, f.cells + 1⟩

theorem Fits.fewer {i c c' : Nat} (h : Fits list level bound ⟨i, c⟩) (hc : c' ≤ c) :
    Fits list level bound ⟨i, c'⟩ :=
  ⟨Nat.le_trans hc h.1, fun hlt => Nat.le_trans (Nat.succ_le_succ hc) (h.2 hlt)⟩

variable {ins : Instruction}

theorem lt_of_getElem? {i : Nat} (h : list[i]? = some ins) :
    i < list.length := (List.getElem?_eq_some_iff.1 h).1

/-- What an instruction makes of a frame fits wherever the instruction leads. -/
theorem Fits.next (hs : Flow.Settled (Flow.ofList list) level bound) {i j c : Nat}
    (hins : list[i]? = some ins) (h : Fits list level bound ⟨i, c⟩)
    (hj : j ∈ Flow.nextOf (firstIndex (offsets list)) i ins) :
    Fits list level bound ⟨j, ins.effect.apply c⟩ := by
  obtain ⟨-, hafter, hnext⟩ := hs.next hins (h.2 (lt_of_getElem? hins))
  exact ⟨hafter, hnext j hj⟩

/-- A frame that fits at one instruction of an offset fits at the later ones. -/
theorem Fits.of_offset (hs : Flow.Settled (Flow.ofList list) level bound) {i j c n : Nat}
    (hi : (offsets list)[i]? = some n) (hj : (offsets list)[j]? = some n)
    (hij : i ≤ j) (h : Fits list level bound ⟨i, c⟩) : Fits list level bound ⟨j, c⟩ :=
  ⟨h.1, fun _ => Nat.le_trans (h.2 (lt_length_of_offset hi))
    (hs.level_le_of_offset hi hj hij)⟩

/-- An empty frame fits wherever a graph starts. -/
theorem Fits.of_start (hs : Flow.Settled (Flow.ofList list) level bound) {i : Nat}
    (hi : i ∈ (Flow.ofList list).starts) : Fits list level bound ⟨i, 0⟩ :=
  ⟨Nat.zero_le _, fun hlt => hs.start i hi (by simpa using hlt)⟩

theorem mem_starts_of_startsOf {i j : Nat} (hins : list[i]? = some ins)
    (h : j ∈ Flow.startsOf (firstIndex (offsets list)) i ins) : j ∈ (Flow.ofList list).starts := by
  refine List.mem_cons_of_mem _ (List.mem_flatMap.2 ⟨(ins, i), ?_, h⟩)
  rw [List.mem_zipIdx_iff_getElem?]
  exact hins

/-- **A step keeps all frames within settled levels.** -/
theorem Step.bounded (hs : Flow.Settled (Flow.ofList list) level bound) {s s' : Config}
    (hstep : Step list s s') (h : Bounded list level bound s) : Bounded list level bound s' := by
  cases hstep with
  | @next i c ins waiting hins hret hjmp hcall hpops =>
      refine ⟨h.running.next hs hins ?_, h.waiting⟩
      unfold Flow.nextOf
      cases hop : ins.op <;> simp_all
  | @jump i j c ins waiting hins hop hj hpops =>
      obtain ⟨n, hn, hoff⟩ := hj
      obtain ⟨k, hkj, hk, hmem⟩ := Flow.mem_placeAt hoff
      refine ⟨(h.running.next hs hins ?_).of_offset hs hk hoff hkj, h.waiting⟩
      unfold Flow.nextOf
      rw [← hn] at hmem
      rcases hop with hop | hop | hop <;> simp [hop, hmem]
  | @call i j c ins waiting hins hop hj hargs =>
      obtain ⟨n, hn, hoff⟩ := hj
      obtain ⟨k, hkj, hk, hmem⟩ := Flow.mem_placeAt hoff
      have hstart : k ∈ (Flow.ofList list).starts := by
        refine mem_starts_of_startsOf hins ?_
        rw [← hn] at hmem
        simp [Flow.startsOf, hop, Op.isMarker, hmem]
      refine ⟨(Fits.of_start hs hstart).of_offset hs hk hoff hkj, ?_⟩
      intro f hf
      rcases List.mem_cons.1 hf with rfl | hf
      · -- the effect of a call counts one result, so the caller waits with room for it
        have heffect : ins.effect.apply c = c - ins.half 1 + 1 := by
          simp [effect, hop, Effect.apply]
        rw [← heffect]
        exact h.running.next hs hins (by simp [Flow.nextOf, hop])
      · exact h.waiting f hf
  | @ret i c results ins caller waiting hins hop hresults =>
      have hcaller := h.waiting caller (by simp)
      exact ⟨hcaller.fewer (by omega), fun f hf => h.waiting f (by simp [hf])⟩

theorem Starts.bounded (hs : Flow.Settled (Flow.ofList list) level bound) {s : Config}
    (h : Starts list s) : Bounded list level bound s := by
  obtain ⟨⟨i, c⟩, waiting⟩ := s
  obtain ⟨rfl, rfl, hplace⟩ : waiting = [] ∧ c = 0 ∧ (StandsAt list 0 i ∨
      ∃ ins, list[i]? = some ins ∧ ins.op.isMarker = true) := h
  refine ⟨?_, by simp⟩
  rcases hplace with ⟨n, hn, hoff⟩ | ⟨ins, hins, hmarker⟩
  · obtain rfl : n = 0 := by exact_mod_cast hn.symm
    have hlen := lt_length_of_offset hoff
    have hfirst : (offsets list)[0]? = some 0 := by
      rw [Instruction.offsets_getElem? (by omega)]
      rfl
    exact (Fits.of_start hs (by simp [Flow.ofList])).of_offset hs hfirst hoff (Nat.zero_le _)
  · exact Fits.of_start hs (mem_starts_of_startsOf hins (by simp [Flow.startsOf, hmarker]))

theorem bounded_of_run (hs : Flow.Settled (Flow.ofList list) level bound) {s s' : Config}
    (hstart : Starts list s) (hrun : Relation.ReflTransGen (Step list) s s') :
    Bounded list level bound s' := by
  induction hrun with
  | refl => exact hstart.bounded hs
  | tail _ hstep ih => exact hstep.bounded hs ih

/-- **Every frame of every run holds at most as many cells as were reserved**, as long as the
estimate did not run into its limit. -/
theorem cells_le_estimateDepth (list : List Instruction) (hlimit : estimateDepth list < depthLimit)
    {s s' : Config} (hstart : Starts list s) (hrun : Relation.ReflTransGen (Step list) s s') :
    ∀ f ∈ s'.running :: s'.waiting, f.cells ≤ estimateDepth list := by
  obtain ⟨level, hs⟩ := Flow.settled_of_deepest_lt hlimit
  have h := bounded_of_run hs hstart hrun
  intro f hf
  rcases List.mem_cons.1 hf with rfl | hf
  · exact h.running.1
  · exact Nat.le_trans (Nat.le_succ _) (h.waiting f hf).1

/-- Calls the function at offset 12 with one of two cells; that function starts over until its
argument is not zero. -/
def callSample : List Instruction :=
  [⟨.iconst, [3], []⟩, ⟨.dup, [], []⟩, ⟨.invoke, [12, 1], []⟩, ⟨.ret, [], []⟩, ⟨.load, [0], []⟩,
    ⟨.jmpz, [12], []⟩, ⟨.load, [0], []⟩, ⟨.ret, [], []⟩]

theorem estimateDepth_callSample : estimateDepth callSample = 2 :=
  Flow.estimateDepth_of_within 20 (by decide +kernel)

/-- Inside the call of the sample, one cell is held by the function and one by its caller. -/
theorem cells_le_estimateDepth_callSample :
    (estimateDepth callSample < depthLimit ∧ Starts callSample ⟨⟨0, 0⟩, []⟩ ∧
      Relation.ReflTransGen (Step callSample) ⟨⟨0, 0⟩, []⟩ ⟨⟨5, 1⟩, [⟨3, 1⟩]⟩) ∧
    ∀ f ∈ [(⟨5, 1⟩ : Frame), ⟨3, 1⟩], f.cells ≤ estimateDepth callSample := by
  have hlimit : estimateDepth callSample < depthLimit := by
    rw [estimateDepth_callSample]
    decide
  have hstart : Starts callSample ⟨⟨0, 0⟩, []⟩ := ⟨rfl, rfl, Or.inl ⟨0, rfl, rfl⟩⟩
  have hconst : Step callSample ⟨⟨0, 0⟩, []⟩ ⟨⟨1, 1⟩, []⟩ := by
    refine .next (show callSample[0]? = some _ from rfl) ?_ ?_ ?_ ?_ <;> decide
  have hdup : Step callSample ⟨⟨1, 1⟩, []⟩ ⟨⟨2, 2⟩, []⟩ := by
    refine .next (show callSample[1]? = some _ from rfl) ?_ ?_ ?_ ?_ <;> decide
  have hcall : Step callSample ⟨⟨2, 2⟩, []⟩ ⟨⟨4, 0⟩, [⟨3, 1⟩]⟩ :=
    .call (show callSample[2]? = some _ from rfl) rfl ⟨12, rfl, rfl⟩ (by decide)
  have hload : Step callSample ⟨⟨4, 0⟩, [⟨3, 1⟩]⟩ ⟨⟨5, 1⟩, [⟨3, 1⟩]⟩ := by
    refine .next (show callSample[4]? = some _ from rfl) ?_ ?_ ?_ ?_ <;> decide
  have hrun : Relation.ReflTransGen (Step callSample) ⟨⟨0, 0⟩, []⟩ ⟨⟨5, 1⟩, [⟨3, 1⟩]⟩ :=
    (((Relation.ReflTransGen.single hconst).tail hdup).tail hcall).tail hload
  exact ⟨⟨hlimit, hstart, hrun⟩, cells_le_estimateDepth callSample hlimit hstart hrun⟩

end CallFrames

end StackCompiler
