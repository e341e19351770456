/-
**The depth of the operand stack.**

A list of instructions is read as a graph: an instruction leads to the next one, to the target of
a jump, or to both.  Every function starts with an empty stack, and a place that several paths
reach counts with the deepest of them.  The walk keeps a list of places whose depth has grown; a
place is visited again whenever it does.  Depths are cut at a limit, which a loop that grows the
stack reaches in the end, so the walk ends.
-/

import Std.Data.HashMap
import StackCompiler.Stack.Effect

namespace StackCompiler

/-- The greatest depth that is told apart. -/
def depthLimit : Nat := 16384

/-- The index of the first instruction at every offset. -/
def firstIndex (offsets : List Nat) : Std.HashMap Nat Nat :=
  offsets.zipIdx.foldl (fun m (offset, i) => m.insertIfNew offset i) {}

/-- An instruction as a place in a graph. -/
structure Place where
  effect : Effect
  /-- The places it leads to. -/
  next : List Nat
deriving Repr

/-- The graph of a list of instructions. -/
structure Flow where
  /-- The places, in the order of the list. -/
  places : Array Place
  /-- The places where the stack is empty. -/
  starts : List Nat

namespace Flow

/-! ### The graph of a list -/

/-- The place at an offset, if an instruction starts there. -/
def placeAt (index : Std.HashMap Nat Nat) (offset : Int) : List Nat :=
  match offset with
  | .ofNat n => index[n]?.toList
  | .negSucc _ => []

/-- The places that instruction `i` leads to. -/
def nextOf (index : Std.HashMap Nat Nat) (i : Nat) (ins : Instruction) : List Nat :=
  match ins.op with
  | .ret => []
  | .jmp => placeAt index ins.target
  | .jmpz | .jmpnz => placeAt index ins.target ++ [i + 1]
  | _ => [i + 1]

/-- The places that instruction `i` makes a start: itself if it is a marker, its target if it is
a call. -/
def startsOf (index : Std.HashMap Nat Nat) (i : Nat) (ins : Instruction) : List Nat :=
  (if ins.op.isMarker then [i] else []) ++
    (if ins.op = .invoke then placeAt index ins.target else [])

/-- **The graph of a list.** -/
def ofList (list : List Instruction) : Flow :=
  let index := firstIndex (Instruction.offsets list)
  { places := (list.zipIdx.map fun (ins, i) => ⟨ins.effect, nextOf index i ins⟩).toArray
    starts := 0 :: list.zipIdx.flatMap fun (ins, i) => startsOf index i ins }

/-! ### The walk -/

/-- What is known about the places, and which of them have to be visited. -/
structure Walk where
  /-- One more than the depth before each place; zero where no path was found. -/
  reached : Array Nat
  /-- The places to visit. -/
  work : List Nat

namespace Walk

/-- Notes that a place is reached with a depth.  Nothing happens unless it is deeper than
before. -/
def reach (w : Walk) (i depth : Nat) : Walk :=
  if h : i < w.reached.size then
    if w.reached[i] < min depth depthLimit + 1 then
      { reached := w.reached.set i (min depth depthLimit + 1), work := i :: w.work }
    else w
  else w

/-- How much deeper the places can still become, all together. -/
def potential (w : Walk) : Nat :=
  w.reached.toList.foldr (fun d left => depthLimit + 1 - d + left) 0

theorem foldr_set_lt (l : List Nat) (f : Nat → Nat) (i v : Nat) (h : i < l.length)
    (hv : f v < f l[i]) :
    (l.set i v).foldr (fun d left => f d + left) 0 < l.foldr (fun d left => f d + left) 0 := by
  induction l generalizing i with
  | nil => simp at h
  | cons a l ih =>
    cases i with
    | zero => simpa using hv
    | succ i =>
      simp only [List.set_cons_succ, List.foldr_cons]
      have := ih i (by simpa using h) (by simpa using hv)
      omega

/-- Noting a place leaves the walk as it is, or makes the places deeper all together. -/
theorem potential_reach (w : Walk) (i depth : Nat) :
    w.reach i depth = w ∨ (w.reach i depth).potential < w.potential := by
  unfold reach
  split
  · rename_i h
    split
    · rename_i hlt
      right
      simp only [potential, Array.toList_set]
      refine foldr_set_lt _ (fun d => depthLimit + 1 - d) _ _ (by simpa using h) ?_
      simp only [Array.getElem_toList]
      omega
    · exact Or.inl rfl
  · exact Or.inl rfl

/-- Notes several places that are reached with the same depth. -/
def reachAll (w : Walk) (places : List Nat) (depth : Nat) : Walk :=
  places.foldl (fun w i => w.reach i depth) w

theorem potential_reachAll (w : Walk) (places : List Nat) (depth : Nat) :
    w.reachAll places depth = w ∨ (w.reachAll places depth).potential < w.potential := by
  induction places generalizing w with
  | nil => exact Or.inl rfl
  | cons i places ih =>
    show (w.reach i depth).reachAll places depth = w ∨
      ((w.reach i depth).reachAll places depth).potential < w.potential
    rcases potential_reach w i depth with h | h
    · rw [h]
      exact ih w
    · rcases ih (w.reach i depth) with h' | h'
      · rw [h']
        exact Or.inr h
      · exact Or.inr (Nat.lt_trans h' h)

end Walk

/-- The depth before a place that was reached. -/
def depthBefore (w : Walk) (i : Nat) : Nat := w.reached.getD i 0 - 1

/-- Visits the places of a walk until none is left or the limit is reached, and returns the
greatest depth met. -/
def deepestFrom (flow : Flow) (w : Walk) (deepest : Nat) : Nat :=
  match w with
  | ⟨_, []⟩ => deepest
  | ⟨reached, i :: rest⟩ =>
    match flow.places[i]? with
    | none => deepestFrom flow ⟨reached, rest⟩ deepest
    | some place =>
      let before := depthBefore ⟨reached, rest⟩ i
      let after := place.effect.apply before
      let deepest := max deepest (max before after)
      if depthLimit ≤ deepest then depthLimit
      else deepestFrom flow (Walk.reachAll ⟨reached, rest⟩ place.next after) deepest
termination_by (w.potential, w.work.length)
decreasing_by
  · exact Prod.Lex.right _ (Nat.lt_succ_self _)
  · rcases Walk.potential_reachAll ⟨reached, rest⟩ place.next
      (place.effect.apply (depthBefore ⟨reached, rest⟩ i)) with h | h
    · rw [h]
      exact Prod.Lex.right _ (Nat.lt_succ_self _)
    · exact Prod.Lex.left _ _ h

/-- The walk before its first step. -/
def startWalk (flow : Flow) : Walk :=
  Walk.reachAll { reached := Array.replicate flow.places.size 0, work := [] } flow.starts 0

/-- The greatest depth in a graph, at least one. -/
def deepest (flow : Flow) : Nat := deepestFrom flow flow.startWalk 1

end Flow

/-- **The greatest depth of the operand stack** in a list of instructions, at least one. -/
def Instruction.estimateDepth (list : List Instruction) : Nat := (Flow.ofList list).deepest

end StackCompiler
