/-
**What one more visibility marker does to the functions of a program.**

What a walk places is said without it first: before every instruction stand the markers of the
symbols at its address.  A symbol that is added to a table becomes a visibility marker there, and
nothing else changes.  A marker starts a function, so an offset can leave the entry function; it
does if a marker comes to stand behind the start of that function and not behind the offset.  Where
instructions start and where the program starts stays the same.

* `Symbol.foldl_pass` — **what a walk places**;
* `Lowering.Functions.inEntry_iff` — **which offsets belong to the entry function**;
* `Lowering.Functions.of_marked` — **what more markers do to its functions**.
-/

import StackCompiler.Proofs.LoweredLines
import StackCompiler.Symbol.Placement

namespace StackCompiler

open Lowering
open Instruction (offsets)

/-! ### Where functions start -/

/-- Repetitions are left out, and nothing else is. -/
theorem eraseReps_loop (a : Nat) (as acc : List Nat) :
    let kept := List.eraseRepsBy.loop (· == ·) a as acc
    kept.Sublist (acc.reverse ++ a :: as) ∧ ∀ x ∈ acc.reverse ++ a :: as, x ∈ kept := by
  induction as generalizing a acc with
  | nil => simp [List.eraseRepsBy.loop]
  | cons b as ih =>
      rw [List.eraseRepsBy.loop]
      split
      · next heq =>
        obtain rfl : a = b := beq_iff_eq.1 heq
        obtain ⟨hsub, hmem⟩ := ih a acc
        refine ⟨hsub.trans ?_, fun x hx => hmem x (by simpa using hx)⟩
        exact List.Sublist.append_left (List.sublist_cons_self a (a :: as)) _
      · simpa using ih b (a :: acc)

theorem eraseReps_sublist (l : List Nat) : l.eraseReps.Sublist l ∧ ∀ x ∈ l, x ∈ l.eraseReps := by
  cases l with
  | nil => exact ⟨List.Sublist.refl [], List.forall_mem_nil _⟩
  | cons a as => exact eraseReps_loop a as []

/-- In a sorted list, what is left without repetitions grows strictly. -/
theorem pairwise_eraseReps_loop {a : Nat} {as acc : List Nat}
    (hacc : (acc.reverse ++ [a]).Pairwise (· < ·)) (has : (a :: as).Pairwise (· ≤ ·)) :
    (List.eraseRepsBy.loop (· == ·) a as acc).Pairwise (· < ·) := by
  induction as generalizing a acc with
  | nil => simpa [List.eraseRepsBy.loop] using hacc
  | cons b as ih =>
      obtain ⟨hle, hb⟩ := List.pairwise_cons.1 has
      rw [List.eraseRepsBy.loop]
      split
      · exact ih hacc (List.pairwise_cons.2
          ⟨fun x hx => hle x (List.mem_cons_of_mem b hx), (List.pairwise_cons.1 hb).2⟩)
      · next hne =>
        refine ih ?_ hb
        rw [List.reverse_cons]
        refine List.pairwise_append.2 ⟨hacc, List.pairwise_singleton _ _, fun x hx y hy => ?_⟩
        obtain rfl := List.mem_singleton.1 hy
        have hlt : a < y := by
          have := hle y List.mem_cons_self
          have : a ≠ y := fun heq => by simp [heq] at hne
          omega
        rcases List.mem_append.1 hx with hx | hx
        · exact Nat.lt_trans ((List.pairwise_append.1 hacc).2.2 x hx a List.mem_cons_self) hlt
        · rwa [List.mem_singleton.1 hx]

theorem pairwise_eraseReps {l : List Nat} (h : l.Pairwise (· ≤ ·)) :
    l.eraseReps.Pairwise (· < ·) := by
  cases l with
  | nil => exact List.Pairwise.nil
  | cons a as => exact pairwise_eraseReps_loop (List.pairwise_singleton _ a) h

namespace Lowering.Functions

section Starts

variable {located : List (Instruction × Nat)} {list : List Instruction} {implicitEntry : Bool}
  {fs : Functions}

theorem mem_startsIn {n : Nat} :
    n ∈ startsIn located ↔ n = 0 ∨ ∃ x ∈ located, n ∈ startsOf x.1 x.2 := by
  obtain ⟨hsub, hmem⟩ := eraseReps_sublist
    (0 :: located.flatMap fun x => startsOf x.1 x.2).mergeSort
  rw [startsIn, ← List.mem_flatMap, ← List.mem_cons]
  exact ⟨fun h => List.mem_mergeSort.1 (hsub.subset h), fun h => hmem n (List.mem_mergeSort.2 h)⟩

/-- Starts grow strictly: no two functions start at the same offset. -/
theorem pairwise_startsIn : (startsIn located).Pairwise (· < ·) := by
  refine pairwise_eraseReps ((List.pairwise_mergeSort ?_ ?_ _).imp fun h => ?_)
  · intro a b c hab hbc
    exact decide_eq_true (Nat.le_trans (of_decide_eq_true hab) (of_decide_eq_true hbc))
  · intro a b
    simpa using Nat.le_total a b
  · exact of_decide_eq_true h

theorem functions_of_ofList (h : ofList list implicitEntry = .ok fs) :
    fs.functions.map Function.start = startsIn (list.zip (offsets list)) ∧
      (∀ f ∈ fs.functions, f.isEntry = (f.start == fs.entry)) ∧
      fs.entry ∈ startsIn (list.zip (offsets list)) := by
  obtain ⟨-, hentry, hfunctions, -⟩ := ofList_ok h
  rw [hfunctions]
  refine ⟨?_, ?_, ?_⟩
  · -- there are as many stops as starts
    rw [List.map_map]
    refine List.map_fst_zip ?_
    rw [List.length_append, List.length_tail, List.length_singleton]
    omega
  · intro f hf
    obtain ⟨x, -, rfl⟩ := List.mem_map.1 hf
    rfl
  · rcases Option.or_eq_some_iff.1 hentry with hmarker | ⟨-, himplicit⟩
    · obtain ⟨x, hx, hoffset⟩ := Option.map_eq_some_iff.1 hmarker
      have hop : x.1.op = .entry := by simpa using List.find?_some hx
      rw [← hoffset]
      refine mem_startsIn.2 (Or.inr ⟨x, List.mem_of_find?_eq_some hx, ?_⟩)
      rw [startsOf, hop]
      exact List.mem_singleton.2 rfl
    · split at himplicit
      · exact mem_startsIn.2 (Or.inl (Option.some.inj himplicit).symm)
      · cases himplicit

/-- The owner of an offset is the function with the last start up to there. -/
theorem owner_cases {functions : List Function} (o : Nat)
    (hsorted : functions.Pairwise fun f g => f.start ≤ g.start) (found : Option Function) :
    let owner := functions.foldl (fun found f => if f.start ≤ o then some f else found) found
    (owner = found ∧ ∀ f ∈ functions, o < f.start) ∨
      ∃ f ∈ functions, owner = some f ∧ f.start ≤ o ∧
        ∀ g ∈ functions, g.start ≤ o → g.start ≤ f.start := by
  induction functions generalizing found with
  | nil => exact Or.inl ⟨rfl, List.forall_mem_nil _⟩
  | cons f functions ih =>
      obtain ⟨hf, hsorted⟩ := List.pairwise_cons.1 hsorted
      rw [List.foldl_cons]
      rcases ih hsorted (if f.start ≤ o then some f else found) with ⟨howner, hlater⟩ | ⟨g, hg, h⟩
      · rw [howner]
        by_cases hstart : f.start ≤ o
        · refine Or.inr ⟨f, List.mem_cons_self, if_pos hstart, hstart, ?_⟩
          intro g hg hle
          rcases List.mem_cons.1 hg with rfl | hg
          · exact Nat.le_refl _
          · exact absurd (hlater g hg) (Nat.not_lt.2 hle)
        · exact Or.inl ⟨if_neg hstart, List.forall_mem_cons.2 ⟨Nat.not_le.1 hstart, hlater⟩⟩
      · obtain ⟨howner, hle, hlast⟩ := h
        exact Or.inr ⟨g, List.mem_cons_of_mem f hg, howner, hle,
          List.forall_mem_cons.2 ⟨fun _ => hf g hg, hlast⟩⟩

/-- **An offset belongs to the entry function** if no other function starts between the start of
that one and the offset. -/
theorem inEntry_iff (h : ofList list implicitEntry = .ok fs) {o : Nat} :
    fs.inEntry o = true ↔ fs.entry ≤ o ∧
      ∀ n ∈ startsIn (list.zip (offsets list)), n ≤ o → n ≤ fs.entry := by
  obtain ⟨hstarts, hentry, hmem⟩ := functions_of_ofList h
  have hsorted : fs.functions.Pairwise fun f g => f.start ≤ g.start := by
    rw [← List.pairwise_map, hstarts]
    exact pairwise_startsIn.imp Nat.le_of_lt
  rw [← hstarts] at hmem ⊢
  obtain ⟨e, he, hestart⟩ := List.mem_map.1 hmem
  rw [inEntry, owner?]
  rcases owner_cases o hsorted none with ⟨howner, hlater⟩ | ⟨f, hf, howner, hle, hlast⟩
  · rw [howner]
    have := hlater e he
    constructor
    · intro hnone
      cases hnone
    · rintro ⟨hle, -⟩
      omega
  · rw [howner, Option.any_some, hentry f hf, beq_iff_eq]
    constructor
    · intro heq
      rw [← heq]
      refine ⟨hle, fun n hn hno => ?_⟩
      obtain ⟨g, hg, rfl⟩ := List.mem_map.1 hn
      exact hlast g hg hno
    · rintro ⟨hleo, hall⟩
      have := hall f.start (List.mem_map_of_mem hf) hle
      have := hlast e he (by omega)
      omega

end Starts

end Lowering.Functions

/-! ### Instructions with more markers -/

/-- Instructions with their offsets, and the same ones with some more visibility markers, at offsets
with a property. -/
inductive Marked (M : Nat → Prop) :
    List (Instruction × Nat) → List (Instruction × Nat) → Prop where
  | nil : Marked M [] []
  | keep {xs ys : List (Instruction × Nat)} (x : Instruction × Nat) (h : Marked M xs ys) :
      Marked M (x :: xs) (x :: ys)
  | mark {xs ys : List (Instruction × Nat)} {m : Instruction × Nat} (hop : m.1.op = .global)
      (hm : M m.2) (h : Marked M xs ys) : Marked M xs (m :: ys)

namespace Marked

variable {M : Nat → Prop} {xs ys xs' ys' : List (Instruction × Nat)}

theorem refl (xs : List (Instruction × Nat)) : Marked M xs xs := by
  induction xs with
  | nil => exact nil
  | cons x xs ih => exact ih.keep x

section

variable (h : Marked M xs ys)

include h

theorem append (h' : Marked M xs' ys') : Marked M (xs ++ xs') (ys ++ ys') := by
  induction h with
  | nil => exact h'
  | keep x _ ih => exact ih.keep x
  | mark hop hm _ ih => exact ih.mark hop hm

theorem subset : xs ⊆ ys := by
  induction h with
  | nil => exact List.Subset.refl []
  | keep x _ ih => exact List.cons_subset_cons x ih
  | mark hop hm _ ih => exact List.subset_cons_of_subset _ ih

theorem mem_cases {x : Instruction × Nat} (hx : x ∈ ys) : x ∈ xs ∨ x.1.op = .global ∧ M x.2 := by
  induction h with
  | nil => cases hx
  | keep y _ ih =>
      rcases List.mem_cons.1 hx with rfl | hx
      · exact Or.inl List.mem_cons_self
      · exact (ih hx).imp_left (List.mem_cons_of_mem y)
  | mark hop hm _ ih =>
      rcases List.mem_cons.1 hx with rfl | hx
      · exact Or.inr ⟨hop, hm⟩
      · exact ih hx

/-- What passes over visibility markers sees no difference. -/
theorem filterMap {α : Type} {f : Instruction × Nat → Option α}
    (hf : ∀ x, x.1.op = .global → f x = none) : ys.filterMap f = xs.filterMap f := by
  induction h with
  | nil => rfl
  | keep x _ ih => rw [List.filterMap_cons, List.filterMap_cons, ih]
  | mark hop _ _ ih => rw [List.filterMap_cons, hf _ hop, ih]

theorem findSome? {α : Type} {f : Instruction × Nat → Option α}
    (hf : ∀ x, x.1.op = .global → f x = none) : ys.findSome? f = xs.findSome? f := by
  rw [← List.head?_filterMap, ← List.head?_filterMap, h.filterMap hf]

variable {f : Instruction × Nat → Bool}

theorem filter (hf : ∀ x, x.1.op = .global → f x = false) : ys.filter f = xs.filter f := by
  rw [← List.filterMap_eq_filter]
  exact h.filterMap fun x hop => by simp [hf x hop]

theorem find? (hf : ∀ x, x.1.op = .global → f x = false) : ys.find? f = xs.find? f := by
  rw [← List.head?_filter, ← List.head?_filter, h.filter hf]

theorem any (hf : ∀ x, x.1.op = .global → f x = false) : ys.any f = xs.any f := by
  rw [Bool.eq_iff_iff, List.any_eq_true, List.any_eq_true, ← List.find?_isSome,
    ← List.find?_isSome, h.find? hf]

end

end Marked

/-! ### One more symbol -/

theorem Instruction.zip_offsetsFrom_append (n : Nat) (xs ys : List Instruction) :
    (xs ++ ys).zip (offsetsFrom n (xs ++ ys)) =
      xs.zip (offsetsFrom n xs) ++ ys.zip (offsetsFrom (n + totalSize xs) ys) := by
  rw [offsetsFrom_append, List.zip_append (by simp)]

namespace Symbol

/-- The marker of a symbol, if it has one. -/
def marker? (entryNames : List Text) (s : Symbol) : Option Instruction :=
  if entryNames.contains s.name then some { op := .entry, symbol := s.name }
  else if s.binding = globalBinding then some { op := .global, symbol := s.name }
  else none

/-- A symbol has an address, and it is this one. -/
def isAt (address : UInt32) (s : Symbol) : Bool := s.defined && s.address == address

/-- The markers before an instruction at an address, in the order of the table. -/
def markersAt (symbols : List Symbol) (entryNames : List Text) (address : UInt32) :
    List Instruction :=
  (symbols.filter (isAt address)).filterMap (marker? entryNames)

/-- The addresses of instructions: their offsets, cut to 32 bits. -/
def addresses (list : List Instruction) : List UInt32 :=
  (Instruction.offsets list).map Nat.toUInt32

variable {list : List Instruction} {symbols : List Symbol} {entryNames : List Text}
  {ins : Instruction} {a : UInt32}

theorem symbol_of_mem_markersAt (h : ins ∈ markersAt symbols entryNames a) :
    ins.op.isMarker = true ∧ ∃ symbol ∈ symbols, ins.symbol = symbol.name := by
  obtain ⟨symbol, hsymbol, hmarker⟩ := List.mem_filterMap.1 h
  unfold marker? at hmarker
  split at hmarker
  · obtain rfl := Option.some.inj hmarker
    exact ⟨rfl, symbol, List.mem_of_mem_filter hsymbol, rfl⟩
  · split at hmarker
    · obtain rfl := Option.some.inj hmarker
      exact ⟨rfl, symbol, List.mem_of_mem_filter hsymbol, rfl⟩
    · cases hmarker

theorem isMarker_of_mem_markersAt (h : ins ∈ markersAt symbols entryNames a) :
    ins.op.isMarker = true := (symbol_of_mem_markersAt h).1

theorem totalSize_markersAt : Instruction.totalSize (markersAt symbols entryNames a) = 0 := by
  have hnone : ∀ {markers : List Instruction}, (∀ ins ∈ markers, ins.op.isMarker = true) →
      Instruction.totalSize markers = 0 := by
    intro markers h
    induction markers with
    | nil => rfl
    | cons ins markers ih =>
        obtain ⟨hins, h⟩ := List.forall_mem_cons.1 h
        rw [Instruction.totalSize_cons, ih h, Instruction.width_of_isMarker hins]
  exact hnone fun ins => isMarker_of_mem_markersAt

theorem markersAt_append (symbols symbols' : List Symbol) :
    markersAt (symbols ++ symbols') entryNames a =
      markersAt symbols entryNames a ++ markersAt symbols' entryNames a := by
  simp [markersAt]

variable {g : Symbol}

/-- What a symbol that is no entry contributes: a visibility marker at its address, or nothing. -/
theorem markersAt_singleton (hname : entryNames.contains g.name = false) :
    markersAt [g] entryNames a = [] ∨
      a = g.address ∧ markersAt [g] entryNames a = [{ op := .global, symbol := g.name }] := by
  by_cases hat : isAt a g
  · have haddress : g.address = a := by
      rw [isAt, Bool.and_eq_true, beq_iff_eq] at hat
      exact hat.2
    have hmarkers : markersAt [g] entryNames a = (marker? entryNames g).toList := by
      rw [markersAt, List.filter_cons_of_pos hat, List.filter_nil, List.filterMap_cons,
        List.filterMap_nil]
      cases marker? entryNames g <;> rfl
    rw [hmarkers, marker?, hname, if_neg Bool.false_ne_true]
    split
    · exact Or.inr ⟨haddress.symm, rfl⟩
    · exact Or.inl rfl
  · exact Or.inl (by simp [markersAt, hat])

/-- The instructions of a list that starts at an offset, with the markers of symbols. -/
def placedFrom (symbols : List Symbol) (entryNames : List Text) :
    Nat → List Instruction → List Instruction
  | _, [] => []
  | n, ins :: list => markersAt symbols entryNames n.toUInt32 ++
      ins :: placedFrom symbols entryNames (n + ins.width) list

theorem lookup_cons (x : UInt32 × List Symbol) (index : Index) (a : UInt32) :
    List.lookup a (x :: index) = if a = x.1 then some x.2 else index.lookup a := by
  obtain ⟨b, list⟩ := x
  rw [List.lookup_cons]
  by_cases h : a = b
  · simp [h]
  · rw [beq_false_of_ne h, if_neg h]

theorem lookup_add (index : Index) (s : Symbol) (a : UInt32) :
    (index.add s).lookup a =
      if a = s.address then some ((index.lookup a).getD [] ++ [s]) else index.lookup a := by
  induction index with
  | nil => exact lookup_cons _ _ _
  | cons x index ih =>
      rw [Index.add]
      by_cases hx : x.1 = s.address
      · by_cases ha : a = s.address <;> simp [lookup_cons, hx, ha]
      · by_cases ha : a = x.1
        · simp [lookup_cons, ha, hx]
        · simp [lookup_cons, hx, ha, ih]

theorem lookup_foldl_add (symbols : List Symbol) (index : Index) (a : UInt32) :
    (symbols.foldl Index.add index).lookup a =
      if symbols.any (·.address == a) then
        some ((index.lookup a).getD [] ++ symbols.filter (·.address == a))
      else index.lookup a := by
  induction symbols generalizing index with
  | nil => rfl
  | cons s symbols ih =>
      rw [List.foldl_cons, ih, lookup_add]
      by_cases hs : a = s.address
      · simp [hs]
      · simp [hs, beq_false_of_ne (Ne.symm hs)]

/-- Under an address, the index has the defined symbols of that address. -/
theorem lookup_index (symbols : List Symbol) (a : UInt32) :
    (index symbols).lookup a =
      if symbols.any (isAt a) then some (symbols.filter (isAt a)) else none := by
  rw [index, lookup_foldl_add, List.any_filter, List.filter_filter]
  simp only [Bool.and_comm]
  rfl

theorem foldl_mark (entryNames : List Text) (symbols : List Symbol) (w : Walk) :
    symbols.foldl (Walk.mark entryNames) w =
      let markers := symbols.filterMap (marker? entryNames)
      { w with
        output := w.output ++ markers.toArray
        entry := w.entry.or
          (if markers.any (·.op == .entry) then some w.address.toNat else none) } := by
  induction symbols generalizing w with
  | nil => simp
  | cons s symbols ih =>
      rw [List.foldl_cons, ih, List.filterMap_cons]
      unfold Walk.mark marker?
      split
      · simp
      · split <;> simp

/-- **What the walk does at an instruction.** -/
theorem pass_eq (symbols : List Symbol) (entryNames : List Text) (w : Walk) (ins : Instruction) :
    w.pass (index symbols) entryNames ins =
      let markers := markersAt symbols entryNames w.address
      { output := w.output ++ (markers ++ [ins]).toArray
        used := if symbols.any (isAt w.address) then w.address :: w.used else w.used
        entry := w.entry.or
          (if markers.any (·.op == .entry) then some w.address.toNat else none)
        address := w.address + ins.width.toUInt32 } := by
  unfold Walk.pass
  rw [lookup_index]
  by_cases hany : symbols.any (isAt w.address)
  · simp only [hany, if_true, foldl_mark, markersAt]
    simp
  · have hnone : symbols.filter (isAt w.address) = [] := by simpa using hany
    simp [hany, markersAt, hnone]

/-- **What a walk does from an offset on.** -/
theorem foldl_pass (symbols : List Symbol) (entryNames : List Text) (list : List Instruction)
    (n : Nat) {w : Walk} (hw : w.address = n.toUInt32) :
    let w' := list.foldl (Walk.pass (index symbols) entryNames) w
    let starts := (Instruction.offsetsFrom n list).map Nat.toUInt32
    w'.output.toList = w.output.toList ++ placedFrom symbols entryNames n list ∧
    w'.entry = w.entry.or ((starts.find? fun a =>
      (markersAt symbols entryNames a).any (·.op == .entry)).map (·.toNat)) ∧
    ∀ s ∈ symbols, s.defined = true →
      (s.address ∈ w'.used ↔ s.address ∈ w.used ∨ s.address ∈ starts) := by
  induction list generalizing n w with
  | nil => simp [placedFrom, Instruction.offsetsFrom]
  | cons ins list ih =>
      intro w' starts
      have hnext : (w.pass (index symbols) entryNames ins).address =
          (n + ins.width).toUInt32 := by
        rw [pass_eq, hw]
        exact (UInt32.ofNat_add n ins.width).symm
      obtain ⟨houtput, hentry, hused⟩ := ih (n + ins.width) hnext
      refine ⟨?_, ?_, fun s hs hdefined => ?_⟩
      · refine houtput.trans ?_
        simp [pass_eq, hw, placedFrom]
      · refine hentry.trans ?_
        simp only [pass_eq, hw, starts, Instruction.offsetsFrom, List.map_cons, List.find?_cons,
          Option.or_assoc]
        cases (markersAt symbols entryNames n.toUInt32).any (·.op == .entry) <;> rfl
      · refine (hused s hs hdefined).trans ?_
        have hmet : s.address ∈ (w.pass (index symbols) entryNames ins).used ↔
            s.address = n.toUInt32 ∨ s.address ∈ w.used := by
          rw [pass_eq, hw]
          by_cases ha : s.address = n.toUInt32
          · have hany : symbols.any (isAt n.toUInt32) = true :=
              List.any_eq_true.2 ⟨s, hs, by simp [isAt, hdefined, ha]⟩
            simp [hany, ha]
          · simp only [ha, false_or]
            split <;> simp [ha]
        simp only [hmet, starts, Instruction.offsetsFrom, List.map_cons, List.mem_cons]
        tauto

theorem place_eq (list : List Instruction) (symbols : List Symbol) (entryNames : List Text) :
    (place list symbols entryNames).instructions = placedFrom symbols entryNames 0 list :=
  (foldl_pass symbols entryNames list 0 rfl).1

theorem entry_eq (list : List Instruction) (symbols : List Symbol) (entryNames : List Text) :
    (place list symbols entryNames).entry = ((addresses list).find? fun a =>
      (markersAt symbols entryNames a).any (·.op == .entry)).map (·.toNat) :=
  (foldl_pass symbols entryNames list 0 rfl).2.1

theorem dropped_eq (list : List Instruction) (symbols : List Symbol) (entryNames : List Text) :
    (place list symbols entryNames).dropped =
      symbols.filter fun s => s.defined && !(addresses list).contains s.address := by
  refine List.filter_congr fun s hs => ?_
  cases hdefined : s.defined with
  | false => rfl
  | true =>
      have hused := (foldl_pass symbols entryNames list 0 (w := {}) rfl).2.2 s hs hdefined
      rw [Bool.eq_iff_iff]
      simpa [addresses, offsets] using not_congr hused

/-- The symbols of a program become markers between its instructions. -/
theorem symbol_of_mem_place (h : ins ∈ (place list symbols entryNames).instructions) :
    (ins.op.isMarker = true ∧ ∃ symbol ∈ symbols, ins.symbol = symbol.name) ∨ ins ∈ list := by
  rw [place_eq] at h
  generalize 0 = n at h
  induction list generalizing n with
  | nil => cases h
  | cons ins' list ih =>
      rcases List.mem_append.1 h with h | h
      · exact Or.inl (symbol_of_mem_markersAt h)
      · rcases List.mem_cons.1 h with rfl | h
        · exact Or.inr List.mem_cons_self
        · exact (ih _ h).imp_right (List.mem_cons_of_mem ins')

theorem mem_place (h : ins ∈ (place list symbols entryNames).instructions) :
    ins.op.isMarker = true ∨ ins ∈ list := (symbol_of_mem_place h).imp_left And.left

/-- One more symbol adds visibility markers at its address, from an offset on. -/
theorem marked_placedFrom {list : List Instruction} (before after : List Symbol)
    (hname : entryNames.contains g.name = false) {M : Nat → Prop} (n : Nat)
    (hM : ∀ k ∈ Instruction.offsetsFrom n list, k.toUInt32 = g.address → M k) :
    let placed := placedFrom (before ++ after) entryNames n list
    let placed' := placedFrom (before ++ g :: after) entryNames n list
    Marked M (placed.zip (Instruction.offsetsFrom n placed))
      (placed'.zip (Instruction.offsetsFrom n placed')) := by
  induction list generalizing n with
  | nil => exact Marked.nil
  | cons ins list ih =>
      obtain ⟨hhere, hM⟩ := List.forall_mem_cons.1 hM
      have hrest := (ih (n + ins.width) hM).keep (ins, n)
      simp only [placedFrom, markersAt_append, List.append_cons before g after, List.append_assoc,
        Instruction.zip_offsetsFrom_append, totalSize_markersAt, Nat.add_zero,
        Instruction.offsetsFrom, List.zip_cons_cons]
      refine (Marked.refl _).append ?_
      rcases markersAt_singleton (a := n.toUInt32) hname with hnone | ⟨haddress, hsome⟩
      · rw [hnone]
        exact (Marked.refl _).append hrest
      · rw [hsome]
        exact ((Marked.refl _).append hrest).mark rfl (hhere haddress)

/-- **One more symbol adds visibility markers at its address.** -/
theorem marked_place (list : List Instruction) (before after : List Symbol)
    (hname : entryNames.contains g.name = false) :
    let placed := (place list (before ++ after) entryNames).instructions
    let placed' := (place list (before ++ g :: after) entryNames).instructions
    Marked (fun n => n ∈ offsets list ∧ n.toUInt32 = g.address)
      (placed.zip (offsets placed)) (placed'.zip (offsets placed')) := by
  rw [place_eq, place_eq]
  exact marked_placedFrom before after hname 0 fun k hk ha => ⟨hk, ha⟩

end Symbol

/-! ### The functions of a program with more markers -/

namespace Lowering.Functions

/-- A start at an offset would cut a return off from the entry function: it comes to stand behind
the start of that function and at or before the return. -/
def Cuts (fs : Functions) (list : List Instruction) (n : Nat) : Prop :=
  fs.entry < n ∧ ∃ x ∈ list.zip (offsets list), x.1.op = .ret ∧ fs.inEntry x.2 = true ∧ n ≤ x.2

/-- **What more markers do to the functions of a list.** -/
theorem of_marked {list list' : List Instruction} {M : Nat → Prop} {implicitEntry : Bool}
    {fs : Functions} (h : Marked M (list.zip (offsets list)) (list'.zip (offsets list')))
    (hfs : ofList list implicitEntry = .ok fs) :
    ∃ fs', ofList list' implicitEntry = .ok fs' ∧ fs'.entry = fs.entry ∧
      (∀ target, fs'.startsAt target = fs.startsAt target) ∧
      ∀ o, (∀ n, M n → fs.inEntry o = true → n ≤ fs.entry ∨ o < n) →
        fs'.inEntry o = fs.inEntry o := by
  have hcontains : ∀ n, (boundariesOf (list'.zip (offsets list'))).contains n =
      (boundariesOf (list.zip (offsets list))).contains n := by
    intro n
    rw [contains_boundariesOf, contains_boundariesOf]
    exact h.any fun x hop => by simp [hop, Op.isMarker]
  have hboundary : ∀ target, isBoundary (boundariesOf (list'.zip (offsets list')))
      target = isBoundary (boundariesOf (list.zip (offsets list))) target := by
    intro target
    cases target with
    | ofNat n => exact hcontains n
    | negSucc n => rfl
  have hcalls : badCall? (boundariesOf (list'.zip (offsets list')))
      (list'.zip (offsets list')) = badCall? (boundariesOf (list.zip (offsets list)))
          (list.zip (offsets list)) := by
    simp only [badCall?, hboundary]
    exact h.findSome? fun x hop => by simp [hop]
  have hmarker : entryMarker? (list'.zip (offsets list')) =
      entryMarker? (list.zip (offsets list)) := by
    rw [entryMarker?, entryMarker?, h.find? fun x hop => by simp [hop]]
  obtain ⟨fs', hfs', hentry⟩ : ∃ fs', ofList list' implicitEntry = .ok fs' ∧
      fs'.entry = fs.entry := by
    unfold ofList at hfs ⊢
    simp only [hcalls, hmarker] at hfs ⊢
    split at hfs
    · cases hfs
    split at hfs
    · cases hfs
    obtain rfl := Except.ok.inj hfs
    exact ⟨_, rfl, rfl⟩
  refine ⟨fs', hfs', hentry, ?_, ?_⟩
  · intro target
    rw [startsAt, startsAt, boundaries_of_ofList hfs', boundaries_of_ofList hfs, hboundary]
  · intro o hcut
    rw [Bool.eq_iff_iff, inEntry_iff hfs', hentry]
    constructor
    · rintro ⟨hle, hall⟩
      refine (inEntry_iff hfs).2 ⟨hle, fun n hn => hall n ?_⟩
      -- every start is still one
      refine mem_startsIn.2 ((mem_startsIn.1 hn).imp_right ?_)
      rintro ⟨x, hx, hstart⟩
      exact ⟨x, h.subset hx, hstart⟩
    · intro hin
      obtain ⟨hle, hall⟩ := (inEntry_iff hfs).1 hin
      refine ⟨hle, fun n hn hno => ?_⟩
      rcases mem_startsIn.1 hn with rfl | ⟨x, hx, hstart⟩
      · exact Nat.zero_le _
      · rcases h.mem_cases hx with hx | ⟨hop, hm⟩
        · exact hall n (mem_startsIn.2 (Or.inr ⟨x, hx, hstart⟩)) hno
        · -- a new start
          rw [startsOf, hop] at hstart
          obtain rfl := List.mem_singleton.1 hstart
          rcases hcut _ hm hin with hbefore | hbehind
          · exact hbefore
          · omega

end Lowering.Functions

end StackCompiler
