/-
**The functions of a program divide it.**

The starts of functions are collected without order, sorted, and made into ranges of offsets and of
indices.  Several instructions can share an offset, because markers and operations that nobody knows
have no bytes, and some of them can stand behind the last byte.  Still nothing is lost and nothing
belongs to two functions: the ranges of offsets and the ranges of indices are laid end to end, and
an instruction with bytes is in the range of indices of the function that its offset belongs to.

* `Lowering.Functions.EndToEnd.owner` — **an offset belongs to exactly one function**;
* `Lowering.Functions.divides_of_ofList` — **the functions of a program divide it**.
-/

import Mathlib.Data.List.Chain
import Mathlib.Data.List.Nodup
import StackCompiler.Proofs.BackendAgreement

namespace StackCompiler.Lowering.Functions

open Instruction (offsets totalSize)

/-! ### Functions laid end to end -/

/-- Functions laid end to end.  The first starts at an offset and at an index, each of the others
where the one before it ends, and the last one ends at `stop`.  Only the last one can be empty. -/
inductive EndToEnd (stop : Nat) : Nat → Nat → List Function → Prop where
  | last {f : Function} (hle : f.start ≤ f.stop) (hstop : f.stop = stop) :
      EndToEnd stop f.start f.first [f]
  | cons {f : Function} {functions : List Function} (hlt : f.start < f.stop)
      (hrest : EndToEnd stop f.stop f.last functions) :
      EndToEnd stop f.start f.first (f :: functions)

theorem endToEnd_between (offsets : List Nat) (entry : Nat) {start stop : Nat} {starts : List Nat}
    (hsorted : (start :: starts).Pairwise (· < ·)) (hstop : ∀ n ∈ start :: starts, n ≤ stop) :
    EndToEnd stop start (offsets.findIdx (start ≤ ·))
      (((start :: starts).zip (starts ++ [stop])).map fun r => between offsets entry r.1 r.2) := by
  induction starts generalizing start with
  | nil => exact .last (f := between offsets entry start stop) (hstop start List.mem_cons_self) rfl
  | cons next starts ih =>
      obtain ⟨hlt, hsorted⟩ := List.pairwise_cons.1 hsorted
      obtain ⟨-, hstop⟩ := List.forall_mem_cons.1 hstop
      exact .cons (f := between offsets entry start next) (hlt next List.mem_cons_self)
        (ih hsorted hstop)

namespace EndToEnd

variable {start first stop : Nat} {functions : List Function} {f g : Function}

section

variable (h : EndToEnd stop start first functions)

include h

theorem head : ∃ f, functions.head? = some f ∧ f.start = start ∧ f.first = first := by
  cases h with
  | last => exact ⟨_, rfl, rfl, rfl⟩
  | cons => exact ⟨_, rfl, rfl, rfl⟩

theorem getLast : ∃ f, functions.getLast? = some f ∧ f.stop = stop := by
  induction h with
  | last _ hstop => exact ⟨_, rfl, hstop⟩
  | cons _ _ ih =>
      obtain ⟨g, hg, hstop⟩ := ih
      exact ⟨g, by rw [List.getLast?_cons, hg]; rfl, hstop⟩

theorem start_le (hf : f ∈ functions) : start ≤ f.start := by
  induction h with
  | last => rw [List.mem_singleton.1 hf]
  | cons hlt _ ih =>
      rcases List.mem_cons.1 hf with rfl | hf
      · exact Nat.le_refl _
      · exact Nat.le_trans (Nat.le_of_lt hlt) (ih hf)

theorem start_le_stop (hf : f ∈ functions) : f.start ≤ f.stop := by
  induction h with
  | last hle _ => rwa [List.mem_singleton.1 hf]
  | cons hlt _ ih =>
      rcases List.mem_cons.1 hf with rfl | hf
      · exact Nat.le_of_lt hlt
      · exact ih hf

theorem pairwise_start : functions.Pairwise fun f g => f.start < g.start := by
  induction h with
  | last => exact List.pairwise_singleton _ _
  | cons hlt hrest ih =>
      exact List.pairwise_cons.2 ⟨fun g hg => Nat.lt_of_lt_of_le hlt (hrest.start_le hg), ih⟩

theorem isChain : functions.IsChain fun f g => f.stop = g.start ∧ f.last = g.first := by
  induction h with
  | last => exact List.isChain_singleton _
  | cons _ hrest ih =>
      refine List.isChain_cons.2 ⟨fun g hg => ?_, ih⟩
      obtain ⟨g', hg', hstart, hfirst⟩ := hrest.head
      obtain rfl := Option.some.inj (hg'.symm.trans hg)
      exact ⟨hstart.symm, hfirst.symm⟩

/-- Of two functions one ends before the other one starts. -/
theorem eq_or_apart (hf : f ∈ functions)
    (hg : g ∈ functions) : f = g ∨ f.stop ≤ g.start ∨ g.stop ≤ f.start := by
  induction h with
  | last => exact Or.inl ((List.mem_singleton.1 hf).trans (List.mem_singleton.1 hg).symm)
  | cons _ hrest ih =>
      rcases List.mem_cons.1 hf with hfirst | hf
      · rcases List.mem_cons.1 hg with hfirst' | hg
        · exact Or.inl (hfirst.trans hfirst'.symm)
        · exact Or.inr (Or.inl (hfirst ▸ hrest.start_le hg))
      · rcases List.mem_cons.1 hg with hfirst | hg
        · exact Or.inr (Or.inr (hfirst ▸ hrest.start_le hf))
        · exact ih hf hg

/-- A function ends where the last one does, or another one starts there. -/
theorem stop_or_next (hf : f ∈ functions) :
    f.stop = stop ∨ f.start < f.stop ∧ ∃ g ∈ functions, g.start = f.stop := by
  induction h with
  | last _ hstop =>
      rw [List.mem_singleton.1 hf]
      exact Or.inl hstop
  | cons hlt hrest ih =>
      rcases List.mem_cons.1 hf with rfl | hf
      · obtain ⟨g, hg, hstart, -⟩ := hrest.head
        exact Or.inr ⟨hlt, g, List.mem_cons_of_mem _ (List.mem_of_head? hg), hstart⟩
      · refine (ih hf).imp_right fun ⟨hlt, g, hg, hstart⟩ => ?_
        exact ⟨hlt, g, List.mem_cons_of_mem _ hg, hstart⟩

end

/-- **An offset belongs to exactly one function.** -/
theorem owner {fs : Functions} (h : EndToEnd stop start first fs.functions) {o : Nat}
    (hlo : start ≤ o) (hhi : o < stop) :
    ∃ f ∈ fs.functions, fs.owner? o = some f ∧
      ∀ g ∈ fs.functions, g.start ≤ o ∧ o < g.stop ↔ g = f := by
  rcases owner_cases o (h.pairwise_start.imp Nat.le_of_lt) none with
    ⟨-, hlater⟩ | ⟨f, hf, howner, hle, hlast⟩
  · obtain ⟨f, hf, hstart, -⟩ := h.head
    have := hlater f (List.mem_of_head? hf)
    omega
  · -- the next function would start at or before the offset, if this one ended there
    have hlt : o < f.stop := by
      rcases h.stop_or_next hf with hstop | ⟨hlt, g, hg, hstart⟩
      · rwa [hstop]
      · by_contra hge
        have := hlast g hg (by omega)
        omega
    refine ⟨f, hf, howner, fun g hg => ⟨fun ⟨hgle, hglt⟩ => ?_, fun hgf => hgf ▸ ⟨hle, hlt⟩⟩⟩
    rcases h.eq_or_apart hg hf with heq | happart | happart
    · exact heq
    · omega
    · omega

end EndToEnd

/-! ### Indices and offsets -/

/-- **A range of indices is a range of offsets**: an instruction stands at or behind the first one
with an offset from `n` on exactly if its own offset is one. -/
theorem findIdx_le_iff {list : List Instruction} {i o n : Nat} (ho : (offsets list)[i]? = some o) :
    (offsets list).findIdx (n ≤ ·) ≤ i ↔ n ≤ o := by
  obtain ⟨hi, hoi⟩ := List.getElem?_eq_some_iff.1 ho
  constructor
  · intro hle
    have hfound := Nat.lt_of_le_of_lt hle hi
    exact Nat.le_trans (of_decide_eq_true (List.findIdx_getElem (w := hfound)))
      (Instruction.offset_le (List.getElem?_eq_getElem hfound) ho hle)
  · intro hn
    by_contra hlt
    have hnot := List.not_of_lt_findIdx (Nat.not_le.1 hlt)
    rw [hoi] at hnot
    exact Bool.false_ne_true (hnot.symm.trans (decide_eq_true hn))

/-! ### The functions of a program -/

variable {list : List Instruction} {implicitEntry : Bool} {fs : Functions}

/-- The functions of a program are laid end to end. -/
theorem endToEnd_of_ofList (hfs : ofList list implicitEntry = .ok fs) :
    EndToEnd (totalSize list) 0 0 fs.functions := by
  obtain ⟨starts, hstarts⟩ := startsIn_eq_cons (list.zip (offsets list))
  have hsorted : (startsIn (list.zip (offsets list))).Pairwise (· < ·) :=
    pairwise_startsIn
  have hstop : ∀ n ∈ startsIn (list.zip (offsets list)),
      n ≤ totalSize list := fun n => le_totalSize_of_mem_startsIn hfs
  rw [hstarts] at hsorted hstop
  have hlaid := endToEnd_between (offsets list) fs.entry hsorted hstop
  rw [findIdx_zero] at hlaid
  rw [(ofList_ok hfs).2.2.1, hstarts]
  exact hlaid

/-- The indices of a function are those of the offsets in it. -/
theorem range_of_ofList (hfs : ofList list implicitEntry = .ok fs) {f : Function}
    (hf : f ∈ fs.functions) : f.first = (offsets list).findIdx (f.start ≤ ·) ∧
      f.last = (offsets list).findIdx (f.stop ≤ ·) := by
  rw [(ofList_ok hfs).2.2.1] at hf
  obtain ⟨r, -, rfl⟩ := List.mem_map.1 hf
  exact ⟨rfl, rfl⟩

/-- A function starts at offset zero, at every marker and at every place that is called, and nowhere
else. -/
theorem start_iff (hfs : ofList list implicitEntry = .ok fs) {n : Nat} :
    (∃ f ∈ fs.functions, f.start = n) ↔ n = 0 ∨
      ∃ (i : Nat) (ins : Instruction) (o : Nat), list[i]? = some ins ∧
        (offsets list)[i]? = some o ∧
        (ins.op.isMarker = true ∧ n = o ∨ ins.op = .invoke ∧ n = ins.half 0) := by
  have hstartsOf : ∀ (ins : Instruction) (o : Nat), n ∈ startsOf ins o ↔
      ins.op.isMarker = true ∧ n = o ∨ ins.op = .invoke ∧ n = ins.half 0 := by
    intro ins o
    unfold startsOf
    split
    · next hmarker =>
      have hinvoke : ins.op ≠ .invoke := by
        intro hop
        rw [hop] at hmarker
        cases hmarker
      simp [hmarker, hinvoke]
    · next hmarker =>
      split
      · next hop => simp [hop, Op.isMarker]
      · next hop => simp [hop, hmarker]
  rw [← List.mem_map, (functions_of_ofList hfs).1, mem_startsIn]
  refine or_congr_right ⟨?_, ?_⟩
  · rintro ⟨x, hx, hn⟩
    obtain ⟨i, hi⟩ := List.mem_iff_getElem?.1 hx
    obtain ⟨hins, ho⟩ := List.getElem?_zip_eq_some.1 hi
    exact ⟨i, x.1, x.2, hins, ho, (hstartsOf _ _).1 hn⟩
  · rintro ⟨i, ins, o, hins, ho, hn⟩
    have hx : (list.zip (offsets list))[i]? = some (ins, o) :=
      List.getElem?_zip_eq_some.2 ⟨hins, ho⟩
    exact ⟨(ins, o), List.mem_of_getElem? hx, (hstartsOf ins o).2 hn⟩

/-- Where a program starts: at its first entry marker, or at offset zero if it has none. -/
def StartsAtEntry (list : List Instruction) (n : Nat) : Prop :=
  (∃ (i : Nat) (ins : Instruction), list[i]? = some ins ∧ ins.op = .entry ∧
    (offsets list)[i]? = some n ∧
    ∀ (j : Nat) (ins' : Instruction), j < i → list[j]? = some ins' → ins'.op ≠ .entry) ∨
  (∀ ins ∈ list, ins.op ≠ .entry) ∧ n = 0

theorem startsAtEntry_of_ofList (hfs : ofList list implicitEntry = .ok fs) :
    StartsAtEntry list fs.entry := by
  rcases Option.or_eq_some_iff.1 (ofList_ok hfs).2.1 with hmarker | ⟨hnone, himplicit⟩
  · obtain ⟨x, hx, hoffset⟩ := Option.map_eq_some_iff.1 hmarker
    obtain ⟨hentry, i, hi, hxi, hbefore⟩ := List.find?_eq_some_iff_getElem.1 hx
    obtain ⟨hins, ho⟩ := List.getElem?_zip_eq_some.1 (List.getElem?_eq_some_iff.2 ⟨hi, hxi⟩)
    refine Or.inl ⟨i, x.1, hins, of_decide_eq_true hentry, by rw [ho, hoffset], ?_⟩
    intro j ins' hj hins' hop
    have hlt := Nat.lt_trans hj hi
    obtain ⟨hins'', -⟩ := List.getElem?_zip_eq_some.1 (List.getElem?_eq_getElem hlt)
    have hnot := hbefore j hj
    rw [← Option.some.inj (hins'.symm.trans hins''), hop] at hnot
    simp at hnot
  · refine Or.inr ⟨fun ins hins hop => ?_, ?_⟩
    · obtain ⟨i, hi⟩ := List.mem_iff_getElem?.1 hins
      have hlt : i < (offsets list).length := by
        rw [Instruction.length_offsets]
        exact (List.getElem?_eq_some_iff.1 hi).1
      have hx : (list.zip (offsets list))[i]? = some (ins, _) :=
        List.getElem?_zip_eq_some.2 ⟨hi, List.getElem?_eq_getElem hlt⟩
      have hall := List.find?_eq_none.1 (Option.map_eq_none_iff.1 hnone) _ (List.mem_of_getElem? hx)
      exact hall (decide_eq_true hop)
    · split at himplicit
      · exact (Option.some.inj himplicit).symm
      · cases himplicit

/-- **What functions have to do with their program.** -/
structure Divides (fs : Functions) (list : List Instruction) : Prop where
  /-- The functions are in order, and no two start at the same offset. -/
  increasing : fs.functions.Pairwise fun f g => f.start < g.start
  head : ∃ f, fs.functions.head? = some f ∧ f.start = 0 ∧ f.first = 0
  /-- Each ends where the next one starts, in offsets and in indices. -/
  adjacent : fs.functions.IsChain fun f g => f.stop = g.start ∧ f.last = g.first
  final : ∃ f, fs.functions.getLast? = some f ∧ f.stop = totalSize list
  ranges : ∀ f ∈ fs.functions, f.start ≤ f.stop ∧ f.first ≤ f.last ∧ f.last ≤ list.length
  /-- An instruction with bytes is among those of the owner of its offset, and of no other function.
  -/
  owned : ∀ (i : Nat) (ins : Instruction) (o : Nat), list[i]? = some ins →
    (offsets list)[i]? = some o → 0 < ins.width →
    ∃ f ∈ fs.functions, fs.owner? o = some f ∧ ∀ g ∈ fs.functions, g.first ≤ i ∧ i < g.last ↔ g = f
  starts : ∀ n, (∃ f ∈ fs.functions, f.start = n) ↔ n = 0 ∨
    ∃ (i : Nat) (ins : Instruction) (o : Nat), list[i]? = some ins ∧
      (offsets list)[i]? = some o ∧
      (ins.op.isMarker = true ∧ n = o ∨ ins.op = .invoke ∧ n = ins.half 0)
  /-- Exactly one function is the entry, and it starts where the program does. -/
  entry : ∃ f ∈ fs.functions, StartsAtEntry list f.start ∧ f.start = fs.entry ∧
    ∀ g ∈ fs.functions, g.isEntry = true ↔ g = f

/-- **The functions of a program divide it.** -/
theorem divides_of_ofList (hfs : ofList list implicitEntry = .ok fs) : fs.Divides list := by
  have hlaid := endToEnd_of_ofList hfs
  obtain ⟨hstarts, hisEntry, hentry⟩ := functions_of_ofList hfs
  constructor
  case increasing => exact hlaid.pairwise_start
  case head => exact hlaid.head
  case adjacent => exact hlaid.isChain
  case final => exact hlaid.getLast
  case ranges =>
    intro f hf
    have hle := hlaid.start_le_stop hf
    obtain ⟨hfirst, hlast⟩ := range_of_ofList hfs hf
    have hlength : (offsets list).findIdx (f.stop ≤ ·) ≤ _ := List.findIdx_le_length
    rw [Instruction.length_offsets, ← hlast] at hlength
    refine ⟨hle, ?_, hlength⟩
    rw [hfirst, hlast]
    exact findIdx_le_of_le _ hle
  case owned =>
    intro i ins o hins ho hwidth
    have hend := Instruction.offset_add_width_le ho hins
    obtain ⟨f, hf, howner, honly⟩ := hlaid.owner (Nat.zero_le o) (by omega)
    refine ⟨f, hf, howner, fun g hg => ?_⟩
    obtain ⟨hfirst, hlast⟩ := range_of_ofList hfs hg
    have hbehind : i < g.last ↔ o < g.stop := by
      rw [hlast, ← Nat.not_le, findIdx_le_iff ho, Nat.not_le]
    rw [hfirst, findIdx_le_iff ho, hbehind]
    exact honly g hg
  case starts => exact fun n => start_iff hfs
  case entry =>
    rw [← hstarts] at hentry
    obtain ⟨f, hf, hstart⟩ := List.mem_map.1 hentry
    refine ⟨f, hf, hstart ▸ startsAtEntry_of_ofList hfs, hstart, fun g hg => ?_⟩
    rw [hisEntry g hg, beq_iff_eq, ← hstart]
    constructor
    · intro hsame
      exact List.inj_on_of_nodup_map
        (List.pairwise_map.2 (hlaid.pairwise_start.imp Nat.ne_of_lt)) hg hf hsame
    · rintro rfl
      rfl

/-- A call, an unknown operation in front of the function that is called, and two markers at the
end, one of which says where the program starts. -/
def rangesSample : List Instruction :=
  [⟨.invoke, [6, 0], []⟩, ⟨.ret, [], []⟩, ⟨.unknown 99, [], []⟩, ⟨.ret, [], []⟩,
    ⟨.entry, [], text "main"⟩, ⟨.global, [], text "g"⟩]

theorem divides_of_ofList_rangesSample :
    ∃ fs, ofList rangesSample true = .ok fs ∧ fs.Divides rangesSample := by
  have hcalls : badCall? (boundariesOf (rangesSample.zip (offsets rangesSample)))
      (rangesSample.zip (offsets rangesSample)) = none :=
    badCall?_eq_none (by decide)
  obtain ⟨fs, hfs⟩ : ∃ fs, ofList rangesSample true = .ok fs := by
    unfold ofList
    simp only [hcalls]
    exact ⟨_, rfl⟩
  exact ⟨fs, hfs, divides_of_ofList hfs⟩

end StackCompiler.Lowering.Functions
