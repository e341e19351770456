/-
**The structure of a module.**

A program that is lowered becomes a module whose functions are well formed.  The blocks of a
function are those of its instructions, which have different offsets, one that it starts with and
three that it ends with.  A jump stays in its function, and where it goes an instruction starts, so
there is a block.  Room for calls is made when a function starts.  Functions start where calls go,
so each function that is called is defined, and since starts are different it is defined once.

* `Lowering.ToIl.nodup_functionBlocks` — **the blocks of a function are different**;
* `Lowering.ToIl.wellFormed_lower` — **the module of a program is well formed**.
-/

import StackCompiler.Proofs.GeneratedListings
import StackCompiler.Proofs.WrittenBlocks

namespace StackCompiler.Lowering.ToIl

open Il
open Lowering.Functions (badCall? between body boundariesOf ofList startsIn startsOf)
open Instruction (offsets render)
open Il.Value (temp within_number within_of_room within_temp)

/-! ### The lines of a function -/

section Walk

variable {c : Context} {xs : List (Instruction × Nat)}

theorem parts_of_walk {w v : Progress}
    (h : xs.foldlM (fun w x => Progress.add c w x.1 x.2) w = .ok v) :
    ∃ parts, v.lines.toList = w.lines.toList ++ parts.flatten ∧
      List.Forall₂ (fun x ls => ∃ temps temps',
        instruction c temps x.2 x.1 = .ok (ls, temps')) xs parts := by
  induction xs generalizing w with
  | nil =>
      obtain rfl := foldlM_nil_ok_iff.1 h
      exact ⟨[], (List.append_nil _).symm, .nil⟩
  | cons x xs ih =>
      obtain ⟨w', hw', h⟩ := foldlM_cons_ok_iff.1 h
      obtain ⟨parts, hparts, hall⟩ := ih h
      rw [Progress.add] at hw'
      split at hw'
      · next ls temps hins =>
        obtain rfl := Except.ok.inj hw'
        refine ⟨ls :: parts, ?_, .cons ⟨w.temps, temps, hins⟩ hall⟩
        rw [hparts, Array.toList_appendList, List.flatten_cons, List.append_assoc]
      · cases hw'

end Walk

/-! ### The blocks of a function -/

section Blocks

variable {x : Instruction × Nat} {xs : List (Instruction × Nat)} {b : Block}

theorem mem_furtherBlocks (h : b ∈ furtherBlocks x) : b.letter = 76 ∧ b.offset? = some x.2 := by
  unfold furtherBlocks at h
  split at h <;> simp only [List.mem_cons, List.not_mem_nil, or_false] at h
  iterate 2 · exact h ▸ ⟨rfl, rfl⟩
  iterate 2 · rcases h with rfl | rfl <;> exact ⟨rfl, rfl⟩

/-- The blocks of an instruction carry its offset. -/
theorem mem_blocksOf (h : b ∈ blocksOf x) : b.letter = 76 ∧ b.offset? = some x.2 := by
  unfold blocksOf at h
  split at h
  iterate 3 · cases h
  · rcases List.mem_cons.1 h with rfl | h
    · exact ⟨rfl, rfl⟩
    · exact mem_furtherBlocks h

theorem nodup_blocksOf (x : Instruction × Nat) : (blocksOf x).Nodup := by
  unfold blocksOf furtherBlocks
  cases x.1.op <;> simp

/-- The blocks of a function. -/
def functionBlocks (start : Nat) (xs : List (Instruction × Nat)) : List Block :=
  .start :: xs.flatMap blocksOf ++
    [.stop start, .withCell (.stop start), .withoutCell (.stop start)]

/-- **The blocks of a function are different**, if later instructions start behind earlier ones. -/
theorem nodup_functionBlocks (start : Nat)
    (h : xs.Pairwise fun x y => blocksOf x = [] ∨ x.2 < y.2) : (functionBlocks start xs).Nodup := by
  have hplaces : ∀ b ∈ xs.flatMap blocksOf, b.letter = 76 := by
    intro b hb
    obtain ⟨x, -, hb⟩ := List.mem_flatMap.1 hb
    exact (mem_blocksOf hb).1
  -- markers share their offset with the instruction behind them, but have no blocks
  have hdisjoint : (xs.flatMap blocksOf).Nodup := by
    refine List.nodup_flatMap.2 ⟨fun x _ => nodup_blocksOf x, h.imp fun {x y} hxy b hx hy => ?_⟩
    rcases hxy with hnone | hlt
    · rw [hnone] at hx
      cases hx
    · have hx := (mem_blocksOf hx).2
      rw [(mem_blocksOf hy).2] at hx
      exact absurd (Option.some.inj hx) (Nat.ne_of_gt hlt)
  rw [functionBlocks, List.cons_append, List.nodup_cons, List.nodup_append]
  refine ⟨?_, hdisjoint, by simp, ?_⟩
  · rw [List.mem_append, not_or]
    exact ⟨fun hmem => absurd (hplaces _ hmem) (by decide), by simp⟩
  · rintro b hb _ hstop rfl
    have hletter := hplaces b hb
    simp only [List.mem_cons, List.not_mem_nil, or_false] at hstop
    rcases hstop with rfl | rfl | rfl <;>
      exact absurd hletter (show ¬(102 : UInt8) = 76 by decide)

end Blocks

/-! ### Functions of the program -/

/-- An instruction that can be lowered, with its comment on a single line. -/
def Plain (ins : Instruction) : Prop := Mips.Placeable ins ∧ SingleLine ins

/-- What the statements of a function may refer to: its own blocks and rooms, and the functions that
start at given offsets. -/
def functionScope (start : Nat) (starts : List Nat) (xs : List (Instruction × Nat)) : Scope where
  rooms := xs.flatMap roomsOf
  targets b := b ∈ functionBlocks start xs ∧ b ≠ .start
  callees n := n ∈ starts

section Functions

variable {list : List Instruction} {implicitEntry : Bool} {fs : Functions} {cell : Cell}
  {frame : Frame} {f : Lowering.Function}

theorem between_of_ofList (hfs : ofList list implicitEntry = .ok fs)
    (hf : f ∈ fs.functions) : ∃ start stop, f = between (offsets list) fs.entry start stop := by
  rw [(Functions.ofList_ok hfs).2.2.1] at hf
  obtain ⟨r, -, rfl⟩ := List.mem_map.1 hf
  exact ⟨r.1, r.2, rfl⟩

theorem ordinary_of_plain {ins : Instruction} (h : Plain ins) (hmarker : ins.op.isMarker = false) :
    Mips.Ordinary ins := by
  refine Mips.Placeable.ordinary (h.1.resolve_left fun hop => ?_)
  exact Bool.false_ne_true (hmarker.symm.trans hop)

/-- **Where a jump goes there is a block**: an instruction starts there, and it belongs to the same
function. -/
theorem place_mem_functionBlocks (hplain : ∀ ins ∈ list, Plain ins)
    (hfs : ofList list implicitEntry = .ok fs) (hf : f ∈ fs.functions) {n : Nat}
    (hstarts : fs.startsAt n = true) (hstart : f.start ≤ n) (hstop : n < f.stop) :
    Block.place n ∈ functionBlocks f.start
      (body (list.zip (offsets list)) f) := by
  have hboundary : (boundariesOf (list.zip (offsets list))).contains n = true := by
    rw [← Functions.boundaries_of_ofList hfs]
    exact hstarts
  rw [Functions.contains_boundariesOf, List.any_eq_true] at hboundary
  obtain ⟨y, hy, hat⟩ := hboundary
  rw [Bool.and_eq_true, Bool.not_eq_true', beq_iff_eq] at hat
  obtain ⟨hmarker, rfl⟩ := hat
  have hbody : y ∈ body (list.zip (offsets list)) f := by
    obtain ⟨start, stop, rfl⟩ := between_of_ofList hfs hf
    exact Functions.mem_body_between.2 ⟨hy, hstart, hstop⟩
  have hordinary := ordinary_of_plain (hplain y.1 (List.of_mem_zip hy).1) hmarker
  refine List.mem_append_left _ (List.mem_cons_of_mem _ (List.mem_flatMap.2 ⟨y, hbody, ?_⟩))
  rw [blocksOf_ordinary hordinary]
  exact List.mem_cons_self

/-- The scope of an instruction is part of the scope of its function. -/
theorem extends_scopeOf (hplain : ∀ ins ∈ list, Plain ins)
    (hfs : ofList list implicitEntry = .ok fs) (hf : f ∈ fs.functions)
    {x : Instruction × Nat} (hx : x ∈ body (list.zip (offsets list)) f) :
    (functionScope f.start (startsIn (list.zip (offsets list)))
      (body (list.zip (offsets list)) f)).Extends
        (scopeOf ⟨cell, frame, fs, f⟩ x) := by
  have hlocated := mem_of_mem_body hx
  constructor
  case rooms => exact fun t ht => List.mem_flatMap.2 ⟨x, hx, ht⟩
  case targets =>
    rintro b (hb | ⟨n, rfl, hstarts, hstart, hstop⟩)
    · -- a block of the instruction itself
      have hletter := (mem_furtherBlocks hb).1
      refine ⟨List.mem_append_left _ (List.mem_cons_of_mem _ (List.mem_flatMap.2 ⟨x, hx, ?_⟩)), ?_⟩
      · unfold blocksOf
        split
        iterate 3 · next hop => rw [furtherBlocks, hop] at hb; cases hb
        · exact List.mem_cons_of_mem _ hb
      · rintro rfl
        exact absurd hletter (by decide)
    · -- the target of a jump
      exact ⟨place_mem_functionBlocks hplain hfs hf hstarts hstart hstop, by rintro ⟨⟩⟩
  case callees =>
    rintro n ⟨hop, rfl⟩
    refine Functions.mem_startsIn.2 (Or.inr ⟨x, hlocated, ?_⟩)
    rw [startsOf, hop]
    exact List.mem_singleton_self _

end Functions

/-- The statements that a function starts with. -/
def reservations (c : Context) (xs : List (Instruction × Nat)) : List Statement :=
  c.cell.reserve .stack c.frame.depth :: assign .top long "copy" [.temp .stack] ::
    xs.flatMap fun x => if x.1.op = .invoke then
      [c.cell.reserve (.callee x.2) c.frame.localSlots,
       assign (.calleeHasValue x.2) long "alloc4" [.number 4]] else []

section Parts

variable {c : Context} {xs : List (Instruction × Nat)} {scope : Scope}

theorem opening_eq (c : Context) (xs : List (Instruction × Nat)) :
    opening c xs = .block .start :: (reservations c xs).map Line.statement := by
  simp only [opening, reservations, List.map_cons, List.map_flatMap, List.cons_append,
    List.nil_append]
  congr 3
  refine List.flatMap_congr fun x _ => ?_
  split <;> rfl

theorem reserved?_reserve (cell : Cell) (t : Temp) (n : Int64) :
    (cell.reserve t n).reserved? = some t := by
  rw [Cell.reserve, assign, Statement.reserved?, if_pos]
  split
  · exact Or.inr rfl
  · exact Or.inl rfl

/-- **A function starts by making room for every call.** -/
theorem reserved_of_roomsOf {t : Temp} (h : t ∈ xs.flatMap roomsOf) :
    ∃ s ∈ reservations c xs, s.reserved? = some t := by
  obtain ⟨x, hx, ht⟩ := List.mem_flatMap.1 h
  rw [roomsOf] at ht
  split at ht
  · next hop =>
    have hmem : ∀ s ∈ [c.cell.reserve (.callee x.2) c.frame.localSlots,
        assign (.calleeHasValue x.2) long "alloc4" [.number 4]], s ∈ reservations c xs := by
      intro s hs
      refine List.mem_cons_of_mem _ (List.mem_cons_of_mem _ (List.mem_flatMap.2 ⟨x, hx, ?_⟩))
      rwa [if_pos hop]
    simp only [List.mem_cons, List.not_mem_nil, or_false] at ht
    rcases ht with rfl | rfl
    · exact ⟨_, hmem _ List.mem_cons_self, reserved?_reserve _ _ _⟩
    · exact ⟨_, hmem _ (List.mem_cons_of_mem _ List.mem_cons_self), rfl⟩
  · cases ht

theorem divided_opening (h : xs.flatMap roomsOf ⊆ scope.rooms) :
    Divided scope [.start] (opening c xs) := by
  have hstraight : ∀ s ∈ reservations c xs, s.Straight scope.rooms := by
    simp only [reservations, List.forall_mem_cons, List.forall_mem_flatMap]
    refine ⟨straight_reserve (within_temp rfl) _, straight_assign rfl rfl
      (within_temp rfl) (List.forall_mem_singleton.2 (within_temp rfl)), ?_⟩
    intro x hx
    split
    · next hop =>
      have hrooms : ∀ t ∈ [Temp.callee x.2, .calleeHasValue x.2], t ∈ scope.rooms := by
        intro t ht
        refine h (List.mem_flatMap.2 ⟨x, hx, ?_⟩)
        rwa [roomsOf, if_pos hop]
      simp only [List.forall_mem_cons] at hrooms ⊢
      exact ⟨straight_reserve (within_of_room hrooms.1) _,
        straight_assign rfl rfl (within_of_room hrooms.2.1)
          (List.forall_mem_singleton.2 (within_number _ _)), List.forall_mem_nil _⟩
    · exact List.forall_mem_nil _
  have hlines := Divided.nil.straight_append hstraight
  rw [List.append_nil] at hlines
  rw [opening_eq]
  exact .block rfl hlines

theorem divided_closing (hc : c.cell.Standard) (temps : Nat)
    (h : ∀ b ∈ [Block.withCell (.stop c.inside.start), .withoutCell (.stop c.inside.start)],
      scope.targets b) :
    Divided scope [.stop c.inside.start, .withCell (.stop c.inside.start),
      .withoutCell (.stop c.inside.start)] (closing c temps) :=
  .block rfl (divided_handOver hc (within_temp rfl) (within_temp rfl) rfl rfl h)

theorem getLast?_closing (c : Context) (temps : Nat) :
    (closing c temps).getLast? = some (.statement (.ret (.number 0))) := by
  simp [closing, Cell.handOver, List.getLast?_cons]

end Parts

section Functions

variable {list : List Instruction} {implicitEntry : Bool} {fs : Functions} {cell : Cell}
  {frame : Frame} {f : Lowering.Function} {g : Il.Function} {temps temps' : Nat}

/-- **A function of the program is divided into blocks.** -/
theorem divided_function (hplain : ∀ ins ∈ list, Plain ins) (hc : cell.Standard)
    (hfs : ofList list implicitEntry = .ok fs) (hf : f ∈ fs.functions)
    (h : function ⟨cell, frame, fs, f⟩
      (body (list.zip (offsets list)) f) temps = .ok (g, temps')) :
    let located := list.zip (offsets list)
    Divided (functionScope f.start (startsIn located) (body located f))
      (functionBlocks f.start (body located f)) g.lines := by
  intro located
  obtain ⟨w, hw, hg⟩ := function_ok h
  obtain ⟨rfl, -⟩ := Prod.mk.inj hg
  obtain ⟨parts, hparts, hall⟩ := parts_of_walk hw
  have hparts : w.lines.toList = parts.flatten := hparts
  have hdivided : List.Forall₂ (fun bs ls => Divided (functionScope f.start
      (startsIn located) (body located f)) bs ls ∧ Opens ls)
      ((body located f).map blocksOf) parts := by
    rw [List.forall₂_map_left_iff]
    refine ((List.forall₂_and_left (p := (· ∈ body located f)) _ _).2
      ⟨fun _ => id, hall⟩).imp ?_
    rintro x ls ⟨hx, t, t', hins⟩
    have hline := (hplain x.1 (List.of_mem_zip (mem_of_mem_body hx)).1).2
    obtain ⟨hls, hopens⟩ := divided_instruction (c := ⟨cell, frame, fs, f⟩) hc hline hins
    exact ⟨hls.mono (extends_scopeOf hplain hfs hf hx), hopens⟩
  have hclosing : Divided (functionScope f.start (startsIn located)
      (body located f)) [.stop f.start, .withCell (.stop f.start),
        .withoutCell (.stop f.start)] (closing ⟨cell, frame, fs, f⟩ w.temps) :=
    divided_closing (c := ⟨cell, frame, fs, f⟩) hc w.temps (by simp [functionScope, functionBlocks])
  obtain ⟨hmiddle, hopens⟩ := Divided.flatten hdivided
  rw [hparts]
  exact ((divided_opening (List.Subset.refl _)).append hmiddle hopens).append hclosing
    (opens_block _ _)

/-- Instructions that can be lowered have blocks with different offsets. -/
theorem pairwise_body (hplain : ∀ ins ∈ list, Plain ins) :
    (body (list.zip (offsets list)) f).Pairwise fun x y =>
      blocksOf x = [] ∨ x.2 < y.2 := by
  have hlocated := Instruction.pairwise_located_width 0 list
  refine List.Pairwise.sublist ((List.drop_sublist _ _).trans (List.take_sublist _ _))
    (hlocated.imp_of_mem fun {x y} hx _ hxy => ?_)
  rcases (hplain x.1 (List.of_mem_zip hx).1).1 with hmarker | hwidth
  · exact Or.inl (blocksOf_marker hmarker)
  · exact Or.inr (by omega)

/-- **A function of the program defines what it refers to.** -/
theorem isWhole_function (hplain : ∀ ins ∈ list, Plain ins) (starts : List Nat)
    (h : function ⟨cell, frame, fs, f⟩
      (body (list.zip (offsets list)) f) temps = .ok (g, temps')) :
    let located := list.zip (offsets list)
    IsWhole (functionScope f.start starts (body located f))
      (functionBlocks f.start (body located f)) g.lines := by
  intro located
  obtain ⟨w, -, hg⟩ := function_ok h
  obtain ⟨rfl, -⟩ := Prod.mk.inj hg
  constructor
  case starts => rfl
  case once => exact nodup_functionBlocks f.start (pairwise_body hplain)
  case targets => exact fun b hb => hb
  case returns =>
    refine ⟨.number 0, ?_⟩
    rw [List.getLast?_append, getLast?_closing]
    rfl
  case rooms =>
    intro t ht
    obtain ⟨s, hs, hreserved⟩ := reserved_of_roomsOf (c := ⟨cell, frame, fs, f⟩) ht
    refine ⟨s, ?_, hreserved⟩
    rw [opening_eq, List.append_assoc]
    exact mem_firstBlock hs _

end Functions

/-! ### The function that runs the program -/

/-- What the function of the entry may use. -/
def entryScope (starts : List Nat) : Scope where
  rooms := [.entryHasValue]
  targets b := b ∈ [Block.value, .noValue]
  callees n := n ∈ starts

section EntryPoint

variable {cell : Cell} {frame : Frame} {entry : Nat} {starts : List Nat}

theorem divided_entryPoint (hc : cell.Standard) (hentry : entry ∈ starts) :
    Divided (entryScope starts) [.start, .value, .noValue] (entryPoint cell frame entry).lines := by
  have hroom : (temp .entryHasValue).Within (entryScope starts).rooms :=
    within_of_room (List.mem_singleton_self _)
  have hnone : Divided (entryScope starts) [.noValue]
      [.block .noValue, .statement (.ret (.number 0))] :=
    .block rfl (.last (Statement.fits_ret (within_number _ 0)))
  have hreturn : ∀ {t : Temp}, t.isRoom = false →
      (Statement.ret (.temp t)).Fits (entryScope starts) :=
    fun ht => Statement.fits_ret (within_temp ht)
  have hvalue : Divided (entryScope starts) [.noValue] ((if cell.isLong then
      [.statement (assign .status word "copy" [.temp .entryResult]),
       .statement (.ret (.temp .status))]
     else [.statement (.ret (.temp .entryResult))]) ++
    [.block .noValue, .statement (.ret (.number 0))]) := by
    split
    · refine .straight (straight_assign rfl rfl (within_temp rfl)
        (List.forall_mem_singleton.2 (within_temp rfl))) (.stop (hreturn rfl) hnone)
    · exact .stop (hreturn rfl) hnone
  have hcall : (Statement.call (some (.entryResult, cell.type)) (.function entry)
      [.typed long (.temp .locals), .typed long (.temp .entryHasValue)]).Fits (entryScope starts) :=
    Statement.fits_call hc.type (within_temp rfl) (List.forall_mem_cons.2
      ⟨⟨rfl, within_temp rfl⟩, List.forall_mem_singleton.2 ⟨rfl, hroom⟩⟩) hentry
  have hbranch : (Statement.branch (.temp .entryFlag) .value .noValue).Fits (entryScope starts) :=
    Statement.fits_branch (within_temp rfl) List.mem_cons_self
      (List.mem_cons_of_mem _ List.mem_cons_self)
  rw [entryPoint, List.append_assoc]
  refine .block rfl (.straight (straight_reserve (within_temp rfl) _)
    (.straight (straight_assign rfl rfl hroom
      (List.forall_mem_singleton.2 (within_number _ _)))
      (.statement hcall ?_ (.straight (straight_assign rfl rfl (within_temp rfl)
        (List.forall_mem_singleton.2 hroom)) (.stop hbranch (.block rfl hvalue))))))
  rintro ⟨⟩

theorem isWhole_entryPoint : IsWhole (entryScope starts) [.start, .value, .noValue]
    (entryPoint cell frame entry).lines where
  starts := rfl
  once := by decide
  targets := by
    rintro b hb
    simp only [entryScope, List.mem_cons, List.not_mem_nil, or_false] at hb
    rcases hb with rfl | rfl <;> decide
  returns := ⟨.number 0, by rw [entryPoint, List.getLast?_append]; rfl⟩
  rooms := by
    intro t ht
    obtain rfl := List.mem_singleton.1 ht
    refine ⟨assign .entryHasValue long "alloc4" [.number 4], ?_, rfl⟩
    have hfirst : assign .entryHasValue long "alloc4" [.number 4] ∈
        [cell.reserve .locals frame.localSlots, assign .entryHasValue long "alloc4" [.number 4]] :=
      List.mem_cons_of_mem _ List.mem_cons_self
    exact mem_firstBlock (b := .start) hfirst _

end EntryPoint

/-! ### Modules -/

/-- The name of a function of the program tells where it starts. -/
theorem functionName_inj {m n : Nat} (h : (Global.function m).render = (Global.function n).render) :
    m = n := Numeral.decimal_inj (List.append_cancel_left h)

theorem functionName_of_callee {g : Global} (h : (text "$vm_f").isPrefixOf g.render = true) :
    g.isForeign = false := by
  cases g with
  | main | printf | putchar | calloc | exit => cases h
  | _ => rfl

/-- The names of the functions of a module. -/
def functionNames (starts : List Nat) : List Text :=
  starts.map (fun n => (Global.function n).render) ++ [Global.main.render]

theorem count_functionNames {starts : List Nat} (h : starts.Pairwise (· < ·)) {n : Nat}
    (hn : n ∈ starts) : (functionNames starts).count (Global.function n).render = 1 := by
  refine List.count_eq_one_of_mem ?_ (List.mem_append_left _ (List.mem_map.2 ⟨n, hn, rfl⟩))
  refine List.nodup_append.2 ⟨?_, List.nodup_singleton _, ?_⟩
  · exact List.Nodup.map (fun _ _ => functionName_inj) (h.imp Nat.ne_of_lt)
  · rintro _ hmem _ hmain rfl
    obtain ⟨m, -, hm⟩ := List.mem_map.1 hmem
    rw [List.mem_singleton.1 hmain] at hm
    cases hm

/-- A function that is divided into blocks, refers to what it defines, and calls functions that
start at given offsets. -/
structure Structured (starts : List Nat) (g : Il.Function) : Prop where
  type : isKeyword g.type
  divided : ∃ scope bs, Divided scope bs g.lines ∧ IsWhole scope bs g.lines ∧
    ∀ n, scope.callees n → n ∈ starts

namespace Structured

variable {starts : List Nat} {g : Il.Function}

theorem clean (h : Structured starts g) : g.Clean := by
  obtain ⟨scope, bs, hlines, -⟩ := h.divided
  exact ⟨h.type, hlines.clean⟩

theorem wellFormed (h : Structured starts g) : Reading.WellFormed g.read.2 := by
  obtain ⟨scope, bs, hlines, hwhole, -⟩ := h.divided
  exact hlines.wellFormed hwhole

/-- The functions of a program that are called start at the given offsets. -/
theorem callees (h : Structured starts g) {ws : List Text}
    (hws : ws ∈ Reading.instructions g.read.2) {name : Text}
    (hname : Reading.callee? ws = some name) (hprogram : (text "$vm_f").isPrefixOf name = true) :
    ∃ n ∈ starts, name = (Global.function n).render := by
  obtain ⟨scope, bs, hlines, -, hstarts⟩ := h.divided
  rw [Function.read, instructions_render hlines.clean] at hws
  obtain ⟨s, hs, rfl⟩ := List.mem_map.1 hws
  have hfits := hlines.fits s hs
  rw [Statement.callee?_words hfits.clean, Option.map_eq_some_iff] at hname
  obtain ⟨f, hf, rfl⟩ := hname
  obtain ⟨n, rfl, hn⟩ := hfits.callees f hf (functionName_of_callee hprogram)
  exact ⟨n, hstarts n hn, rfl⟩

end Structured

section Modules

variable {list : List Instruction} {implicitEntry : Bool} {fs : Functions} {cell : Cell}
  {frame : Frame}

/-- Every function of a program is structured. -/
theorem structured_functions (hplain : ∀ ins ∈ list, Plain ins) (hc : cell.Standard)
    (hfs : ofList list implicitEntry = .ok fs) {functions : List Lowering.Function}
    (hmem : functions ⊆ fs.functions) {gs : List Il.Function}
    (h : List.Forall₂ (fun f g => ∃ temps temps', function ⟨cell, frame, fs, f⟩
      (body (list.zip (offsets list)) f) temps = .ok (g, temps'))
        functions gs) :
    ∀ g ∈ gs, Structured (startsIn (list.zip (offsets list))) g := by
  induction h with
  | nil => exact List.forall_mem_nil _
  | @cons f g _ _ hfirst _ ih =>
      obtain ⟨hf, hmem⟩ := List.cons_subset.1 hmem
      refine List.forall_mem_cons.2 ⟨?_, ih hmem⟩
      obtain ⟨temps, temps', hg⟩ := hfirst
      refine ⟨?_, _, _, divided_function hplain hc hfs hf hg, isWhole_function hplain _ hg,
        fun _ hn => hn⟩
      obtain ⟨w, -, hparts⟩ := function_ok hg
      obtain ⟨rfl, -⟩ := Prod.mk.inj hparts
      exact hc.type

theorem structured_entryPoint (hc : cell.Standard) {starts : List Nat} {entry : Nat}
    (hentry : entry ∈ starts) : Structured starts (entryPoint cell frame entry) :=
  ⟨rfl, _, _, divided_entryPoint hc hentry, isWhole_entryPoint, fun _ hn => hn⟩

theorem names_of_functions (hfs : ofList list implicitEntry = .ok fs)
    {gs : List Il.Function}
    (h : List.Forall₂ (fun f g => ∃ temps temps', function ⟨cell, frame, fs, f⟩
      (body (list.zip (offsets list)) f) temps = .ok (g, temps'))
        fs.functions gs) :
    gs.map (fun g => g.name.render) = (startsIn (list.zip (offsets list))).map
        fun n => (Global.function n).render := by
  rw [← (Functions.functions_of_ofList hfs).1, List.map_map, eq_comm, ← List.forall₂_eq_eq_eq,
    List.forall₂_map_left_iff, List.forall₂_map_right_iff]
  refine h.imp ?_
  rintro f g ⟨temps, temps', hg⟩
  obtain ⟨w, -, hparts⟩ := function_ok hg
  obtain ⟨rfl, -⟩ := Prod.mk.inj hparts
  rfl

end Modules

theorem newline_notMem_patterns {cell : Cell} (hc : cell.Standard) :
    ∀ d ∈ patterns cell, Text.newline ∉ d.line := by
  rcases hc with rfl | rfl <;> decide

/-- **The module of a program is well formed**, as it is read from its text.  It has a function for
every start, and one that runs the program; each of them is well formed, and functions of the
program are called by names that are defined once. -/
theorem wellFormed_lower {p : Program} {s : Settings} {out : Output}
    (hplain : ∀ ins ∈ p.instructions, Plain ins) (hc : (Cell.ofSettings s).Standard)
    (h : lower p s = .ok out) :
    let fs := Reading.functionsIn (Text.splitOn Text.newline out.module.render)
    fs.map Prod.fst = functionNames (startsIn
      (p.instructions.zip (offsets p.instructions))) ∧
    (∀ f ∈ fs, Reading.WellFormed f.2) ∧ Reading.IsLinked fs := by
  obtain ⟨fs, gs, hfs, hgs, hmodule⟩ := lower_ok h
  have hentry := (Functions.functions_of_ofList hfs).2.2
  have hstructured : ∀ g ∈ out.module.functions, Structured (startsIn
      (p.instructions.zip (offsets p.instructions))) g := by
    rw [hmodule]
    exact List.forall_mem_append.2 ⟨structured_functions hplain hc hfs (List.Subset.refl _) hgs,
      List.forall_mem_singleton.2 (structured_entryPoint hc hentry)⟩
  have hclean : out.module.Clean := by
    refine ⟨?_, fun g hg => (hstructured g hg).clean⟩
    rw [hmodule]
    exact newline_notMem_patterns hc
  have hnames : (out.module.functions.map Function.read).map Prod.fst = functionNames
      (startsIn (p.instructions.zip (offsets p.instructions))) := by
    rw [hmodule, List.map_map, List.map_append, functionNames, ← names_of_functions hfs hgs]
    rfl
  intro read
  have hread : read = out.module.functions.map Function.read := functionsIn_render hclean
  rw [hread]
  refine ⟨hnames, List.forall_mem_map.2 fun g hg => (hstructured g hg).wellFormed,
    List.forall_mem_map.2 fun g hg ws hws name hname hprogram => ?_⟩
  obtain ⟨n, hn, rfl⟩ := (hstructured g hg).callees hws hname hprogram
  rw [hnames]
  exact count_functionNames Functions.pairwise_startsIn hn

/-! ### Code sections with symbols -/

theorem newline_notMem_name (o : Op) : Text.newline ∉ o.name := by
  have hknown : ∀ row ∈ Op.known, Text.newline ∉ text row.2 := by decide
  unfold Op.name
  split
  · next code =>
    simp only [List.mem_append, not_or]
    exact ⟨⟨by decide, newline_notMem (Listing.token_signed code)⟩, by decide⟩
  · cases hfound : Op.known.find? (·.1 == o) with
    | none => exact List.not_mem_nil
    | some row => exact hknown row (List.mem_of_find?_eq_some hfound)

theorem newline_notMem_render {ins : Instruction} (h : ins.symbol = []) :
    Text.newline ∉ ins.render := by
  simp only [render, h, List.isEmpty_nil, if_true, List.append_nil, List.mem_append,
    List.mem_flatMap, List.mem_cons, not_or, not_exists, not_and]
  exact ⟨newline_notMem_name ins.op,
    fun v _ => ⟨by decide, newline_notMem (Listing.token_signed v.toInt)⟩⟩

/-- What is decoded and placed can be lowered, with every comment on a single line. -/
theorem plain_of_place {code : List UInt8} {format : Format} {list : List Instruction}
    {symbols : List Symbol} {entryNames : List Text}
    (hdecode : Code.decode code = .ok (format, list))
    (hnames : ∀ symbol ∈ symbols, Text.newline ∉ symbol.name) :
    ∀ ins ∈ (Symbol.place list symbols entryNames).instructions, Plain ins := by
  intro ins hins
  rcases Symbol.symbol_of_mem_place hins with ⟨hmarker, symbol, hsymbol, hname⟩ | hmem
  · refine ⟨Or.inl hmarker, fun _ => hname ▸ hnames symbol hsymbol, fun hop => ?_⟩
    exact absurd (hop.symm.trans hmarker) Bool.false_ne_true
  · obtain ⟨hwidth, hnone⟩ := Code.plain_of_decode hdecode ins hmem
    refine ⟨Or.inr hwidth, fun _ => ?_, fun _ => newline_notMem_render hnone⟩
    rw [hnone]
    exact List.not_mem_nil

/-- Calls the function at offset 6, which has a name and returns a number. -/
def namedCall : Program :=
  ⟨[⟨.invoke, [6, 0], []⟩, ⟨.ret, [], []⟩, ⟨.global, [], text "seven"⟩, ⟨.iconst, [7], []⟩,
    ⟨.ret, [], []⟩], 1⟩

theorem startsIn_namedCall : startsIn
    (namedCall.instructions.zip (offsets namedCall.instructions)) = [0, 6] := by
  show ([0, 6, 6] : List Nat).mergeSort.eraseReps = [0, 6]
  rw [List.mergeSort_of_pairwise (by decide)]
  rfl

theorem lower_namedCall : ∃ out, lower namedCall {} = .ok out := by
  have hcall : badCall? (boundariesOf
      (namedCall.instructions.zip (offsets namedCall.instructions)))
      (namedCall.instructions.zip (offsets namedCall.instructions)) = none :=
    Functions.badCall?_eq_none (by decide)
  have hfs : ∃ boundaries, ofList namedCall.instructions true =
      .ok ⟨[⟨0, 6, 0, 2, true⟩, ⟨6, 12, 2, 5, false⟩], 0, boundaries⟩ := by
    unfold ofList
    simp only [startsIn_namedCall, hcall]
    exact ⟨_, rfl⟩
  obtain ⟨boundaries, hfs⟩ := hfs
  have hcheck : (Frame.ofProgram namedCall {}).check = .ok () := by decide
  rw [lower]
  simp only [hfs, hcheck]
  exact ⟨_, rfl⟩

/-- **The module of a code section with symbols is well formed.**  Let a code section be decoded,
let its symbols have names without line ends, and let cells be words of four bytes or addresses of
eight.  If the program is lowered, then the functions that are read from the text of its module are
those of the program, by their starts, and one that runs it.  In each of them blocks are defined
once, jumps go to blocks of the function other than the first, nothing follows a jump or a return in
a block, the last block returns, and the first makes room for calls; and functions of the program
are called by names that are defined once. -/
theorem wellFormed_compiled {code : List UInt8} {format : Format} {list : List Instruction}
    {symbols : List Symbol} {entryNames : List Text} {p : Program} {s : Settings} {out : Output}
    (hdecode : Code.decode code = .ok (format, list))
    (hnames : ∀ symbol ∈ symbols, Text.newline ∉ symbol.name)
    (hp : p.instructions = (Symbol.place list symbols entryNames).instructions)
    (hcell : Cell.ofSettings s = ⟨4, word⟩ ∨ Cell.ofSettings s = ⟨8, long⟩)
    (h : lower p s = .ok out) :
    let fs := Reading.functionsIn (Text.splitOn Text.newline out.module.render)
    fs.map Prod.fst = functionNames (startsIn
      (p.instructions.zip (offsets p.instructions))) ∧
    (∀ f ∈ fs, Reading.WellFormed f.2) ∧ Reading.IsLinked fs :=
  wellFormed_lower (hp ▸ plain_of_place hdecode hnames) hcell h

/-- A call of a function with a name. -/
theorem wellFormed_compiled_namedCall :
    let code := text "KATS" ++ [4, 0, 0, 0] ++ [3, 6, 0, 0, 0, 4, 1, 7, 0, 0, 0, 4]
    let symbols : List Symbol := [⟨text "seven", 0, 1, true, 6⟩]
    ∃ list out, Code.decode code = .ok (.kats, list) ∧
      (∀ symbol ∈ symbols, Text.newline ∉ symbol.name) ∧
      namedCall.instructions = (Symbol.place list symbols []).instructions ∧
      lower namedCall {} = .ok out ∧
      let fs := Reading.functionsIn (Text.splitOn Text.newline out.module.render)
      fs.map Prod.fst = [text "$vm_f0", text "$vm_f6", text "$main"] ∧
      (∀ f ∈ fs, Reading.WellFormed f.2) ∧ Reading.IsLinked fs := by
  intro code symbols
  have hdecode : Code.decode code = .ok (.kats, [⟨.invoke, [6, 0], []⟩, ⟨.ret, [], []⟩,
    ⟨.iconst, [7], []⟩, ⟨.ret, [], []⟩]) := by decide
  have hnames : ∀ symbol ∈ symbols, Text.newline ∉ symbol.name := by decide
  obtain ⟨out, hout⟩ := lower_namedCall
  have hplace : namedCall.instructions = (Symbol.place [⟨.invoke, [6, 0], []⟩, ⟨.ret, [], []⟩,
    ⟨.iconst, [7], []⟩, ⟨.ret, [], []⟩] symbols []).instructions := by decide
  obtain ⟨hread, hformed, hlinked⟩ :=
    wellFormed_compiled hdecode hnames hplace (Or.inr rfl) hout
  rw [startsIn_namedCall] at hread
  exact ⟨_, out, hdecode, hnames, hplace, hout, hread, hformed, hlinked⟩

end StackCompiler.Lowering.ToIl
