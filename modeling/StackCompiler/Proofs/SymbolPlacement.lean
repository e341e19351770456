/-
**Symbols are placed as their table asks.**

What a table asks for can be said without looking at how symbols are placed: every defined symbol
whose address is the offset of an instruction asks for at most one marker before that instruction,
and the markers before an instruction stand in the order of the table.  Placing gives exactly this
program.  A defined symbol whose address is the offset of no instruction is reported as dropped, and
a symbol without an address does nothing.

A program can have several entry markers.  Its offsets grow, so the first of them has the smallest
offset, whether one looks for it among the symbols or among the instructions; it is where the entry
function starts.

* `Symbol.entry_place` — **the entry of a placement is the first entry marker of its program**;
* `Symbol.place_exact` — **no marker is lost and none is invented**.
-/

import Mathlib.Data.List.Nodup
import StackCompiler.Proofs.PlacedMarkers

namespace StackCompiler

open Lowering (Functions)
open Instruction (offsets offsetsFrom totalSize)

/-! ### What a table asks for -/

namespace Symbol

/-- The markers that a symbol asks for: an entry marker if its name is an entry name, else a
visibility marker if all see it, else none. -/
inductive Asks (entryNames : List Text) (s : Symbol) : List Instruction → Prop where
  | entry (hname : s.name ∈ entryNames) : Asks entryNames s [⟨.entry, [], s.name⟩]
  | visible (hname : s.name ∉ entryNames) (hbinding : s.binding = globalBinding) :
      Asks entryNames s [⟨.global, [], s.name⟩]
  | nothing (hname : s.name ∉ entryNames) (hbinding : s.binding ≠ globalBinding) :
      Asks entryNames s []

/-- The markers that the symbols of a table ask for before an instruction at an offset. -/
inductive AskedAt (entryNames : List Text) (o : Nat) : List Symbol → List Instruction → Prop where
  | nil : AskedAt entryNames o [] []
  | here {s : Symbol} {symbols : List Symbol} {own markers : List Instruction}
      (hdefined : s.defined = true) (haddress : s.address.toNat = o) (hown : Asks entryNames s own)
      (h : AskedAt entryNames o symbols markers) :
      AskedAt entryNames o (s :: symbols) (own ++ markers)
  | elsewhere {s : Symbol} {symbols : List Symbol} {markers : List Instruction}
      (hs : s.defined = false ∨ s.address.toNat ≠ o) (h : AskedAt entryNames o symbols markers) :
      AskedAt entryNames o (s :: symbols) markers

/-- A list of instructions that starts at an offset, and the same one with the markers that a table
asks for right before each of them. -/
inductive WithMarkers (symbols : List Symbol) (entryNames : List Text) :
    Nat → List Instruction → List Instruction → Prop where
  | nil (o : Nat) : WithMarkers symbols entryNames o [] []
  | cons {o : Nat} {ins : Instruction} {list markers marked : List Instruction}
      (hmarkers : AskedAt entryNames o symbols markers)
      (h : WithMarkers symbols entryNames (o + ins.width) list marked) :
      WithMarkers symbols entryNames o (ins :: list) (markers ++ ins :: marked)

section Unique

variable {symbols : List Symbol} {entryNames : List Text} {o : Nat}

theorem Asks.unique {s : Symbol} {xs ys : List Instruction} (h : Asks entryNames s xs)
    (h' : Asks entryNames s ys) : xs = ys := by
  cases h with
  | entry hname =>
      cases h' with
      | entry _ => rfl
      | visible hname' _ | nothing hname' _ => exact absurd hname hname'
  | visible hname hbinding =>
      cases h' with
      | entry hname' => exact absurd hname' hname
      | visible _ _ => rfl
      | nothing _ hbinding' => exact absurd hbinding hbinding'
  | nothing hname hbinding =>
      cases h' with
      | entry hname' => exact absurd hname' hname
      | visible _ hbinding' => exact absurd hbinding' hbinding
      | nothing _ _ => rfl

theorem AskedAt.unique {xs ys : List Instruction} (h : AskedAt entryNames o symbols xs)
    (h' : AskedAt entryNames o symbols ys) : xs = ys := by
  induction h generalizing ys with
  | nil =>
      cases h'
      rfl
  | here hdefined haddress hown _ ih =>
      cases h' with
      | here _ _ hown' h' => rw [hown.unique hown', ih h']
      | elsewhere hs _ => simp [hdefined, haddress] at hs
  | elsewhere hs _ ih =>
      cases h' with
      | here hdefined haddress _ _ => simp [hdefined, haddress] at hs
      | elsewhere _ h' => exact ih h'

/-- **A table asks for one program.** -/
theorem WithMarkers.unique {list xs ys : List Instruction}
    (h : WithMarkers symbols entryNames o list xs) (h' : WithMarkers symbols entryNames o list ys) :
    xs = ys := by
  induction h generalizing ys with
  | nil o =>
      cases h'
      rfl
  | cons hmarkers _ ih =>
      cases h' with
      | cons hmarkers' h' => rw [hmarkers.unique hmarkers', ih h']

end Unique

variable {symbols : List Symbol} {entryNames : List Text} {list : List Instruction} {n o : Nat}

theorem asks_marker? (entryNames : List Text) (s : Symbol) :
    Asks entryNames s (marker? entryNames s).toList := by
  unfold marker?
  split
  · next hname => exact Asks.entry (List.contains_iff_mem.1 hname)
  · next hname =>
    have hname : s.name ∉ entryNames := fun h => hname (List.contains_iff_mem.2 h)
    split
    · next hbinding => exact Asks.visible hname hbinding
    · next hbinding => exact Asks.nothing hname hbinding

/-- An offset that fits an address is compared as a number. -/
theorem address_eq_iff (s : Symbol) (ho : o < 2 ^ 32) :
    s.address = o.toUInt32 ↔ s.address.toNat = o := by
  rw [← UInt32.toNat_inj, toNat_toUInt32 ho]

theorem askedAt_markersAt (symbols : List Symbol) (ho : o < 2 ^ 32) :
    AskedAt entryNames o symbols (markersAt symbols entryNames o.toUInt32) := by
  induction symbols with
  | nil => exact AskedAt.nil
  | cons s symbols ih =>
      cases hat : isAt o.toUInt32 s with
      | true =>
          have hmarkers : markersAt (s :: symbols) entryNames o.toUInt32 =
              (marker? entryNames s).toList ++ markersAt symbols entryNames o.toUInt32 := by
            rw [markersAt, List.filter_cons_of_pos hat, List.filterMap_cons]
            cases marker? entryNames s <;> rfl
          rw [isAt, Bool.and_eq_true, beq_iff_eq, address_eq_iff s ho] at hat
          rw [hmarkers]
          exact AskedAt.here hat.1 hat.2 (asks_marker? entryNames s) ih
      | false =>
          have hmarkers : markersAt (s :: symbols) entryNames o.toUInt32 =
              markersAt symbols entryNames o.toUInt32 := by
            rw [markersAt, List.filter_cons_of_neg (by simp [hat])]
            rfl
          rw [isAt, Bool.and_eq_false_iff, beq_eq_false_iff_ne, ne_eq, address_eq_iff s ho] at hat
          rw [hmarkers]
          exact AskedAt.elsewhere hat ih

/-- **Placing gives the markers that are asked for.** -/
theorem withMarkers_placedFrom (hsize : n + totalSize list < 2 ^ 32) :
    WithMarkers symbols entryNames n list (placedFrom symbols entryNames n list) := by
  induction list generalizing n with
  | nil => exact WithMarkers.nil n
  | cons ins list ih =>
      rw [Instruction.totalSize_cons] at hsize
      exact WithMarkers.cons (askedAt_markersAt symbols (by omega)) (ih (by omega))

/-- Symbols without an address have no part in a placement. -/
theorem place_defined (list : List Instruction) (symbols : List Symbol) (entryNames : List Text) :
    place list (symbols.filter (·.defined)) entryNames = place list symbols entryNames := by
  have hindex : index (symbols.filter (·.defined)) = index symbols := by
    simp only [index, List.filter_filter, Bool.and_self]
  simp only [place, hindex, List.filter_filter, Bool.and_right_comm, Bool.and_self]

end Symbol

/-! ### Markers and their offsets -/

namespace Instruction

theorem zip_markers {markers : List Instruction} (h : ∀ m ∈ markers, m.op.isMarker = true)
    (n : Nat) : markers.zip (offsetsFrom n markers) = markers.map (·, n) := by
  induction markers with
  | nil => rfl
  | cons m markers ih =>
      obtain ⟨hm, h⟩ := List.forall_mem_cons.1 h
      rw [offsetsFrom, width_of_isMarker hm, Nat.add_zero, List.zip_cons_cons, ih h, List.map_cons]

/-- An entry marker stands at an offset. -/
def EntryAt (list : List Instruction) (o : Nat) : Prop :=
  ∃ x ∈ list.zip (offsets list), x.1.op = .entry ∧ x.2 = o

end Instruction

/-- Where keys grow, the first that is found has the least of the keys that can be found. -/
theorem map_find?_eq_some_iff {α : Type} {l : List α} {p : α → Bool} {key : α → Nat}
    (h : l.Pairwise fun x y => key x ≤ key y) {o : Nat} :
    (l.find? p).map key = some o ↔
      (∃ x ∈ l, p x = true ∧ key x = o) ∧ ∀ x ∈ l, p x = true → o ≤ key x := by
  induction l with
  | nil => simp
  | cons x l ih =>
      obtain ⟨hx, h⟩ := List.pairwise_cons.1 h
      cases hp : p x with
      | true =>
          rw [List.find?_cons_of_pos hp, Option.map_some, Option.some.injEq]
          constructor
          · rintro rfl
            refine ⟨⟨x, List.mem_cons_self, hp, rfl⟩, ?_⟩
            exact List.forall_mem_cons.2 ⟨fun _ => Nat.le_refl _, fun y hy _ => hx y hy⟩
          · rintro ⟨⟨y, hy, -, rfl⟩, hleast⟩
            have hle := hleast x List.mem_cons_self hp
            rcases List.mem_cons.1 hy with rfl | hy
            · rfl
            · exact Nat.le_antisymm (hx y hy) hle
      | false =>
          rw [List.find?_cons_of_neg (by simp [hp]), ih h]
          simp [hp]

/-! ### The entry of a placement -/

namespace Lowering.Functions

variable {list : List Instruction} {implicitEntry : Bool} {fs : Functions}

theorem entryMarker?_eq_some_iff {o : Nat} :
    entryMarker? (list.zip (offsets list)) = some o ↔
      Instruction.EntryAt list o ∧ ∀ o', Instruction.EntryAt list o' → o ≤ o' := by
  rw [entryMarker?, map_find?_eq_some_iff (Instruction.pairwise_located list)]
  simp only [decide_eq_true_eq]
  refine and_congr_right fun _ => ⟨?_, ?_⟩
  · rintro h o' ⟨x, hx, hop, rfl⟩
    exact h x hx hop
  · exact fun h x hx hop => h x.2 ⟨x, hx, hop, rfl⟩

/-- **One function is the entry function**, and it starts at the entry. -/
theorem existsUnique_entry (h : ofList list implicitEntry = .ok fs) :
    ∃ f ∈ fs.functions, f.start = fs.entry ∧ f.isEntry = true ∧
      ∀ g ∈ fs.functions, g.isEntry = true → g = f := by
  obtain ⟨hstarts, hisEntry, hmem⟩ := functions_of_ofList h
  have hnodup : (startsIn (list.zip (offsets list))).Nodup :=
    pairwise_startsIn.imp Nat.ne_of_lt
  rw [← hstarts] at hmem hnodup
  obtain ⟨f, hf, hstart⟩ := List.mem_map.1 hmem
  refine ⟨f, hf, hstart, by rw [hisEntry f hf, hstart, beq_self_eq_true], fun g hg hentry => ?_⟩
  rw [hisEntry g hg, beq_iff_eq, ← hstart] at hentry
  exact List.inj_on_of_nodup_map hnodup hg hf hentry

end Lowering.Functions

namespace Symbol

variable {symbols : List Symbol} {entryNames : List Text} {list : List Instruction} {n : Nat}

/-- What stands in a program with its markers, and where. -/
theorem mem_zip_placedFrom {x : Instruction × Nat} :
    let placed := placedFrom symbols entryNames n list
    x ∈ placed.zip (offsetsFrom n placed) ↔
      x ∈ list.zip (offsetsFrom n list) ∨
        x.2 ∈ offsetsFrom n list ∧ x.1 ∈ markersAt symbols entryNames x.2.toUInt32 := by
  induction list generalizing n with
  | nil => simp [placedFrom, offsetsFrom]
  | cons ins list ih =>
      have hmarkers : x ∈ (markersAt symbols entryNames n.toUInt32).zip
          (offsetsFrom n (markersAt symbols entryNames n.toUInt32)) ↔
            x.2 = n ∧ x.1 ∈ markersAt symbols entryNames x.2.toUInt32 := by
        rw [Instruction.zip_markers fun m => isMarker_of_mem_markersAt, List.mem_map]
        constructor
        · rintro ⟨m, hm, rfl⟩
          exact ⟨rfl, hm⟩
        · rintro ⟨hn, hm⟩
          rw [hn] at hm
          exact ⟨x.1, hm, Prod.ext rfl hn.symm⟩
      simp only [placedFrom, Instruction.zip_offsetsFrom_append, totalSize_markersAt, Nat.add_zero,
        offsetsFrom, List.zip_cons_cons, List.mem_append, List.mem_cons, hmarkers, ih,
        or_and_right]
      tauto

/-- Where the entry markers of a program stand. -/
theorem entryAt_place (hwidth : ∀ ins ∈ list, 0 < ins.width) {o : Nat} :
    Instruction.EntryAt (place list symbols entryNames).instructions o ↔
      o ∈ offsets list ∧ (markersAt symbols entryNames o.toUInt32).any (·.op == .entry) = true := by
  rw [place_eq, List.any_eq_true]
  constructor
  · rintro ⟨x, hx, hop, rfl⟩
    rcases mem_zip_placedFrom.1 hx with hx | ⟨ho, hm⟩
    · have := hwidth x.1 (List.of_mem_zip hx).1
      rw [Instruction.width_of_isMarker (by rw [hop]; rfl)] at this
      omega
    · exact ⟨ho, x.1, hm, beq_iff_eq.2 hop⟩
  · rintro ⟨ho, m, hm, hop⟩
    exact ⟨(m, o), mem_zip_placedFrom.2 (Or.inr ⟨ho, hm⟩), beq_iff_eq.1 hop, rfl⟩

/-- In a program of less than 2³² bytes, offsets are addresses. -/
theorem toNat_address (hsize : totalSize list < 2 ^ 32) {o : Nat}
    (ho : o ∈ offsets list) : o.toUInt32.toNat = o := by
  have := (Instruction.bounds_of_mem_offsetsFrom ho).2
  exact toNat_toUInt32 (by omega)

/-- **The entry of a placement is the first entry marker of its program.** -/
theorem entry_place (hwidth : ∀ ins ∈ list, 0 < ins.width)
    (hsize : totalSize list < 2 ^ 32) :
    let placed := (place list symbols entryNames).instructions
    (place list symbols entryNames).entry =
      Functions.entryMarker? (placed.zip (offsets placed)) := by
  have hoffset : ∀ o ∈ offsets list, o.toUInt32.toNat = o :=
    fun o => toNat_address hsize
  have hsorted : (addresses list).Pairwise fun a b => a.toNat ≤ b.toNat := by
    refine List.pairwise_map.2
      (List.Pairwise.imp_of_mem ?_ (Instruction.pairwise_offsetsFrom 0 list))
    intro o o' ho ho' hle
    rwa [hoffset o ho, hoffset o' ho']
  refine Option.ext fun o => ?_
  rw [Functions.entryMarker?_eq_some_iff, entry_eq]
  simp only [entryAt_place hwidth]
  refine (map_find?_eq_some_iff hsorted).trans ?_
  constructor
  · rintro ⟨⟨a, ha, hentry, rfl⟩, hleast⟩
    obtain ⟨o, ho, rfl⟩ := List.mem_map.1 ha
    rw [hoffset o ho] at hleast ⊢
    refine ⟨⟨ho, hentry⟩, fun o' ho' => ?_⟩
    have := hleast o'.toUInt32 (List.mem_map_of_mem ho'.1) ho'.2
    rwa [hoffset o' ho'.1] at this
  · rintro ⟨⟨ho, hentry⟩, hleast⟩
    refine ⟨⟨_, List.mem_map_of_mem ho, hentry, hoffset o ho⟩, fun a ha hentry' => ?_⟩
    obtain ⟨o', ho', rfl⟩ := List.mem_map.1 ha
    rw [hoffset o' ho']
    exact hleast o' ⟨ho', hentry'⟩

/-- The symbols that are dropped have the offset of no instruction. -/
theorem dropped_place (hsize : totalSize list < 2 ^ 32) :
    (place list symbols entryNames).dropped =
      symbols.filter fun s => s.defined && decide (s.address.toNat ∉ offsets list) := by
  rw [dropped_eq]
  refine List.filter_congr fun s _ => ?_
  have hmem : s.address ∈ addresses list ↔ s.address.toNat ∈ offsets list := by
    rw [addresses, List.mem_map]
    constructor
    · rintro ⟨o, ho, haddress⟩
      rwa [← haddress, toNat_address hsize ho]
    · exact fun h => ⟨_, h, by simp⟩
  rw [Bool.eq_iff_iff]
  simp [hmem]

/-- **No marker is lost and none is invented.**  The program is the one that has before every
instruction the markers that the table asks for there; what is dropped are the defined symbols at no
instruction; symbols without an address do nothing; and the entry is the smallest offset of an entry
marker, where the entry function starts. -/
theorem place_exact (symbols : List Symbol) (entryNames : List Text)
    (hwidth : ∀ ins ∈ list, 0 < ins.width) (hsize : totalSize list < 2 ^ 32) :
    let placement := place list symbols entryNames
    let placed := placement.instructions
    (∀ program, WithMarkers symbols entryNames 0 list program ↔ program = placed) ∧
    placement.dropped = symbols.filter
      (fun s => s.defined && decide (s.address.toNat ∉ offsets list)) ∧
    place list (symbols.filter (·.defined)) entryNames = placement ∧
    (∀ o, placement.entry = some o ↔
      Instruction.EntryAt placed o ∧ ∀ o', Instruction.EntryAt placed o' → o ≤ o') ∧
    (placement.entry = none ↔ ∀ o, ¬Instruction.EntryAt placed o) ∧
    ∀ (o : Nat) (implicitEntry : Bool) (fs : Functions), placement.entry = some o →
      Functions.ofList placed implicitEntry = .ok fs →
      ∃ f ∈ fs.functions, f.start = o ∧ f.isEntry = true ∧
        ∀ g ∈ fs.functions, g.isEntry = true → g = f := by
  intro placement placed
  have hentry : placement.entry =
      Functions.entryMarker? (placed.zip (offsets placed)) := entry_place hwidth hsize
  have hplaced : WithMarkers symbols entryNames 0 list placed := by
    show WithMarkers symbols entryNames 0 list (place list symbols entryNames).instructions
    rw [place_eq]
    exact withMarkers_placedFrom (by omega)
  refine ⟨fun program => ⟨fun h => h.unique hplaced, fun h => h ▸ hplaced⟩, dropped_place hsize,
    place_defined list symbols entryNames, fun o => ?_, ?_, ?_⟩
  · rw [hentry, Functions.entryMarker?_eq_some_iff]
  · rw [hentry, Functions.entryMarker?, Option.map_eq_none_iff, List.find?_eq_none]
    constructor
    · rintro hnone o ⟨x, hx, hop, -⟩
      exact hnone x hx (decide_eq_true hop)
    · exact fun hnone x hx hop => hnone x.2 ⟨x, hx, of_decide_eq_true hop, rfl⟩
  · intro o implicitEntry fs ho hfs
    have hfirst := (Functions.ofList_ok hfs).2.1
    rw [← hentry, ho, Option.some_or] at hfirst
    rw [Option.some.inj hfirst]
    exact Functions.existsUnique_entry hfs

/-- Two symbols of one address in the order of the table, an entry name behind a plain one, a local
symbol, one inside an instruction, one behind the last and one without an address. -/
theorem place_exact_crowded :
    let list : List Instruction := [⟨.jmp, [5], []⟩, ⟨.ret, [], []⟩]
    let symbols : List Symbol := [⟨text "f", 0, 1, true, 5⟩, ⟨text "main", 0, 0, true, 5⟩,
      ⟨text "g", 0, 0, true, 0⟩, ⟨text "h", 0, 1, true, 3⟩, ⟨text "main", 0, 1, false, 0⟩,
      ⟨text "end", 0, 1, true, 6⟩]
    let placement := place list symbols [text "main"]
    ((∀ ins ∈ list, 0 < ins.width) ∧ totalSize list < 2 ^ 32) ∧
    WithMarkers symbols [text "main"] 0 list [⟨.jmp, [5], []⟩, ⟨.global, [], text "f"⟩,
      ⟨.entry, [], text "main"⟩, ⟨.ret, [], []⟩] ∧
    placement.dropped = [⟨text "h", 0, 1, true, 3⟩, ⟨text "end", 0, 1, true, 6⟩] ∧
    placement.entry = some 5 ∧
    ∃ fs, Functions.ofList placement.instructions false = .ok fs ∧
      ∃ f ∈ fs.functions, f.start = 5 ∧ f.isEntry = true := by
  intro list symbols placement
  have hwidth : ∀ ins ∈ list, 0 < ins.width := by decide
  obtain ⟨hmarkers, hdropped, -, -, -, hfunctions⟩ :=
    place_exact symbols [text "main"] hwidth (by decide)
  have hentry : placement.entry = some 5 := by decide
  obtain ⟨fs, hfs⟩ : ∃ fs, Functions.ofList placement.instructions false = .ok fs := ⟨_, rfl⟩
  obtain ⟨f, hf, hstart, hisEntry, -⟩ := hfunctions 5 false fs hentry hfs
  exact ⟨⟨hwidth, by decide⟩, (hmarkers _).2 rfl, hdropped, hentry, fs, hfs, f, hf, hstart,
    hisEntry⟩

end Symbol

end StackCompiler
