/-
**The offsets of a program agree from its bytes to its functions.**

Four counts run along a program: the decoder moves a cursor over the bytes, the offsets of a list
add up widths, symbols are placed by address, and the functions of a program say at which index the
instruction of an offset stands.  A jump names an offset, so all four have to mean the same place.
They do, for every instruction has as many bytes as its width says, and a marker has none: between
the instructions that were decoded there can be any number of markers, and no offset moves.

* `Symbol.filter_placedFrom` — **markers move no instruction**;
* `Code.offsets_agree` — **all offsets agree**.
-/

import StackCompiler.Proofs.CodeSections
import StackCompiler.Proofs.PlacedMarkers

namespace StackCompiler

open Instruction (lt_length_of_offset offsetsFrom totalSize totalSize_cons offsets)

/-! ### The bytes of instructions -/

namespace Code

variable {f : Format} {offset : Nat} {bytes : List UInt8} {list : List Instruction}

theorem width_of_decodeOne {opcode : UInt8} {rest : List UInt8} {ins : Instruction}
    (h : decodeOne f offset opcode bytes = .ok (ins, rest)) :
    ∃ chunk : List UInt8, opcode :: bytes = chunk ++ rest ∧ chunk.length = ins.width := by
  obtain ⟨hmarker, chunk, hchunk, hbytes⟩ := encodeOne_decoded h 0
  obtain ⟨_, _, -, hlength, -⟩ := decodeOne_encoded hmarker hchunk 0 []
  exact ⟨chunk, hbytes, hlength⟩

theorem Reads.length_eq (h : Reads f offset bytes list) : bytes.length = totalSize list := by
  induction h with
  | nil => rfl
  | cons hone _ ih =>
      obtain ⟨chunk, hbytes, hlength⟩ := width_of_decodeOne hone
      rw [hbytes, List.length_append, hlength, ih, totalSize_cons]

/-- **The bytes at an offset are read as the instruction that has it.** -/
theorem Reads.at (h : Reads f offset bytes list) {i : Nat} {ins : Instruction}
    (hins : list[i]? = some ins) :
    let before := totalSize (list.take i)
    ∃ opcode rest, bytes.drop before = opcode :: rest ∧
      decodeOne f (offset + before) opcode rest = .ok (ins, bytes.drop (before + ins.width)) := by
  induction h generalizing i with
  | nil => cases hins
  | @cons offset opcode bytes rest first list hone _ ih =>
      obtain ⟨chunk, hbytes, hlength⟩ := width_of_decodeOne hone
      -- behind the first instruction the bytes are those that it leaves
      have hdrop : ∀ k, (opcode :: bytes).drop (first.width + k) = rest.drop k := by
        intro k
        rw [hbytes, ← hlength, ← List.drop_drop, List.drop_left]
      cases i with
      | zero =>
          obtain rfl : first = ins := Option.some.inj hins
          refine ⟨opcode, bytes, rfl, ?_⟩
          rw [List.take_zero, Instruction.totalSize_nil, Nat.zero_add, Nat.add_zero, hone]
          rw [show first.width = first.width + 0 from rfl, hdrop 0, List.drop_zero]
      | succ i =>
          obtain ⟨opcode', rest', hrest, hone'⟩ := ih (i := i) (by simpa using hins)
          refine ⟨opcode', rest', ?_, ?_⟩
          · rw [List.take_succ_cons, totalSize_cons, hdrop]
            exact hrest
          · rw [List.take_succ_cons, totalSize_cons, Nat.add_assoc first.width, hdrop,
              ← Nat.add_assoc offset]
            exact hone'

theorem reads_of_decode {code : List UInt8} (h : decode code = .ok (f, list)) :
    headerSize ≤ code.length ∧ Reads f headerSize (code.drop headerSize) list := by
  obtain ⟨_, body, rfl, -, hreads⟩ := written_of_decode h
  cases f <;> exact ⟨Nat.le_add_left headerSize body.length, hreads⟩

end Code

/-! ### Markers between instructions -/

namespace Symbol

variable {symbols : List Symbol} {entryNames : List Text} {list : List Instruction}

/-- **Markers move no instruction**: without them the instructions are those of the list, at the
offsets that they have in it. -/
theorem filter_placedFrom (hlist : ∀ ins ∈ list, ins.op.isMarker = false) (n : Nat) :
    let placed := placedFrom symbols entryNames n list
    (placed.zip (offsetsFrom n placed)).filter (fun x => !x.1.op.isMarker) =
      list.zip (offsetsFrom n list) := by
  induction list generalizing n with
  | nil => rfl
  | cons ins list ih =>
      obtain ⟨hins, hlist⟩ := List.forall_mem_cons.1 hlist
      have hmarkers : ((markersAt symbols entryNames n.toUInt32).zip
          (offsetsFrom n (markersAt symbols entryNames n.toUInt32))).filter
            (fun x => !x.1.op.isMarker) = [] := by
        refine List.filter_eq_nil_iff.2 fun x hx => ?_
        simp [isMarker_of_mem_markersAt (List.of_mem_zip hx).1]
      simp only [placedFrom, Instruction.zip_offsetsFrom_append, totalSize_markersAt, Nat.add_zero,
        offsetsFrom, List.zip_cons_cons, List.filter_append, hmarkers, List.nil_append]
      rw [List.filter_cons_of_pos (by simp [hins]), ih hlist]

/-- No marker stands behind the last instruction. -/
theorem getLast?_placedFrom (n : Nat) :
    (placedFrom symbols entryNames n list).getLast? = list.getLast? := by
  induction list generalizing n with
  | nil => rfl
  | cons ins list ih =>
      rw [placedFrom, List.getLast?_append, List.getLast?_cons, List.getLast?_cons, ih,
        Option.some_or]

end Symbol

namespace Instruction

/-- Markers stand from one index of a list up to another one, at which there is an instruction that
is no marker. -/
structure LeadsTo (list : List Instruction) (i j : Nat) : Prop where
  before : i < j
  markers : ∀ k, i ≤ k → k < j → ∃ m, list[k]? = some m ∧ m.op.isMarker = true
  stands : ∃ ins, list[j]? = some ins ∧ ins.op.isMarker = false

/-- **A marker has the offset of what it stands before**, unless a list ends with a marker. -/
theorem leadsTo_of_marker {list : List Instruction}
    (hlast : ∀ ins, list.getLast? = some ins → ins.op.isMarker = false) {i o : Nat}
    {m : Instruction} (hm : list[i]? = some m) (hmarker : m.op.isMarker = true)
    (ho : (offsets list)[i]? = some o) : ∃ j, LeadsTo list i j ∧ (offsets list)[j]? = some o := by
  -- by induction on what is left of the list
  induction hleft : list.length - i generalizing i m with
  | zero =>
      have := (List.getElem?_eq_some_iff.1 hm).1
      omega
  | succ left ih =>
      have hlength : i + 1 < list.length := by
        have hi := (List.getElem?_eq_some_iff.1 hm).1
        by_contra hend
        have hlast := hlast m (by rw [List.getLast?_eq_getElem?, ← hm]; congr 1; omega)
        rw [hmarker] at hlast
        cases hlast
      have ho' := offset_succ ho hm hlength
      rw [width_of_isMarker hmarker, Nat.add_zero] at ho'
      have hnext := List.getElem?_eq_getElem hlength
      cases hmarker' : list[i + 1].op.isMarker with
      | false =>
          refine ⟨i + 1, ⟨Nat.lt_succ_self i, fun k hk hk' => ?_, _, hnext, hmarker'⟩, ho'⟩
          obtain rfl : k = i := by omega
          exact ⟨m, hm, hmarker⟩
      | true =>
          obtain ⟨j, hj, hoj⟩ := ih hnext hmarker' ho' (by omega)
          refine ⟨j, ⟨Nat.lt_of_succ_lt hj.before, fun k hk hk' => ?_, hj.stands⟩, hoj⟩
          rcases Nat.eq_or_lt_of_le hk with rfl | hk
          · exact ⟨m, hm, hmarker⟩
          · exact hj.markers k hk hk'

end Instruction

/-! ### The index of an offset -/

namespace Lowering.Functions

/-- **Which index is found for an offset**: if all instructions but the markers have bytes, it is
the only one at which an instruction with this offset stands. -/
theorem boundaries_iff {list : List Instruction} {implicitEntry : Bool} {fs : Functions}
    (hfs : ofList list implicitEntry = .ok fs)
    (hwidth : ∀ ins ∈ list, ins.op.isMarker = false → 0 < ins.width) {o j : Nat} :
    fs.boundaries[o]? = some j ↔
      ∃ ins, list[j]? = some ins ∧ ins.op.isMarker = false ∧ (offsets list)[j]? = some o := by
  have hzip : ∀ (i : Nat) (x : Instruction × Nat),
      (list.zip (offsets list))[i]? = some x ↔
        list[i]? = some x.1 ∧ (offsets list)[i]? = some x.2 :=
    fun i x => List.getElem?_zip_eq_some
  rw [boundaries_of_ofList hfs, boundariesOf_getElem?, List.findIdx?_eq_some_iff_getElem]
  constructor
  · rintro ⟨hj, hfound, -⟩
    obtain ⟨hins, ho⟩ := (hzip j _).1 (List.getElem?_eq_getElem hj)
    rw [Bool.and_eq_true, Bool.not_eq_true', beq_iff_eq] at hfound
    exact ⟨_, hins, hfound.1, by rw [ho, hfound.2]⟩
  · rintro ⟨ins, hins, hmarker, ho⟩
    obtain ⟨hj, hx⟩ := List.getElem?_eq_some_iff.1 ((hzip j (ins, o)).2 ⟨hins, ho⟩)
    refine ⟨hj, by simp [hx, hmarker], fun i hij hfound => ?_⟩
    -- an instruction before it with the same offset would have no bytes
    obtain ⟨hins', ho'⟩ := (hzip i _).1 (List.getElem?_eq_getElem (Nat.lt_trans hij hj))
    rw [Bool.and_eq_true, Bool.not_eq_true', beq_iff_eq] at hfound
    rw [hfound.2] at ho'
    have hnone := (Instruction.noBytes_of_same_offset ho' hins' ho hij).1
    have := hwidth _ (List.mem_of_getElem? hins') hfound.1
    omega

end Lowering.Functions

/-! ### From bytes to functions -/

namespace Code

open Lowering (Functions)

/-- **All offsets agree.**  The instructions of a code section take up all bytes behind its header,
each of them those at its offset.  Whatever symbols are placed, the instructions keep their order
and their offsets, a marker has the offset of the instruction that it stands before, and the
functions of the program find under the offset of an instruction its index, and nothing under other
offsets. -/
theorem offsets_agree {code : List UInt8} {f : Format} {list : List Instruction}
    (hdecode : decode code = .ok (f, list)) :
    (code.length = headerSize + totalSize list ∧
      ∀ (i : Nat) (ins : Instruction) (o : Nat),
        list[i]? = some ins → (offsets list)[i]? = some o →
        ∃ opcode rest, code.drop (headerSize + o) = opcode :: rest ∧
          decodeOne f (headerSize + o) opcode rest =
            .ok (ins, code.drop (headerSize + o + ins.width))) ∧
    ∀ (symbols : List Symbol) (entryNames : List Text),
      let placed := (Symbol.place list symbols entryNames).instructions
      (placed.zip (offsets placed)).filter (fun x => !x.1.op.isMarker) =
        list.zip (offsets list) ∧
      (∀ (i : Nat) (m : Instruction) (o : Nat), placed[i]? = some m → m.op.isMarker = true →
        (offsets placed)[i]? = some o →
        ∃ j, Instruction.LeadsTo placed i j ∧ (offsets placed)[j]? = some o) ∧
      ∀ (implicitEntry : Bool) (fs : Functions), Functions.ofList placed implicitEntry = .ok fs →
        ∀ o j : Nat, fs.boundaries[o]? = some j ↔
          ∃ ins, placed[j]? = some ins ∧ ins.op.isMarker = false ∧
            (offsets placed)[j]? = some o := by
  obtain ⟨hheader, hreads⟩ := reads_of_decode hdecode
  have hwidth := width_pos_of_decode hdecode
  have hlist : ∀ ins ∈ list, ins.op.isMarker = false := by
    intro ins hins
    rw [Bool.eq_false_iff]
    intro hmarker
    have := hwidth ins hins
    rw [Instruction.width_of_isMarker hmarker] at this
    omega
  refine ⟨⟨?_, ?_⟩, ?_⟩
  · rw [← hreads.length_eq, List.length_drop]
    omega
  · intro i ins o hins ho
    rw [Instruction.offsets_getElem? (lt_length_of_offset ho)] at ho
    obtain rfl := Option.some.inj ho
    obtain ⟨opcode, rest, hrest, hone⟩ := hreads.at hins
    refine ⟨opcode, rest, by rw [← hrest, List.drop_drop], ?_⟩
    rw [hone, List.drop_drop, Nat.add_assoc]
  · intro symbols entryNames
    refine ⟨?_, ?_, ?_⟩
    · rw [Symbol.place_eq]
      exact Symbol.filter_placedFrom hlist 0
    · intro i m o hm hmarker ho
      refine Instruction.leadsTo_of_marker (fun ins hins => ?_) hm hmarker ho
      rw [Symbol.place_eq, Symbol.getLast?_placedFrom] at hins
      exact hlist ins (List.mem_of_getLast? hins)
    · intro implicitEntry fs hfs o j
      refine Functions.boundaries_iff hfs fun ins hins hmarker => ?_
      rcases Symbol.mem_place hins with hmarker' | hins
      · rw [hmarker] at hmarker'
        cases hmarker'
      · exact hwidth ins hins

/-- Two names at the place that a jump goes to: the return there is still at offset 5, now with
index 4. -/
theorem offsets_agree_named :
    let code := text "KATS" ++ [2, 0, 0, 0, 10, 5, 0, 0, 0, 4]
    let list : List Instruction := [⟨.jmp, [5], []⟩, ⟨.ret, [], []⟩]
    let symbols : List Symbol := [⟨text "f", 0, 1, true, 5⟩, ⟨text "main", 0, 0, true, 0⟩,
      ⟨text "g", 0, 1, true, 5⟩, ⟨text "h", 0, 1, true, 3⟩]
    let placed := (Symbol.place list symbols [text "main"]).instructions
    decode code = .ok (.kats, list) ∧
      (∃ opcode rest, code.drop (headerSize + 5) = opcode :: rest ∧
        decodeOne .kats (headerSize + 5) opcode rest = .ok (⟨.ret, [], []⟩, [])) ∧
      ∃ fs, Functions.ofList placed true = .ok fs ∧ fs.boundaries[5]? = some 4 ∧
        fs.boundaries[3]? = none := by
  intro code list symbols placed
  have hdecode : decode code = .ok (.kats, list) := by decide
  obtain ⟨⟨-, hbytes⟩, hplaced⟩ := offsets_agree hdecode
  obtain ⟨-, -, hfunctions⟩ := hplaced symbols [text "main"]
  obtain ⟨fs, hfs⟩ : ∃ fs, Functions.ofList placed true = .ok fs := ⟨_, rfl⟩
  have hindex := hfunctions true fs hfs
  refine ⟨hdecode, hbytes 1 _ 5 rfl rfl, fs, hfs, (hindex 5 4).2 ⟨_, rfl, rfl, rfl⟩, ?_⟩
  rw [Option.eq_none_iff_forall_ne_some]
  intro j hj
  obtain ⟨-, -, -, ho⟩ := (hindex 3 j).1 hj
  have hnone : ∀ j, j < placed.length → (offsets placed)[j]? ≠ some 3 := by decide
  exact hnone j (lt_length_of_offset ho) ho

end Code

end StackCompiler
