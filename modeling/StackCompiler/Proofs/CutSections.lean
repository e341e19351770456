/-
**Code sections of the wrong length.**

A code section says how many instructions it holds, and every opcode says how many bytes of operands
follow it.  So the length of a section is fixed by what it starts with: if bytes are cut off its end
or put behind it, decoding fails and says where.  The bytes that are left in front are read as
before, so a section that was cut fails at the first instruction that is no longer there as a whole,
whether the cut lies before its opcode or inside its operands.

* `Code.decode_resized` — **a section that was cut or lengthened is recognized**.
-/

import StackCompiler.Proofs.OffsetAgreement

namespace StackCompiler.Code

open Instruction (offsets offsets_getElem? totalSize totalSize_cons width)

/-! ### Sections that end too early -/

namespace DecodeError

/-- The failures of a section that ends too early. -/
def isTruncated : DecodeError → Bool
  | shortHeader _ | missing .. | shortOperands .. => true
  | badMagic _ | unknownOpcode .. | trailing .. => false

/-- They are those whose text says so, and where. -/
theorem isTruncated_iff (e : DecodeError) : e.isTruncated = true ↔
    text "truncated instruction at offset " ++ Numeral.decimal e.offset ++ text ": " <+:
      e.message := by
  cases e with
  | shortHeader size =>
      refine iff_of_true rfl ⟨text "code header needs 8 bytes", ?_⟩
      simp only [message, offset, List.append_assoc]
      rfl
  | missing o index count =>
      refine iff_of_true rfl ⟨text "instruction " ++ Numeral.decimal index ++ text " of " ++
        Numeral.decimal count ++ text " missing", ?_⟩
      simp only [message, offset, List.append_assoc]
      rfl
  | shortOperands o opcode op needed left =>
      refine iff_of_true rfl ⟨op.name ++ text " needs " ++ Numeral.decimal needed ++
        text " operand bytes, " ++ Numeral.decimal left ++ text " left", ?_⟩
      simp only [message, offset, List.append_assoc]
  -- the other texts differ from it in their first three letters
  | badMagic magic =>
      refine iff_of_false Bool.false_ne_true ?_
      rintro ⟨rest, hrest⟩
      have hletters : text "tru" = text "unk" := congrArg (List.take 3) hrest
      exact absurd hletters (by decide)
  | unknownOpcode o opcode =>
      refine iff_of_false Bool.false_ne_true ?_
      rintro ⟨rest, hrest⟩
      have hletters : text "tru" = text "unr" := congrArg (List.take 3) hrest
      exact absurd hletters (by decide)
  | trailing o left =>
      refine iff_of_false Bool.false_ne_true ?_
      rintro ⟨rest, hrest⟩
      have hletters : text "tru" = text "tra" := congrArg (List.take 3) hrest
      exact absurd hletters (by decide)

end DecodeError

variable {f : Format} {offset : Nat} {bytes : List UInt8} {list : List Instruction}

/-! ### One instruction -/

theorem readOperands_of_short {layout : Op.Layout} (h : bytes.length < layout.size) :
    readOperands layout bytes = none := by
  unfold readOperands
  split
  · exact absurd h (Nat.not_lt_zero _)
  all_goals simp only [List.length_cons, Op.Layout.size] at h; try omega
  rfl

/-- Operands do not depend on what follows them. -/
theorem readOperands_some {layout : Op.Layout} {vs : List Int32} {rest : List UInt8}
    (h : readOperands layout bytes = some (vs, rest)) :
    ∃ taken : List UInt8, bytes = taken ++ rest ∧ taken.length = layout.size ∧
      ∀ rest', readOperands layout (taken ++ rest') = some (vs, rest') := by
  obtain ⟨hcount, hbytes⟩ := write_readOperands h
  have hread := readOperands_write layout vs
  have hstored : vs.map layout.storedOperand = vs := by
    have := hread rest hcount
    rw [← hbytes, h] at this
    exact (Prod.mk.inj (Option.some.inj this)).1.symm
  refine ⟨writeOperands layout vs, hbytes, length_writeOperands layout vs hcount, fun rest' => ?_⟩
  rw [hread rest' hcount, hstored]

/-- **An instruction does not depend on what follows it**, and needs all its bytes. -/
theorem decodeOne_ok {opcode : UInt8} {rest : List UInt8} {ins : Instruction}
    (h : decodeOne f offset opcode bytes = .ok (ins, rest)) :
    ∃ taken : List UInt8, bytes = taken ++ rest ∧ taken.length + 1 = ins.width ∧
      (∀ rest', decodeOne f offset opcode (taken ++ rest') = .ok (ins, rest')) ∧
      ∀ short : List UInt8, short.length < taken.length → decodeOne f offset opcode short =
        .error (.shortOperands offset opcode ins.op taken.length short.length) := by
  unfold decodeOne at h
  split at h
  · cases h
  · next o hop =>
    split at h
    · cases h
    · next vs rest' hread =>
      obtain ⟨rfl, rfl⟩ := by simpa using h
      obtain ⟨taken, hbytes, hlength, hothers⟩ := readOperands_some hread
      have hwidth : o.width = 1 + o.layout.size := (opcode?_of_op? hop).2.2
      refine ⟨taken, hbytes, ?_, fun other => ?_, fun short hshort => ?_⟩
      · rw [width, hwidth, hlength, Nat.add_comm]
      · simp only [decodeOne, hop, hothers]
      · rw [hlength] at hshort
        simp only [decodeOne, hop, readOperands_of_short hshort, hlength]

/-! ### Instructions one after the other -/

/-- **Bytes that were cut off are missed at the first instruction that has lost some.** -/
theorem Reads.cut (h : Reads f offset bytes list) {n : Nat} (hn : n < bytes.length)
    (total i : Nat) (seen : List Instruction) :
    ∃ e k ins, decodeFrom f total list.length i offset (bytes.take n) seen = .error e ∧
      e.isTruncated = true ∧ list[k]? = some ins ∧
      e.offset = offset + totalSize (list.take k) ∧
      totalSize (list.take k) ≤ n ∧
      n < totalSize (list.take k) + ins.width := by
  induction h generalizing n i seen with
  | nil => cases hn
  | @cons offset opcode bytes rest ins list hone _ ih =>
      obtain ⟨taken, rfl, hwidth, hothers, hshort⟩ := decodeOne_ok hone
      cases n with
      | zero =>
          -- not even the opcode is left
          exact ⟨_, 0, ins, rfl, rfl, rfl, rfl, Nat.le_refl 0, by rw [← hwidth]; simp⟩
      | succ n =>
          rw [List.length_cons, List.take_succ_cons, decodeFrom]
          by_cases hcut : n < taken.length
          · -- the operands are cut
            have htake : ((taken ++ rest).take n).length = n := by
              rw [List.length_take, List.length_append]
              omega
            refine ⟨_, 0, ins, bind_error_iff.2 (Or.inl (hshort _ (by rwa [htake]))), rfl, rfl, rfl,
              Nat.zero_le _, ?_⟩
            show n + 1 < 0 + ins.width
            omega
          · -- the instruction is whole, so the cut lies among those behind it
            have htake : (taken ++ rest).take n = taken ++ rest.take (n - taken.length) := by
              rw [List.take_append, List.take_of_length_le (Nat.not_lt.1 hcut)]
            have hrest : n - taken.length < rest.length := by
              rw [List.length_cons, List.length_append] at hn
              omega
            obtain ⟨e, k, ins', hfails, htruncated, hins', hoffset, hle, hlt⟩ :=
              ih hrest (i + 1) (ins :: seen)
            refine ⟨e, k + 1, ins', ?_, htruncated, hins', ?_, ?_, ?_⟩
            · rw [htake, hothers, ok_bind]
              exact hfails
            · rw [hoffset, List.take_succ_cons, totalSize_cons, Nat.add_assoc]
            · rw [List.take_succ_cons, totalSize_cons]
              omega
            · rw [List.take_succ_cons, totalSize_cons]
              omega

/-- **Bytes that were added are found behind the last instruction.** -/
theorem Reads.lengthened (h : Reads f offset bytes list) {x : List UInt8} (hx : x ≠ [])
    (total i : Nat) (seen : List Instruction) :
    decodeFrom f total list.length i offset (bytes ++ x) seen =
      .error (.trailing (offset + totalSize list) x.length) := by
  induction h generalizing i seen with
  | nil offset =>
      obtain ⟨b, x, rfl⟩ := List.exists_cons_of_ne_nil hx
      rfl
  | @cons offset opcode bytes rest ins list hone _ ih =>
      obtain ⟨taken, rfl, -, hothers, -⟩ := decodeOne_ok hone
      rw [List.length_cons, List.cons_append, decodeFrom, List.append_assoc, hothers, ok_bind,
        totalSize_cons, ← Nat.add_assoc]
      exact ih (i + 1) (ins :: seen)

/-! ### Sections -/

theorem length_header (f : Format) (count : UInt32) :
    (f.magic ++ LittleEndian.bytes32 count).length = headerSize := by
  cases f <;> rfl

theorem Header.read_of_short {code : List UInt8} (h : code.length < headerSize) :
    Header.read code = .error (.shortHeader code.length) := by
  unfold Header.read
  split
  · simp only [List.length_cons, headerSize] at h
    omega
  · rfl

/-- The first instruction of a code section of which not all bytes are among the first `n`.  It
starts at `start`, and all before it end within the first `n` bytes. -/
structure FirstCut (code : List UInt8) (f : Format) (list : List Instruction) (n i start : Nat)
    (ins : Instruction) : Prop where
  instruction : list[i]? = some ins
  offset : ∃ o, (offsets list)[i]? = some o ∧ start = headerSize + o
  bytes : ∃ opcode rest, code.drop start = opcode :: rest ∧
    decodeOne f start opcode rest = .ok (ins, code.drop (start + ins.width))
  cut : n < start + ins.width
  before : ∀ j < i, ∀ ins' o, list[j]? = some ins' → (offsets list)[j]? = some o →
    headerSize + o + ins'.width ≤ n

/-- An instruction ends where the next one starts, or before. -/
theorem offset_add_width_le_of_lt {i j o : Nat} {ins : Instruction} (hij : j < i)
    (hins : list[j]? = some ins) (ho : (offsets list)[j]? = some o) :
    o + ins.width ≤ totalSize (list.take i) := by
  have hle := Instruction.totalSize_take_le list (Nat.succ_le_of_lt hij)
  rw [offsets_getElem? (Instruction.lt_length_of_offset ho)] at ho
  rw [List.take_add_one, hins, Instruction.totalSize_append, Option.some.inj ho] at hle
  exact hle

/-- **A section that was cut or lengthened is recognized.**  A section that was cut ends too early:
in its header, where it ends, or at the first instruction that has lost a byte, where that starts.
In a section that was lengthened, bytes follow the last instruction. -/
theorem decode_resized {code : List UInt8} (h : decode code = .ok (f, list)) :
    (∀ n < code.length, ∃ e, decode (code.take n) = .error e ∧ e.isTruncated = true ∧
      (n < headerSize → e.offset = n) ∧
      (headerSize ≤ n → ∃ i ins, FirstCut code f list n i e.offset ins)) ∧
    ∀ x ≠ [], decode (code ++ x) = .error (.trailing code.length x.length) := by
  obtain ⟨count, body, hcode, hcount, hreads⟩ := written_of_decode h
  have hheader := length_header f count
  have hlength : code.length = headerSize + body.length := by
    rw [hcode, List.length_append, hheader]
  have hbody : code.drop headerSize = body := by
    rw [hcode, ← hheader, List.drop_left]
  constructor
  · intro n hn
    by_cases hshort : n < headerSize
    · have htake : (code.take n).length = n := List.length_take_of_le (Nat.le_of_lt hn)
      have hread : Header.read (code.take n) = .error (.shortHeader (code.take n).length) :=
        Header.read_of_short (by rwa [htake])
      refine ⟨_, bind_error_iff.2 (Or.inl hread), rfl, fun _ => htake, fun hlong => ?_⟩
      omega
    · have hlong := Nat.not_lt.1 hshort
      obtain ⟨e, i, ins, hfails, htruncated, hins, hoffset, hle, hlt⟩ :=
        hreads.cut (n := n - headerSize) (by omega) count.toNat 0 []
      have htake : code.take n =
          f.magic ++ LittleEndian.bytes32 count ++ body.take (n - headerSize) := by
        rw [hcode, List.take_append, hheader, List.take_of_length_le (by rwa [hheader])]
      rw [hcount] at hfails
      refine ⟨e, ?_, htruncated, fun hn => absurd hn hshort, fun _ => ⟨i, ins, ?_⟩⟩
      · rw [htake, decode_written, hfails]
        rfl
      · have hi : i < list.length := (List.getElem?_eq_some_iff.1 hins).1
        obtain ⟨opcode, rest, hrest, hone⟩ := hreads.at hins
        refine ⟨hins, ⟨_, offsets_getElem? hi, hoffset⟩, ?_, by omega, ?_⟩
        · rw [hoffset]
          refine ⟨opcode, rest, ?_, ?_⟩
          · rw [← hrest, ← hbody, List.drop_drop]
          · rw [hone, ← hbody, List.drop_drop, Nat.add_assoc]
        · intro j hj ins' o hins' ho
          have := offset_add_width_le_of_lt hj hins' ho
          omega
  · intro x hx
    have hfails := hreads.lengthened hx count.toNat 0 []
    rw [hcount] at hfails
    rw [hcode, List.append_assoc _ body, decode_written, hfails, ← hcode, hlength, hreads.length_eq]
    rfl

/-- A section of two instructions, cut in its header, inside the operands of the first and before
the second, and with a byte too many. -/
theorem decode_resized_jump :
    let code := text "KATS" ++ [2, 0, 0, 0, 10, 5, 0, 0, 0, 4]
    let list : List Instruction := [⟨.jmp, [5], []⟩, ⟨.ret, [], []⟩]
    decode code = .ok (.kats, list) ∧
      (∃ e, decode (code.take 6) = .error e ∧ e.isTruncated = true ∧ e.offset = 6) ∧
      (decode (code.take 11) = .error (.shortOperands 8 10 .jmp 4 2) ∧
        ∃ i ins, FirstCut code .kats list 11 i 8 ins) ∧
      (decode (code.take 13) = .error (.missing 13 1 2) ∧
        ∃ i ins, FirstCut code .kats list 13 i 13 ins) ∧
      decode (code ++ [4]) = .error (.trailing 14 1) := by
  intro code list
  have hdecode : decode code = .ok (.kats, list) := by decide
  have hinside : decode (code.take 11) = .error (.shortOperands 8 10 .jmp 4 2) := by decide
  have hbefore : decode (code.take 13) = .error (.missing 13 1 2) := by decide
  obtain ⟨hcut, hadded⟩ := decode_resized hdecode
  obtain ⟨e, he, htruncated, hheader, -⟩ := hcut 6 (by decide)
  obtain ⟨e₁, he₁, -, -, hfirst⟩ := hcut 11 (by decide)
  obtain ⟨e₂, he₂, -, -, hsecond⟩ := hcut 13 (by decide)
  obtain rfl := Except.error.inj (he₁.symm.trans hinside)
  obtain rfl := Except.error.inj (he₂.symm.trans hbefore)
  exact ⟨hdecode, ⟨e, he, htruncated, hheader (by decide)⟩, ⟨hinside, hfirst (by decide)⟩,
    ⟨hbefore, hsecond (by decide)⟩, hadded [4] (by decide)⟩

end StackCompiler.Code
