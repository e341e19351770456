/-
**Code sections are read back as they were written.**

A code section is read with a cursor and written by appending, and two tables say which opcode
stands for which operation.  The two directions meet in one instruction: its opcode is the one that
the table gives for the operation that the table gives for the opcode, and its operands are read
from exactly the bytes that were written for them.

Only what a section can hold comes back.  Markers and symbols have no bytes, and of an operand that
is stored as a half word the last 16 bits remain; `Instruction.stored` says what is
left of an instruction.

* `Code.decode_encode_inverse` — **decoding and encoding are inverse to each other**.
-/

import Mathlib.Data.List.Basic
import StackCompiler.Bytecode.Code
import StackCompiler.Proofs.Outcomes
import StackCompiler.Proofs.Words

namespace StackCompiler

open LittleEndian (bytes16 bytes32 bytes32_word half_bytes word_bytes)

/-! ### What a section can hold -/

/-- What an operand of a layout is read back as: a half word keeps its last 16 bits, as a number
without a sign. -/
def Op.Layout.storedOperand (layout : Op.Layout) (v : Int32) : Int32 :=
  match layout with
  | .half | .halfPair => Int32.ofInt (v.toInt % 2 ^ 16)
  | .none | .word => v

/-- What an instruction is read back as. -/
def Instruction.stored (ins : Instruction) : Instruction where
  op := ins.op
  operands := ins.operands.map ins.op.layout.storedOperand

namespace Code

/-- What a list is read back as: its markers have no bytes. -/
def storedList (list : List Instruction) : List Instruction :=
  (list.filter fun ins => !ins.op.isMarker).map Instruction.stored

theorem cut_operand (v : Int32) :
    v.toUInt32.toUInt16.toUInt32.toInt32 = Int32.ofInt (v.toInt % 2 ^ 16) := by
  have hv : v.toInt = (v.toUInt32.toNat : Int).bmod (2 ^ 32) := BitVec.toInt_eq_toNat_bmod _
  have hr : v.toInt % 2 ^ 16 = (v.toUInt32.toUInt16.toUInt32.toNat : Int) := by
    rw [hv, UInt16.toNat_toUInt32, UInt32.toNat_toUInt16, Int.bmod_def]
    split <;> omega
  rw [hr, Int32.ofInt_eq_ofNat]
  exact (Int32.ofNat_bitVecToNat _).symm

/-! ### Operands -/

theorem length_writeOperands (layout : Op.Layout) (vs : List Int32)
    (h : vs.length = layout.operands) : (writeOperands layout vs).length = layout.size := by
  cases layout <;> simp only [Op.Layout.operands] at h
  case none => rfl
  case word =>
    obtain ⟨v, rfl⟩ := List.length_eq_one_iff.1 h
    rfl
  case half =>
    obtain ⟨v, rfl⟩ := List.length_eq_one_iff.1 h
    rfl
  case halfPair =>
    obtain ⟨v, u, rfl⟩ := List.length_eq_two.1 h
    rfl

/-- Operands that were written are read back, and what follows them is left. -/
theorem readOperands_write (layout : Op.Layout) (vs : List Int32) (rest : List UInt8)
    (h : vs.length = layout.operands) :
    readOperands layout (writeOperands layout vs ++ rest) =
      some (vs.map layout.storedOperand, rest) := by
  have half : ∀ v : Int32, halfOperand v.toUInt32.toUInt16.toUInt8
      (v.toUInt32.toUInt16 >>> 8).toUInt8 = Int32.ofInt (v.toInt % 2 ^ 16) := by
    intro v
    rw [halfOperand, half_bytes, cut_operand]
  cases layout <;> simp only [Op.Layout.operands] at h
  case none =>
    obtain rfl := List.length_eq_zero_iff.1 h
    rfl
  case word =>
    obtain ⟨v, rfl⟩ := List.length_eq_one_iff.1 h
    simp only [writeOperands, List.flatMap_cons, List.flatMap_nil, bytes32,
      List.cons_append, List.nil_append, readOperands, word_bytes,
      Int32.toInt32_toUInt32, Op.Layout.storedOperand, List.map_cons, List.map_nil]
  case half =>
    obtain ⟨v, rfl⟩ := List.length_eq_one_iff.1 h
    simp only [writeOperands, List.flatMap_cons, List.flatMap_nil, bytes16,
      List.cons_append, List.nil_append, readOperands, half, Op.Layout.storedOperand,
      List.map_cons, List.map_nil]
  case halfPair =>
    obtain ⟨v, u, rfl⟩ := List.length_eq_two.1 h
    simp only [writeOperands, List.flatMap_cons, List.flatMap_nil, bytes16,
      List.cons_append, List.nil_append, readOperands, half, Op.Layout.storedOperand,
      List.map_cons, List.map_nil]

/-- Operands that were read are written to the bytes that they were read from. -/
theorem write_readOperands {layout : Op.Layout} {bytes rest : List UInt8} {vs : List Int32}
    (h : readOperands layout bytes = some (vs, rest)) :
    vs.length = layout.operands ∧ bytes = writeOperands layout vs ++ rest := by
  have half : ∀ b₀ b₁ : UInt8, bytes16 (halfOperand b₀ b₁).toUInt32.toUInt16 = [b₀, b₁] := by
    intro b₀ b₁
    rw [halfOperand, UInt32.toUInt32_toInt32, UInt16.toUInt16_toUInt32, LittleEndian.bytes16_half]
  unfold readOperands at h
  split at h
  · obtain ⟨rfl, rfl⟩ := by simpa using h
    exact ⟨rfl, rfl⟩
  · obtain ⟨rfl, rfl⟩ := by simpa using h
    refine ⟨rfl, ?_⟩
    simp only [writeOperands, List.flatMap_cons, List.flatMap_nil, UInt32.toUInt32_toInt32,
      bytes32_word, List.cons_append, List.nil_append]
  iterate 2
    · obtain ⟨rfl, rfl⟩ := by simpa using h
      refine ⟨rfl, ?_⟩
      simp only [writeOperands, List.flatMap_cons, List.flatMap_nil, half, List.cons_append,
        List.nil_append]
  · cases h

/-! ### Opcodes -/

/-- The rows of a table are found by their opcodes and by their operations, and no marker is among
them. -/
theorem numbering_rows (f : Format) : ∀ row ∈ f.numbering,
    f.op? row.1 = some row.2 ∧ f.opcode? row.2 = some row.1 ∧ row.2.isMarker = false ∧
      row.2.width = 1 + row.2.layout.size := by
  cases f <;> decide

variable {f : Format} {ins : Instruction} {list : List Instruction} {chunks : List (List UInt8)}
  {code : List UInt8} {opcode : UInt8}

theorem opcode?_of_op? {o : Op} (h : f.op? opcode = some o) :
    f.opcode? o = some opcode ∧ o.isMarker = false ∧ o.width = 1 + o.layout.size := by
  obtain ⟨⟨b, o'⟩, hrow, rfl⟩ := Option.map_eq_some_iff.1 h
  obtain rfl : b = opcode := by simpa using List.find?_some hrow
  exact (numbering_rows f _ (List.mem_of_find?_eq_some hrow)).2

theorem op?_of_opcode? {o : Op} (h : f.opcode? o = some opcode) :
    f.op? opcode = some o ∧ o.width = 1 + o.layout.size := by
  obtain ⟨⟨b, o'⟩, hrow, rfl⟩ := Option.map_eq_some_iff.1 h
  obtain rfl : o' = o := by simpa using List.find?_some hrow
  obtain ⟨hop, -, -, hwidth⟩ := numbering_rows f _ (List.mem_of_find?_eq_some hrow)
  exact ⟨hop, hwidth⟩

/-! ### One instruction -/

variable {index : Nat}

/-- What an instruction other than a marker is encoded to. -/
theorem encodeOne_eq_ok {chunk : List UInt8} (hm : ins.op.isMarker = false)
    (h : encodeOne f index ins = .ok chunk) :
    ∃ opcode, f.opcode? ins.op = some opcode ∧ ins.operands.length = ins.op.layout.operands ∧
      chunk = opcode :: writeOperands ins.op.layout ins.operands := by
  unfold encodeOne at h
  simp only [hm, Bool.false_eq_true, if_false] at h
  split at h
  · cases h
  · next opcode hop =>
    split at h
    · next hlen => exact ⟨opcode, hop, hlen, by simpa using h.symm⟩
    · cases h

/-- **An instruction that was encoded is decoded to what is stored of it.** -/
theorem decodeOne_encoded {chunk : List UInt8} (hm : ins.op.isMarker = false)
    (h : encodeOne f index ins = .ok chunk) (offset : Nat) (rest : List UInt8) :
    ∃ opcode operands, chunk = opcode :: operands ∧ chunk.length = ins.width ∧
      decodeOne f offset opcode (operands ++ rest) = .ok (ins.stored, rest) := by
  obtain ⟨opcode, hop, hlen, rfl⟩ := encodeOne_eq_ok hm h
  obtain ⟨hop?, hwidth⟩ := op?_of_opcode? hop
  refine ⟨opcode, _, rfl, ?_, ?_⟩
  · rw [Instruction.width, hwidth, List.length_cons, length_writeOperands _ _ hlen, Nat.add_comm]
  · simp only [decodeOne, hop?, readOperands_write _ _ _ hlen]
    rfl

/-- **An instruction that was decoded is encoded to the bytes that it was read from.** -/
theorem encodeOne_decoded {offset : Nat} {bytes rest : List UInt8}
    (h : decodeOne f offset opcode bytes = .ok (ins, rest)) (index : Nat) :
    ins.op.isMarker = false ∧
      ∃ chunk, encodeOne f index ins = .ok chunk ∧ opcode :: bytes = chunk ++ rest := by
  unfold decodeOne at h
  split at h
  · cases h
  · next o hop =>
    split at h
    · cases h
    · next vs rest' hread =>
      obtain ⟨rfl, rfl⟩ := by simpa using h
      obtain ⟨hop?, hm, -⟩ := opcode?_of_op? hop
      obtain ⟨hlen, rfl⟩ := write_readOperands hread
      refine ⟨hm, opcode :: writeOperands o.layout vs, ?_, rfl⟩
      simp only [encodeOne, hm, Bool.false_eq_true, if_false, hop?, hlen, if_true]

/-! ### Lists of instructions -/

/-- The bytes of the instructions of a list, the first of which has the number `index`. -/
def chunksFrom (f : Format) (index : Nat) (list : List Instruction) :
    Except EncodeError (List (List UInt8)) :=
  (list.zipIdx index).mapM fun (ins, index) => encodeOne f index ins

/-- A list is encoded when its first instruction and the others are. -/
theorem chunksFrom_cons_eq_ok :
    chunksFrom f index (ins :: list) = .ok chunks ↔
      ∃ chunk others, encodeOne f index ins = .ok chunk ∧
        chunksFrom f (index + 1) list = .ok others ∧ chunks = chunk :: others := by
  rw [chunksFrom, List.zipIdx_cons]
  exact mapM_cons_ok_iff

theorem count_cons_marker (list : List Instruction) (h : ins.op.isMarker = true) :
    count (ins :: list) = count list := by
  simp [count, h]

theorem count_cons (list : List Instruction) (h : ins.op.isMarker = false) :
    count (ins :: list) = count list + 1 := by
  simp [count, h]

/-- **Decoding passes over what was encoded**, and goes on with what follows it. -/
theorem decodeFrom_encoded (total : Nat) (h : chunksFrom f index list = .ok chunks)
    (left i offset : Nat) (rest : List UInt8) (seen : List Instruction) :
    decodeFrom f total (count list + left) i offset (chunks.flatten ++ rest) seen =
      decodeFrom f total left (i + count list) (offset + chunks.flatten.length) rest
        ((storedList list).reverse ++ seen) := by
  induction list generalizing chunks index i offset seen with
  | nil =>
      obtain rfl : chunks = [] := by simpa [chunksFrom, pure, Except.pure] using h.symm
      simp [count, storedList]
  | cons ins list ih =>
      obtain ⟨chunk, others, hchunk, hothers, rfl⟩ := chunksFrom_cons_eq_ok.1 h
      cases hm : ins.op.isMarker with
      | true =>
          -- a marker has neither bytes nor a part in the number of instructions
          obtain rfl : chunk = [] := by simpa [encodeOne, hm] using hchunk.symm
          rw [count_cons_marker list hm, List.flatten_cons, List.nil_append, ih hothers]
          simp [storedList, hm]
      | false =>
          obtain ⟨opcode, operands, rfl, hlen, hone⟩ :=
            decodeOne_encoded hm hchunk offset (others.flatten ++ rest)
          rw [count_cons list hm, Nat.add_right_comm, List.flatten_cons, List.cons_append,
            List.cons_append, List.append_assoc, decodeFrom, hone]
          show decodeFrom f total (count list + left) (i + 1) (offset + ins.stored.width)
            (others.flatten ++ rest) (ins.stored :: seen) = _
          rw [ih hothers]
          have hw : ins.stored.width = (opcode :: operands).length := hlen.symm
          simp only [hw, storedList, hm, Bool.not_false, List.filter_cons_of_pos, List.map_cons,
            List.reverse_cons, List.append_assoc, List.singleton_append, List.length_append,
            List.length_cons]
          congr 1 <;> omega

/-! ### Bytes that are read -/

/-- Bytes that are read as instructions one after the other, the first of them at `offset`. -/
inductive Reads (f : Format) : Nat → List UInt8 → List Instruction → Prop where
  | nil (offset : Nat) : Reads f offset [] []
  | cons {offset : Nat} {opcode : UInt8} {bytes rest : List UInt8} {ins : Instruction}
      {list : List Instruction} (hone : decodeOne f offset opcode bytes = .ok (ins, rest))
      (h : Reads f (offset + ins.width) rest list) : Reads f offset (opcode :: bytes) (ins :: list)

section Reads

variable {f : Format} {offset : Nat} {bytes : List UInt8} {list list' : List Instruction}

/-- Decoding reads as many instructions as it is asked for, and all bytes. -/
theorem reads_of_decodeFrom {total left i : Nat} {seen : List Instruction}
    (h : decodeFrom f total left i offset bytes seen = .ok list) :
    ∃ tail, list = seen.reverse ++ tail ∧ tail.length = left ∧ Reads f offset bytes tail := by
  induction left generalizing i offset bytes seen with
  | zero =>
      cases bytes with
      | nil =>
          obtain rfl : seen.reverse = list := by simpa [decodeFrom] using h
          exact ⟨[], by simp, rfl, Reads.nil offset⟩
      | cons b bytes => simp [decodeFrom] at h
  | succ left ih =>
      cases bytes with
      | nil => simp [decodeFrom] at h
      | cons opcode bytes =>
          rw [decodeFrom] at h
          obtain ⟨⟨ins, rest⟩, hone, h⟩ := bind_ok_iff.1 h
          obtain ⟨tail, rfl, rfl, htail⟩ := ih h
          exact ⟨ins :: tail, by simp, rfl, Reads.cons hone htail⟩

/-- **What was read is encoded to the bytes that it was read from.** -/
theorem Reads.encoded (h : Reads f offset bytes list) : count list = list.length ∧
    ∀ index, ∃ chunks, chunksFrom f index list = .ok chunks ∧ chunks.flatten = bytes := by
  induction h with
  | nil => exact ⟨rfl, fun index => ⟨[], rfl, rfl⟩⟩
  | cons hone _ ih =>
      have hm := (encodeOne_decoded hone 0).1
      refine ⟨by rw [count_cons _ hm, ih.1, List.length_cons], fun index => ?_⟩
      obtain ⟨-, chunk, hchunk, hbytes⟩ := encodeOne_decoded hone index
      obtain ⟨chunks, hothers, rfl⟩ := ih.2 (index + 1)
      exact ⟨chunk :: chunks, chunksFrom_cons_eq_ok.2 ⟨_, _, hchunk, hothers, rfl⟩,
        by rw [List.flatten_cons, hbytes]⟩

/-- Bytes are read in one way, however many instructions are asked for. -/
theorem Reads.unique (h : Reads f offset bytes list) (h' : Reads f offset bytes list') :
    list = list' := by
  induction h generalizing list' with
  | nil =>
      cases h'
      rfl
  | cons hone _ ih =>
      cases h' with
      | cons hone' h' =>
          obtain ⟨rfl, rfl⟩ := Prod.mk.inj (Except.ok.inj (hone.symm.trans hone'))
          rw [ih h']

/-- An instruction that was decoded has bytes, and it has no name. -/
theorem width_pos_of_decodeOne {opcode : UInt8} {rest : List UInt8} {ins : Instruction}
    (h : decodeOne f offset opcode bytes = .ok (ins, rest)) : 0 < ins.width ∧ ins.symbol = [] := by
  unfold decodeOne at h
  split at h
  · cases h
  · next o hop =>
    split at h
    · cases h
    · obtain ⟨rfl, -⟩ := by simpa using h
      have hwidth := (opcode?_of_op? hop).2.2
      refine ⟨?_, rfl⟩
      show 0 < o.width
      omega

/-- Every instruction that was read has bytes, and none has a name. -/
theorem Reads.plain (h : Reads f offset bytes list) :
    ∀ ins ∈ list, 0 < ins.width ∧ ins.symbol = [] := by
  induction h with
  | nil => exact List.forall_mem_nil _
  | cons hone _ ih => exact List.forall_mem_cons.2 ⟨width_pos_of_decodeOne hone, ih⟩

end Reads

/-! ### Sections -/

theorem ofMagic?_magic (f : Format) : Format.ofMagic? f.magic = some f := by
  cases f <;> decide

theorem Header.read_written (f : Format) (n : UInt32) (body : List UInt8) :
    Header.read (f.magic ++ bytes32 n ++ body) = .ok ⟨f, n⟩ := by
  have key : ∀ m₀ m₁ m₂ m₃ : UInt8, f.magic = [m₀, m₁, m₂, m₃] →
      Header.read ([m₀, m₁, m₂, m₃] ++ bytes32 n ++ body) = .ok ⟨f, n⟩ := by
    intro m₀ m₁ m₂ m₃ hm
    simp only [bytes32, List.cons_append, List.nil_append, Header.read, word_bytes]
    rw [← hm, ofMagic?_magic]
  cases f with
  | kats => exact key 75 65 84 83 rfl
  | oats => exact key 79 65 84 83 rfl

theorem Header.written_of_read {h : Header} (hr : Header.read code = .ok h) :
    code = h.format.magic ++ bytes32 h.count ++ code.drop headerSize := by
  unfold Header.read at hr
  split at hr
  · next m₀ m₁ m₂ m₃ c₀ c₁ c₂ c₃ body =>
    split at hr
    · cases hr
    · next f hf =>
      obtain rfl : ⟨f, LittleEndian.word c₀ c₁ c₂ c₃⟩ = h := by simpa using hr
      have hm : f.magic = [m₀, m₁, m₂, m₃] := by
        unfold Format.ofMagic? at hf
        split at hf
        · next hk => rw [← Option.some.inj hf, hk]
        · split at hf
          · next ho => rw [← Option.some.inj hf, ho]
          · cases hf
      simp [hm, bytes32_word, headerSize]
  · cases hr

/-- **What a section that can be decoded is made of.** -/
theorem written_of_decode (h : decode code = .ok (f, list)) :
    ∃ (count : UInt32) (body : List UInt8),
      code = f.magic ++ bytes32 count ++ body ∧ list.length = count.toNat ∧
      Reads f headerSize body list := by
  obtain ⟨header, hheader, h⟩ := bind_ok_iff.1 h
  obtain ⟨_, hfrom, h⟩ := bind_ok_iff.1 h
  obtain ⟨rfl, rfl⟩ := Prod.mk.inj (pure_ok_iff.1 h)
  obtain ⟨_, rfl, hlength, hreads⟩ := reads_of_decodeFrom hfrom
  exact ⟨header.count, code.drop headerSize, Header.written_of_read hheader, hlength, hreads⟩

theorem plain_of_decode (h : decode code = .ok (f, list)) :
    ∀ ins ∈ list, 0 < ins.width ∧ ins.symbol = [] := by
  obtain ⟨_, _, -, -, hreads⟩ := written_of_decode h
  exact hreads.plain

theorem width_pos_of_decode (h : decode code = .ok (f, list)) : ∀ ins ∈ list, 0 < ins.width :=
  fun ins hins => (plain_of_decode h ins hins).1

/-- A list is encoded to a header and the bytes of its instructions. -/
theorem encode_eq_ok :
    encode f list = .ok code ↔ ∃ chunks, chunksFrom f 0 list = .ok chunks ∧
      code = f.magic ++ bytes32 (count list).toUInt32 ++ chunks.flatten := by
  have hencode : encode f list = (do
      let body ← chunksFrom f 0 list
      return f.magic ++ bytes32 (count list).toUInt32 ++ body.flatten) := rfl
  rw [hencode, bind_ok_iff]
  refine exists_congr fun chunks => and_congr_right fun _ => ?_
  rw [pure_ok_iff, eq_comm]

theorem decode_written (f : Format) (n : UInt32) (body : List UInt8) :
    decode (f.magic ++ bytes32 n ++ body) =
      (decodeFrom f n.toNat n.toNat 0 headerSize body []).map fun list => (f, list) := by
  have hdrop : (f.magic ++ bytes32 n ++ body).drop headerSize = body := by
    cases f <;> rfl
  simp only [decode, Header.read_written, hdrop]
  cases h : decodeFrom f n.toNat n.toNat 0 headerSize body [] <;>
    simp [bind, Except.bind, pure, Except.pure, Except.map, h]

/-- The body of an encoded list, read with its own number of instructions. -/
theorem decodeFrom_body (total : Nat) (h : chunksFrom f 0 list = .ok chunks) :
    decodeFrom f total (count list) 0 headerSize chunks.flatten [] = .ok (storedList list) := by
  have := decodeFrom_encoded total h 0 0 headerSize [] []
  simpa [decodeFrom] using this

theorem decode_of_encode (hc : count list < 2 ^ 32) (h : encode f list = .ok code) :
    decode code = .ok (f, storedList list) := by
  obtain ⟨chunks, hchunks, rfl⟩ := encode_eq_ok.1 h
  have hn : (count list).toUInt32.toNat = count list := by
    rw [Nat.toUInt32, UInt32.toNat_ofNat_of_lt' hc]
  rw [decode_written, hn, decodeFrom_body _ hchunks]
  rfl

/-- Whatever the header counts, a list that can be encoded is only decoded to what is stored of
it. -/
theorem decoded_of_encode {f' : Format} {list' : List Instruction} (h : encode f list = .ok code)
    (h' : decode code = .ok (f', list')) : list' = storedList list := by
  obtain ⟨chunks, hchunks, rfl⟩ := encode_eq_ok.1 h
  rw [decode_written] at h'
  obtain ⟨l, hl, heq⟩ := map_ok_iff.1 h'
  -- the header may count fewer than there are, but then decoding would have stopped too early
  obtain ⟨_, rfl, -, hreads⟩ := reads_of_decodeFrom hl
  obtain ⟨_, hstored, -, hreads'⟩ := reads_of_decodeFrom (decodeFrom_body 0 hchunks)
  rw [← (Prod.mk.inj heq).2, hreads.unique hreads', hstored]
  rfl

theorem encode_of_decode (h : decode code = .ok (f, list)) : encode f list = .ok code := by
  obtain ⟨counted, body, rfl, hlength, hreads⟩ := written_of_decode h
  obtain ⟨hcount, hchunks⟩ := hreads.encoded
  obtain ⟨chunks, hok, rfl⟩ := hchunks 0
  refine encode_eq_ok.2 ⟨chunks, hok, ?_⟩
  rw [hcount, hlength, show counted.toNat.toUInt32 = counted from UInt32.ofNat_toNat]

/-- **Decoding and encoding are inverse to each other.**  A section that can be decoded is what its
instructions are encoded to; and a list that can be encoded, and whose instructions the header can
count, is decoded to what is stored of it. -/
theorem decode_encode_inverse :
    (∀ (code : List UInt8) (f : Format) (list : List Instruction),
      decode code = .ok (f, list) → encode f list = .ok code) ∧
    (∀ (f : Format) (list : List Instruction) (code : List UInt8), count list < 2 ^ 32 →
      encode f list = .ok code → decode code = .ok (f, storedList list)) :=
  ⟨fun _ _ _ => encode_of_decode, fun _ _ _ => decode_of_encode⟩

/-- A list with a marker, with a symbol on an instruction that keeps none, and with operands that do
not fit their half words. -/
theorem decode_encode_inverse_cut :
    let list : List Instruction :=
      [⟨.entry, [], text "main"⟩, ⟨.iconst, [-2], text "x"⟩, ⟨.load, [65538], []⟩,
        ⟨.invoke, [-1, 3], []⟩]
    let code : List UInt8 :=
      [79, 65, 84, 83, 3, 0, 0, 0, 1, 254, 255, 255, 255, 0x2C, 2, 0, 8, 255, 255, 3, 0]
    let read : List Instruction :=
      [⟨.iconst, [-2], []⟩, ⟨.load, [2], []⟩, ⟨.invoke, [65535, 3], []⟩]
    (encode .oats list = .ok code ∧ decode code = .ok (.oats, read)) ∧
      decode code = .ok (.oats, storedList list) ∧ encode .oats read = .ok code := by
  refine ⟨⟨by decide, by decide⟩, ?_, ?_⟩
  · exact decode_encode_inverse.2 _ _ _ (by decide) (by decide)
  · exact decode_encode_inverse.1 _ _ _ (by decide)

end Code

end StackCompiler
