/-
**Containers are read back as they were built.**

A container is written section by section behind a header that holds the sizes of the sections, and
it is read by cutting off as many bytes as the header says.  The symbol table has the same form on a
smaller scale.  A size that fits its word is read back as it was written, so every reader takes
exactly the bytes that the writer has put there, and goes on with what follows them.

* `SymbolTable.row_built`, `SymbolTable.rowsFrom_built` — **a row, and any number of rows, are read
  back**, whatever follows them;
* `Container.parse_build` — **a container is read back**.
-/

import StackCompiler.Object.Container
import StackCompiler.Proofs.Outcomes
import StackCompiler.Proofs.Words

namespace StackCompiler

open LittleEndian (bytes32 word_bytes)

/-! ### Symbol tables -/

namespace SymbolTable

section Cursors

variable (part : Part) (rest : List UInt8) (offset : Nat)

theorem word_written (w : UInt32) :
    Cursor.word ⟨bytes32 w ++ rest, offset⟩ part = .ok (w, ⟨rest, offset + 4⟩) := by
  simp only [bytes32, List.cons_append, List.nil_append, Cursor.word, word_bytes]

theorem take_written (bs : List UInt8) :
    Cursor.take ⟨bs ++ rest, offset⟩ part bs.length = .ok (bs, ⟨rest, offset + bs.length⟩) := by
  have hlong : ¬(bs ++ rest).length < bs.length := by
    rw [List.length_append]
    omega
  rw [Cursor.take, if_neg hlong, List.take_left, List.drop_left]

theorem flags_written (kind binding defined : UInt8) :
    Cursor.flags ⟨[kind, binding, defined] ++ rest, offset⟩ part =
      .ok ((kind, binding, defined), ⟨rest, offset + 3⟩) := rfl

end Cursors

theorem length_buildRow (s : Symbol) : (buildRow s).length = s.name.length + 11 := by
  simp only [buildRow, bytes32, List.length_append, List.length_cons, List.length_nil]
  omega

/-- **A row is read back**, and what follows it is left. -/
theorem row_built {s : Symbol} (h : s.name.length < 2 ^ 32) (index offset : Nat)
    (rest : List UInt8) :
    Cursor.row ⟨buildRow s ++ rest, offset⟩ index =
      .ok (s, ⟨rest, offset + (buildRow s).length⟩) := by
  have hdefined : ((if s.defined then 1 else 0 : UInt8) == 1) = s.defined := by
    cases s.defined <;> rfl
  have hoffset : offset + (buildRow s).length = offset + 4 + s.name.length + 3 + 4 := by
    rw [length_buildRow]
    omega
  rw [hoffset]
  simp only [buildRow, List.append_assoc, Cursor.row, word_written, ok_bind, toNat_toUInt32 h,
    take_written, flags_written, hdefined]
  rfl

variable {symbols : List Symbol}

/-- **Rows are read back in their order**, behind what was read before. -/
theorem rowsFrom_built (h : ∀ s ∈ symbols, s.name.length < 2 ^ 32) (index offset : Nat)
    (rest : List UInt8) (seen : List Symbol) :
    rowsFrom symbols.length index ⟨symbols.flatMap buildRow ++ rest, offset⟩ seen =
      .ok (seen.reverse ++ symbols) := by
  induction symbols generalizing index offset seen with
  | nil => simp [rowsFrom]
  | cons s symbols ih =>
      obtain ⟨hs, hsymbols⟩ := List.forall_mem_cons.1 h
      rw [List.length_cons, rowsFrom, List.flatMap_cons, List.append_assoc, row_built hs, ok_bind]
      dsimp only
      rw [ih hsymbols, List.reverse_cons, List.append_assoc]
      rfl

/-- Every row takes up room, and every name does. -/
theorem length_rows (symbols : List Symbol) :
    symbols.length ≤ (symbols.flatMap buildRow).length ∧
      ∀ s ∈ symbols, s.name.length ≤ (symbols.flatMap buildRow).length := by
  induction symbols with
  | nil => exact ⟨Nat.le_refl 0, List.forall_mem_nil _⟩
  | cons s symbols ih =>
      obtain ⟨hcount, hnames⟩ := ih
      rw [List.flatMap_cons, List.length_append, length_buildRow, List.length_cons]
      refine ⟨by omega, List.forall_mem_cons.2 ⟨by omega, fun s' hs' => ?_⟩⟩
      have := hnames s' hs'
      omega

/-- **A table whose size fits a word has rows and names that do.** -/
theorem short_of_build {n : Nat} (hn : 0 < n)
    (h : (build symbols).length < n) : symbols.length < n ∧ ∀ s ∈ symbols, s.name.length < n := by
  obtain ⟨hcount, hnames⟩ := length_rows symbols
  rw [build] at h
  split at h
  · next hempty =>
    rw [List.isEmpty_iff.1 hempty]
    exact ⟨hn, List.forall_mem_nil _⟩
  · rw [List.length_append] at h
    refine ⟨by omega, fun s hs => ?_⟩
    have := hnames s hs
    omega

theorem parse_built (h : (build symbols).length < 2 ^ 32) :
    parse (build symbols) = .ok symbols := by
  obtain ⟨hcount, hnames⟩ := short_of_build (by decide) h
  cases symbols with
  | nil => rfl
  | cons s symbols =>
      have hbuild : build (s :: symbols) = bytes32 (s :: symbols).length.toUInt32 ++
          (s :: symbols).flatMap buildRow := rfl
      have hrows := rowsFrom_built hnames 0 4 [] []
      rw [List.append_nil] at hrows
      rw [parse, hbuild, if_neg (by simp [bytes32]), word_written, ok_bind]
      dsimp only
      rw [toNat_toUInt32 hcount, hrows]
      rfl

end SymbolTable

/-! ### Containers -/

namespace Container

theorem Header.read?_written (h : Header) (rest : List UInt8) :
    Header.read? (h.bytes ++ rest) = some (h, rest) := by
  simp only [Header.bytes, Magic.bytes, bytes32, List.cons_append, List.nil_append,
    Header.read?, word_bytes]

theorem Header.length_bytes (h : Header) : h.bytes.length = headerSize := rfl

/-- **A section is cut off where it ends.** -/
theorem takeSection_append (name : String) {total start : Nat} (bs rest : List UInt8)
    (h : start + bs.length ≤ total) :
    takeSection name total start bs.length (bs ++ rest) = .ok (bs, rest) := by
  rw [takeSection, if_neg (Nat.not_lt.2 h), List.take_left, List.drop_left]

/-- A container is not taken for a code section, unless its magic is one of a code section. -/
theorem isBareCode_build {c : Container} (h : ∀ f : Format, c.magic.bytes ≠ f.magic) :
    isBareCode (build c) = false := by
  have hwritten : ∀ f : Format,
      (if c.magic = Magic.absent then Magic.usual else c.magic).bytes ≠ f.magic := by
    split
    · intro f
      cases f <;> decide
    · exact h
  have htake : (build c).take 4 =
      (if c.magic = Magic.absent then Magic.usual else c.magic).bytes := rfl
  rw [isBareCode, htake, Format.ofMagic?, if_neg (hwritten .kats), if_neg (hwritten .oats)]
  rfl

/-- What was built is read back if it is not taken for a code section, and if the sizes of its
sections fit the words of the header. -/
theorem parse_of_not_bare {c : Container} (hbare : isBareCode (build c) = false)
    (hcode : c.code.length < 2 ^ 32) (hdata : c.data.length < 2 ^ 32)
    (htable : (SymbolTable.build c.symbols).length < 2 ^ 32) :
    parse (build c) =
      .ok { c with magic := if c.magic = Magic.absent then Magic.usual else c.magic } := by
  have hlength : (build c).length = headerSize + c.code.length + c.data.length +
      (SymbolTable.build c.symbols).length := by
    simp only [build, List.length_append, Header.length_bytes]
  rw [parse, hbare, if_neg Bool.false_ne_true, hlength]
  simp only [build, List.append_assoc, Header.read?_written, toNat_toUInt32 hcode,
    toNat_toUInt32 hdata, toNat_toUInt32 htable]
  rw [takeSection_append "code" c.code _ (by omega), ok_bind]
  dsimp only
  rw [takeSection_append "data" c.data _ (by omega), ok_bind]
  dsimp only
  -- nothing follows the last section
  have hlast := takeSection_append "symbol" (SymbolTable.build c.symbols) []
    (Nat.le_refl (headerSize + c.code.length + c.data.length +
      (SymbolTable.build c.symbols).length))
  rw [List.append_nil] at hlast
  rw [hlast, ok_bind]
  dsimp only
  rw [SymbolTable.parse_built htable]
  rfl

/-- **A container is read back**, with the usual magic if it names none.  Its magic must not be one
of a code section, and the sizes of its sections must fit the words of the header. -/
theorem parse_build (c : Container) (hmagic : ∀ f : Format, c.magic.bytes ≠ f.magic)
    (hcode : c.code.length < 2 ^ 32) (hdata : c.data.length < 2 ^ 32)
    (htable : (SymbolTable.build c.symbols).length < 2 ^ 32) :
    parse (build c) =
      .ok { c with magic := if c.magic = Magic.absent then Magic.usual else c.magic } := by
  have hbare : isBareCode (build c) = false := isBareCode_build hmagic
  exact parse_of_not_bare hbare hcode hdata htable

/-- A container without a magic of its own, with an empty section, a name of any bytes and an empty
name. -/
theorem parse_build_stray :
    let symbols : List Symbol := [⟨[255, 0, 10], 7, 200, true, 0xFFFFFFFF⟩, ⟨[], 0, 1, false, 5⟩]
    let c : Container := ⟨Magic.absent, [1, 2, 3], [], symbols, 0xDEADBEEF⟩
    ((∀ f : Format, c.magic.bytes ≠ f.magic) ∧ c.code.length < 2 ^ 32 ∧ c.data.length < 2 ^ 32 ∧
      (SymbolTable.build c.symbols).length < 2 ^ 32) ∧
    parse (build c) = .ok ⟨Magic.usual, [1, 2, 3], [], symbols, 0xDEADBEEF⟩ := by
  have hmagic : ∀ f : Format, Magic.absent.bytes ≠ f.magic := by
    intro f
    cases f <;> decide
  refine ⟨⟨hmagic, by decide, by decide, by decide⟩, ?_⟩
  exact parse_build _ hmagic (by decide) (by decide) (by decide)

end Container

end StackCompiler
