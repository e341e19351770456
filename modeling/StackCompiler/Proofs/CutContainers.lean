/-
**Containers that were cut.**

The header of a container says how long its sections are, and a symbol table says how many rows it
holds and how long their names are.  So bytes that are missing at the end are always noticed: a
container that was cut ends in its header or inside one of its sections, and a symbol table that was
cut ends in the number of its rows or inside one of them.  Reading fails there, and the failure
names the section or the row in which the cut lies.

* `SymbolTable.row_cut`, `SymbolTable.rowsFrom_cut` — **a row that was cut**, and rows of which the
  last ones were cut off;
* `Container.cut_recognized` — **a container or a symbol table that was cut is recognized**.
-/

import StackCompiler.Proofs.ContainerBytes

namespace StackCompiler

/-! ### Bytes that were cut -/

/-- The number of bytes that a cut leaves of what it goes through. -/
theorem length_cut {bs : List UInt8} (rest : List UInt8) {n : Nat} (h : n < bs.length) :
    ((bs ++ rest).take n).length = n := by
  rw [List.length_take, List.length_append]
  omega

/-- What a cut leaves if it lies behind the first bytes. -/
theorem take_behind {bs rest : List UInt8} {n : Nat} (size : Nat) (hsize : bs.length = size)
    (h : ¬n < size) : (bs ++ rest).take n = bs ++ rest.take (n - size) := by
  rw [List.take_append, List.take_of_length_le (by omega), hsize]

/-! ### Symbol tables -/

namespace SymbolTable

/-- The row that a part belongs to. -/
def Part.row? : Part → Option Nat
  | count => none
  | nameLength row | name row | body row _ => some row

/-- A failure is about a cut at `n`: what was being read lies between `start` and `stop`, and the
bytes end inside it. -/
structure Failure.Cuts (e : Failure) (start stop n : Nat) : Prop where
  start_le : start ≤ e.offset
  le_stop : e.offset + e.needed ≤ stop
  cut : e.offset + e.left = n
  short : e.left < e.needed

section Cursors

theorem word_of_short {c : Cursor} {part : Part} (h : c.rest.length < 4) :
    c.word part = .error ⟨part, 4, c.offset, c.rest.length⟩ := by
  unfold Cursor.word
  split
  · next hrest =>
    simp only [hrest, List.length_cons] at h
    omega
  · rfl

theorem flags_of_short {c : Cursor} {part : Part} (h : c.rest.length < 3) :
    c.flags part = .error ⟨part, 3, c.offset, c.rest.length⟩ := by
  unfold Cursor.flags
  split
  · next hrest =>
    simp only [hrest, List.length_cons] at h
    omega
  · rfl

variable (part : Part) (rest : List UInt8) (offset : Nat) {n : Nat}

theorem word_cut (w : UInt32) (h : n < 4) :
    Cursor.word ⟨(LittleEndian.bytes32 w ++ rest).take n, offset⟩ part =
      .error ⟨part, 4, offset, n⟩ := by
  have hlength : ((LittleEndian.bytes32 w ++ rest).take n).length = n := length_cut rest h
  rw [word_of_short (by rwa [hlength]), hlength]

theorem take_cut {bs : List UInt8} (h : n < bs.length) :
    Cursor.take ⟨(bs ++ rest).take n, offset⟩ part bs.length =
      .error ⟨part, bs.length, offset, n⟩ := by
  rw [Cursor.take, length_cut rest h, if_pos h]

theorem flags_cut (kind binding defined : UInt8) (h : n < 3) :
    Cursor.flags ⟨([kind, binding, defined] ++ rest).take n, offset⟩ part =
      .error ⟨part, 3, offset, n⟩ := by
  have hlength : (([kind, binding, defined] ++ rest).take n).length = n := length_cut rest h
  rw [flags_of_short (by rwa [hlength]), hlength]

end Cursors

/-- **A row that was cut.**  The cut lies in the length of the name, in the name, in the flags or in
the address, and all that stands before it is read as before. -/
theorem row_cut {s : Symbol} (h : s.name.length < 2 ^ 32) (index offset : Nat) {n : Nat}
    (hn : n < (buildRow s).length) :
    ∃ e, Cursor.row ⟨(buildRow s).take n, offset⟩ index = .error e ∧ e.part.row? = some index ∧
      e.Cuts offset (offset + (buildRow s).length) (offset + n) := by
  rw [length_buildRow] at hn ⊢
  simp only [buildRow, List.append_assoc, Cursor.row]
  by_cases hlength : n < 4
  · -- in the length of the name
    rw [word_cut _ _ _ _ hlength]
    refine ⟨_, rfl, rfl, ?_⟩
    constructor <;> dsimp only <;> omega
  rw [take_behind 4 rfl hlength, word_written, ok_bind]
  dsimp only
  rw [toNat_toUInt32 h]
  by_cases hname : n - 4 < s.name.length
  · -- in the name
    rw [take_cut _ _ _ hname]
    refine ⟨_, rfl, rfl, ?_⟩
    constructor <;> dsimp only <;> omega
  rw [take_behind _ rfl hname, take_written, ok_bind]
  dsimp only
  by_cases hflags : n - 4 - s.name.length < 3
  · -- in the flags
    rw [flags_cut _ _ _ _ _ _ hflags]
    refine ⟨_, rfl, rfl, ?_⟩
    constructor <;> dsimp only <;> omega
  rw [take_behind 3 rfl hflags, flags_written, ok_bind]
  dsimp only
  -- in the address, behind which there is nothing
  have hcut := word_cut (.body index s.name) [] (offset + 4 + s.name.length + 3) s.address
    (show n - 4 - s.name.length - 3 < 4 by omega)
  rw [List.append_nil] at hcut
  rw [hcut]
  refine ⟨_, rfl, rfl, ?_⟩
  constructor <;> dsimp only <;> omega

/-- **Rows of which the last ones were cut off.**  The rows before the cut are read as before. -/
theorem rowsFrom_cut {symbols : List Symbol} (h : ∀ s ∈ symbols, s.name.length < 2 ^ 32)
    (index offset : Nat) {n : Nat} (hn : n < (symbols.flatMap buildRow).length)
    (seen : List Symbol) :
    ∃ e i, rowsFrom symbols.length index ⟨(symbols.flatMap buildRow).take n, offset⟩ seen =
        .error e ∧ i < symbols.length ∧ e.part.row? = some (index + i) ∧
      e.Cuts (offset + ((symbols.take i).flatMap buildRow).length)
        (offset + ((symbols.take (i + 1)).flatMap buildRow).length) (offset + n) := by
  induction symbols generalizing index offset n seen with
  | nil => cases hn
  | cons s symbols ih =>
      obtain ⟨hs, hsymbols⟩ := List.forall_mem_cons.1 h
      rw [List.length_cons, rowsFrom, List.flatMap_cons]
      by_cases hrow : n < (buildRow s).length
      · obtain ⟨e, he, hpart, hcuts⟩ := row_cut hs index offset hrow
        rw [List.take_append_of_le_length (Nat.le_of_lt hrow)]
        refine ⟨e, 0, bind_error_iff.2 (.inl he), Nat.succ_pos _, hpart, ?_⟩
        simpa using hcuts
      · rw [List.flatMap_cons, List.length_append] at hn
        obtain ⟨e, i, he, hi, hpart, hcuts⟩ := ih hsymbols (index + 1)
          (offset + (buildRow s).length) (n := n - (buildRow s).length) (by omega) (s :: seen)
        rw [take_behind _ rfl hrow, row_built hs, ok_bind]
        refine ⟨e, i + 1, he, by omega, ?_, ?_⟩
        · rw [hpart, Nat.add_right_comm, Nat.add_assoc]
        · have hn' : offset + (buildRow s).length + (n - (buildRow s).length) = offset + n :=
            by omega
          rw [hn'] at hcuts
          simpa only [List.take_succ_cons, List.flatMap_cons, List.length_append, Nat.add_assoc]
            using hcuts

/-- Where row `i` of a table starts. -/
def rowStart (symbols : List Symbol) (i : Nat) : Nat :=
  4 + ((symbols.take i).flatMap buildRow).length

/-- A failure names the part of a table in which a cut lies: the number of rows, or one of the rows.
-/
def Failure.NamesCut (e : Failure) (symbols : List Symbol) (n : Nat) : Prop :=
  (e.part = .count ∧ e.Cuts 0 4 n) ∨
    ∃ i < symbols.length, e.part.row? = some i ∧
      e.Cuts (rowStart symbols i) (rowStart symbols (i + 1)) n

/-- **A table that was cut**, unless nothing is left of it. -/
theorem parse_cut {symbols : List Symbol} (hsymbols : symbols ≠ [])
    (hcount : symbols.length < 2 ^ 32) (hnames : ∀ s ∈ symbols, s.name.length < 2 ^ 32) {n : Nat}
    (hpos : 0 < n) (hn : n < (build symbols).length) :
    ∃ e, parse ((build symbols).take n) = .error e ∧ e.NamesCut symbols n := by
  have hbuild : build symbols =
      LittleEndian.bytes32 symbols.length.toUInt32 ++ symbols.flatMap buildRow := by
    rw [build, if_neg (by simpa using hsymbols)]
  have hleft : ((build symbols).take n).isEmpty = false := by
    rw [List.isEmpty_eq_false_iff, ← List.length_pos_iff, List.length_take]
    omega
  rw [parse, hleft, if_neg Bool.false_ne_true]
  rw [hbuild] at hn ⊢
  by_cases hword : n < 4
  · rw [word_cut _ _ _ _ hword]
    refine ⟨_, rfl, .inl ⟨rfl, ?_⟩⟩
    constructor <;> dsimp only <;> omega
  · have hrows : n - 4 < (symbols.flatMap buildRow).length := by
      rw [List.length_append] at hn
      exact Nat.sub_lt_left_of_lt_add (Nat.not_lt.1 hword) hn
    obtain ⟨e, i, he, hi, hpart, hcuts⟩ := rowsFrom_cut hnames 0 4 hrows []
    rw [take_behind 4 rfl hword, word_written, ok_bind]
    dsimp only
    rw [toNat_toUInt32 hcount]
    rw [Nat.zero_add] at hpart
    rw [Nat.add_sub_cancel' (Nat.not_lt.1 hword)] at hcuts
    exact ⟨e, he, .inr ⟨i, hi, hpart, hcuts⟩⟩

end SymbolTable

/-! ### Containers -/

namespace Container

/-- The failures of a container that ends too early. -/
def Failure.isTruncated : Failure → Bool
  | shortHeader _ | shortSection .. => true
  | symbolTable _ | hexText _ => false

/-- They are those whose text says so. -/
theorem Failure.isTruncated_iff (e : Failure) :
    e.isTruncated = true ↔ text "container truncated: " <+: e.message := by
  -- any other text starts with another letter
  have hother : ∀ {t : Text} {c : UInt8}, t.head? = some c → c ≠ 99 →
      ¬text "container truncated: " <+: t := by
    rintro t c ht hc ⟨rest, rfl⟩
    exact hc (Option.some.inj ht).symm
  cases e with
  | shortHeader size =>
      have hwords : text "container truncated: header needs 20 bytes, have " =
          text "container truncated: " ++ text "header needs 20 bytes, have " := by decide
      refine iff_of_true rfl ⟨text "header needs 20 bytes, have " ++ Numeral.decimal size, ?_⟩
      rw [message, hwords, List.append_assoc]
  | shortSection name start stop size =>
      refine iff_of_true rfl ⟨text name ++ text " section [" ++ Numeral.decimal start ++
        text ", " ++ Numeral.decimal stop ++ text ") exceeds " ++ Numeral.decimal size ++
        text " bytes", ?_⟩
      simp only [message, List.append_assoc]
  | symbolTable f =>
      refine iff_of_false Bool.false_ne_true ?_
      obtain ⟨part, needed, offset, left⟩ := f
      cases part with
      | count => exact hother (c := 109) rfl (by decide)
      | _ => exact hother (c := 115) rfl (by decide)
  | hexText f =>
      refine iff_of_false Bool.false_ne_true ?_
      cases f with
      | oddDigits line => exact hother (c := 108) rfl (by decide)
      | longLine => exact hother (c := 98) rfl (by decide)

/-- Where a section stands. -/
structure Span where
  name : String
  start : Nat
  stop : Nat
deriving DecidableEq, Repr

/-- **Where the sections of a container stand**, one behind the other. -/
def spans (c : Container) : List Span :=
  let code := headerSize + c.code.length
  let data := code + c.data.length
  [⟨"code", headerSize, code⟩, ⟨"data", code, data⟩,
    ⟨"symbol", data, data + (SymbolTable.build c.symbols).length⟩]

/-- Bytes that are no bare code do not become any when they are cut. -/
theorem isBareCode_take {bytes : List UInt8} (h : isBareCode bytes = false) (n : Nat) :
    isBareCode (bytes.take n) = false := by
  by_cases hn : n < 4
  · -- every magic has four bytes
    have hshort : ∀ f : Format, (bytes.take n).take 4 ≠ f.magic := by
      intro f heq
      have hlength := congrArg List.length heq
      rw [List.length_take, List.length_take, show f.magic.length = 4 by cases f <;> rfl] at hlength
      omega
    rw [isBareCode, Format.ofMagic?, if_neg (hshort .kats), if_neg (hshort .oats)]
    rfl
  · rw [isBareCode, List.take_take, Nat.min_eq_left (Nat.not_lt.1 hn)]
    exact h

theorem Header.read?_of_short {bytes : List UInt8} (h : bytes.length < headerSize) :
    Header.read? bytes = none := by
  unfold Header.read?
  split
  · simp only [List.length_cons, headerSize] at h
    omega
  · rfl

section Sections

variable {name : String} {total start size : Nat} {rest : List UInt8}

theorem takeSection_of_short (h : total < start + size) :
    takeSection name total start size rest =
      .error (.shortSection name start (start + size) total) := if_pos h

theorem takeSection_of_long (h : ¬total < start + size) :
    takeSection name total start size rest = .ok (rest.take size, rest.drop size) := if_neg h

end Sections

/-- **A container that was cut** ends in its header or inside a section. -/
theorem parse_cut {c : Container} (hmagic : ∀ f : Format, c.magic.bytes ≠ f.magic)
    (hcode : c.code.length < 2 ^ 32) (hdata : c.data.length < 2 ^ 32)
    (htable : (SymbolTable.build c.symbols).length < 2 ^ 32) {n : Nat} (hn : n < (build c).length) :
    (n < headerSize → parse ((build c).take n) = .error (.shortHeader n)) ∧
      (headerSize ≤ n → ∃ s ∈ c.spans, s.start ≤ n ∧ n < s.stop ∧
        parse ((build c).take n) = .error (.shortSection s.name s.start s.stop n)) := by
  have hbare : isBareCode ((build c).take n) = false := isBareCode_take (isBareCode_build hmagic) n
  have hlength : ((build c).take n).length = n := List.length_take_of_le (Nat.le_of_lt hn)
  rw [parse, hbare, if_neg Bool.false_ne_true, hlength]
  constructor
  · intro hshort
    rw [Header.read?_of_short (by rwa [hlength])]
  · intro hlong
    simp only [build, List.length_append, Header.length_bytes] at hn
    simp only [build, List.append_assoc]
    rw [take_behind headerSize (Header.length_bytes _) (Nat.not_lt.2 hlong), Header.read?_written]
    dsimp only
    rw [toNat_toUInt32 hcode, toNat_toUInt32 hdata, toNat_toUInt32 htable]
    -- the first section that does not end before the cut
    by_cases hincode : n < headerSize + c.code.length
    · refine ⟨_, List.mem_cons_self, hlong, hincode, ?_⟩
      rw [takeSection_of_short hincode]
      rfl
    rw [takeSection_of_long hincode, ok_bind]
    dsimp only
    by_cases hindata : n < headerSize + c.code.length + c.data.length
    · refine ⟨_, List.mem_cons_of_mem _ List.mem_cons_self, Nat.not_lt.1 hincode, hindata, ?_⟩
      rw [takeSection_of_short hindata]
      rfl
    rw [takeSection_of_long hindata, ok_bind]
    dsimp only
    refine ⟨_, List.mem_cons_of_mem _ (List.mem_cons_of_mem _ List.mem_cons_self),
      Nat.not_lt.1 hindata, by dsimp only; omega, ?_⟩
    rw [takeSection_of_short (by omega)]
    rfl

/-- **A container or a symbol table that was cut is recognized.**  Wherever a container is cut, it
ends too early: in its header, or inside the section in which the cut lies.  A symbol table of which
something is left, but not all, is malformed, and the failure says in which of its rows. -/
theorem cut_recognized :
    (∀ c : Container, (∀ f : Format, c.magic.bytes ≠ f.magic) → c.code.length < 2 ^ 32 →
      c.data.length < 2 ^ 32 → (SymbolTable.build c.symbols).length < 2 ^ 32 →
      ∀ n < (build c).length, ∃ e, parse ((build c).take n) = .error e ∧ e.isTruncated = true ∧
        (n < headerSize → e = .shortHeader n) ∧
        (headerSize ≤ n → ∃ s ∈ c.spans, s.start ≤ n ∧ n < s.stop ∧
          e = .shortSection s.name s.start s.stop n)) ∧
    ∀ symbols : List Symbol, symbols ≠ [] → symbols.length < 2 ^ 32 →
      (∀ s ∈ symbols, s.name.length < 2 ^ 32) →
      ∀ n, 0 < n → n < (SymbolTable.build symbols).length →
        ∃ e, SymbolTable.parse ((SymbolTable.build symbols).take n) = .error e ∧
          e.NamesCut symbols n := by
  constructor
  · intro c hmagic hcode hdata htable n hn
    obtain ⟨hheader, hsections⟩ := parse_cut hmagic hcode hdata htable hn
    by_cases hshort : n < headerSize
    · exact ⟨_, hheader hshort, rfl, fun _ => rfl, fun hlong => absurd hshort (Nat.not_lt.2 hlong)⟩
    · obtain ⟨s, hs, hstart, hstop, hfails⟩ := hsections (Nat.not_lt.1 hshort)
      exact ⟨_, hfails, rfl, fun h => absurd h hshort, fun _ => ⟨s, hs, hstart, hstop, rfl⟩⟩
  · intro symbols hsymbols hcount hnames n hpos hn
    exact SymbolTable.parse_cut hsymbols hcount hnames hpos hn

/-- A container wherever it is cut, in particular before its only byte of data, and its symbol table
cut inside the name of the second row. -/
theorem cut_recognized_names :
    let symbols : List Symbol := [⟨[97], 0, 1, true, 7⟩, ⟨[98, 99], 0, 0, false, 0⟩]
    let c : Container := ⟨Magic.usual, [1, 2, 3], [9], symbols, 0⟩
    ((∀ f : Format, c.magic.bytes ≠ f.magic) ∧ c.code.length < 2 ^ 32 ∧ c.data.length < 2 ^ 32 ∧
      (SymbolTable.build symbols).length < 2 ^ 32 ∧ ∀ s ∈ symbols, s.name.length < 2 ^ 32) ∧
    (∀ n < 53, ∃ e, parse ((build c).take n) = .error e ∧ e.isTruncated = true) ∧
    parse ((build c).take 23) = .error (.shortSection "data" 23 24 23) ∧
    SymbolTable.parse ((SymbolTable.build symbols).take 21) = .error ⟨.name 1, 2, 20, 1⟩ ∧
    SymbolTable.Failure.NamesCut ⟨.name 1, 2, 20, 1⟩ symbols 21 := by
  intro symbols c
  have hmagic : ∀ f : Format, Magic.usual.bytes ≠ f.magic := by
    intro f
    cases f <;> decide
  have hname : SymbolTable.parse ((SymbolTable.build symbols).take 21) =
      .error ⟨.name 1, 2, 20, 1⟩ := by decide
  obtain ⟨hcontainers, htables⟩ := cut_recognized
  refine ⟨⟨hmagic, by decide, by decide, by decide, by decide⟩, fun n hn => ?_, by decide,
    hname, ?_⟩
  · obtain ⟨e, he, htruncated, -⟩ :=
      hcontainers c hmagic (by decide) (by decide) (by decide) n hn
    exact ⟨e, he, htruncated⟩
  · obtain ⟨e, he, hcut⟩ := htables symbols (by decide) (by decide) (by decide) 21 (by decide)
      (by decide)
    obtain rfl := Except.error.inj (hname.symm.trans he)
    exact hcut

end Container

end StackCompiler
