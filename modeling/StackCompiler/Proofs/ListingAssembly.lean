/-
**Well-formed listings can be assembled.**

Lines are taken apart without loss, so whether a listing can be assembled is a question about its
lines and not about their text.  If every line has operands that its mnemonic takes, every label is
defined once and every label that is used is defined, then only a branch whose label is too far away
can be turned down; a listing that is short enough has no such branch.

* `Listing.Complete.outcome` — **only a branch to a label far away is turned down**;
* `Listing.WellFormed.assembles` — **a well-formed listing can be assembled**.
-/

import StackCompiler.Proofs.LineExecution
import StackCompiler.Proofs.ProgramNames

namespace StackCompiler.Listing

open Assembly (Image Labels Mnemonic Plan Planned Sized Statement Written addressOf totalWords
  addressSize assemble branchTwo emit encodeAddress encodeNumber encodeOperation jumpTo loadUpper
  memoryAccess numberSize shiftByAmount sizeAddress sizeNumber withImmediate)
open Assembly.Operand (register_name immediate_signed distance branch isIdentifier_hex one shift
  signed16 three two wordValue)

/-! ### Operands that are taken -/

/-- A number that fits the immediate field of a word. -/
def fitsHalf (n : Int) : Bool := -32768 ≤ n && n ≤ 32767

/-- Whether an operation takes these operands. -/
def takes (o : Operation) : List Operand → Bool
  | [] => o == .syscall
  | [.register _, .register _, .register _] =>
    [.addu, .subu, .and, .or, .xor, .slt].contains o || [.sllv, .srav].contains o
  | [.register _, .register _, .number n] =>
    [.addiu, .sltiu].contains o && fitsHalf n || o == .sll && (0 ≤ n && n ≤ 31)
  | [.register _, .register _, .label _] => [.beq, .bne].contains o
  | [.register _, .register _] => [.mult, .div].contains o
  | [.register _, .memory n _] => [.lw, .sw, .lbu, .sb].contains o && fitsHalf n
  | [.register _] => [.mflo, .jr].contains o
  | [.label _] => o == .j
  | _ => false

/-- Whether a mnemonic takes these operands. -/
def accepts : Mnemonic → List Operand → Bool
  | .operation o, os => takes o os
  | .move, [.register _, .register _] => true
  | .li, [.register _, .number n] => -2147483648 ≤ n && n ≤ 4294967295
  | .la, [.register _, .label _] => true
  | .la, [.register _, .address _] => true
  | .seq, [.register _, .register _, .register _] => true
  | _, _ => false

/-- A branch at `pc` to an address for which 16 bits are not enough. -/
def Far (pc a : UInt32) : Prop := distance pc a < -32768 ∨ 32767 < distance pc a

instance (pc a : UInt32) : Decidable (Far pc a) :=
  inferInstanceAs (Decidable (_ ∨ _))

/-- Whether an operation branches on two registers. -/
def branches (o : Operation) : Bool := [.beq, .bne].contains o

/-- A branch that is turned down because its label is too far away. -/
structure OutOfReach (labels : Labels) (pc : UInt32) (m : Mnemonic) (os : List Operand)
    (n : Nat) (o : Operation) (s t : Register) (l : Label) (a : UInt32) : Prop where
  mnemonic : m = .operation o
  operands : os = [.register s, .register t, .label l]
  branches : branches o
  address : labels[l.render]? = some a
  far : Far pc a
  encode : m.encode labels pc n (os.flatMap Operand.words) =
    .error (.operand (.branchRange l.render (distance pc a)))

section Encoding

variable {elide : Bool} {labels known : Labels} {pc : UInt32} {os : List Operand} {n : Int}

theorem signed16_signed (h : fitsHalf n) :
    signed16 (Numeral.signed n) = .ok (UInt16.ofInt n) := by
  rw [fitsHalf, Bool.and_eq_true, decide_eq_true_eq, decide_eq_true_eq] at h
  rw [signed16, immediate_signed (by omega) (by omega), ok_bind, if_neg (by omega)]

theorem shift_signed (h : 0 ≤ n ∧ n ≤ 31) :
    shift (Numeral.signed n) = .ok (UInt32.ofInt n) := by
  rw [shift, immediate_signed (by omega) (by omega), ok_bind, if_neg (by omega)]

/-- The word of a branch to a label with an address, if it reaches that far. -/
theorem encodeOperation_branch (pc : UInt32) {o : Operation} {s t : Register} {l : Label}
    {a : UInt32} (ho : branches o) (hs : s < 32) (ht : t < 32) (ha : labels[l.render]? = some a) :
    encodeOperation labels pc o [s.name, t.name, l.render] =
      if Far pc a then .error (.operand (.branchRange l.render (distance pc a)))
      else .ok (o.immediateWord s t (UInt16.ofInt (distance pc a))) := by
  have htwo : encodeOperation labels pc o [s.name, t.name, l.render] =
      branchTwo o labels pc [s.name, t.name, l.render] := by
    simp only [branches, List.contains_iff_mem, List.mem_cons, List.not_mem_nil, or_false] at ho
    rcases ho with rfl | rfl <;> rfl
  rw [htwo]
  simp only [branchTwo, three, ok_bind, register_name ht, register_name hs, branch,
    Assembly.Operand.label, ha]
  by_cases hfar : Far pc a
  · rw [if_pos hfar, if_pos (show _ ∨ _ from hfar)]
    rfl
  · rw [if_neg hfar, if_neg (show ¬(_ ∨ _) from hfar)]
    rfl

/-- **An operation that takes its operands has a word**, unless it is a branch that does not reach
its label. -/
theorem encodeOperation_of_takes {o : Operation} (h : takes o os) (hp : ∀ x ∈ os, x.Plain)
    (hl : ∀ l, .label l ∈ os → ∃ a, labels[l.render]? = some a) (n : Nat) :
    (∃ w, encodeOperation labels pc o (os.flatMap Operand.words) = .ok w) ∨
      ∃ s t l a, OutOfReach labels pc (.operation o) os n o s t l a := by
  unfold takes at h
  split at h
  case h_9 => cases h
  case h_1 =>
    obtain rfl := beq_iff_eq.1 h
    exact Or.inl ⟨_, rfl⟩
  case h_4 s t l =>
    -- the only operands that are taken and can be turned down
    obtain ⟨a, ha⟩ := hl l (by simp)
    simp only [List.forall_mem_cons, Operand.Plain] at hp
    obtain ⟨hs, ht, -⟩ := hp
    have hencode := encodeOperation_branch pc h hs ht ha
    by_cases hfar : Far pc a
    · rw [if_pos hfar] at hencode
      refine Or.inr ⟨s, t, l, a, rfl, rfl, h, ha, hfar, ?_⟩
      show (do return [← encodeOperation labels pc o [s.name, t.name, l.render]]) = _
      rw [hencode]
      rfl
    · rw [if_neg hfar] at hencode
      exact Or.inl ⟨_, hencode⟩
  all_goals
    left
    simp only [List.forall_mem_cons, Operand.Plain] at hp
    simp only [Bool.or_eq_true, Bool.and_eq_true, List.contains_iff_mem, List.mem_cons,
      List.not_mem_nil, or_false, beq_iff_eq, decide_eq_true_eq] at h
    simp only [List.flatMap_cons, List.flatMap_nil, Operand.words, List.cons_append,
      List.nil_append, List.append_nil]
  · next d s t =>
    obtain ⟨hd, hs, ht, -⟩ := hp
    rcases h with h | h
    · refine ⟨_, Eq.trans ?_ (threeRegisters_names o hd hs ht)⟩
      rcases h with rfl | rfl | rfl | rfl | rfl | rfl <;> rfl
    · refine ⟨_, Eq.trans ?_ (shiftByRegister_names o hd hs ht)⟩
      rcases h with rfl | rfl <;> rfl
  · next t s n =>
    obtain ⟨ht, hs, -⟩ := hp
    rcases h with ⟨h, hn⟩ | ⟨rfl, hn⟩
    · refine ⟨o.immediateWord s t (UInt16.ofInt n), Eq.trans (b := withImmediate o
        signed16 [t.name, s.name, Numeral.signed n]) ?_ ?_⟩
      · rcases h with rfl | rfl <;> rfl
      · simp only [withImmediate, three, ok_bind, register_name ht,
          register_name hs, signed16_signed hn]
        rfl
    · refine ⟨Operation.sll.registerWord Register.zero s t (UInt32.ofInt n), Eq.trans
        (b := shiftByAmount .sll [t.name, s.name, Numeral.signed n]) rfl ?_⟩
      simp only [shiftByAmount, three, ok_bind, register_name ht, register_name hs, shift_signed hn]
      rfl
  · next s t =>
    obtain ⟨hs, ht, -⟩ := hp
    refine ⟨_, Eq.trans ?_ (multiply_names o hs ht)⟩
    rcases h with rfl | rfl <;> rfl
  · next t n b =>
    obtain ⟨ht, ⟨-, hb⟩, -⟩ := hp
    refine ⟨o.immediateWord b t (UInt16.ofInt n), Eq.trans (b := memoryAccess o
      [t.name, Numeral.signed n, b.name]) ?_ ?_⟩
    · rcases h.1 with rfl | rfl | rfl | rfl <;> rfl
    · simp only [memoryAccess, ok_bind, register_name ht, register_name hb, signed16_signed h.2]
      rfl
  · next r =>
    obtain ⟨hr, -⟩ := hp
    rcases h with rfl | rfl
    · simp only [encodeOperation, Assembly.fromProduct, one, ok_bind, register_name hr]
      exact ⟨_, rfl⟩
    · simp only [encodeOperation, Assembly.jumpRegister, one, ok_bind, register_name hr]
      exact ⟨_, rfl⟩
  · next l =>
    obtain ⟨a, ha⟩ := hl l (by simp)
    subst h
    simp only [encodeOperation, jumpTo, one, ok_bind, Assembly.Operand.label, ha]
    exact ⟨_, rfl⟩

theorem numberSize_le (n : Int) : numberSize n = 1 ∨ numberSize n = 2 := by
  unfold numberSize
  split
  · exact Or.inl rfl
  · split
    · exact Or.inl rfl
    · split
      · exact Or.inl rfl
      · exact Or.inr rfl

theorem addressSize_le (elide : Bool) (a : UInt32) :
    addressSize elide a = 1 ∧ a &&& 0xFFFF = 0 ∨ addressSize elide a = 2 := by
  unfold addressSize
  split
  · next h =>
    rw [Bool.and_eq_true, beq_iff_eq] at h
    exact Or.inl ⟨rfl, h.2⟩
  · exact Or.inr rfl

variable {m : Mnemonic}

theorem size_le {operands : List Text} {n : Nat}
    (h : m.size elide known operands = .ok n) : n ≤ 2 := by
  unfold Mnemonic.size at h
  split at h
  · obtain ⟨_, -, h⟩ := bind_ok_iff.1 h
    obtain ⟨v, -, rfl⟩ := bind_pure_ok_iff.1 h
    rcases numberSize_le v with h | h <;> omega
  · obtain ⟨_, -, h⟩ := bind_ok_iff.1 h
    obtain ⟨_, -, h⟩ := bind_ok_iff.1 h
    split at h
    · split at h
      · next a _ =>
        obtain rfl := pure_ok_iff.1 h
        rcases addressSize_le elide a with ⟨h, -⟩ | h <;> omega
      · obtain rfl := pure_ok_iff.1 h
        exact Nat.le_refl 2
    · obtain ⟨a, -, rfl⟩ := bind_pure_ok_iff.1 h
      rcases addressSize_le elide a with ⟨h, -⟩ | h <;> omega
  · obtain rfl := Except.ok.inj h
    exact Nat.le_refl 2
  · obtain rfl := Except.ok.inj h
    decide

theorem length_loadUpper (d : Register) (w : UInt32) {n : Nat} (h : n = 1 ∨ n = 2) :
    (loadUpper d w n).length = n := by
  rcases h with rfl | rfl <;> rfl

theorem sizeNumber_signed (d : Register) (h : -2147483648 ≤ n ∧ n ≤ 4294967295) :
    sizeNumber [d.name, Numeral.signed n] = .ok (numberSize n) := by
  simp only [sizeNumber, two, ok_bind, wordValue,
    immediate_signed (show -2 ^ 63 ≤ n by omega) (show n < 2 ^ 63 by omega)]
  rw [if_neg (by omega)]
  rfl

variable {d : Register}

theorem encodeNumber_signed (hd : d < 32) (h : -2147483648 ≤ n ∧ n ≤ 4294967295) :
    ∃ ws, encodeNumber [d.name, Numeral.signed n] (numberSize n) = .ok ws ∧
      ws.length = numberSize n := by
  simp only [encodeNumber, two, ok_bind, register_name hd,
    immediate_signed (show -2 ^ 63 ≤ n by omega) (show n < 2 ^ 63 by omega)]
  by_cases hunsigned : 0 ≤ n ∧ n ≤ 65535
  · rw [if_pos hunsigned, numberSize, if_pos hunsigned]
    exact ⟨_, rfl, rfl⟩
  · rw [if_neg hunsigned]
    by_cases hsigned : -32768 ≤ n ∧ n < 0
    · rw [if_pos hsigned, numberSize, if_neg hunsigned, if_pos hsigned]
      exact ⟨_, rfl, rfl⟩
    · rw [if_neg hsigned]
      exact ⟨_, rfl, length_loadUpper _ _ (numberSize_le n)⟩

/-- The number of words that load an address: one only if its lower half is zero. -/
theorem sizeAddress_label (elide : Bool) (hd : d < 32) {l : Label} (hl : l.isMade) {a : UInt32}
    (ha : labels[l.render]? = some a) (hknown : known.Within labels) :
    ∃ n, sizeAddress elide known [d.name, l.render] = .ok n ∧
      (n = 1 ∧ a &&& 0xFFFF = 0 ∨ n = 2) := by
  simp only [sizeAddress, two, ok_bind, register_name hd, Label.isIdentifier_render hl, if_true]
  split
  · next a' ha' =>
    obtain rfl : a' = a := Option.some.inj ((hknown _ _ ha').symm.trans ha)
    exact ⟨_, rfl, addressSize_le elide a'⟩
  · exact ⟨2, rfl, Or.inr rfl⟩

theorem sizeAddress_address (elide : Bool) (hd : d < 32) (a : UInt32) :
    sizeAddress elide known [d.name, (Operand.address a).render] = .ok (addressSize elide a) := by
  simp only [sizeAddress, two, ok_bind, register_name hd, word_address]
  rw [Operand.render, isIdentifier_hex]
  rfl

theorem loadAddress_words {target : Text} {a : UInt32} {n : Nat}
    (h : n = 1 ∧ a &&& 0xFFFF = 0 ∨ n = 2) :
    ∃ ws, (if n = 1 ∧ a &&& 0xFFFF ≠ 0 then
        .error (.addressDrift (Assembly.lowHalfDetail target a))
        else pure (loadUpper d a n) : Except Assembly.Cause (List UInt32)) = .ok ws ∧
      ws.length = n := by
  refine ⟨loadUpper d a n, if_neg ?_, length_loadUpper d a (h.imp_left And.left)⟩
  rintro ⟨rfl, hlow⟩
  rcases h with ⟨-, h⟩ | h
  · exact hlow h
  · cases h

theorem size_of_accepts (elide : Bool) (known : Labels) (h : accepts m os)
    (hp : ∀ x ∈ os, x.Plain) : ∃ n, m.size elide known (os.flatMap Operand.words) = .ok n := by
  unfold accepts at h
  split at h
  · exact ⟨1, rfl⟩
  · exact ⟨1, rfl⟩
  · next d n =>
    rw [Bool.and_eq_true, decide_eq_true_eq, decide_eq_true_eq] at h
    exact ⟨_, sizeNumber_signed d h⟩
  · next d l =>
    simp only [List.forall_mem_cons, Operand.Plain] at hp
    obtain ⟨hd, hl, -⟩ := hp
    cases ha : known[l.render]? with
    | some a =>
        obtain ⟨n, hn, -⟩ := sizeAddress_label elide hd hl ha fun _ _ h => h
        exact ⟨n, hn⟩
    | none =>
        refine ⟨2, ?_⟩
        show sizeAddress elide known [d.name, l.render] = .ok 2
        simp only [sizeAddress, two, ok_bind, register_name hd,
          Label.isIdentifier_render hl, if_true, ha]
        rfl
  · next d a => exact ⟨_, sizeAddress_address elide (hp _ List.mem_cons_self) a⟩
  · exact ⟨2, rfl⟩
  · cases h

/-- **A line whose operands are taken has words**, as many as were laid out for it, unless it is a
branch that does not reach its label. -/
theorem encode_of_accepts {n : Nat} (h : accepts m os) (hp : ∀ x ∈ os, x.Plain)
    (hknown : known.Within labels) (hsize : m.size elide known (os.flatMap Operand.words) = .ok n)
    (hl : ∀ l, .label l ∈ os → ∃ a, labels[l.render]? = some a) (pc : UInt32) :
    (∃ ws, m.encode labels pc n (os.flatMap Operand.words) = .ok ws ∧ ws.length = n) ∨
      ∃ o s t l a, OutOfReach labels pc m os n o s t l a := by
  unfold accepts at h
  split at h
  · obtain rfl := Except.ok.inj hsize
    rcases encodeOperation_of_takes h hp hl 1 with ⟨w, hw⟩ | hfar
    · exact Or.inl ⟨[w], by rw [Mnemonic.encode, hw]; rfl, rfl⟩
    · exact Or.inr ⟨_, hfar⟩
  all_goals left
  · next d s =>
    simp only [List.forall_mem_cons, Operand.Plain] at hp
    obtain ⟨hd, hs, -⟩ := hp
    obtain rfl := Except.ok.inj hsize
    refine ⟨[Operation.add.registerWord s Register.zero d 0], ?_, rfl⟩
    show (Mnemonic.move).encode labels pc 1 [d.name, s.name] = _
    simp only [Mnemonic.encode, two, ok_bind, register_name hd, register_name hs]
    rfl
  · next d n' =>
    rw [Bool.and_eq_true, decide_eq_true_eq, decide_eq_true_eq] at h
    obtain rfl := Except.ok.inj (hsize.symm.trans (sizeNumber_signed d h))
    exact encodeNumber_signed (hp _ List.mem_cons_self) h
  · next d l =>
    simp only [List.forall_mem_cons, Operand.Plain] at hp
    obtain ⟨hd, hmade, -⟩ := hp
    obtain ⟨a, ha⟩ := hl l (by simp)
    obtain ⟨n', hn', hlow⟩ := sizeAddress_label elide hd hmade ha hknown
    obtain rfl := Except.ok.inj (hsize.symm.trans hn')
    show ∃ ws, encodeAddress labels [d.name, l.render] n = .ok ws ∧ _
    simp only [encodeAddress, two, ok_bind, register_name hd,
      Label.isIdentifier_render hmade, if_true, Assembly.Operand.label, ha]
    exact loadAddress_words hlow
  · next d a =>
    have hd : d < 32 := hp _ List.mem_cons_self
    obtain rfl := Except.ok.inj (hsize.symm.trans (sizeAddress_address elide hd a))
    show ∃ ws, encodeAddress labels [d.name, (Operand.address a).render] _ = .ok ws ∧ _
    simp only [encodeAddress, two, ok_bind, register_name hd, word_address]
    rw [Operand.render, isIdentifier_hex]
    exact loadAddress_words (addressSize_le elide a)
  · next d s t =>
    simp only [List.forall_mem_cons, Operand.Plain] at hp
    obtain ⟨hd, hs, ht, -⟩ := hp
    obtain rfl := Except.ok.inj hsize
    refine ⟨[Operation.xor.registerWord s t d 0, Operation.sltiu.immediateWord d d 1], ?_, rfl⟩
    show (Mnemonic.seq).encode labels pc 2 [d.name, s.name, t.name] = _
    simp only [Mnemonic.encode, three, ok_bind, register_name hd, register_name hs,
      register_name ht]
    rfl
  · cases h

end Encoding

/-! ### The statements of lines -/

namespace Line

/-- The labels that a line defines. -/
def defines : Line → List Label
  | label l => [l]
  | place offset _ => [.start offset]
  | _ => []

/-- The texts that a line makes labels: those of the labels that it defines, unless a name starts
with a point. -/
def labels : Line → List Text
  | label (.named name) => namedLabels name
  | l => l.defines.map Label.render

/-- The labels that a line names. -/
def uses : Line → List Label
  | code _ os => os.filterMap fun
    | .label l => some l
    | _ => none
  | _ => []

/-- What is written on a line besides labels. -/
def written : Line → Option Written
  | code m os => some ⟨Text.toLower (text m.name), os.flatMap Operand.words⟩
  | _ => none

/-- The statement of a line. -/
def statement (n : Nat) (l : Line) : Statement := ⟨n, l.render, l.labels, l.written⟩

/-- Its operands fit its mnemonic. -/
def Formed : Line → Prop
  | code m os => accepts m os
  | _ => True

instance : (l : Line) → Decidable l.Formed
  | code m os => inferInstanceAs (Decidable (accepts m os = true))
  | textSection | visible _ | label _ | place _ _ | comment _ | nothingFor _ => .isTrue trivial

/-- A line that is read as what it is.  Names of the program stand where they do no harm: one that
is a label is not taken for a label of lowering. -/
def Readable : Line → Prop
  | visible _ => True
  | comment _ => True
  | label (.named name) => Text.isIdentifier name ∧ ∀ l : Label, l.isMade → l.render ≠ name
  | l => l.Plain

theorem Plain.readable {l : Line} (h : l.Plain) : l.Readable := by
  cases l with
  | visible _ => exact trivial
  | label l =>
      cases l with
      | named name => cases h
      | _ => exact h
  | comment body => cases h
  | nothingFor ins => cases h
  | _ => exact h

theorem Plain.labels_eq {l : Line} (h : l.Plain) : l.labels = l.defines.map Label.render := by
  cases l with
  | label l =>
      cases l with
      | named name => cases h
      | _ => rfl
  | _ => rfl

theorem nodup_labels (l : Line) : l.labels.Nodup := by
  cases l with
  | label l =>
      cases l with
      | named name =>
          show (namedLabels name).Nodup
          unfold namedLabels
          split <;> simp
      | _ => exact List.pairwise_singleton _ _
  | place _ _ => exact List.pairwise_singleton _ _
  | _ => exact List.nodup_nil

end Line

/-- **A readable line is read as its statement.** -/
theorem parse_readable (n : Nat) {l : Line} (h : l.Readable) :
    Statement.parse n l.render = .ok (l.statement n) := by
  cases l with
  | textSection => rfl
  | visible l => exact parse_visible n l
  | label l =>
      cases l with
      | named name => exact parse_named n h.1
      | _ => exact parse_label n h
  | place offset ins => exact parse_place n offset ins
  | comment body => exact parse_comment n body
  | code m os => exact parse_code n m fun o ho => (h o ho).isMade
  | nothingFor ins => cases h

/-- The statements of lines. -/
def statements : Nat → List Line → List Statement
  | _, [] => []
  | first, l :: ls => l.statement first :: statements (first + 1) ls

theorem getElem?_statements (first : Nat) (lines : List Line) (i : Nat) :
    (statements first lines)[i]? = lines[i]?.map (Line.statement (first + i)) := by
  induction lines generalizing first i with
  | nil => rfl
  | cons l ls ih =>
      cases i with
      | zero => rfl
      | succ i =>
          rw [statements, List.getElem?_cons_succ, ih, List.getElem?_cons_succ]
          congr 2
          omega

theorem length_statements (first : Nat) (lines : List Line) :
    (statements first lines).length = lines.length := by
  induction lines generalizing first with
  | nil => rfl
  | cons l ls ih => rw [statements, List.length_cons, ih, List.length_cons]

theorem parseAll_readable {lines : List Line} (h : ∀ l ∈ lines, l.Readable) :
    Statement.parseAll (lines.map Line.render) = .ok (statements 1 lines) := by
  have hfrom : ∀ first, ((lines.map Line.render).zipIdx first).mapM
      (fun x => Statement.parse x.2 x.1) = .ok (statements first lines) := by
    induction lines with
    | nil => exact fun _ => rfl
    | cons l ls ih =>
        obtain ⟨hl, hls⟩ := List.forall_mem_cons.1 h
        intro first
        rw [List.map_cons, List.zipIdx_cons, mapM_cons_ok_iff]
        exact ⟨_, _, parse_readable first hl, ih hls (first + 1), rfl⟩
  exact hfrom 1

/-! ### The first pass -/

section Passes

variable {elide : Bool} {lines : List Line} {p q : Plan}

theorem define_all {names : List Text} (hnodup : names.Nodup)
    (hnew : ∀ name ∈ names, p.labels[name]? = none) : ∃ q, names.foldlM Plan.define p = .ok q := by
  induction names generalizing p with
  | nil => exact ⟨p, rfl⟩
  | cons name names ih =>
      obtain ⟨hname, hnodup⟩ := List.nodup_cons.1 hnodup
      have habsent : p.labels.contains name = false := by
        rw [Std.HashMap.contains_eq_isSome_getElem?, hnew name List.mem_cons_self]
        rfl
      let r : Plan := { p with labels := p.labels.insert name p.address }
      have hr : p.define name = .ok r := by
        rw [Plan.define, habsent]
        rfl
      have hnew' : ∀ other ∈ names, r.labels[other]? = none := by
        intro other hother
        show (p.labels.insert name p.address)[other]? = none
        rw [Std.HashMap.getElem?_insert, if_neg]
        · exact hnew other (List.mem_cons_of_mem _ hother)
        · rw [beq_iff_eq]
          rintro rfl
          exact hname hother
      obtain ⟨q, hq⟩ := ih hnodup hnew'
      exact ⟨q, foldlM_cons_ok_iff.2 ⟨r, hr, hq⟩⟩

theorem add_statement (elide : Bool) {l : Line} (n : Nat) (hread : l.Readable) (hformed : l.Formed)
    (hnew : ∀ name ∈ l.labels, p.labels[name]? = none) :
    ∃ q, p.add elide (l.statement n) = .ok q := by
  obtain ⟨r, hr⟩ := define_all l.nodup_labels hnew
  cases l with
  | code m os =>
      obtain rfl : r = p := (foldlM_nil_ok_iff.1 hr).symm
      obtain ⟨words, hwords⟩ := size_of_accepts elide r.labels hformed hread
      have hplace : ∃ q, r.place elide ((Line.code m os).statement n)
          ⟨Text.toLower (text m.name), os.flatMap Operand.words⟩ = .ok q := by
        simp only [Plan.place, ofName?_name]
        exact ⟨_, bind_ok_iff.2 ⟨words, hwords, rfl⟩⟩
      obtain ⟨q, hq⟩ := hplace
      exact ⟨q, bind_ok_iff.2 ⟨r, hr, hq⟩⟩
  | _ => exact ⟨r, bind_ok_iff.2 ⟨r, hr, rfl⟩⟩

/-- **The first pass takes lines that define every label once.** -/
theorem layOut_complete (elide : Bool) (first : Nat)
    (hlines : ∀ l ∈ lines, l.Readable ∧ l.Formed) (hnodup : (lines.flatMap Line.labels).Nodup)
    (hnew : ∀ name ∈ lines.flatMap Line.labels, p.labels[name]? = none) :
    ∃ q, (statements first lines).foldlM (Plan.add elide) p = .ok q := by
  induction lines generalizing p first with
  | nil => exact ⟨p, rfl⟩
  | cons l lines ih =>
      obtain ⟨⟨hread, hformed⟩, hlines⟩ := List.forall_mem_cons.1 hlines
      rw [List.flatMap_cons] at hnodup hnew
      obtain ⟨-, hnodup, hapart⟩ := List.nodup_append.1 hnodup
      -- a label that is defined once is new when its line comes, whatever came before
      obtain ⟨r, hr⟩ := add_statement elide first hread hformed fun name hname =>
        hnew name (List.mem_append_left _ hname)
      obtain ⟨hdef, -⟩ := Plan.add_ok hr
      have hnew' : ∀ name ∈ lines.flatMap Line.labels, r.labels[name]? = none := by
        intro name hname
        rw [Option.eq_none_iff_forall_ne_some]
        intro a ha
        rcases hdef.only _ _ ha with ha | ⟨hmem, -⟩
        · rw [hnew name (List.mem_append_right _ hname)] at ha
          cases ha
        · exact hapart _ hmem _ hname rfl
      obtain ⟨q, hq⟩ := ih (first + 1) hlines hnodup hnew'
      exact ⟨q, foldlM_cons_ok_iff.2 ⟨r, hr, hq⟩⟩

/-! ### The second pass -/

theorem totalWords_le {labels : Labels} {k : Nat} {ss : List Statement} {xs ys : List Sized}
    (h : Planned elide labels k ss xs) (hys : ∀ y ∈ ys, y ∈ xs) :
    totalWords ys ≤ 2 * ys.length := by
  induction ys with
  | nil => exact Nat.le_refl 0
  | cons y ys ih =>
      obtain ⟨hy, hys⟩ := List.forall_mem_cons.1 hys
      obtain ⟨known, -, hsize⟩ := h.sized hy
      have := size_le hsize
      have := ih hys
      rw [Assembly.totalWords_cons, List.length_cons]
      omega

/-- What was recorded for line `i`, behind `k` words: the line is an instruction, and every label
stands at most two words for each line in between away from it. -/
structure RecordAt (elide : Bool) (labels : Labels) (lines : List Line) (k : Nat) (x : Sized)
    (i : Nat) (os : List Operand) : Prop where
  line : lines[i]? = some (.code x.mnemonic os)
  number : x.line = i + 1
  source : x.source = (Line.code x.mnemonic os).render
  operands : x.operands = os.flatMap Operand.words
  sized : ∃ known : Labels, known.Within labels ∧
    x.mnemonic.size elide known x.operands = .ok x.words
  near : ∀ (j : Nat) (l : Line) (name : Text), lines[j]? = some l → name ∈ l.labels →
    ∃ a, labels[name]? = some (addressOf a) ∧ a ≤ k + 2 * (j - i) ∧ k ≤ a + 2 * (i - j)
  early : k ≤ 2 * i

theorem recordAt {labels : Labels} {ys zs : List Sized} {x : Sized}
    (h : Planned elide labels 0 (statements 1 lines) (ys ++ x :: zs)) :
    ∃ i os, RecordAt elide labels lines (totalWords ys) x i os := by
  obtain ⟨before, s, after, w, known, hsplit, hsome, hx, hknown, hbefore, hafter⟩ := h.at_record rfl
  have hget := getElem?_statements 1 lines
  rw [hsplit] at hget
  -- the words of the lines before, and of the lines behind
  have hys := totalWords_le hbefore fun _ hy => hy
  have hlength := hbefore.length_le
  have hwords : x.words ≤ 2 := size_le hx.words
  obtain ⟨l, hl, hstatement⟩ : ∃ l, lines[before.length]? = some l ∧
      l.statement (1 + before.length) = s := by
    have hs := hget before.length
    rw [List.getElem?_append_right (Nat.le_refl _), Nat.sub_self] at hs
    exact Option.map_eq_some_iff.1 hs.symm
  subst hstatement
  cases l with
  | code m os =>
      obtain rfl := Option.some.inj hsome
      obtain rfl : m = x.mnemonic := Option.some.inj ((ofName?_name m).symm.trans hx.mnemonic)
      refine ⟨before.length, os, hl, hx.line.trans (Nat.add_comm _ _), hx.source, hx.operands,
        ⟨known, hknown, hx.words⟩, ?_, by omega⟩
      intro j l name hj hname
      have hs := hget j
      rw [hj, Option.map_some] at hs
      rcases Nat.lt_trichotomy j before.length with hlt | rfl | hgt
      · rw [List.getElem?_append_left hlt] at hs
        obtain ⟨ys₁, ys₂, rfl, ha, hys₁, hys₂⟩ := hbefore.label hs hname
        have hbound := totalWords_le hbefore fun y (hy : y ∈ ys₂) => List.mem_append_right _ hy
        rw [Assembly.totalWords_append] at hys ⊢
        exact ⟨_, ha, by omega, by omega⟩
      · obtain rfl := Option.some.inj (hl.symm.trans hj)
        cases hname
      · obtain ⟨d, rfl⟩ := Nat.exists_eq_add_of_lt hgt
        rw [List.getElem?_append_right (by omega),
          show before.length + d + 1 - before.length = d + 1 by omega,
          List.getElem?_cons_succ] at hs
        obtain ⟨zs₁, zs₂, rfl, ha, hzs₁, hzs₂⟩ := hafter.label hs hname
        have hbound := totalWords_le hafter fun y (hy : y ∈ zs₁) => List.mem_append_left _ hy
        exact ⟨_, ha, by omega, by omega⟩
  | _ => cases hsome

/-! ### Both passes -/

/-- A listing in which nothing is missing: every line can be read and takes its operands, every
label is defined once, and what is used is defined. -/
structure Complete (lines : List Line) : Prop where
  readable : ∀ l ∈ lines, l.Readable
  formed : ∀ l ∈ lines, l.Formed
  once : (lines.flatMap Line.labels).Nodup
  known : ∀ l ∈ lines.flatMap Line.uses, l.render ∈ lines.flatMap Line.labels

/-- A branch that is turned down because its label is `d` words away.  Unless there are more lines
than addresses, many of them stand between the branch and its label. -/
structure TurnedDown (elide : Bool) (lines : List Line) (i : Nat) (o : Operation) (s t : Register)
    (l : Label) (d : Int) : Prop where
  line : lines[i]? = some (.branch o s t l)
  branches : branches o
  range : d < -32768 ∨ 32767 < d
  failure : assemble elide (lines.map Line.render) =
    .error (.line ⟨i + 1, (Line.branch o s t l).render, .operand (.branchRange l.render d)⟩)
  apart : lines.length < 2 ^ 28 → ∀ (j : Nat) (other : Line), lines[j]? = some other →
    l.render ∈ other.labels → j + 16384 ≤ i ∨ i + 16384 ≤ j

/-- Between a branch and a label far away there are many lines. -/
theorem apart_of_far {i j k a : Nat} (hfar : Far (addressOf k) (addressOf a)) (hk : k < 2 ^ 29)
    (ha : a < 2 ^ 29) (hbehind : a ≤ k + 2 * (j - i)) (hbefore : k ≤ a + 2 * (i - j)) :
    j + 16384 ≤ i ∨ i + 16384 ≤ j := by
  rw [Far, Word.distance_addressOf (by omega) (by omega)] at hfar
  omega

/-- The first pass takes a complete listing, and the second one decides. -/
theorem Complete.layOut (h : Complete lines) (elide : Bool) :
    ∃ q, Assembly.layOut elide (statements 1 lines) = .ok q ∧
      assemble elide (lines.map Line.render) = (emit q).mapError .line := by
  obtain ⟨q, hq⟩ := layOut_complete elide 1 (p := {})
    (fun l hl => ⟨h.readable l hl, h.formed l hl⟩) h.once (by simp)
  have hlayOut : Assembly.layOut elide (statements 1 lines) = .ok q := foldlM_mapError_ok_iff.2 hq
  refine ⟨q, hlayOut, ?_⟩
  rw [assemble, parseAll_readable h.readable, ok_bind, hlayOut, ok_bind]

/-- **Only a branch to a label far away is turned down.** -/
theorem Complete.outcome (h : Complete lines) (elide : Bool) :
    (∃ image, assemble elide (lines.map Line.render) = .ok image ∧
        image.words.size ≤ 2 * lines.length) ∨
      ∃ i o s t l d, TurnedDown elide lines i o s t l d := by
  obtain ⟨q, hlayOut, hassemble⟩ := h.layOut elide
  have hplanned := Assembly.layOut_planned hlayOut
  cases hemit : emit q with
  | ok image =>
      refine Or.inl ⟨image, by rw [hassemble, hemit]; rfl, ?_⟩
      have hsize := (Image.addAll_ok (foldlM_mapError_ok_iff.1 hemit)).2
      have htotal := totalWords_le hplanned fun _ hx => hx
      have hlength := hplanned.length_le
      rw [length_statements] at hlength
      simp only [List.size_toArray, List.length_nil] at hsize
      omega
  | error e =>
      right
      -- the second pass stops at the line of a record
      obtain ⟨ys, x, zs, image, hsplit, hys, hx⟩ := foldlM_error_iff.1 hemit
      obtain ⟨c, hc, rfl⟩ := mapError_error_iff.1 hx
      obtain ⟨hlabels, hsize⟩ := Image.addAll_ok (foldlM_mapError_ok_iff.1 hys)
      rw [hsplit] at hplanned
      obtain ⟨i, os, hrecord⟩ := recordAt hplanned
      obtain ⟨known, hknown, hxsize⟩ := hrecord.sized
      have hmem := List.mem_of_getElem? hrecord.line
      have hlabel : ∀ l, .label l ∈ os → ∃ a, q.labels[l.render]? = some a := by
        intro l hl
        obtain ⟨other, hother, hname⟩ := List.mem_flatMap.1 (h.known l (List.mem_flatMap.2
          ⟨_, hmem, List.mem_filterMap.2 ⟨.label l, hl, rfl⟩⟩))
        obtain ⟨j, hj⟩ := List.mem_iff_getElem?.1 hother
        obtain ⟨a, ha, -⟩ := hrecord.near j other _ hj hname
        exact ⟨_, ha⟩
      have hpc : image.endAddress = addressOf (totalWords ys) := by
        rw [Image.endAddress, hsize]
        simp [addressOf]
      rw [hrecord.operands] at hxsize
      rw [Image.add, hpc, hlabels, hrecord.operands] at hc
      rcases encode_of_accepts (h.formed _ hmem) (h.readable _ hmem) hknown hxsize hlabel
        (addressOf (totalWords ys)) with ⟨ws, hws, hlen⟩ | ⟨o, s, t, l, a, hfar⟩
      · simp only [hws, ok_bind, if_pos hlen] at hc
        cases hc
      · simp only [hfar.encode] at hc
        obtain rfl := Except.error.inj hc
        have hline := hrecord.line
        have hsource := hrecord.source
        rw [hfar.mnemonic, hfar.operands] at hline hsource
        refine ⟨i, o, s, t, l, _, hline, hfar.branches, hfar.far, ?_, ?_⟩
        · rw [hassemble, hemit, hrecord.number, hsource]
          rfl
        · intro hshort j other hj hname
          obtain ⟨a', ha', hbehind, hbefore⟩ := hrecord.near j other _ hj hname
          obtain rfl := Option.some.inj (hfar.address.symm.trans ha')
          obtain ⟨hi, -⟩ := List.getElem?_eq_some_iff.1 hline
          obtain ⟨hj, -⟩ := List.getElem?_eq_some_iff.1 hj
          have hearly := hrecord.early
          exact apart_of_far hfar.far (by omega) (by omega) hbehind hbefore

/-- A complete listing can be assembled if it is short enough for all branches. -/
theorem Complete.assembles (h : Complete lines) (hshort : lines.length < 16384) (elide : Bool) :
    ∃ image, assemble elide (lines.map Line.render) = .ok image ∧
      image.words.size ≤ 2 * lines.length := by
  rcases h.outcome elide with hok | ⟨i, o, s, t, l, d, hdown⟩
  · exact hok
  · -- the label stands on a line of the listing, and all lines are near
    have hmem := List.mem_of_getElem? hdown.line
    obtain ⟨other, hother, hname⟩ := List.mem_flatMap.1 (h.known l
      (List.mem_flatMap.2 ⟨_, hmem, by simp [Line.branch, Line.uses]⟩))
    obtain ⟨j, hj⟩ := List.mem_iff_getElem?.1 hother
    have hapart := hdown.apart (by omega) j other hj hname
    obtain ⟨hi, -⟩ := List.getElem?_eq_some_iff.1 hdown.line
    obtain ⟨hj, -⟩ := List.getElem?_eq_some_iff.1 hj
    omega

/-- A listing without names in which nothing is missing, short enough for all branches. -/
structure WellFormed (lines : List Line) : Prop where
  plain : ∀ l ∈ lines, l.Plain
  formed : ∀ l ∈ lines, l.Formed
  once : ((lines.flatMap Line.defines).map Label.render).Nodup
  known : ∀ l ∈ lines.flatMap Line.uses, l ∈ lines.flatMap Line.defines
  short : lines.length < 16384

theorem WellFormed.complete (h : WellFormed lines) : Complete lines := by
  have hlabels : lines.flatMap Line.labels = (lines.flatMap Line.defines).map Label.render := by
    rw [List.map_flatMap]
    exact List.flatMap_congr fun l hl => (h.plain l hl).labels_eq
  refine ⟨fun l hl => (h.plain l hl).readable, h.formed, by rw [hlabels]; exact h.once, ?_⟩
  intro l hl
  rw [hlabels]
  exact List.mem_map_of_mem (h.known l hl)

/-- **A well-formed listing can be assembled.** -/
theorem WellFormed.assembles (h : WellFormed lines) (elide : Bool) :
    ∃ image, assemble elide (lines.map Line.render) = .ok image ∧
      image.words.size ≤ 2 * lines.length :=
  h.complete.assembles h.short elide

end Passes

end StackCompiler.Listing
