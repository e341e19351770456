/-
**The two passes of the assembler agree.**

The first pass counts words without encoding them, with only the labels that stand before an
instruction; the second pass encodes with all labels.  The counts come out the same: an address is
given one word only if its lower half is known to be zero, and a label that is known keeps its
address.  So no instruction is ever encoded in another number of words than were laid out for it,
and the words of the lines stand one behind the other, where the labels say.

* `Assembly.assemble_agrees` — **the passes agree on all lines**.
-/

import StackCompiler.Proofs.ListingAssembly

namespace StackCompiler.Assembly

/-! ### Failures that are no drift -/

/-- A computation that does not fail by a wrong number of words. -/
def DriftFree {α : Type} (x : Except Cause α) : Prop :=
  ∀ detail, x ≠ .error (.addressDrift detail)

section DriftFree

variable {α β : Type}

@[simp] theorem driftFree_ok (a : α) : DriftFree (.ok a : Except Cause α) := by
  intro detail h
  cases h

@[simp] theorem driftFree_pure (a : α) : DriftFree (pure a : Except Cause α) := driftFree_ok a

@[simp] theorem driftFree_operand (fault : OperandFault) :
    DriftFree (.error (.operand fault) : Except Cause α) := by
  intro detail h
  cases h

@[simp] theorem driftFree_bind {x : Except Cause α} {f : α → Except Cause β} (hx : DriftFree x) :
    DriftFree (x >>= f) ↔ ∀ a, x = .ok a → DriftFree (f a) := by
  constructor
  · intro h a ha detail hf
    exact h detail (bind_error_iff.2 (Or.inr ⟨a, ha, hf⟩))
  · intro hf detail h
    rcases bind_error_iff.1 h with h | ⟨a, ha, h⟩
    · exact hx detail h
    · exact hf a ha detail h

@[simp] theorem driftFree_map {x : Except Cause α} {f : α → β} (hx : DriftFree x) :
    DriftFree (f <$> x) := by
  intro detail h
  obtain ⟨e, he, h⟩ : ∃ e, x = .error e ∧ e = .addressDrift detail := by
    cases x with
    | error e => exact ⟨e, rfl, Except.error.inj h⟩
    | ok a => cases h
  exact hx detail (h ▸ he)

@[simp] theorem driftFree_ite {p : Prop} [Decidable p] {x y : Except Cause α} (hx : DriftFree x)
    (hy : DriftFree y) : DriftFree (if p then x else y) := by
  split
  · exact hx
  · exact hy

namespace Operand

@[simp] theorem driftFree_none (form : String) (operands : List Text) :
    DriftFree (none form operands) := by
  unfold none
  split <;> simp [wrongArity]

@[simp] theorem driftFree_one (form : String) (operands : List Text) :
    DriftFree (one form operands) := by
  unfold one
  split <;> simp [wrongArity]

@[simp] theorem driftFree_two (form : String) (operands : List Text) :
    DriftFree (two form operands) := by
  unfold two
  split <;> simp [wrongArity]

@[simp] theorem driftFree_three (form : String) (operands : List Text) :
    DriftFree (three form operands) := by
  unfold three
  split <;> simp [wrongArity]

@[simp] theorem driftFree_register (t : Text) : DriftFree (register t) := by
  unfold register
  split <;> simp

@[simp] theorem driftFree_immediate (t : Text) : DriftFree (immediate t) := by
  unfold immediate
  split
  · simp
  · split <;> simp

@[simp] theorem driftFree_word (t : Text) : DriftFree (word t) := by
  simp [word, wordValue]

@[simp] theorem driftFree_label (labels : Labels) (t : Text) : DriftFree (label labels t) := by
  unfold label
  split
  · simp
  · intro detail h
    cases h

@[simp] theorem driftFree_branch (labels : Labels) (pc : UInt32) (t : Text) :
    DriftFree (branch labels pc t) := by
  simp [branch]

end Operand

open Operand

/-- An operation of the machine has one word, so it cannot have too few or too many. -/
theorem driftFree_encodeOperation (labels : Labels) (pc : UInt32) (o : Operation)
    (operands : List Text) : DriftFree (encodeOperation labels pc o operands) := by
  have hjalr : DriftFree (jumpLinkRegister operands) := by
    unfold jumpLinkRegister
    split <;> simp
  have haccess : DriftFree (memoryAccess o operands) := by
    unfold memoryAccess
    split <;> simp [signed16]
  unfold encodeOperation
  split <;> simp [threeRegisters, shiftByRegister, shiftByAmount, multiply, fromProduct,
    jumpRegister, withImmediate, loadUpperImmediate, branchTwo, branchOne, jumpTo, hjalr, haccess,
    signed16, unsigned16, shift]

theorem driftFree_size (elide : Bool) (labels : Labels) (m : Mnemonic) (operands : List Text) :
    DriftFree (m.size elide labels operands) := by
  unfold Mnemonic.size
  split
  · simp [sizeNumber, wordValue]
  · unfold sizeAddress
    simp only [driftFree_two, driftFree_register, driftFree_bind]
    intro _ _ _ _
    refine driftFree_ite ?_ (by simp)
    split <;> simp
  · simp
  · simp

end DriftFree

/-! ### The number of words of an instruction -/

open Listing (numberSize_le addressSize_le length_loadUpper)

/-- The address that the last operand of `la` stands for. -/
def Operand.target (labels : Labels) (t : Text) : Except Cause UInt32 :=
  if Text.isIdentifier t then label labels t else word t

theorem encodeAddress_eq (labels : Labels) (rd target : Text) (words : Nat) :
    encodeAddress labels [rd, target] words = (do
      let rd ← Operand.register rd
      let address ← Operand.target labels target
      if words = 1 ∧ address &&& 0xFFFF ≠ 0 then
        .error (.addressDrift (lowHalfDetail target address))
      else return loadUpper rd address words) := by
  simp only [encodeAddress, Operand.two, ok_bind, Operand.target]
  congr 1
  funext r
  split <;> rfl

variable {elide : Bool}

/-- An address is given one word only if one word is enough. -/
theorem sizeAddress_ok {known labels : Labels} {operands : List Text} {n : Nat}
    (h : sizeAddress elide known operands = .ok n) (hknown : known.Within labels) :
    ∃ rd target, operands = [rd, target] ∧ (n = 2 ∨ n = 1 ∧
      ∀ address, Operand.target labels target = .ok address → address &&& 0xFFFF = 0) := by
  obtain ⟨⟨rd, target⟩, htwo, h⟩ := bind_ok_iff.1 h
  obtain ⟨_, -, h⟩ := bind_ok_iff.1 h
  refine ⟨rd, target, two_ok htwo, ?_⟩
  unfold Operand.target
  by_cases hid : Text.isIdentifier target = true
  · simp only [hid, if_true] at h ⊢
    split at h
    · next address haddress =>
      obtain rfl := pure_ok_iff.1 h
      rcases addressSize_le elide address with ⟨hone, hlow⟩ | htwo
      · refine Or.inr ⟨hone, ?_⟩
        intro address' haddress'
        -- the label is known before the instruction, and keeps its address
        rw [Operand.label, hknown _ _ haddress] at haddress'
        obtain rfl := Except.ok.inj haddress'
        exact hlow
      · exact Or.inl htwo
    · exact Or.inl (pure_ok_iff.1 h).symm
  · simp only [hid, if_false, Bool.false_eq_true] at h ⊢
    obtain ⟨address, haddress, rfl⟩ := bind_pure_ok_iff.1 h
    rcases addressSize_le elide address with ⟨hone, hlow⟩ | htwo
    · refine Or.inr ⟨hone, ?_⟩
      intro address' haddress'
      obtain rfl := Except.ok.inj (haddress.symm.trans haddress')
      exact hlow
    · exact Or.inl htwo

namespace Mnemonic

variable {elide : Bool} {known labels : Labels} {pc : UInt32} {m : Mnemonic} {operands : List Text}
  {n : Nat}

/-- **An instruction is never encoded in another number of words than were counted.** -/
theorem driftFree_encode (hsize : m.size elide known operands = .ok n)
    (hknown : known.Within labels) : DriftFree (m.encode labels pc n operands) := by
  cases m with
  | la =>
      obtain ⟨rd, target, rfl, hn⟩ := sizeAddress_ok (show sizeAddress elide known operands = .ok n
        from hsize) hknown
      have htarget : DriftFree (Operand.target labels target) := by simp [Operand.target]
      show DriftFree (encodeAddress labels [rd, target] n)
      simp only [encodeAddress_eq, Operand.driftFree_register, htarget, driftFree_bind]
      intro _ _ address haddress
      rw [if_neg]
      · exact driftFree_pure _
      · rintro ⟨rfl, hlow⟩
        rcases hn with hn | ⟨-, hn⟩
        · cases hn
        · exact hlow (hn address haddress)
  | li =>
      show DriftFree (encodeNumber operands n)
      simp [encodeNumber]
  | operation o => simp [encode, driftFree_encodeOperation]
  | move | seq | nop => simp [encode]
  | beqz | bnez | b => simp [encode, branchOne]

/-- A number has as many words as were counted for it. -/
theorem length_encodeNumber {ws : List UInt32} (hsize : sizeNumber operands = .ok n)
    (h : encodeNumber operands n = .ok ws) : ws.length = n ∧ 0 < n := by
  obtain ⟨⟨rd, value⟩, htwo, hsize⟩ := bind_ok_iff.1 hsize
  obtain ⟨v, hv, rfl⟩ := bind_pure_ok_iff.1 hsize
  obtain ⟨v', hv', hrange⟩ := bind_ok_iff.1 (show Operand.wordValue value = .ok v from hv)
  split at hrange
  · cases hrange
  obtain rfl := Except.ok.inj hrange
  obtain rfl := two_ok htwo
  obtain ⟨p, hp, h⟩ := bind_ok_iff.1 h
  obtain rfl := Except.ok.inj hp
  obtain ⟨r, -, h⟩ := bind_ok_iff.1 h
  obtain ⟨v, hv, h⟩ := bind_ok_iff.1 h
  obtain rfl := Except.ok.inj (hv'.symm.trans hv)
  have hpos : 0 < numberSize v' := by
    rcases numberSize_le v' with hone | htwo <;> omega
  refine ⟨?_, hpos⟩
  split at h
  · next hunsigned =>
    obtain rfl := pure_ok_iff.1 h
    rw [numberSize, if_pos hunsigned]
    rfl
  · next hunsigned =>
    split at h
    · next hsigned =>
      obtain rfl := pure_ok_iff.1 h
      rw [numberSize, if_neg hunsigned, if_pos hsigned]
      rfl
    · obtain rfl := pure_ok_iff.1 h
      exact length_loadUpper r _ (numberSize_le v')

/-- So has an address, once all labels are known. -/
theorem length_encodeAddress {ws : List UInt32} (hsize : sizeAddress elide known operands = .ok n)
    (hknown : known.Within labels) (h : encodeAddress labels operands n = .ok ws) :
    ws.length = n ∧ 0 < n := by
  obtain ⟨rd, target, rfl, hn⟩ := sizeAddress_ok hsize hknown
  have hn : n = 1 ∨ n = 2 := by omega
  rw [encodeAddress_eq] at h
  obtain ⟨r, -, h⟩ := bind_ok_iff.1 h
  obtain ⟨address, -, h⟩ := bind_ok_iff.1 h
  split at h
  · cases h
  · obtain rfl := pure_ok_iff.1 h
    exact ⟨length_loadUpper r address hn, by omega⟩

/-- **An instruction has as many words as were counted for it**, and at least one. -/
theorem length_encode {ws : List UInt32} (hsize : m.size elide known operands = .ok n)
    (hknown : known.Within labels) (h : m.encode labels pc n operands = .ok ws) :
    ws.length = n ∧ 0 < n := by
  cases m with
  | li => exact length_encodeNumber hsize h
  | la => exact length_encodeAddress hsize hknown h
  | seq =>
      obtain rfl : 2 = n := Except.ok.inj hsize
      obtain ⟨_, -, h⟩ := bind_ok_iff.1 h
      obtain ⟨_, -, h⟩ := bind_ok_iff.1 h
      obtain ⟨_, -, h⟩ := bind_ok_iff.1 h
      obtain ⟨_, -, rfl⟩ := bind_pure_ok_iff.1 h
      exact ⟨rfl, by decide⟩
  | operation _ | nop | beqz | bnez =>
      obtain rfl : 1 = n := Except.ok.inj hsize
      obtain ⟨_, -, rfl⟩ := bind_pure_ok_iff.1 h
      exact ⟨rfl, by decide⟩
  | b =>
      obtain rfl : 1 = n := Except.ok.inj hsize
      obtain ⟨_, -, h⟩ := bind_ok_iff.1 h
      obtain ⟨_, -, rfl⟩ := bind_pure_ok_iff.1 h
      exact ⟨rfl, by decide⟩
  | move =>
      obtain rfl : 1 = n := Except.ok.inj hsize
      obtain ⟨_, -, h⟩ := bind_ok_iff.1 h
      obtain ⟨_, -, h⟩ := bind_ok_iff.1 h
      obtain ⟨_, -, rfl⟩ := bind_pure_ok_iff.1 h
      exact ⟨rfl, by decide⟩

end Mnemonic

/-! ### No drift -/

variable {lines : List Text}

theorem Statement.parseAll_driftFree {e : LineError} {detail : Text}
    (h : Statement.parseAll lines = .error (.line e)) : e.cause ≠ .addressDrift detail := by
  obtain ⟨-, ⟨source, n⟩, -, -, -, -, h⟩ := mapM_error_iff.1 h
  simp only [Statement.parse] at h
  split at h
  · obtain rfl := Failure.line.inj (Except.error.inj h)
    intro hcause
    cases hcause
  · split at h
    · cases h
    · split at h
      · cases h
      · cases h

theorem Plan.driftFree_add (elide : Bool) (p : Plan) (s : Statement) :
    DriftFree (p.add elide s) := by
  have hdefine : DriftFree (s.labels.foldlM Plan.define p) := by
    intro detail h
    obtain ⟨-, name, -, q, -, -, h⟩ := foldlM_error_iff.1 h
    unfold Plan.define at h
    split at h
    · cases h
    · cases h
  unfold Plan.add
  refine (driftFree_bind hdefine).2 ?_
  intro q _
  split
  · exact driftFree_pure q
  · unfold Plan.place
    split
    · intro detail h
      cases h
    · exact (driftFree_bind (driftFree_size _ _ _ _)).2 fun n _ => driftFree_pure _

theorem Image.driftFree_add {known : Labels} {i : Image} {x : Sized}
    (hsize : x.mnemonic.size elide known x.operands = .ok x.words)
    (hknown : known.Within i.labels) : DriftFree (i.add x) := by
  unfold Image.add
  refine (driftFree_bind (Mnemonic.driftFree_encode hsize hknown)).2 ?_
  intro ws hws
  rw [if_pos (Mnemonic.length_encode hsize hknown hws).1]
  exact driftFree_pure _

/-- **No line is ever encoded in another number of words than were laid out for it.** -/
theorem assemble_driftFree {e : LineError} {detail : Text}
    (h : assemble elide lines = .error (.line e)) : e.cause ≠ .addressDrift detail := by
  rcases bind_error_iff.1 h with h | ⟨ss, -, h⟩
  · exact Statement.parseAll_driftFree h
  obtain ⟨e', hpasses, he⟩ := mapError_error_iff.1 h
  obtain rfl := Failure.line.inj he
  rcases bind_error_iff.1 hpasses with h | ⟨q, hq, h⟩
  · -- the first pass fails at a statement
    obtain ⟨-, s, -, p, -, -, h⟩ := foldlM_error_iff.1 h
    obtain ⟨cause, hcause, rfl⟩ := mapError_error_iff.1 h
    intro hdrift
    exact Plan.driftFree_add elide p s detail (hdrift ▸ hcause)
  · -- the second pass fails at an instruction that the first pass has recorded
    obtain ⟨before, x, later, i, hsplit, hbefore, h⟩ := foldlM_error_iff.1 h
    obtain ⟨cause, hcause, rfl⟩ := mapError_error_iff.1 h
    obtain ⟨known, hknown, hsize⟩ := (layOut_planned hq).sized (x := x) (by rw [hsplit]; simp)
    have hlabels : i.labels = q.labels := (Image.addAll_ok (foldlM_mapError_ok_iff.1 hbefore)).1
    intro hdrift
    exact Image.driftFree_add hsize (hlabels ▸ hknown) detail (hdrift ▸ hcause)

/-! ### What the passes have done -/

namespace Emitted

variable {elide : Bool} {labels : Labels} {k : Nat} {ss : List Statement} {xs : List Sized}
  {parts : List (List UInt32)} {sources : List (UInt32 × Nat)}

theorem length_eq (h : Emitted elide labels k ss xs parts sources) : parts.length = ss.length := by
  induction h with
  | nil => rfl
  | silent _ _ _ ih | words _ _ _ _ _ _ _ ih => rw [List.length_cons, List.length_cons, ih]

/-- The number of words before a part. -/
def wordsBefore (parts : List (List UInt32)) (i : Nat) : Nat := (parts.take i).flatten.length

theorem wordsBefore_zero (parts : List (List UInt32)) : wordsBefore parts 0 = 0 := rfl

theorem wordsBefore_succ (ws : List UInt32) (parts : List (List UInt32)) (i : Nat) :
    wordsBefore (ws :: parts) (i + 1) = ws.length + wordsBefore parts i := by
  simp [wordsBefore]

theorem wordsBefore_le (parts : List (List UInt32)) (i : Nat) :
    wordsBefore parts i ≤ parts.flatten.length := by
  induction parts generalizing i with
  | nil => simp [wordsBefore]
  | cons ws parts ih =>
      cases i with
      | zero => exact Nat.zero_le _
      | succ i =>
          have := ih i
          rw [wordsBefore_succ, List.flatten_cons, List.length_append]
          omega

section

variable (h : Emitted elide labels k ss xs parts sources)

include h

variable {s : Statement}

/-- **Labels stand in front of the words of their line.** -/
theorem label {i : Nat} (hs : ss[i]? = some s) {name : Text}
    (hname : name ∈ s.labels) : labels[name]? = some (addressOf (k + wordsBefore parts i)) := by
  induction h generalizing i with
  | nil => cases hs
  | silent _ hlabels _ ih =>
      cases i with
      | zero =>
          obtain rfl := Option.some.inj hs
          exact hlabels name hname
      | succ i => simpa [wordsBefore_succ] using ih hs
  | words _ hlabels _ _ _ _ _ ih =>
      cases i with
      | zero =>
          obtain rfl := Option.some.inj hs
          exact hlabels name hname
      | succ i =>
          rw [wordsBefore_succ, ← Nat.add_assoc]
          exact ih hs

theorem silent_part {i : Nat} (hs : ss[i]? = some s)
    (hnone : s.instruction = none) : parts[i]? = some [] := by
  induction h generalizing i with
  | nil => cases hs
  | silent _ _ _ ih =>
      cases i with
      | zero => rfl
      | succ i => exact ih hs
  | words hsome _ _ _ _ _ _ ih =>
      cases i with
      | zero =>
          obtain rfl := Option.some.inj hs
          rw [hsome] at hnone
          cases hnone
      | succ i => exact ih hs

/-- **The words of an instruction** are those of its mnemonic where it stands, as many as were
recorded for its line. -/
theorem instruction_part {i : Nat} {w : Written} (hs : ss[i]? = some s)
    (hsome : s.instruction = some w) :
    ∃ x ∈ xs, ∃ ws, ∃ known : Labels, known.Within labels ∧ Plan.SizedAs elide known s w x ∧
      parts[i]? = some ws ∧ ws.length = x.words ∧
      x.mnemonic.encode labels (addressOf (k + wordsBefore parts i)) x.words x.operands = .ok ws ∧
      (addressOf (k + wordsBefore parts i), s.line) ∈ sources := by
  induction h generalizing i with
  | nil => cases hs
  | silent hnone _ _ ih =>
      cases i with
      | zero =>
          obtain rfl := Option.some.inj hs
          rw [hnone] at hsome
          cases hsome
      | succ i => simpa [wordsBefore_succ] using ih hs
  | words hsome' _ hx hknown hws hlength _ ih =>
      cases i with
      | zero =>
          obtain rfl := Option.some.inj hs
          obtain rfl := Option.some.inj (hsome'.symm.trans hsome)
          exact ⟨_, List.mem_cons_self, _, _, hknown, hx, rfl, hlength, hws, List.mem_cons_self⟩
      | succ i =>
          obtain ⟨x, hmem, ws, known, hwithin, hrecords, hpart, hlen, hencode, hsource⟩ := ih hs
          rw [wordsBefore_succ, ← Nat.add_assoc]
          exact ⟨x, List.mem_cons_of_mem _ hmem, ws, known, hwithin, hrecords, hpart, hlen, hencode,
            List.mem_cons_of_mem _ hsource⟩

/-- Everything recorded was recorded for a line with an instruction, which has that many words. -/
theorem of_record {x : Sized} (hx : x ∈ xs) :
    ∃ (i : Nat) (s : Statement) (w : Written) (ws : List UInt32), ss[i]? = some s ∧
      s.instruction = some w ∧ x.line = s.line ∧ parts[i]? = some ws ∧ ws.length = x.words ∧
      0 < x.words := by
  induction h with
  | nil => cases hx
  | silent _ _ _ ih =>
      obtain ⟨i, s, w, ws, hs, h⟩ := ih hx
      exact ⟨i + 1, s, w, ws, hs, h⟩
  | words hsome _ hrecords hknown hws hlength _ ih =>
      rcases List.mem_cons.1 hx with rfl | hx
      · have hpos := (Mnemonic.length_encode hrecords.words hknown hws).2
        exact ⟨0, _, _, _, rfl, hsome, hrecords.line, rfl, hlength, hpos⟩
      · obtain ⟨i, s, w, ws, hs, h⟩ := ih hx
        exact ⟨i + 1, s, w, ws, hs, h⟩

/-- Every source is the first word of a line with an instruction. -/
theorem of_source {a : UInt32} {n : Nat} (ha : (a, n) ∈ sources) :
    ∃ i s w, ss[i]? = some s ∧ s.instruction = some w ∧ n = s.line ∧
      a = addressOf (k + wordsBefore parts i) := by
  induction h with
  | nil => cases ha
  | silent _ _ _ ih =>
      obtain ⟨i, s, w, hs, hsome, hn, ha⟩ := ih ha
      exact ⟨i + 1, s, w, hs, hsome, hn, by simpa [wordsBefore_succ] using ha⟩
  | words hsome _ _ _ _ _ _ ih =>
      rcases List.mem_cons.1 ha with heq | ha
      · cases heq
        exact ⟨0, _, _, rfl, hsome, rfl, by simp [wordsBefore_zero]⟩
      · obtain ⟨i, s, w, hs, hsome, hn, ha⟩ := ih ha
        exact ⟨i + 1, s, w, hs, hsome, hn, by rw [wordsBefore_succ, ← Nat.add_assoc, ha]⟩

/-- **Different instructions stand at different addresses.** -/
theorem sources_nodup
    (hsize : k + parts.flatten.length < 2 ^ 30) : (sources.map Prod.fst).Nodup := by
  induction h with
  | nil => exact List.nodup_nil
  | silent _ _ _ ih => exact ih hsize
  | @words k _ _ _ _ ws parts _ _ _ _ _ hx hknown hws hlength hrest ih =>
      rw [List.flatten_cons, List.length_append] at hsize
      rw [List.map_cons, List.nodup_cons]
      refine ⟨?_, ih (by omega)⟩
      intro hmem
      obtain ⟨⟨a, n⟩, hsource, ha⟩ := List.mem_map.1 hmem
      obtain ⟨i, -, -, -, -, -, rfl⟩ := hrest.of_source hsource
      have hpos := (Mnemonic.length_encode hx.words hknown hws).2
      have hle := wordsBefore_le parts i
      -- the words of the instruction stand in between
      have hnat := congrArg UInt32.toNat ha
      rw [addressOf_toNat (by omega), addressOf_toNat (by omega)] at hnat
      omega

end

end Emitted

/-! ### Lines -/

theorem Statement.parse_line {n : Nat} {source : Text} {s : Statement}
    (h : Statement.parse n source = .ok s) : s.line = n := by
  simp only [Statement.parse] at h
  split at h
  · cases h
  · split at h
    · cases h
      rfl
    · split at h
      · cases h
      · cases h
        rfl

theorem Statement.parsed {first : Nat} {ss : List Statement}
    (h : (lines.zipIdx first).mapM (fun (source, line) => Statement.parse line source) = .ok ss) :
    ss.length = lines.length ∧ ∀ i s, ss[i]? = some s → s.line = first + i := by
  induction lines generalizing first ss with
  | nil =>
      obtain rfl : ss = [] := (pure_ok_iff.1 h).symm
      exact ⟨rfl, fun i s hs => by cases hs⟩
  | cons line lines ih =>
      rw [List.zipIdx_cons] at h
      obtain ⟨s, ss', hs, hss', rfl⟩ := mapM_cons_ok_iff.1 h
      obtain ⟨hlength, hlines⟩ := ih hss'
      refine ⟨by rw [List.length_cons, List.length_cons, hlength], ?_⟩
      intro i s' hs'
      cases i with
      | zero =>
          obtain rfl := Option.some.inj hs'
          exact Statement.parse_line hs
      | succ i =>
          rw [hlines i s' hs']
          omega

/-- **Both passes over lines**: what the first has recorded and what the second has written, line by
line.  The words of line `i` (counted from zero) are `parts[i]`. -/
structure PassesAgree (elide : Bool) (lines : List Text) (image : Image) (ss : List Statement)
    (plan : Plan) (parts : List (List UInt32)) : Prop where
  /-- The lines are taken apart and laid out. -/
  parsed : Statement.parseAll lines = .ok ss
  laidOut : layOut elide ss = .ok plan
  /-- Every line has its statement, with the number of the line, and its part of the words. -/
  statement : ss.length = lines.length ∧
    ∀ (i : Nat) (s : Statement), ss[i]? = some s → s.line = i + 1
  part : parts.length = lines.length
  whole : image.words.toList = parts.flatten
  /-- A label has the address behind the words of the lines before its own. -/
  label : ∀ (i : Nat) (s : Statement), ss[i]? = some s → ∀ name ∈ s.labels,
    ∃ a, image.labels[name]? = some a ∧ a.toNat = 4 * (parts.take i).flatten.length
  /-- The first pass records exactly the lines with an instruction. -/
  recorded : ∀ n, (∃ x ∈ plan.sized, x.line = n) ↔
    ∃ (i : Nat) (s : Statement), ss[i]? = some s ∧ s.instruction.isSome ∧ n = i + 1
  /-- A line has as many words as were recorded for it. -/
  counted : ∀ x ∈ plan.sized, ∃ ws, parts[x.line - 1]? = some ws ∧ ws.length = x.words ∧ ws ≠ []
  silent : ∀ (i : Nat) (s : Statement), ss[i]? = some s → s.instruction = none → parts[i]? = some []
  /-- The words of a line are those of its instruction, at its address and with all labels. -/
  encoded : ∀ (i : Nat) (s : Statement) (w : Written), ss[i]? = some s → s.instruction = some w →
    ∃ m ws, Mnemonic.ofName? w.mnemonic = some m ∧ parts[i]? = some ws ∧
      m.encode image.labels (addressOf (parts.take i).flatten.length) ws.length w.operands = .ok ws
  /-- The sources are the addresses of the first words of the lines with an instruction. -/
  sources : ∀ a n, (a, n) ∈ image.sources ↔ ∃ (i : Nat) (s : Statement), ss[i]? = some s ∧
    s.instruction.isSome ∧ n = i + 1 ∧ a.toNat = 4 * (parts.take i).flatten.length
  /-- No address has two sources. -/
  unique : (image.sources.toList.map Prod.fst).Nodup

/-- **The two passes agree.**  Assembling never fails by a number of words that was not laid out; if
it succeeds, labels, word counts and sources are those of the words that were written. -/
theorem assemble_agrees (elide : Bool) (lines : List Text) :
    (∀ e detail, assemble elide lines = .error (.line e) → e.cause ≠ .addressDrift detail) ∧
      ∀ image, assemble elide lines = .ok image → image.words.size < 2 ^ 30 →
        ∃ ss plan parts, PassesAgree elide lines image ss plan parts := by
  refine ⟨fun e detail h => assemble_driftFree h, ?_⟩
  intro image h hsize
  obtain ⟨ss, plan, parts, hss, hplan, -, hwords, hemitted⟩ := assemble_emitted h
  obtain ⟨hlength, hlines⟩ := Statement.parsed hss
  have hline : ∀ i s, ss[i]? = some s → s.line = i + 1 := by
    intro i s hs
    rw [hlines i s hs]
    omega
  have htotal : parts.flatten.length < 2 ^ 30 := by
    rw [← hwords, Array.length_toList]
    exact hsize
  have haddress : ∀ i, (addressOf (0 + Emitted.wordsBefore parts i)).toNat =
      4 * (parts.take i).flatten.length := by
    intro i
    have hle := Emitted.wordsBefore_le parts i
    rw [Nat.zero_add, addressOf_toNat (by omega)]
    rfl
  refine ⟨ss, plan, parts, ?_⟩
  constructor
  case parsed => exact hss
  case laidOut => exact hplan
  case statement => exact ⟨hlength, hline⟩
  case part => rw [hemitted.length_eq, hlength]
  case whole => exact hwords
  case label =>
    intro i s hs name hname
    exact ⟨_, hemitted.label hs hname, haddress i⟩
  case recorded =>
    intro n
    constructor
    · rintro ⟨x, hx, rfl⟩
      obtain ⟨i, s, w, -, hs, hw, hxline, -⟩ := hemitted.of_record (Array.mem_toList_iff.2 hx)
      exact ⟨i, s, hs, Option.isSome_iff_exists.2 ⟨w, hw⟩, hxline.trans (hline i s hs)⟩
    · rintro ⟨i, s, hs, hsome, rfl⟩
      obtain ⟨w, hw⟩ := Option.isSome_iff_exists.1 hsome
      obtain ⟨x, hx, _, _, _, hrecords, _⟩ := hemitted.instruction_part hs hw
      exact ⟨x, Array.mem_toList_iff.1 hx, hrecords.line.trans (hline i s hs)⟩
  case counted =>
    intro x hx
    obtain ⟨i, s, -, ws, hs, -, hxline, hws, hcount, hpos⟩ :=
      hemitted.of_record (Array.mem_toList_iff.2 hx)
    refine ⟨ws, ?_, hcount, List.ne_nil_of_length_pos (by omega)⟩
    rw [hxline, hline i s hs]
    exact hws
  case silent => exact fun i s => hemitted.silent_part
  case encoded =>
    intro i s w hs hw
    obtain ⟨x, -, ws, _, -, hrecords, hpart, hcount, hencode, -⟩ := hemitted.instruction_part hs hw
    refine ⟨x.mnemonic, ws, hrecords.mnemonic, hpart, ?_⟩
    rw [Nat.zero_add, hrecords.operands] at hencode
    rw [hcount]
    exact hencode
  case sources =>
    intro a n
    constructor
    · intro ha
      obtain ⟨i, s, w, hs, hw, rfl, rfl⟩ := hemitted.of_source (Array.mem_toList_iff.2 ha)
      exact ⟨i, s, hs, Option.isSome_iff_exists.2 ⟨w, hw⟩, hline i s hs, haddress i⟩
    · rintro ⟨i, s, hs, hsome, rfl, ha⟩
      obtain ⟨w, hw⟩ := Option.isSome_iff_exists.1 hsome
      obtain ⟨_, _, _, _, _, _, _, _, _, hsource⟩ := hemitted.instruction_part hs hw
      rw [← hline i s hs, show a = _ from UInt32.toNat_inj.1 (ha.trans (haddress i).symm)]
      exact Array.mem_toList_iff.1 hsource
  case unique => exact hemitted.sources_nodup (by omega)

/-- Lines that load an address behind them and one before them.  The first takes two words, because
it is not yet known, and the second one. -/
def turnLines : List Listing.Line :=
  [.label .main, .code .la [.register 8, .label .exit], .code .la [.register 9, .label .main],
    .branch .beq 8 9 .main, .jump .exit, .label .exit, .serve]

theorem assemble_agrees_turnLines :
    (∃ e, assemble true [text "halt"] = .error (.line e) ∧ e.cause ≠ .addressDrift []) ∧
      ∃ image, assemble true (turnLines.map Listing.Line.render) = .ok image ∧
        image.words.size < 2 ^ 30 ∧ ∃ ss plan parts,
          PassesAgree true (turnLines.map Listing.Line.render) image ss plan parts := by
  constructor
  · have hfails : assemble true [text "halt"] =
        .error (.line ⟨1, text "halt", .unknownMnemonic (text "halt")⟩) := rfl
    exact ⟨_, hfails, (assemble_agrees true [text "halt"]).1 _ _ hfails⟩
  · have hformed : Listing.WellFormed turnLines :=
      ⟨by decide, by decide, by decide, by decide, by decide⟩
    obtain ⟨image, himage, hsize⟩ := hformed.assembles true
    have hsize' : image.words.size < 2 ^ 30 := Nat.lt_of_le_of_lt hsize (by decide)
    exact ⟨image, himage, hsize', (assemble_agrees true _).2 image himage hsize'⟩

end StackCompiler.Assembly
