/-
**Branches and jumps reach their labels.**

A branch holds the distance to its label in 16 bits with a sign, counted in words from the word
behind it; a jump holds the last 26 bits of a word address.  The assembler computes the distance
with integers and divides, the machine adds a half word extended by its sign to a word that wraps
around.  In a program that ends before the first region does, both come to the same address, and a
branch is turned down for its distance exactly if that does not fit.

* `Assembly.targets_are_labels` — **branches and jumps reach their labels, and only a label out of
  reach is turned down**.
-/

import StackCompiler.Proofs.PassAgreement

namespace StackCompiler.Assembly

open Operand (register branch label)

/-! ### Words that hold a target -/

namespace Mnemonic

/-- The label that a branch names. -/
def branchLabel? : Mnemonic → List Text → Option Text
  | operation .beq, [_, _, l] => some l
  | operation .bne, [_, _, l] => some l
  | operation .blez, [_, l] => some l
  | operation .bgtz, [_, l] => some l
  | beqz, [_, l] => some l
  | bnez, [_, l] => some l
  | b, [l] => some l
  | _, _ => none

/-- The label that a jump names. -/
def jumpLabel? : Mnemonic → List Text → Option Text
  | operation .j, [l] => some l
  | operation .jal, [l] => some l
  | _, _ => none

/-- What a branch holds besides its distance. -/
structure BranchForm where
  operation : Operation
  primary : UInt32
  rs : Register
  rt : Register
  code : operation.code = .primary primary

/-- The word of a branch. -/
def BranchForm.word (f : BranchForm) (imm : UInt16) : UInt32 :=
  f.operation.immediateWord f.rs f.rt imm

/-- The machine finds the distance that was written into a branch. -/
theorem BranchForm.imm_word (f : BranchForm) (imm : UInt16) :
    (Fields.ofWord (f.word imm)).imm = imm := by
  rw [word, Operation.immediateWord, f.code]
  exact (Fields.ofWord_ofImmediate _ _ _ _).2.2.2

/-- A branch on two registers. -/
def twoForm {o : Operation} {op : UInt32} (ho : o.code = .primary op) (s t : Text) :
    Except Cause BranchForm := do
  let rs ← register s
  let rt ← register t
  return ⟨o, op, rs, rt, ho⟩

/-- A branch on one register. -/
def oneForm {o : Operation} {op : UInt32} (ho : o.code = .primary op) (s : Text) :
    Except Cause BranchForm := do
  let rs ← register s
  return ⟨o, op, rs, Register.zero, ho⟩

section Encoding

variable {labels : Labels} {pc : UInt32} {m : Mnemonic} {operands : List Text} {l : Text}
  {o : Operation} {op : UInt32}

theorem branchTwo_form (ho : o.code = .primary op) (s t : Text) :
    branchTwo o labels pc [s, t, l] = (do
      let f ← twoForm ho s t
      let imm ← branch labels pc l
      return f.word imm) := by
  simp only [branchTwo, Operand.three, ok_bind, twoForm, bind_assoc, pure_bind]
  rfl

theorem branchOne_form (ho : o.code = .primary op) (s : Text) :
    branchOne o labels pc [s, l] = (do
      let f ← oneForm ho s
      let imm ← branch labels pc l
      return f.word imm) := by
  simp only [branchOne, Operand.two, ok_bind, oneForm, bind_assoc, pure_bind]
  rfl

theorem twoForm_ok (ho : o.code = .primary op) {s t : Text}
    (h : ∀ x ∈ [s, t], ∃ r, register x = .ok r) : ∃ f, twoForm ho s t = .ok f := by
  obtain ⟨rs, hrs⟩ := h s (by simp)
  obtain ⟨rt, hrt⟩ := h t (by simp)
  exact ⟨⟨o, op, rs, rt, ho⟩, by rw [twoForm, hrs, hrt]; rfl⟩

theorem oneForm_ok (ho : o.code = .primary op) {s : Text}
    (h : ∀ x ∈ [s], ∃ r, register x = .ok r) : ∃ f, oneForm ho s = .ok f := by
  obtain ⟨rs, hrs⟩ := h s (by simp)
  exact ⟨⟨o, op, rs, Register.zero, ho⟩, by rw [oneForm, hrs]; rfl⟩

/-- **A branch is a word made of its registers and the distance to its label.**  Apart from the
distance, only a register can be wrong with it. -/
theorem encode_branch (n : Nat) (labels : Labels) (pc : UInt32)
    (h : m.branchLabel? operands = some l) :
    ∃ form : Except Cause BranchForm,
      m.encode labels pc n operands = (do
        let f ← form
        let imm ← branch labels pc l
        return [f.word imm]) ∧
      ((∀ t ∈ operands.dropLast, ∃ r, register t = .ok r) → ∃ f, form = .ok f) := by
  unfold branchLabel? at h
  split at h <;> cases h
  case h_1 s t =>
    refine ⟨twoForm (o := .beq) rfl s t, ?_, twoForm_ok rfl⟩
    simp only [encode, encodeOperation, branchTwo_form (o := .beq) rfl, bind_assoc, pure_bind]
  case h_2 s t =>
    refine ⟨twoForm (o := .bne) rfl s t, ?_, twoForm_ok rfl⟩
    simp only [encode, encodeOperation, branchTwo_form (o := .bne) rfl, bind_assoc, pure_bind]
  case h_3 s =>
    refine ⟨oneForm (o := .blez) rfl s, ?_, oneForm_ok rfl⟩
    simp only [encode, encodeOperation, branchOne_form (o := .blez) rfl, bind_assoc, pure_bind]
  case h_4 s =>
    refine ⟨oneForm (o := .bgtz) rfl s, ?_, oneForm_ok rfl⟩
    simp only [encode, encodeOperation, branchOne_form (o := .bgtz) rfl, bind_assoc, pure_bind]
  case h_5 s =>
    refine ⟨oneForm (o := .beq) rfl s, ?_, oneForm_ok rfl⟩
    simp only [encode, branchOne_form (o := .beq) rfl, bind_assoc, pure_bind]
  case h_6 s =>
    refine ⟨oneForm (o := .bne) rfl s, ?_, oneForm_ok rfl⟩
    simp only [encode, branchOne_form (o := .bne) rfl, bind_assoc, pure_bind]
  case h_7 => exact ⟨.ok ⟨.beq, _, Register.zero, Register.zero, rfl⟩, rfl, fun _ => ⟨_, rfl⟩⟩

/-- **A jump is a word made of the address of its label.** -/
theorem encode_jump {n : Nat} {ws : List UInt32} (h : m.jumpLabel? operands = some l)
    (hws : m.encode labels pc n operands = .ok ws) :
    ∃ a w, labels[l]? = some a ∧ ws = [w] ∧
      (Fields.ofWord w).index = (a &&& 0x0FFFFFFF) >>> 2 &&& 0x03FFFFFF := by
  have hjump : ∃ (o : Operation) (op : UInt32), o.code = .primary op ∧
      m.encode labels pc n operands = (do
        let a ← label labels l
        return [o.jumpWord (a &&& 0x0FFFFFFF)]) := by
    unfold jumpLabel? at h
    split at h <;> cases h
    · exact ⟨.j, _, rfl, by simp only [encode, encodeOperation, jumpTo, Operand.one, ok_bind,
        bind_assoc, pure_bind]⟩
    · exact ⟨.jal, _, rfl, by simp only [encode, encodeOperation, jumpTo, Operand.one, ok_bind,
        bind_assoc, pure_bind]⟩
  obtain ⟨o, op, ho, hencode⟩ := hjump
  rw [hencode] at hws
  obtain ⟨a, ha, rfl⟩ := bind_pure_ok_iff.1 hws
  refine ⟨a, o.jumpWord (a &&& 0x0FFFFFFF), ?_, rfl, (Operation.jumpWord_decoded ho _).2⟩
  unfold label at ha
  split at ha
  · next heq => rw [heq, Except.ok.inj ha]
  · cases ha

end Encoding

end Mnemonic

/-! ### Distances -/

/-- The distance from the word behind `pc` to an address does not fit in 16 bits with a sign. -/
def OutOfReach (pc address : UInt32) : Prop :=
  let words : Int := ((address.toNat : Int) - ((pc.toNat : Int) + 4)) / 4
  words < -32768 ∨ 32767 < words

section Distances

variable {labels : Labels} {l : Text} {k t : Nat}

theorem outOfReach_addressOf (hk : k < 2 ^ 29) (ht : t < 2 ^ 29) :
    OutOfReach (addressOf k) (addressOf t) ↔
      Operand.distance (addressOf k) (addressOf t) < -32768 ∨
        32767 < Operand.distance (addressOf k) (addressOf t) := by
  have hwords : (((addressOf t).toNat : Int) - (((addressOf k).toNat : Int) + 4)) / 4 =
      (t : Int) - (k + 1) := by
    rw [addressOf_toNat (by omega), addressOf_toNat (by omega)]
    omega
  rw [Word.distance_addressOf (by omega) (by omega), OutOfReach]
  simp only [hwords]

/-- **A distance is turned down exactly if it does not fit.** -/
theorem branch_error_iff (hl : labels[l]? = some (addressOf t)) (hk : k < 2 ^ 29)
    (ht : t < 2 ^ 29) :
    (∃ c, branch labels (addressOf k) l = .error c) ↔ OutOfReach (addressOf k) (addressOf t) := by
  rw [outOfReach_addressOf hk ht]
  simp only [branch, label, hl, ok_bind]
  split
  · next h => exact ⟨fun _ => h, fun _ => ⟨_, rfl⟩⟩
  · next h =>
    refine ⟨?_, fun h' => absurd h' h⟩
    rintro ⟨c, hc⟩
    cases hc

/-- A distance that was not turned down leads to the label. -/
theorem branch_target {imm : UInt16} (h : branch labels (addressOf k) l = .ok imm)
    (hl : labels[l]? = some (addressOf t)) (hk : k < 2 ^ 29) (ht : t < 2 ^ 29) :
    Word.branchTarget (addressOf k) imm = addressOf t := by
  simp only [branch, label, hl, ok_bind] at h
  split at h
  · cases h
  · obtain rfl := Except.ok.inj h
    exact Word.branchTarget_distance hk ht (by omega) (by omega)

theorem label_of_branch {pc : UInt32} {imm : UInt16} (h : branch labels pc l = .ok imm) :
    ∃ a, labels[l]? = some a := by
  obtain ⟨a, ha, -⟩ := bind_ok_iff.1 h
  unfold label at ha
  split at ha
  · next heq => exact ⟨_, heq⟩
  · cases ha

end Distances

/-! ### Targets in an image -/

/-- Where the words of a line stand in all words. -/
theorem getElem?_flatten {parts : List (List UInt32)} {i j : Nat} {ws : List UInt32} {w : UInt32}
    (hws : parts[i]? = some ws) (hw : ws[j]? = some w) :
    parts.flatten[Emitted.wordsBefore parts i + j]? = some w := by
  induction parts generalizing i with
  | nil => cases hws
  | cons part parts ih =>
      cases i with
      | zero =>
          obtain rfl := Option.some.inj hws
          obtain ⟨hj, -⟩ := List.getElem?_eq_some_iff.1 hw
          rw [Emitted.wordsBefore_zero, Nat.zero_add, List.flatten_cons,
            List.getElem?_append_left hj, hw]
      | succ i =>
          rw [Emitted.wordsBefore_succ, List.flatten_cons, Nat.add_assoc,
            List.getElem?_append_right (Nat.le_add_right _ _), Nat.add_sub_cancel_left]
          exact ih hws

/-- What the word of a branch or a jump at `pc` leads to, if it is one. -/
structure LeadsToLabel (image : Image) (m : Mnemonic) (operands : List Text) (pc word : UInt32) :
    Prop where
  branch : ∀ l, m.branchLabel? operands = some l →
    image.labels[l]? = some (Word.branchTarget pc (Fields.ofWord word).imm)
  jump : ∀ l, m.jumpLabel? operands = some l →
    image.labels[l]? = some (Word.jumpTarget pc (Fields.ofWord word).index)

variable {m : Mnemonic} {image : Image}

/-- A word that was encoded behind `k` others leads to the label of its line. -/
theorem leadsToLabel_of_encode {operands : List Text} {k n : Nat} {w : UInt32} {ws : List UInt32}
    (hup : image.labels.UpTo image.words.size) (hsize : image.words.size < 2 ^ 26)
    (hk : k < image.words.size)
    (h : m.encode image.labels (addressOf k) n operands = .ok (w :: ws)) :
    LeadsToLabel image m operands (addressOf k) w := by
  constructor
  · intro l hl
    obtain ⟨form, hencode, -⟩ := Mnemonic.encode_branch n image.labels (addressOf k) hl
    rw [hencode] at h
    obtain ⟨f, -, h⟩ := bind_ok_iff.1 h
    obtain ⟨imm, himm, h⟩ := bind_ok_iff.1 h
    obtain ⟨rfl, -⟩ := List.cons.inj (pure_ok_iff.1 h)
    obtain ⟨a, ha⟩ := label_of_branch himm
    obtain ⟨t, ht, rfl⟩ := hup l a ha
    rw [f.imm_word, branch_target himm ha (by omega) (by omega)]
    exact ha
  · intro l hl
    obtain ⟨a, w', ha, hws, hindex⟩ := Mnemonic.encode_jump hl h
    obtain ⟨rfl, -⟩ := List.cons.inj hws
    obtain ⟨t, ht, rfl⟩ := hup l a ha
    rw [hindex, Word.jumpTarget_index (by omega) (by omega)]
    exact ha

variable {elide : Bool} {s : Statement} {w : Written}

/-- **Every branch and every jump of an image leads to its label.** -/
theorem assemble_leadsToLabel {lines : List Text} {ss : List Statement}
    (hss : Statement.parseAll lines = .ok ss) (h : assemble elide lines = .ok image)
    (hsize : image.words.size < 2 ^ 26) (hs : s ∈ ss) (hw : s.instruction = some w)
    (hm : Mnemonic.ofName? w.mnemonic = some m) :
    ∃ pc word, (∀ a, (a, s.line) ∈ image.sources ↔ a = pc) ∧ pc.toNat % 4 = 0 ∧
      image.words[pc.toNat / 4]? = some word ∧ LeadsToLabel image m w.operands pc word := by
  obtain ⟨ss', plan, parts, hss', -, -, hwords, hemitted⟩ := assemble_emitted h
  obtain rfl := Except.ok.inj (hss'.symm.trans hss)
  obtain ⟨-, hlines⟩ := Statement.parsed hss
  obtain ⟨i, hi⟩ := List.mem_iff_getElem?.1 hs
  obtain ⟨x, -, ws, known, hknown, hx, hpart, hcount, hencode, hsource⟩ :=
    hemitted.instruction_part hi hw
  rw [Nat.zero_add] at hencode hsource
  obtain rfl : x.mnemonic = m := Option.some.inj (hx.mnemonic.symm.trans hm)
  -- the first word of the line holds the target
  obtain ⟨word, rest, rfl⟩ : ∃ word rest, ws = word :: rest := by
    obtain ⟨hlen, hpos⟩ := Mnemonic.length_encode hx.words hknown hencode
    exact List.exists_cons_of_length_pos (by omega)
  have hword : image.words[Emitted.wordsBefore parts i]? = some word := by
    rw [← Array.getElem?_toList, hwords]
    exact getElem?_flatten (j := 0) hpart rfl
  have hk : Emitted.wordsBefore parts i < image.words.size := (Array.getElem?_eq_some_iff.1 hword).1
  have hpc : (addressOf (Emitted.wordsBefore parts i)).toNat = 4 * Emitted.wordsBefore parts i :=
    addressOf_toNat (by omega)
  refine ⟨addressOf (Emitted.wordsBefore parts i), word, ?_, by omega, ?_, ?_⟩
  · intro a
    constructor
    · intro ha
      obtain ⟨i', s', w', hs', -, hline, rfl⟩ := hemitted.of_source (Array.mem_toList_iff.2 ha)
      have := hlines i s hi
      have := hlines i' s' hs'
      obtain rfl : i' = i := by omega
      rw [Nat.zero_add]
    · rintro rfl
      exact Array.mem_toList_iff.1 hsource
  · rw [hpc, Nat.mul_div_cancel_left _ (by decide)]
    exact hword
  · rw [hx.operands] at hencode
    exact leadsToLabel_of_encode (label_address h) hsize hk hencode

/-! ### Branches that are turned down -/

variable {plan : Plan}

/-- The first pass at a line: what it has before, what it records, and what it has in the end. -/
theorem layOut_at {before after : List Statement}
    (h : layOut elide (before ++ s :: after) = .ok plan) (hw : s.instruction = some w) :
    ∃ p x later, layOut elide before = .ok p ∧ plan.sized.toList = p.sized.toList ++ x :: later ∧
      x.line = s.line ∧ x.operands = w.operands ∧
      Mnemonic.ofName? w.mnemonic = some x.mnemonic ∧
      ∀ y ∈ later, ∃ s' ∈ after, y.line = s'.line := by
  obtain ⟨p, hp, hrest⟩ := foldlM_append_ok_iff.1 (foldlM_mapError_ok_iff.1 h)
  obtain ⟨r, hr, hplan⟩ := foldlM_cons_ok_iff.1 hrest
  have hp' : layOut elide before = .ok p := foldlM_mapError_ok_iff.2 hp
  obtain ⟨-, later, hlater, hplanned⟩ :=
    planned_of_addAll hplan ((layOut_sound hp').add hr).address
  rcases (Plan.add_ok hr).2 with ⟨hnone, -⟩ | ⟨w', x, hw', hx, -, hsized⟩
  · rw [hw] at hnone
    cases hnone
  · obtain rfl := Option.some.inj (hw'.symm.trans hw)
    exact ⟨p, x, later, hp', by rw [hlater, hsized]; simp, hx.line, hx.operands, hx.mnemonic,
      fun _ hy => hplanned.line_of_mem hy⟩

/-- The second pass turns a line down exactly if it has no words, once the lines before it are
written. -/
theorem emit_error_iff {ss : List Statement} (hplan : layOut elide ss = .ok plan)
    {before later : List Sized} {x : Sized} (hsized : plan.sized.toList = before ++ x :: later)
    (hbefore : emit { plan with sized := before.toArray } = .ok image)
    (hlater : ∀ y ∈ later, y.line ≠ x.line) :
    (∃ e, emit plan = .error e ∧ e.line = x.line) ↔
      ∃ c, x.mnemonic.encode plan.labels (addressOf (totalWords before)) x.words x.operands =
        .error c := by
  have hfold := foldlM_mapError_ok_iff.1 hbefore
  have hlabels : image.labels = plan.labels := (Image.addAll_ok hfold).1
  have hpc : image.words.size = totalWords before := by
    simpa using (Image.addAll_ok hfold).2
  obtain ⟨known, hknown, hsize⟩ := (layOut_planned hplan).sized (x := x) (by rw [hsized]; simp)
  have hadd : (∃ c, image.add x = .error c) ↔ ∃ c, x.mnemonic.encode plan.labels
      (addressOf (totalWords before)) x.words x.operands = .error c := by
    rw [← hlabels, ← hpc]
    constructor
    · rintro ⟨c, hc⟩
      rcases bind_error_iff.1 hc with hc | ⟨ws, hws, hc⟩
      · exact ⟨c, hc⟩
      · rw [if_pos (Mnemonic.length_encode hsize (hlabels ▸ hknown) hws).1] at hc
        cases hc
    · rintro ⟨c, hc⟩
      exact ⟨c, bind_error_iff.2 (Or.inl hc)⟩
  rw [← hadd, emit, hsized, List.foldlM_append]
  constructor
  · rintro ⟨e, he, hline⟩
    rcases bind_error_iff.1 he with he | ⟨image', himage', he⟩
    · -- the lines before were written
      exact absurd (he.symm.trans hbefore) (by simp)
    · obtain rfl := Except.ok.inj (himage'.symm.trans hbefore)
      rw [List.foldlM_cons] at he
      rcases bind_error_iff.1 he with he | ⟨j, -, he⟩
      · obtain ⟨c, hc, -⟩ := mapError_error_iff.1 he
        exact ⟨c, hc⟩
      · -- the error of a later line names that line
        obtain ⟨ys, y, zs, i, hys, -, hy⟩ := foldlM_error_iff.1 he
        obtain ⟨c, -, rfl⟩ := mapError_error_iff.1 hy
        exact absurd hline (hlater y (by rw [hys]; simp))
  · rintro ⟨c, hc⟩
    refine ⟨⟨x.line, x.source, c⟩, bind_error_iff.2 (Or.inr ⟨image, hbefore, ?_⟩), rfl⟩
    rw [List.foldlM_cons]
    exact bind_error_iff.2 (Or.inl (mapError_error_iff.2 ⟨c, hc, rfl⟩))

/-- A branch to a known label has words exactly if the label is in reach. -/
theorem encode_branch_error_iff {labels : Labels} {operands : List Text} {l : Text} {k t : Nat}
    (n : Nat) (h : m.branchLabel? operands = some l)
    (hregisters : ∀ t ∈ operands.dropLast, ∃ r, register t = .ok r)
    (hl : labels[l]? = some (addressOf t)) (hk : k < 2 ^ 29) (ht : t < 2 ^ 29) :
    (∃ c, m.encode labels (addressOf k) n operands = .error c) ↔
      OutOfReach (addressOf k) (addressOf t) := by
  obtain ⟨form, hencode, hform⟩ := Mnemonic.encode_branch n labels (addressOf k) h
  obtain ⟨f, rfl⟩ := hform hregisters
  rw [hencode, ok_bind, ← branch_error_iff hl hk ht]
  constructor
  · rintro ⟨c, hc⟩
    rcases bind_error_iff.1 hc with hc | ⟨imm, -, hc⟩
    · exact ⟨c, hc⟩
    · cases hc
  · rintro ⟨c, hc⟩
    exact ⟨c, bind_error_iff.2 (Or.inl hc)⟩

/-- What becomes of a branch to a label with an address, behind the lines of a plan: encoding it
fails exactly if the label is out of reach, and so the second pass turns its line down exactly
then, if it comes that far. -/
structure TurnedDownOutOfReach (plan before : Plan) (s : Statement) (m : Mnemonic)
    (operands : List Text) (address : UInt32) : Prop where
  encode : (∃ c, m.encode plan.labels before.address 1 operands = .error c) ↔
    OutOfReach before.address address
  emit : ∀ image, emit { plan with sized := before.sized } = .ok image →
    ((∃ e, emit plan = .error e ∧ e.line = s.line) ↔ OutOfReach before.address address)

theorem layOut_turnedDown {lines : List Text} {ss before after : List Statement} {l : Text}
    {a : UInt32} (hss : Statement.parseAll lines = .ok ss) (hplan : layOut elide ss = .ok plan)
    (hsize : totalWords plan.sized.toList < 2 ^ 26) (hsplit : ss = before ++ s :: after)
    (hw : s.instruction = some w) (hm : Mnemonic.ofName? w.mnemonic = some m)
    (hl : m.branchLabel? w.operands = some l)
    (hregisters : ∀ t ∈ w.operands.dropLast, ∃ r, register t = .ok r)
    (ha : plan.labels[l]? = some a) :
    ∃ p, layOut elide before = .ok p ∧ TurnedDownOutOfReach plan p s m w.operands a := by
  subst hsplit
  obtain ⟨p, x, later, hp, hsized, hxline, hxoperands, hxmnemonic, hlater⟩ := layOut_at hplan hw
  obtain rfl : x.mnemonic = m := Option.some.inj (hxmnemonic.symm.trans hm)
  have hsound := layOut_sound hplan
  obtain ⟨t, ht, rfl⟩ := hsound.upTo l a ha
  have htotal : totalWords plan.sized.toList =
      totalWords p.sized.toList + totalWords (x :: later) := by
    rw [hsized, totalWords, List.map_append, List.sum_append]
    rfl
  have haddress : p.address = addressOf (totalWords p.sized.toList) := (layOut_sound hp).address
  have hencode : ∀ n, (∃ c, x.mnemonic.encode plan.labels p.address n w.operands = .error c) ↔
      OutOfReach p.address (addressOf t) := by
    intro n
    rw [haddress]
    exact encode_branch_error_iff n hl hregisters ha (by omega) (by omega)
  refine ⟨p, hp, ⟨hencode 1, ?_⟩⟩
  intro image himage
  have hdistinct : ∀ y ∈ later, y.line ≠ x.line := by
    -- lines are numbered in order, so no later line has the number of this one
    obtain ⟨-, hlines⟩ := Statement.parsed hss
    intro y hy hyx
    obtain ⟨s', hs', hyline⟩ := hlater y hy
    obtain ⟨j, hj⟩ := List.mem_iff_getElem?.1 hs'
    have hthis := hlines before.length s (by simp)
    have hother := hlines (before.length + (j + 1)) s' (by
      rw [List.getElem?_append_right (Nat.le_add_right _ _), Nat.add_sub_cancel_left]
      exact hj)
    omega
  rw [← hxline, emit_error_iff hplan hsized (by simpa using himage) hdistinct, ← hencode x.words,
    hxoperands, haddress]

/-- **Branches and jumps reach their labels.**  In a program of fewer than `2 ^ 26` words every
branch and every jump leads to the label it names; and a branch with proper registers and a label
that is defined is turned down exactly if its label is out of reach. -/
theorem targets_are_labels (elide : Bool) {lines : List Text} {ss : List Statement}
    (hss : Statement.parseAll lines = .ok ss) :
    (∀ image, assemble elide lines = .ok image → image.words.size < 2 ^ 26 →
      ∀ s ∈ ss, ∀ w m, s.instruction = some w → Mnemonic.ofName? w.mnemonic = some m →
        ∃ pc word, (∀ a, (a, s.line) ∈ image.sources ↔ a = pc) ∧ pc.toNat % 4 = 0 ∧
          image.words[pc.toNat / 4]? = some word ∧ LeadsToLabel image m w.operands pc word) ∧
    ∀ plan, layOut elide ss = .ok plan → totalWords plan.sized.toList < 2 ^ 26 →
      ∀ before s after w m l a, ss = before ++ s :: after → s.instruction = some w →
        Mnemonic.ofName? w.mnemonic = some m → m.branchLabel? w.operands = some l →
        (∀ t ∈ w.operands.dropLast, ∃ r, register t = .ok r) →
        plan.labels[l]? = some a →
        ∃ p, layOut elide before = .ok p ∧ TurnedDownOutOfReach plan p s m w.operands a := by
  constructor
  · intro image h hsize s hs w m hw hm
    exact assemble_leadsToLabel hss h hsize hs hw hm
  · intro plan hplan hsize before s after w m l a hsplit hw hm hl hregisters ha
    exact layOut_turnedDown hss hplan hsize hsplit hw hm hl hregisters ha

theorem targets_are_labels_turnLines :
    ∃ image plan, assemble true (turnLines.map Listing.Line.render) = .ok image ∧
      image.words.size < 2 ^ 26 ∧
      layOut true (Listing.statements 1 turnLines) = .ok plan ∧
      totalWords plan.sized.toList < 2 ^ 26 ∧
      (∃ pc word, (pc, 4) ∈ image.sources ∧ image.words[pc.toNat / 4]? = some word ∧
        image.labels[text "main"]? = some (Word.branchTarget pc (Fields.ofWord word).imm)) ∧
      (∃ pc word, (pc, 5) ∈ image.sources ∧ image.words[pc.toNat / 4]? = some word ∧
        image.labels[text "L_exit"]? = some (Word.jumpTarget pc (Fields.ofWord word).index)) ∧
      ∃ p a, plan.labels[text "main"]? = some a ∧
        layOut true (Listing.statements 1 (turnLines.take 3)) = .ok p ∧
        TurnedDownOutOfReach plan p ((Listing.Line.branch .beq 8 9 .main).statement 4)
          (.operation .beq) [text "$t0", text "$t1", text "main"] a := by
  have hformed : Listing.WellFormed turnLines :=
    ⟨by decide, by decide, by decide, by decide, by decide⟩
  have hss : Statement.parseAll (turnLines.map Listing.Line.render) =
      .ok (Listing.statements 1 turnLines) := Listing.parseAll_readable hformed.complete.readable
  obtain ⟨image, himage, hshort⟩ := hformed.assembles true
  have hsize : image.words.size < 2 ^ 26 := Nat.lt_of_le_of_lt hshort (by decide)
  obtain ⟨ss, plan, parts, hss', hplan, hlabels, hwords, hemitted⟩ := assemble_emitted himage
  obtain rfl := Except.ok.inj (hss.symm.trans hss')
  have htotal : totalWords plan.sized.toList < 2 ^ 26 := by
    rw [← hemitted.length_flatten, ← hwords, Array.length_toList]
    exact hsize
  have hregisters : ∀ t ∈ [Register.name 8, Register.name 9], ∃ r, register t = .ok r := by
    intro t ht
    rcases List.mem_pair.1 ht with rfl | rfl
    · exact ⟨8, Operand.register_name (by decide)⟩
    · exact ⟨9, Operand.register_name (by decide)⟩
  have htargets := targets_are_labels true hss
  obtain ⟨pc, word, hpc, -, hword, hleads⟩ := htargets.1 image himage hsize
    ((Listing.Line.branch .beq 8 9 .main).statement 4) (by decide) _ (.operation .beq) rfl rfl
  obtain ⟨pc', word', hpc', -, hword', hleads'⟩ := htargets.1 image himage hsize
    ((Listing.Line.jump .exit).statement 5) (by decide) _ (.operation .j) rfl rfl
  obtain ⟨a, ha⟩ : ∃ a, plan.labels[text "main"]? = some a := by
    rw [← hlabels]
    exact ⟨_, hemitted.label (i := 0) rfl (by decide)⟩
  obtain ⟨p, hp, hdown⟩ := htargets.2 plan hplan htotal (Listing.statements 1 (turnLines.take 3))
    ((Listing.Line.branch .beq 8 9 .main).statement 4) (Listing.statements 5 (turnLines.drop 4))
    _ (.operation .beq) (text "main") a rfl rfl rfl rfl hregisters ha
  exact ⟨image, plan, himage, hsize, hplan, htotal, ⟨pc, word, (hpc pc).2 rfl, hword,
    hleads.branch _ rfl⟩, ⟨pc', word', (hpc' pc').2 rfl, hword', hleads'.jump _ rfl⟩, p, a, ha, hp,
    hdown⟩

end StackCompiler.Assembly
