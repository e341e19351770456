/-
**The lines of an instruction.**

Whatever an instruction is lowered to, its lines can be read and their operands are taken: registers
come from the pool, slots and frames fit a displacement, and numbers fit a word.  The lines define
labels of their own offset only, each once, and use only those and the starts of instructions.  A
conditional jump becomes a branch to its target; every other branch stays among the lines of its
instruction.

* `Listing.Label.render_inj` — **labels that lowering makes have different texts**;
* `Lowering.Mips.body_of_draft` — **the lines of an instruction**.
-/

import StackCompiler.Proofs.CallLinkage
import StackCompiler.Proofs.PlainCompilation

namespace StackCompiler

open List (forall_mem_append forall_mem_cons forall_mem_nil forall_mem_singleton)

/-! ### The texts of labels -/

theorem Numeral.decimal_inj {m n : Nat} (h : decimal m = decimal n) : m = n := by
  have hm := readUnsigned_decimal (Nat.le_max_left m n)
  have hn := readUnsigned_decimal (Nat.le_max_right m n)
  rw [h] at hm
  exact Except.ok.inj (hm.symm.trans hn)

theorem Numeral.decimals_inj {a b : Option Nat}
    (h : (a.map decimal).getD [] = (b.map decimal).getD []) : a = b := by
  have hne : ∀ n, decimal n ≠ [] := by
    intro n hnil
    obtain ⟨d, rest, hcons, -⟩ := write_eq_cons 10 (by decide) n
    exact absurd (hcons.symm.trans hnil) (List.cons_ne_nil _ _)
  cases a with
  | none =>
      cases b with
      | none => rfl
      | some n => exact absurd h.symm (hne n)
  | some m =>
      cases b with
      | none => exact absurd h (hne m)
      | some n => exact congrArg some (decimal_inj h)

/-- The bytes of decimal digits. -/
def Text.digitByte (c : UInt8) : Bool := 48 ≤ c && c ≤ 57

namespace Listing.Label

/-- The offset of a label that has one. -/
def offset? : Label → Option Nat
  | start offset | returned offset | status offset | restore offset | done offset => some offset
  | main | exit | exitStatus | named _ => none

/-- What stands behind the first byte and the offset of a label. -/
def ending : Label → Text
  | main => text "ain"
  | exit => text "_exit"
  | exitStatus => text "_exit_status"
  | start _ => []
  | returned _ => text "_ret"
  | status _ => text "_exit"
  | restore _ => text "_restore"
  | done _ => text "_done"
  | named _ => []

/-- The label with an offset and an ending. -/
def ofParts : Option Nat → Text → Label
  | none, t =>
    if t = text "ain" then main else if t = text "_exit" then exit else exitStatus
  | some offset, t =>
    if t = [] then start offset
    else if t = text "_ret" then returned offset
    else if t = text "_exit" then status offset
    else if t = text "_restore" then restore offset
    else done offset

variable {l : Label}

theorem ofParts_parts (h : l.isMade) : ofParts l.offset? l.ending = l := by
  cases l with
  | named name => cases h
  | _ => rfl

theorem isMade_of_offset? {offset : Nat} (h : l.offset? = some offset) : l.isMade := by
  cases l with
  | named name => cases h
  | _ => rfl

/-- The digits behind the first byte of a text, and what follows them. -/
def parts (t : Text) : Text × Text := t.tail.span Text.digitByte

theorem parts_eq (c : UInt8) (n : Option Nat) {t : Text} (h : t.head?.any Text.digitByte = false) :
    parts (c :: ((n.map Numeral.decimal).getD [] ++ t)) = ((n.map Numeral.decimal).getD [], t) := by
  have hdigits : ∀ d ∈ (n.map Numeral.decimal).getD [], Text.digitByte d = true := by
    intro d hd
    cases n with
    | none => cases hd
    | some n =>
        obtain ⟨k, hk, rfl⟩ := Numeral.mem_write (by decide) hd
        have : ∀ k < 10, Text.digitByte (Numeral.digit k) = true := by decide
        exact this k hk
  rw [parts, List.tail_cons, List.span_eq_takeWhile_dropWhile,
    List.takeWhile_append_of_pos hdigits, List.dropWhile_append_of_pos hdigits]
  cases t with
  | nil => simp
  | cons d t =>
      have hd : Text.digitByte d = false := h
      rw [List.takeWhile_cons_of_neg (by simp [hd]), List.dropWhile_cons_of_neg (by simp [hd]),
        List.append_nil]

theorem render_eq (h : l.isMade) :
    ∃ c, l.render = c :: ((l.offset?.map Numeral.decimal).getD [] ++ l.ending) := by
  cases l with
  | named name => cases h
  | start offset => exact ⟨76, congrArg (76 :: ·) (List.append_nil _).symm⟩
  | _ => exact ⟨_, rfl⟩

theorem parts_render (h : l.isMade) :
    parts l.render = ((l.offset?.map Numeral.decimal).getD [], l.ending) := by
  obtain ⟨c, hrender⟩ := render_eq h
  rw [hrender, parts_eq]
  cases l <;> rfl

/-- **Labels that lowering makes have different texts.** -/
theorem render_inj {l l' : Label} (h : l.isMade) (h' : l'.isMade) (heq : l.render = l'.render) :
    l = l' := by
  have hparts := congrArg parts heq
  rw [parts_render h, parts_render h', Prod.mk.injEq] at hparts
  obtain ⟨hdigits, hending⟩ := hparts
  rw [← ofParts_parts h, ← ofParts_parts h', Numeral.decimals_inj hdigits, hending]

end Listing.Label

/-- **No name of a program is taken for a label that lowering makes.** -/
theorem Lowering.Mips.isReserved_render {l : Listing.Label} (h : l.isMade) :
    isReserved l.render := by
  have hnumbered : ∀ (n : Nat) (t : Text), isReserved (76 :: (Numeral.decimal n ++ t)) = true := by
    intro n t
    obtain ⟨d, rest, hcons, hd, -⟩ := Numeral.write_eq_cons 10 (by decide) n
    have hdigit : ∀ d < 10, (48 ≤ Numeral.digit d && Numeral.digit d ≤ 57) = true := by decide
    rw [show Numeral.decimal n = Numeral.digit d :: rest from hcons, List.cons_append, isReserved,
      hdigit d hd, Bool.or_true]
  cases l with
  | named name => cases h
  | main | exit | exitStatus => decide
  | start offset =>
      have hstart := hnumbered offset []
      rwa [List.append_nil] at hstart
  | returned offset => exact hnumbered offset (text "_ret")
  | status offset => exact hnumbered offset (text "_exit")
  | restore offset => exact hnumbered offset (text "_restore")
  | done offset => exact hnumbered offset (text "_done")

/-! ### Lines without labels -/

namespace Listing

/-- A line with an instruction that is read, takes its operands and does not deal with labels. -/
structure Line.Quiet (l : Line) : Prop where
  plain : l.Plain
  formed : l.Formed
  defines : l.defines = []
  uses : l.uses = []

instance (l : Line) : Decidable l.Quiet :=
  decidable_of_iff (l.Plain ∧ l.Formed ∧ l.defines = [] ∧ l.uses = [])
    ⟨fun h => ⟨h.1, h.2.1, h.2.2.1, h.2.2.2⟩, fun h => ⟨h.plain, h.formed, h.defines, h.uses⟩⟩

section Quiet

variable {d s t : Register} {n : Int}

theorem quiet_immediate {o : Operation} (ho : o ∈ [.addiu, .sltiu]) (ht : t < 32) (hs : s < 32)
    (hlo : -32768 ≤ n) (hhi : n ≤ 32767) : (Line.immediate o t s n).Quiet := by
  have hfits : fitsHalf n = true := by simp [fitsHalf, hlo, hhi]
  refine ⟨?_, ?_, rfl, rfl⟩
  · simp only [Line.immediate, Line.Plain, Operand.Plain, forall_mem_cons, ht, hs, true_and]
    exact ⟨⟨by omega, by omega⟩, forall_mem_nil _⟩
  · show takes o [.register t, .register s, .number n] = true
    rw [takes, hfits]
    rcases List.mem_pair.1 ho with rfl | rfl <;> rfl

theorem quiet_access {o : Operation} (ho : o ∈ [.lw, .sw, .lbu, .sb]) (ht : t < 32) (hs : s < 32)
    (hlo : -32768 ≤ n) (hhi : n ≤ 32767) : (Line.access o t n s).Quiet := by
  have hfits : fitsHalf n = true := by simp [fitsHalf, hlo, hhi]
  refine ⟨?_, ?_, rfl, rfl⟩
  · simp only [Line.access, Line.Plain, Operand.Plain, forall_mem_cons, ht, hs, true_and,
      and_true]
    exact ⟨⟨by omega, by omega⟩, forall_mem_nil _⟩
  · show takes o [.register t, .memory n s] = true
    rw [takes, hfits, Bool.and_true, List.contains_iff_mem]
    exact ho

theorem quiet_loadNumber (hd : d < 32) (hlo : -2147483648 ≤ n) (hhi : n ≤ 4294967295) :
    (Line.loadNumber d n).Quiet := by
  refine ⟨?_, ?_, rfl, rfl⟩
  · simp only [Line.loadNumber, Line.Plain, Operand.Plain, forall_mem_cons, hd, true_and]
    exact ⟨⟨by omega, by omega⟩, forall_mem_nil _⟩
  · show (decide (-2147483648 ≤ n) && decide (n ≤ 4294967295)) = true
    simp [hlo, hhi]

end Quiet

end Listing

namespace Lowering

open Listing

namespace Mips

open Drafting
open Register (zero v0 a0 s0 s1 sp fp)

/-! ### Instructions without labels -/

section Quiet

theorem half_lt (ins : Instruction) (i : Int) : ins.half i < 65536 := UInt16.toNat_lt _

/-- **The lines of a service**, which takes at most four arguments. -/
theorem service_lines {ins : Instruction} {ls : List Line} (h : (service ins).lines = .ok ls) :
    ins.half 1 ≤ 4 ∧
      ls = (List.range (ins.half 1)).reverse.flatMap (fun k => popLines (a0 + k.toUInt8)) ++
        (.loadNumber v0 (ins.half 0) :: .serve :: pushLines 8 v0) := by
  dsimp only [service] at h
  split at h
  · cases h
  · next hcount =>
    refine ⟨Nat.not_lt.1 hcount, ?_⟩
    rw [← Except.ok.inj h]
    simp [pushLines]

variable {f : Frame} {L D S : Nat} {ins : Instruction}

/-- A slot that the frame has can be reached from the frame pointer. -/
theorem quiet_slot (hf : f.Shape L D S) (h : Int64.ofNat (ins.half 0) < f.localSlots)
    {o : Operation} (ho : o ∈ [.lw, .sw, .lbu, .sb]) :
    (Line.access o 8 (Frame.localOffset (Int64.ofNat (ins.half 0))).toInt fp).Quiet := by
  have hhalf := half_lt ins 0
  have hlt := Int64.lt_iff_toInt_lt.1 h
  rw [hf.slots, Int64.toInt_ofNat_of_lt (by omega)] at hlt
  have hle := hf.slots_le
  have hoffset := Frame.localOffset_ofNat_toInt (n := ins.half 0) (by omega)
  exact quiet_access ho (by decide) (by decide) (by omega) (by omega)

/-- The operations whose lines hold labels. -/
def goesElsewhere (o : Op) : Bool := [.jmp, .jmpz, .jmpnz, .invoke, .ret].contains o

/-- **An operation that goes nowhere else has lines without labels.**  Which scratch registers it
takes depends on nothing, so most lines are known in full. -/
theorem quiet_operation {c : Context} (hf : c.frame.Shape L D S) {offset : Nat}
    (hgo : goesElsewhere ins.op = false) {ls : List Line}
    (h : (operation c offset ins).lines = .ok ls) : ∀ l ∈ ls, l.Quiet := by
  unfold operation at h
  cases hop : ins.op with rw [hop] at h hgo
  | iconst =>
      rw [← Except.ok.inj h]
      have hlo := (ins.operand 0).le_toInt
      have hhi := (ins.operand 0).toInt_lt
      exact forall_mem_cons.2
        ⟨quiet_loadNumber (by decide) (by omega) (by omega), by decide⟩
  | load =>
      obtain ⟨hslot, h⟩ := slot_lines h
      rw [← Except.ok.inj h]
      exact forall_mem_cons.2 ⟨quiet_slot hf hslot (by decide), by decide⟩
  | store =>
      obtain ⟨hslot, h⟩ := slot_lines h
      rw [← Except.ok.inj h]
      exact forall_mem_append.2
        ⟨by decide, forall_mem_singleton.2 (quiet_slot hf hslot (by decide))⟩
  | jmp | jmpz | jmpnz | invoke | ret => cases hgo
  | syscall =>
      obtain ⟨hcount, rfl⟩ := service_lines h
      have hhalf := half_lt ins 0
      have hpop : ∀ k < 4, ∀ l ∈ popLines (a0 + k.toUInt8), l.Quiet := by decide
      refine forall_mem_append.2 ⟨fun l hl => ?_, forall_mem_cons.2
        ⟨quiet_loadNumber (by decide) (by omega) (by omega), by decide⟩⟩
      obtain ⟨k, hk, hl⟩ := List.mem_flatMap.1 hl
      rw [List.mem_reverse, List.mem_range] at hk
      exact hpop k (by omega) l hl
  | _ =>
      rw [← Except.ok.inj h]
      decide

end Quiet

/-! ### All instructions -/

/-- The branch that a conditional jump becomes. -/
def jumpLine (ins : Instruction) : Line :=
  .branch (PlainMachine.branchOf ins.op) 8 zero (.start ins.target.toNat)

/-- **The lines of an instruction at an offset.** -/
structure Body (c : Context) (offset : Nat) (ins : Instruction) (ls : List Line) : Prop where
  /-- Every line is read and takes its operands. -/
  sound : ∀ l ∈ ls, l.Plain ∧ l.Formed
  /-- The instruction has a label, and all labels belong to its offset. -/
  start : .place offset ins ∈ ls
  once : (ls.flatMap Line.defines).Nodup
  own : ∀ d ∈ ls.flatMap Line.defines, d.offset? = some offset
  /-- Labels that are used are its own, or those of other instructions. -/
  known : ∀ l ∈ ls.flatMap Line.uses, l ∈ ls.flatMap Line.defines ∨
    ∃ target : Nat, l = .start target ∧ c.functions.startsAt target
  /-- A branch is that of a conditional jump, or its label is near. -/
  near : ∀ o s t l, .branch o s t l ∈ ls →
    (ins.op = .jmpz ∨ ins.op = .jmpnz) ∧ Line.branch o s t l = jumpLine ins ∨
      l ∈ ls.flatMap Line.defines ∧ ls.length < 16384

section Body

variable {c : Context} {offset : Nat} {ins : Instruction} {ls : List Line} {L D S : Nat}

section

variable (h : ∀ l ∈ ls, l.Quiet)

include h

theorem defines_of_quiet : ls.flatMap Line.defines = [] :=
  List.flatMap_eq_nil_iff.2 fun l hl => (h l hl).defines

theorem uses_of_quiet : ls.flatMap Line.uses = [] :=
  List.flatMap_eq_nil_iff.2 fun l hl => (h l hl).uses

theorem sound_of_quiet : ∀ l ∈ ls, l.Plain ∧ l.Formed :=
  fun l hl => ⟨(h l hl).plain, (h l hl).formed⟩

theorem not_branch_of_quiet (o : Operation) (s t : Register) (l : Label) :
    .branch o s t l ∉ ls := by
  intro hmem
  have huses : [l] = [] := (h _ hmem).uses
  cases huses

theorem body_of_quiet : Body c offset ins (.place offset ins :: ls) := by
  have hdefines : (.place offset ins :: ls : List Line).flatMap Line.defines = [.start offset] := by
    rw [List.flatMap_cons, defines_of_quiet h]
    rfl
  have huses : (.place offset ins :: ls : List Line).flatMap Line.uses = [] := by
    rw [List.flatMap_cons, uses_of_quiet h]
    rfl
  constructor
  case sound => exact forall_mem_cons.2 ⟨⟨trivial, trivial⟩, sound_of_quiet h⟩
  case start => exact List.mem_cons_self
  case once => rw [hdefines]; exact List.pairwise_singleton _ _
  case own => rw [hdefines]; exact forall_mem_singleton.2 rfl
  case known => rw [huses]; exact forall_mem_nil _
  case near =>
    intro o s t l hl
    rcases List.mem_cons.1 hl with hl | hl
    · cases hl
    · exact absurd hl (not_branch_of_quiet h o s t l)

end

/-- A jump that has lines goes to an instruction. -/
theorem startsAt_of_draft (hop : ins.op ∈ [.jmp, .jmpz, .jmpnz, .invoke])
    (h : draft c offset ins = .ok ls) : c.functions.startsAt ins.target.toNat := by
  have htarget : c.functions.startsAt ins.target = true := by
    by_contra hnot
    have hthrow : ∀ (next : Label → Drafting Unit) (ls : List Line),
        (targetLabel c.functions ins >>= next).lines ≠ .ok ls := by
      intro next ls hls
      rw [targetLabel, if_neg hnot] at hls
      cases hls
    obtain ⟨ls', hls', -⟩ := map_ok_iff.1 h
    simp only [List.mem_cons, List.not_mem_nil, or_false] at hop
    rcases hop with hop | hop | hop | hop <;> simp only [operation, hop] at hls' <;>
      exact hthrow _ _ hls'
  have hnonneg : ins.target = (ins.target.toNat : Int) := by
    cases ht : ins.target with
    | ofNat n => rfl
    | negSucc n =>
        rw [ht] at htarget
        cases htarget
  rwa [← hnonneg]

variable {l : Label}

theorem sound_branch {o : Operation} {s t : Register} (ho : branches o) (hs : s < 32) (ht : t < 32)
    (hl : l.isMade) : (Line.branch o s t l).Plain ∧ (Line.branch o s t l).Formed :=
  ⟨by simp [Line.branch, Line.Plain, Operand.Plain, hs, ht, hl], ho⟩

theorem sound_jump (hl : l.isMade) : (Line.jump l).Plain ∧ (Line.jump l).Formed :=
  ⟨forall_mem_singleton.2 hl, rfl⟩

theorem body_of_jmp (hop : ins.op = .jmp) (h : draft c offset ins = .ok ls) :
    Body c offset ins ls := by
  have hstarts := startsAt_of_draft (by simp [hop]) h
  obtain rfl := PlainMachine.draft_jmp hop h
  constructor
  case sound => exact forall_mem_cons.2 ⟨⟨trivial, trivial⟩, forall_mem_singleton.2
    (sound_jump rfl)⟩
  case start => exact List.mem_cons_self
  case once => exact List.pairwise_singleton _ _
  case own => exact forall_mem_singleton.2 rfl
  case known => exact forall_mem_singleton.2 (Or.inr ⟨_, rfl, hstarts⟩)
  case near =>
    intro o s t l hl
    simp [Line.branch, Line.jump] at hl

theorem body_of_jumpOn (hop : ins.op = .jmpz ∨ ins.op = .jmpnz) (h : draft c offset ins = .ok ls) :
    Body c offset ins ls := by
  have hstarts := startsAt_of_draft (by rcases hop with hop | hop <;> simp [hop]) h
  obtain rfl := PlainMachine.draft_jumpOn hop h
  have hbranches : branches (PlainMachine.branchOf ins.op) := by
    rcases hop with hop | hop <;> rw [hop] <;> decide
  constructor
  case sound =>
    rw [forall_mem_append, forall_mem_cons, forall_mem_singleton]
    exact ⟨⟨⟨trivial, trivial⟩, by decide⟩, sound_branch hbranches (by decide) (by decide) rfl⟩
  case start => exact List.mem_append_left _ List.mem_cons_self
  case once => exact List.pairwise_singleton _ _
  case own => exact forall_mem_singleton.2 rfl
  case known => exact forall_mem_singleton.2 (Or.inr ⟨_, rfl, hstarts⟩)
  case near =>
    intro o s t l hl
    rcases List.mem_append.1 hl with hl | hl
    · rcases List.mem_cons.1 hl with hl | hl
      · cases hl
      · exact absurd hl (not_branch_of_quiet (by decide) o s t l)
    · exact Or.inl ⟨hop, List.mem_singleton.1 hl⟩

/-- The lines that end a program branch to a label of their own. -/
theorem sound_exitLines (hl : l.isMade) :
    ∀ line ∈ exitLines l, line.Plain ∧ line.Formed := by
  simp only [exitLines, forall_mem_append, forall_mem_cons]
  exact ⟨⟨⟨by decide, sound_branch rfl (by decide) (by decide) hl, forall_mem_nil _⟩,
      by decide⟩,
    ⟨hl, trivial⟩, by decide, by decide, forall_mem_nil _⟩

theorem branch_of_exitLines {status l : Label} {o : Operation} {s t : Register}
    (h : .branch o s t l ∈ exitLines status) : l = status := by
  simp only [exitLines, popLines, Line.branch, Line.move, Line.immediate, Line.registers3,
    Line.access, Line.loadNumber, Line.serve, List.cons_append, List.nil_append, List.mem_cons,
    List.not_mem_nil, or_false, reduceCtorEq, false_or, Line.code.injEq, List.cons.injEq,
    Operand.label.injEq, and_true, and_false] at h
  exact h.2.2.2

theorem body_of_exit (hop : ins.op = .ret) (hentry : c.functions.inEntry offset = true)
    (h : draft c offset ins = .ok ls) : Body c offset ins ls := by
  obtain rfl := PlainMachine.draft_exit hop hentry h
  constructor
  case sound => exact forall_mem_cons.2 ⟨⟨trivial, trivial⟩, sound_exitLines rfl⟩
  case start => exact List.mem_cons_self
  case once =>
    show [Label.start offset, .status offset].Nodup
    simp
  case own => exact forall_mem_cons.2 ⟨rfl, forall_mem_singleton.2 rfl⟩
  case known =>
    exact forall_mem_singleton.2 (Or.inl (List.mem_cons_of_mem _ List.mem_cons_self))
  case near =>
    intro o s t l hl
    rcases List.mem_cons.1 hl with hl | hl
    · cases hl
    · obtain rfl := branch_of_exitLines hl
      exact Or.inr ⟨List.mem_cons_of_mem _ List.mem_cons_self, by simp [exitLines, popLines]⟩

theorem quiet_restoreLines {f : Frame} (hf : f.Shape L D S) : ∀ l ∈ restoreLines f, l.Quiet := by
  have hsmall := hf.small
  have hsize := hf.size
  simp only [restoreLines, forall_mem_cons]
  exact ⟨by decide, by decide, by decide,
    quiet_immediate (by decide) (by decide) (by decide) (by omega) (by omega), by decide,
    forall_mem_nil _⟩

theorem body_of_return (hf : c.frame.Shape L D S) (hop : ins.op = .ret)
    (hentry : c.functions.inEntry offset = false) (h : draft c offset ins = .ok ls) :
    Body c offset ins ls := by
  obtain rfl := draft_ret hop hentry h
  have hquiet := quiet_restoreLines hf
  constructor
  case sound =>
    simp only [returnLines, forall_mem_cons, forall_mem_append]
    exact ⟨⟨trivial, trivial⟩, ⟨by decide, forall_mem_nil _⟩,
      sound_branch rfl (by decide) (by decide) rfl, by decide, ⟨rfl, trivial⟩,
      sound_of_quiet hquiet, sound_branch rfl (by decide) (by decide) rfl, by decide,
      ⟨rfl, trivial⟩, by decide, forall_mem_nil _⟩
  case start => exact List.mem_cons_self
  case once =>
    show [Label.start offset, .restore offset, .done offset].Nodup
    simp
  case own =>
    exact forall_mem_cons.2
      ⟨rfl, forall_mem_cons.2 ⟨rfl, forall_mem_singleton.2 rfl⟩⟩
  case known =>
    show ∀ l ∈ [Label.restore offset, .done offset], l ∈ [Label.start offset, .restore offset,
      .done offset] ∨ _
    exact fun l hl => Or.inl (List.mem_cons_of_mem _ hl)
  case near =>
    intro o s t l hl
    refine Or.inr ⟨?_, by simp [returnLines, resultLines, restoreLines, pushLines, popLines]⟩
    -- every branch uses its label, and both labels that are used are defined
    have huses : l ∈
        (.place offset ins :: returnLines c.frame offset : List Line).flatMap Line.uses :=
      List.mem_flatMap.2 ⟨_, hl, List.mem_singleton.2 rfl⟩
    exact List.mem_cons_of_mem _ huses

theorem quiet_enterFrame {f : Frame} (hf : f.Shape L D S) : ∀ l ∈ enterFrame f, l.Quiet := by
  have hbase := hf.base
  have hslots := hf.slots_le
  refine forall_mem_cons.2 ⟨?_, by decide⟩
  exact quiet_immediate (by decide) (by decide) (by decide) (by omega) (by omega)

/-- The arguments of a call have slots, so they can be reached from the frame pointer. -/
theorem quiet_argumentLines {count : Nat} (h : count ≤ 4096) :
    ∀ l ∈ argumentLines count, l.Quiet := by
  unfold argumentLines
  split
  · exact forall_mem_nil _
  · refine forall_mem_cons.2 ⟨by decide, fun l hl => ?_⟩
    obtain ⟨k, hk, hl⟩ := List.mem_flatMap.1 hl
    rw [List.mem_range] at hk
    have hcell := Frame.cells_toInt (n := k) (by omega)
    have hslot := Frame.localOffset_ofNat_toInt (n := k) (by omega)
    rcases List.mem_pair.1 hl with rfl | rfl
    all_goals exact quiet_access (by decide) (by decide) (by decide) (by omega) (by omega)

theorem sound_loadLabel {d : Register} (hd : d < 32) (hl : l.isMade) :
    (Line.code .la [.register d, .label l]).Plain ∧
      (Line.code .la [.register d, .label l]).Formed :=
  ⟨by simp [Line.Plain, Operand.Plain, hd, hl], rfl⟩

/-- **The lines of a call** are quiet, apart from the line that loads where to come back to. -/
theorem callLines_split {f : Frame} (hf : f.Shape L D S) (offset : Nat) {count : Nat}
    (h : count ≤ 4096) :
    ∃ before behind, callLines f offset count =
        before ++ .code .la [.register 9, .label (.returned offset)] :: behind ∧
      (∀ l ∈ before, l.Quiet) ∧ ∀ l ∈ behind, l.Quiet := by
  have hsmall := hf.small
  have hsize := hf.size_neg
  have hcells := Frame.cells_back_toInt (n := count) (by omega)
  have hrelease : ∀ l ∈ (if count ≠ 0 then
      [Line.immediate .addiu s1 s1 (-Frame.cellSize * Int64.ofNat count).toInt] else []),
      l.Quiet := by
    split
    · exact forall_mem_singleton.2
        (quiet_immediate (by decide) (by decide) (by decide) (by omega) (by omega))
    · exact forall_mem_nil _
  refine ⟨([Line.immediate .addiu 8 sp (-f.size).toInt,
    Line.access .sw fp Frame.savedPointer.toInt 8, Line.access .sw s0 Frame.savedBase.toInt 8] ++
      (if count ≠ 0 then [Line.immediate .addiu s1 s1 (-Frame.cellSize * Int64.ofNat count).toInt]
        else [])) ++ [Line.access .sw s1 Frame.savedOffset.toInt 8],
    Line.access .sw 9 Frame.returnAddress.toInt 8 :: (argumentLines count ++
      ([Line.move sp 8, Line.move fp 8] ++ enterFrame f)), ?_, ?_, ?_⟩
  · simp only [callLines, headerLines, List.append_assoc, List.cons_append, List.nil_append]
  · simp only [forall_mem_append, forall_mem_cons]
    exact ⟨⟨⟨quiet_immediate (by decide) (by decide) (by decide) (by omega) (by omega), by decide,
      by decide, forall_mem_nil _⟩, hrelease⟩, by decide, forall_mem_nil _⟩
  · simp only [forall_mem_append, forall_mem_cons]
    exact ⟨by decide, quiet_argumentLines h, ⟨by decide, by decide, forall_mem_nil _⟩,
      quiet_enterFrame hf⟩

theorem body_of_invoke (hf : c.frame.Shape L D S) (hop : ins.op = .invoke)
    (h : draft c offset ins = .ok ls) : Body c offset ins ls := by
  have hstarts := startsAt_of_draft (by simp [hop]) h
  rw [show ins.target.toNat = ins.half 0 by
    rw [Instruction.target, if_pos hop, Int.toNat_natCast]] at hstarts
  obtain ⟨hslots, rfl⟩ := draft_invoke hop h
  have hcount : ins.half 1 ≤ 4096 := by
    have hhalf := half_lt ins 1
    have hle := Int64.le_iff_toInt_le.1 hslots
    rw [hf.slots, Int64.toInt_ofNat_of_lt (by omega)] at hle
    have := hf.slots_le
    omega
  obtain ⟨before, behind, hsplit, hbefore, hbehind⟩ := callLines_split hf offset hcount
  rw [hsplit]
  have hdefines : (.place offset ins ::
      (before ++ .code .la [.register 9, .label (.returned offset)] :: behind ++
        [.jump (.start (ins.half 0)), .label (.returned offset)]) : List Line).flatMap
      Line.defines = [.start offset, .returned offset] := by
    simp only [List.flatMap_cons, List.flatMap_append, List.flatMap_nil, defines_of_quiet hbefore,
      defines_of_quiet hbehind]
    rfl
  have huses : (.place offset ins :: (before ++ .code .la [.register 9, .label (.returned offset)]
      :: behind ++ [.jump (.start (ins.half 0)), .label (.returned offset)]) : List Line).flatMap
      Line.uses = [.returned offset, .start (ins.half 0)] := by
    simp only [List.flatMap_cons, List.flatMap_append, List.flatMap_nil, uses_of_quiet hbefore,
      uses_of_quiet hbehind]
    rfl
  constructor
  case sound =>
    simp only [forall_mem_cons, forall_mem_append]
    exact ⟨⟨trivial, trivial⟩, ⟨sound_of_quiet hbefore, sound_loadLabel (by decide) rfl,
      sound_of_quiet hbehind⟩, sound_jump rfl, ⟨rfl, trivial⟩, forall_mem_nil _⟩
  case start => exact List.mem_cons_self
  case once =>
    rw [hdefines]
    simp
  case own =>
    rw [hdefines]
    exact forall_mem_cons.2 ⟨rfl, forall_mem_singleton.2 rfl⟩
  case known =>
    rw [hdefines, huses]
    exact forall_mem_cons.2 ⟨Or.inl (List.mem_cons_of_mem _ List.mem_cons_self),
      forall_mem_singleton.2 (Or.inr ⟨_, rfl, hstarts⟩)⟩
  case near =>
    intro o s t l hl
    -- the lines that are not quiet are no branches either
    simp only [List.mem_cons, List.mem_append, List.not_mem_nil, or_false, Line.branch, Line.jump,
      reduceCtorEq, false_or, Line.code.injEq, List.cons.injEq, and_false] at hl
    rcases hl with hl | hl
    · exact absurd hl (not_branch_of_quiet hbefore o s t l)
    · exact absurd hl (not_branch_of_quiet hbehind o s t l)

/-- **The lines of an instruction**, whatever it does. -/
theorem body_of_draft (hf : c.frame.Shape L D S) (h : draft c offset ins = .ok ls) :
    Body c offset ins ls := by
  cases hgo : goesElsewhere ins.op with
  | false =>
      obtain ⟨ls', hls', rfl⟩ := map_ok_iff.1 h
      exact body_of_quiet (quiet_operation hf hgo hls')
  | true =>
      have hop : ins.op = .jmp ∨ ins.op = .jmpz ∨ ins.op = .jmpnz ∨ ins.op = .invoke ∨
          ins.op = .ret := by simpa [goesElsewhere] using hgo
      rcases hop with hop | hop | hop | hop | hop
      · exact body_of_jmp hop h
      · exact body_of_jumpOn (Or.inl hop) h
      · exact body_of_jumpOn (Or.inr hop) h
      · exact body_of_invoke hf hop h
      · cases hentry : c.functions.inEntry offset with
        | true => exact body_of_exit hop hentry h
        | false => exact body_of_return hf hop hentry h

end Body

end Mips

end Lowering

end StackCompiler
