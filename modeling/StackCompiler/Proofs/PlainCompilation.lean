/-
**Runs of programs without calls are followed.**

A run of the plain stack machine is followed step by step: as long as the frame of the entry
function holds its state and the machine stands at the words of its instruction, the machine gets to
the next instruction with a frame that holds the next state.  The operand stack never outgrows the
frame, because a run of the plain machine is one of the machine with call frames, whose depth is
known.

* `PlainMachine.Stands.next` — **a step is followed**;
* `PlainMachine.Stands.run` — **a run is followed**.
-/

import StackCompiler.Proofs.FlatMemory
import StackCompiler.Proofs.PlainLines

namespace StackCompiler

namespace PlainMachine

open Listing Lowering
open Lowering.Mips (popLines draft Context operation needsExit epilogue exitLines)
open Register (zero v0 a0 s0 s1 sp fp)
open Assembly (Image Labels Laid addressOf)
open Machine (Ready)
open Instruction (lt_length_of_offset offsets)

/-- The instructions of plain programs. -/
def ops : List Op :=
  [.iconst, .iadd, .isub, .imul, .idiv, .ilt, .igt, .ieq, .and, .or, .xor, .shl, .shr, .not, .dup,
    .swap, .pop, .load, .store, .jmp, .jmpz, .jmpnz, .print, .ret]

/-! ### The functions of a program without calls -/

theorem not_marker_of_mem_ops {o : Op} (h : o ∈ ops) : o.isMarker = false := by
  revert o
  decide

variable {ins : Instruction}

theorem ordinary_of_mem_ops (h : ins.op ∈ ops) : Mips.Ordinary ins := by
  refine ⟨not_marker_of_mem_ops h, ?_⟩
  intro n hop
  rw [hop] at h
  simp [ops] at h

/-- **A program without calls and markers is one function**, the entry function. -/
theorem functions_of_unmarked {list : List Instruction}
    (hlist : ∀ ins ∈ list, ins.op ≠ .invoke ∧ ins.op.isMarker = false) :
    ∃ fs, Functions.ofList list true = .ok fs ∧ fs.entry = 0 ∧
      (∀ offset, fs.inEntry offset = true) ∧
      fs.boundaries = Functions.boundariesOf (list.zip (offsets list)) := by
  have hmem : ∀ x ∈ list.zip (offsets list), x.1.op ≠ .invoke ∧ x.1.op.isMarker = false :=
    fun x hx => hlist x.1 (List.of_mem_zip hx).1
  have hcall : Functions.badCall? (Functions.boundariesOf (list.zip (offsets list)))
      (list.zip (offsets list)) = none :=
    Functions.badCall?_eq_none fun x hx hop => absurd hop (hmem x hx).1
  have hmarker : Functions.entryMarker? (list.zip (offsets list)) = none := by
    rw [Functions.entryMarker?, Option.map_eq_none_iff, List.find?_eq_none]
    intro x hx hentry
    have hop := (hmem x hx).2
    rw [of_decide_eq_true hentry] at hop
    cases hop
  have hstarts : Functions.startsIn (list.zip (offsets list)) = [0] := by
    have hnone : ((list.zip (offsets list)).flatMap fun x =>
        Functions.startsOf x.1 x.2) = [] := by
      rw [List.flatMap_eq_nil_iff]
      intro x hx
      simp [Functions.startsOf, hmem x hx]
    rw [Functions.startsIn, hnone, List.mergeSort_singleton]
    rfl
  unfold Functions.ofList
  simp only [hcall, hmarker, hstarts]
  exact ⟨_, rfl, rfl, fun offset => rfl, rfl⟩

theorem functions_of_ops {list : List Instruction} (hops : ∀ ins ∈ list, ins.op ∈ ops) :
    ∃ fs, Functions.ofList list true = .ok fs ∧ fs.entry = 0 ∧
      (∀ offset, fs.inEntry offset = true) ∧
      fs.boundaries = Functions.boundariesOf (list.zip (offsets list)) :=
  functions_of_unmarked fun ins hins =>
    ⟨fun hop => absurd (hop ▸ hops ins hins) (by decide), not_marker_of_mem_ops (hops ins hins)⟩

/-! ### The lines of jumps and returns -/

variable {ls : List Line} {ctx : Context} {offset : Nat}

theorem draft_jmp (hop : ins.op = .jmp) (h : draft ctx offset ins = .ok ls) :
    ls = [.place offset ins, .jump (.start ins.target.toNat)] := by
  obtain ⟨ls', hls', rfl⟩ := map_ok_iff.1 h
  simp only [operation, hop, Mips.jump] at hls'
  rw [← Except.ok.inj (Mips.targetLabel_lines hls')]
  rfl

/-- The operation that branches for a conditional jump. -/
def branchOf (o : Op) : Operation := if o = .jmpz then .beq else .bne

theorem draft_jumpOn (hop : ins.op = .jmpz ∨ ins.op = .jmpnz) (h : draft ctx offset ins = .ok ls) :
    ls = (.place offset ins :: popLines 8) ++
      [.branch (branchOf ins.op) 8 zero (.start ins.target.toNat)] := by
  obtain ⟨ls', hls', rfl⟩ := map_ok_iff.1 h
  rcases hop with hop | hop
  all_goals
    simp only [operation, hop, Mips.jumpOn] at hls'
    rw [← Except.ok.inj (Mips.targetLabel_lines hls'), hop]
    rfl

theorem draft_exit (hop : ins.op = .ret) (hentry : ctx.functions.inEntry offset = true)
    (h : draft ctx offset ins = .ok ls) : ls = .place offset ins :: exitLines (.status offset) := by
  obtain ⟨ls', hls', rfl⟩ := map_ok_iff.1 h
  simp only [operation, hop, hentry, if_true] at hls'
  rw [← Except.ok.inj hls']
  rfl

/-! ### A program in an image -/

/-- The instructions of a program stand in an image, instruction `i` at word `pos i`, and behind
them what ends the program, if it is needed. -/
structure Placed (elide : Bool) (image : Image) (ctx : Context) (list : List Instruction)
    (pos : Nat → Nat) : Prop where
  lines : ∀ i ins offset, list[i]? = some ins → (offsets list)[i]? = some offset →
    ∃ ls, draft ctx offset ins = .ok ls ∧
      Laid elide image (pos i) (ls.map Line.render) (pos (i + 1))
  ending : needsExit ctx.functions list →
    Laid elide image (pos list.length) (epilogue.map Line.render) image.words.size

/-- The machine stands where a state does, in a frame that holds it. -/
structure Stands (image : Image) (pos : Nat → Nat) (L F : Nat) (s : State) (m : Machine) :
    Prop where
  ready : Ready image.words (pos s.place) m
  holds : Holds L F s m.core

section Following

variable {elide : Bool} {image : Image} {ctx : Context} {list : List Instruction} {pos : Nat → Nat}
  {L D S F : Nat} {s s' : State} {m : Machine} {ins : Instruction}

theorem Placed.label (h : Placed elide image ctx list pos) {j n : Nat}
    (hj : (offsets list)[j]? = some n) :
    image.labels[(Label.start n).render]? = some (addressOf (pos j)) := by
  have hlt := lt_length_of_offset hj
  obtain ⟨ls, hdraft, hlaid⟩ := h.lines j _ n (List.getElem?_eq_getElem hlt) hj
  obtain ⟨ls', -, rfl⟩ := map_ok_iff.1 hdraft
  exact (laid_place hlaid).1

theorem Placed.target (h : Placed elide image ctx list pos) {j : Nat}
    (hj : CallFrames.StandsAt list ins.target j) :
    image.labels[(Label.start ins.target.toNat).render]? = some (addressOf (pos j)) := by
  obtain ⟨n, htarget, hn⟩ := hj
  rw [htarget, Int.toNat_natCast]
  exact h.label hn

variable {c : Core}

theorem Stands.of_resume {n : Nat} (hm : Stands image pos L F s m) (hc : Holds L F s' c) :
    Stands image pos L F s' (m.resume c (addressOf (pos s'.place)) n) :=
  ⟨Machine.resume_ready hm.ready c _ n, hc⟩

theorem Stands.lines (hm : Stands image pos L F s m) (hplaced : Placed elide image ctx list pos)
    (hins : list[s.place]? = some ins) :
    ∃ offset ls, draft ctx offset ins = .ok ls ∧
      Reaches elide image m m.core ls (pos (s.place + 1)) := by
  have hlt := CallFrames.lt_of_getElem? hins
  obtain ⟨ls, hdraft, hlaid⟩ := hplaced.lines _ _ _ hins (Instruction.offsets_getElem? hlt)
  exact ⟨_, ls, hdraft, Reaches.start hm.ready hm.holds.zero hlaid⟩

theorem Holds.goTo (h : Holds L F s c) (j : Nat) : Holds L F (s.goTo j) c :=
  ⟨h.zero, h.pointer, h.base, h.offset, h.cells, h.slots, h.output⟩

theorem branch_stays {labels : Labels} {o : Op} {l : Label} {a : Int32}
    (h : o = .jmpz ∧ a ≠ 0 ∨ o = .jmpnz ∧ a = 0) (hzero : c.get 0 = 0) (h8 : c.get 8 = a.toUInt32) :
    straight labels [.branch (branchOf o) 8 zero l] c = some c := by
  rcases h with ⟨rfl, ha⟩ | ⟨rfl, rfl⟩
  · have hne : (a.toUInt32 == 0) = false := beq_eq_false_iff_ne.2 fun h => ha (word_eq_zero.1 h)
    simp [Line.branch, straight, Line.run, runCode, runOperation, taken?, branchOf, h8, zero, hzero,
      hne]
  · simp [Line.branch, straight, Line.run, runCode, runOperation, taken?, branchOf, h8, zero, hzero,
      word_eq_zero.2 rfl]

theorem branch_taken {labels : Labels} {o : Op} {l : Label} {a : Int32} {address : UInt32}
    (h : o = .jmpz ∧ a = 0 ∨ o = .jmpnz ∧ a ≠ 0) (hzero : c.get 0 = 0) (h8 : c.get 8 = a.toUInt32)
    (hl : labels[l.render]? = some address) :
    (Line.branch (branchOf o) 8 zero l).run labels c = some (c, .to address) := by
  rcases h with ⟨rfl, rfl⟩ | ⟨rfl, ha⟩
  · simp [Line.branch, Line.run, runCode, runOperation, taken?, branchOf, h8, zero, hzero, hl,
      word_eq_zero.2 rfl]
  · have hne : (a.toUInt32 != 0) = true := bne_iff_ne.2 fun h => ha (word_eq_zero.1 h)
    simp [Line.branch, Line.run, runCode, runOperation, taken?, branchOf, h8, zero, hzero, hne, hl]

theorem branch_plain (o : Op) (n : Nat) : (Line.branch (branchOf o) 8 zero (.start n)).Plain :=
  List.forall_mem_cons.2 ⟨by decide, List.forall_mem_cons.2 ⟨by decide,
    List.forall_mem_singleton.2 rfl⟩⟩

theorem Stands.branch (hm : Stands image pos L F s m) (hplaced : Placed elide image ctx list pos)
    (himage : image.Addressable) (hF : F % 4 = 0) (hins : list[s.place]? = some ins)
    (hop : ins.op = .jmpz ∨ ins.op = .jmpnz) {a : Int32} {rest : List Int32}
    (hstack : s.stack = a :: rest) :
    ∃ c, Reaches elide image m c [.branch (branchOf ins.op) 8 zero (.start ins.target.toNat)]
        (pos (s.place + 1)) ∧ Holds L F { s with stack := rest } c ∧ c.get 8 = a.toUInt32 := by
  obtain ⟨offset, ls, hdraft, hreaches⟩ := hm.lines hplaced hins
  obtain rfl := draft_jumpOn hop hdraft
  obtain ⟨c, hrun, hc, h8, -⟩ := hm.holds.pop hF image.labels (r := 8) (by decide) hstack
  refine ⟨c, ?_, hc, h8⟩
  refine Reaches.straight (.place offset ins :: popLines 8) hm.ready himage hreaches ?_ hrun
  exact List.forall_mem_cons.2 ⟨trivial, by decide⟩

/-- **A step is followed.** -/
theorem Stands.next (hm : Stands image pos L F s m) (hplaced : Placed elide image ctx list pos)
    (himage : image.Addressable) (hf : ctx.frame.Shape L D S) (hF : F % 4 = 0)
    (hhigh : F + 16 + 4 * L + 4 * D ≤ 2 ^ 32) (hins : list[s.place]? = some ins)
    (hgoes : GoesOn list ins s s') (hroom : s'.stack.length ≤ D) :
    ∃ n m', m.Goes n m' ∧ Stands image pos L F s' m' := by
  cases hgoes with
  | act hacts =>
      obtain ⟨offset, ls, hdraft, hreaches⟩ := hm.lines hplaced hins
      obtain ⟨rfl, hslot⟩ := draft_act hf hacts hdraft
      obtain ⟨c, hrun, hc⟩ := actLines_run hm.holds hF hhigh image.labels hacts hslot hroom
      obtain ⟨n, hgoes⟩ := hreaches.through hm.ready himage
        (List.forall_mem_cons.2 ⟨trivial, actLines_plain ins⟩) hrun
      exact ⟨n, _, hgoes, hm.of_resume (hc.goTo _)⟩
  | @jump j hop hj =>
      obtain ⟨offset, ls, hdraft, hreaches⟩ := hm.lines hplaced hins
      obtain rfl := draft_jmp hop hdraft
      have hjump := Reaches.straight [.place offset ins] hm.ready himage hreaches
        (List.forall_mem_singleton.2 trivial) rfl
      have hrun : (Line.jump (.start ins.target.toNat)).run image.labels m.core =
          some (m.core, .to (addressOf (pos j))) := by
        simp only [Line.jump, Line.run, runCode, runOperation, if_true, hplaced.target hj,
          Option.map_some]
      obtain ⟨-, n, hgoes⟩ := hjump.leave hm.ready himage (List.forall_mem_singleton.2 rfl) hrun
      exact ⟨n, _, hgoes, hm.of_resume (hm.holds.goTo _)⟩
  | stay hop hstack =>
      obtain ⟨c, hreaches, hc, h8⟩ :=
        hm.branch hplaced himage hF hins (hop.imp And.left And.left) hstack
      obtain ⟨n, hgoes⟩ := hreaches.through hm.ready himage
        (List.forall_mem_singleton.2 (branch_plain _ _)) (branch_stays hop hc.zero h8)
      exact ⟨n, _, hgoes, hm.of_resume (hc.goTo _)⟩
  | taken hop hstack hj =>
      obtain ⟨c, hreaches, hc, h8⟩ :=
        hm.branch hplaced himage hF hins (hop.imp And.left And.left) hstack
      obtain ⟨-, n, hgoes⟩ := hreaches.leave hm.ready himage (branch_plain _ _)
        (branch_taken hop hc.zero h8 (hplaced.target hj))
      exact ⟨n, _, hgoes, hm.of_resume (hc.goTo _)⟩

/-- The lines that end a program take the top of the stack, or zero. -/
theorem topLines_run (labels : Labels) (h : Holds L F s c) (hF : F % 4 = 0)
    (hsmall : s.stack.length < 2 ^ 30) (ha0 : c.get a0 = 0) :
    ∃ c', (if c.get s1 = 0 then some c else straight labels (popLines a0) c) = some c' ∧
      c'.get a0 = s.top.toUInt32 ∧ c'.output.toList = printedLines s.printed := by
  cases hstack : s.stack with
  | nil =>
      have hs1 : c.get s1 = 0 := by
        rw [h.offset, hstack]
        rfl
      exact ⟨c, if_pos hs1, by rw [ha0, State.top, hstack]; rfl, h.output⟩
  | cons a rest =>
      have hs1 : c.get s1 ≠ 0 := by
        rw [hstack, List.length_cons] at hsmall
        rw [h.offset, hstack, List.length_cons]
        exact Word.ofNat_ne (y := 0) (by omega) (by omega) (by omega)
      obtain ⟨c', hrun, hc', htop, -⟩ := h.pop hF labels (r := a0) (by decide) hstack
      exact ⟨c', (if_neg hs1).trans hrun, by rw [htop, State.top, hstack]; rfl, hc'.output⟩

/-- **The end of a program** is reached with its status. -/
theorem exitLines_go {k j : Nat} {l : Label} (hm : Ready image.words k m)
    (himage : image.Addressable) (hreaches : Reaches elide image m c (exitLines l) j)
    (hl : l.isMade) (h : Holds L F s c) (hF : F % 4 = 0) (hsmall : s.stack.length < 2 ^ 30) :
    ∃ n m', m.Goes n m' ∧ m'.halted = true ∧ m'.exitCode = s.top ∧
      m'.output.toList = printedLines s.printed := by
  have h₁ := Reaches.straight [.move a0 zero] hm himage hreaches (by decide) rfl
  have ha0 : (c.set a0 (c.get zero)).get a0 = 0 := by
    rw [Core.get_set_same _ _ (by decide)]
    exact h.zero
  obtain ⟨c₂, hrun, htop, houtput⟩ :=
    topLines_run image.labels (h.set (r := a0) (by decide) (c.get zero)) hF hsmall ha0
  have h₂ := Reaches.skip hm himage h₁ (by decide) hl (by decide) hrun
  have h₃ := Reaches.straight [.loadNumber v0 Service.exitStatus.number] hm himage h₂ (by decide)
    rfl
  have hserve : Line.serve.run image.labels (c₂.set v0 17) = some (c₂.set v0 17, .stop s.top) := by
    simp only [Line.serve, Line.run, runCode, runOperation, if_true, serve?,
      Core.get_set_same _ _ (show v0 ≠ 0 ∧ v0 < 32 by decide),
      Core.get_set_other _ _ (show a0 ≠ v0 by decide), htop]
    rfl
  obtain ⟨n, a, hgoes⟩ := h₃.stop hm himage (by decide) hserve
  exact ⟨n, _, hgoes, rfl, rfl, houtput⟩

/-- **The end of a program is followed**, whether it returns or runs off its end. -/
theorem Stands.exit (hm : Stands image pos L F s m) (hplaced : Placed elide image ctx list pos)
    (himage : image.Addressable) (hF : F % 4 = 0) (hsmall : s.stack.length < 2 ^ 30)
    (hentry : ∀ offset, ctx.functions.inEntry offset = true)
    (hplace : s.place = list.length ∧ needsExit ctx.functions list ∨
      ∃ ins, list[s.place]? = some ins ∧ ins.op = .ret) :
    ∃ n m', m.Goes n m' ∧ m'.halted = true ∧ m'.exitCode = s.top ∧
      m'.output.toList = printedLines s.printed := by
  rcases hplace with ⟨hend, hneeds⟩ | ⟨ins, hins, hop⟩
  · have hlaid := hplaced.ending hneeds
    rw [← hend] at hlaid
    have hstart := Reaches.start hm.ready hm.holds.zero hlaid
    exact exitLines_go hm.ready himage (Reaches.straight [.label .exit] hm.ready himage hstart
      (by decide) rfl) rfl hm.holds hF hsmall
  · obtain ⟨offset, ls, hdraft, hreaches⟩ := hm.lines hplaced hins
    obtain rfl := draft_exit hop (hentry offset) hdraft
    exact exitLines_go hm.ready himage (Reaches.straight [.place offset ins] hm.ready himage
      hreaches (List.forall_mem_singleton.2 trivial) rfl) rfl hm.holds hF hsmall

/-! ### Runs -/

theorem fallsThrough_of_last {i : Nat} (hmarker : ins.op.isMarker = false)
    (hins : list[i]? = some ins) (hlast : i + 1 = list.length) (hret : ins.op ≠ .ret)
    (hjmp : ins.op ≠ .jmp) : Mips.fallsThrough list = true := by
  have hsplit : list = list.take i ++ [ins] := by
    have := List.take_add_one (l := list) (i := i)
    rwa [hins, hlast, List.take_length] at this
  rw [Mips.fallsThrough, hsplit]
  simp [hmarker, hret, hjmp]

/-- A program that goes on does so with an instruction, or behind its last one if that is left by
running off its end. -/
theorem GoesOn.place (h : GoesOn list ins s s') (hops : ∀ ins ∈ list, ins.op ∈ ops)
    (hins : list[s.place]? = some ins) :
    s'.place < list.length ∨ s'.place = list.length ∧ Mips.fallsThrough list = true := by
  have hlt := CallFrames.lt_of_getElem? hins
  have hmarker := not_marker_of_mem_ops (hops ins (List.mem_of_getElem? hins))
  have hnext : ins.op ≠ .ret → ins.op ≠ .jmp → s.place + 1 < list.length ∨
      s.place + 1 = list.length ∧ Mips.fallsThrough list = true := by
    intro hret hjmp
    by_cases hlast : s.place + 1 = list.length
    · exact Or.inr ⟨hlast, fallsThrough_of_last hmarker hins hlast hret hjmp⟩
    · exact Or.inl (by omega)
  have hstands : ∀ {j : Nat}, CallFrames.StandsAt list ins.target j → j < list.length := by
    rintro j ⟨n, -, hn⟩
    exact lt_length_of_offset hn
  cases h with
  | act hacts =>
      obtain ⟨⟨hret, hjmp, -⟩, -⟩ := hacts.effect
      exact hnext hret hjmp
  | jump hop hj => exact Or.inl (hstands hj)
  | stay hop hstack =>
      rcases hop with ⟨hop, -⟩ | ⟨hop, -⟩
      all_goals exact hnext (by rw [hop]; decide) (by rw [hop]; decide)
  | taken hop hstack hj => exact Or.inl (hstands hj)

/-- **A run is followed.** -/
theorem Stands.run (hplaced : Placed elide image ctx list pos) (himage : image.Addressable)
    (hf : ctx.frame.Shape L D S) (hF : F % 4 = 0) (hhigh : F + 16 + 4 * L + 4 * D ≤ 2 ^ 32)
    (hops : ∀ ins ∈ list, ins.op ∈ ops) (hentry : ∀ offset, ctx.functions.inEntry offset = true)
    {level : Nat → Nat} (hlevel : Flow.Settled (Flow.ofList list) level D) {fuel : Nat}
    {status : Int32} {printed : List Int32}
    (hrun : PlainMachine.run list fuel s = some (status, printed)) (hm : Stands image pos L F s m)
    (hbounded : CallFrames.Bounded list level D ⟨⟨s.place, s.stack.length⟩, []⟩)
    (hplace : s.place < list.length ∨ s.place = list.length ∧ needsExit ctx.functions list) :
    ∃ n m', m.Goes n m' ∧ m'.halted = true ∧ m'.exitCode = status ∧
      m'.output.toList = printedLines printed := by
  -- along the run, the frame holds the state, the stack is within its levels, and the place is an
  -- instruction or the end
  induction fuel generalizing s m with
  | zero => cases hrun
  | succ fuel ih =>
      unfold PlainMachine.run at hrun
      split at hrun
      · next s' hstep =>
        obtain ⟨ins, hins, hgoes⟩ := goesOn_of_step hstep
        have hbounded' := (step_frames hins hgoes).bounded hlevel hbounded
        obtain ⟨n, m', hgoes', hm'⟩ :=
          hm.next hplaced himage hf hF hhigh hins hgoes hbounded'.running.1
        have hplace' := (hgoes.place hops hins).imp_right fun ⟨hend, hfalls⟩ =>
          And.intro hend (show needsExit ctx.functions list by simp [needsExit, hfalls])
        obtain ⟨n', m'', hgoes'', hdone⟩ := ih hrun hm' hbounded' hplace'
        exact ⟨n + n', m'', hgoes'.trans hgoes'', hdone⟩
      · next status' hstep =>
        obtain ⟨rfl, rfl⟩ := Prod.mk.inj (Option.some.inj hrun)
        obtain ⟨rfl, hend⟩ := exit_of_step hstep
        have hlength : s.stack.length ≤ D := hbounded.running.1
        refine hm.exit hplaced himage hF (by omega) hentry ?_
        rcases hend with hnone | hret
        · exact Or.inl (hplace.resolve_left (by simpa using hnone))
        · exact Or.inr hret
      · cases hrun

/-! ### The start of a program -/

theorem stackLines_run (labels : Labels) {f : Frame} (hf : f.Shape L D S) {stackTop : UInt32}
    (htop : stackTop.toNat = F + S) :
    ∃ c', straight labels [.textSection, .visible .main, .label .main,
        .code .la [.register sp, .address stackTop], .immediate .addiu sp sp (-f.size).toInt,
        .move fp sp] c = some c' ∧
      c'.get fp = UInt32.ofNat F ∧ (∀ r, r ≠ sp → r ≠ fp → c'.get r = c.get r) ∧
      c'.memory = c.memory ∧ c'.output = c.output := by
  let c₁ := (c.set sp stackTop).set sp (UInt32.ofNat F)
  have hsp : (c.set sp stackTop).get sp = UInt32.ofNat (F + S) := by
    rw [Core.get_set_same _ _ (by decide), ← htop, UInt32.ofNat_toNat]
  refine ⟨c₁.set fp (c₁.get sp), ?_, ?_, ?_, ?_, ?_⟩
  · show straight labels [.immediate .addiu sp sp (-f.size).toInt, .move fp sp]
      (c.set sp stackTop) = _
    rw [straight_displace (x := F + S) (y := F) hsp (by rw [hf.size_neg]; omega), straight_move]
    rfl
  · rw [Core.get_set_same _ _ (by decide), Core.get_set_same _ _ (by decide)]
  · intro r hrsp hrfp
    rw [Core.get_set_other _ _ hrfp, Core.get_set_other _ _ hrsp, Core.get_set_other _ _ hrsp]
  · simp only [c₁, Core.memory_set]
  · simp only [c₁, Core.output_set]

/-- The prologue sets up the frame of the entry function and goes to its first instruction. -/
theorem prologue_go {m : Machine} (hm : Ready image.words 0 m) (hzero : m.core.get 0 = 0)
    (himage : image.Addressable) (hf : ctx.frame.Shape L D S) {stackTop a : UInt32} {j : Nat}
    (hlaid : Laid elide image 0 ((Mips.prologue ctx stackTop).map Line.render) j)
    (hentry : image.labels[(Mips.entryLabel ctx.functions).render]? = some a)
    (htop : stackTop.toNat = F + S) :
    ∃ c n, m.Goes n (m.resume c a n) ∧ c.get 0 = 0 ∧ c.get fp = UInt32.ofNat F ∧
      c.get s0 = UInt32.ofNat (F + 16 + 4 * L) ∧ c.get s1 = 0 ∧ c.memory = m.core.memory ∧
      c.output = m.core.output := by
  have hstart := Reaches.start hm hzero hlaid
  obtain ⟨c₁, hrun₁, hfp₁, hregs₁, hmemory₁, houtput₁⟩ :=
    stackLines_run image.labels hf htop (c := m.core)
  rw [Mips.prologue, List.append_assoc] at hstart
  have h₁ := Reaches.straight _ hm himage hstart
    (List.forall_mem_cons.2 ⟨trivial, List.forall_mem_cons.2 ⟨rfl, List.forall_mem_cons.2 ⟨rfl,
      List.forall_mem_cons.2 ⟨fun o ho => by revert o; simp [Operand.Plain, sp],
        List.forall_mem_cons.2 ⟨Line.plain_immediate .addiu (by decide) _, by decide⟩⟩⟩⟩⟩) hrun₁
  have hzero₁ : c₁.get 0 = 0 := (hregs₁ 0 (by decide) (by decide)).trans hzero
  obtain ⟨c₂, hrun₂, hs0₂, hs1₂, hregs₂, hmemory₂, houtput₂⟩ :=
    Mips.enterFrame_run image.labels hf.base hzero₁ hfp₁
  have h₂ := Reaches.straight _ hm himage h₁ (Mips.enterFrame_plain ctx.frame) hrun₂
  have hjump : (Line.jump (Mips.entryLabel ctx.functions)).run image.labels c₂ =
      some (c₂, .to a) := by
    simp only [Line.jump, Line.run, runCode, runOperation, if_true, hentry, Option.map_some]
  have hmade : (Mips.entryLabel ctx.functions).isMade := by
    unfold Mips.entryLabel
    split <;> rfl
  obtain ⟨-, n, hgoes⟩ := h₂.leave hm himage (List.forall_mem_singleton.2 hmade) hjump
  refine ⟨c₂, n, hgoes, ?_, ?_, hs0₂, hs1₂, hmemory₂.trans hmemory₁, houtput₂.trans houtput₁⟩
  · rw [hregs₂ 0 (by decide) (by decide), hzero₁]
  · rw [hregs₂ fp (by decide) (by decide), hfp₁]

theorem get_ofWords (words : Array UInt32) (r : Register) :
    (Machine.ofWords words).core.get r = 0 := by
  show (Vector.replicate 32 (0 : UInt32))[r.toNat]?.getD 0 = 0
  rw [Vector.getElem?_replicate]
  split <;> rfl

/-- **A program starts** in a frame that holds the state in which the plain machine starts. -/
theorem stands_start (himage : image.Addressable) (hf : ctx.frame.Shape L D S) {stackTop : UInt32}
    (hlaid : Laid elide image 0 ((Mips.prologue ctx stackTop).map Line.render) (pos 0))
    (hentry : image.labels[(Mips.entryLabel ctx.functions).render]? = some (addressOf (pos 0)))
    (htop : stackTop.toNat = F + S) (hlow : 4 * image.words.size ≤ F)
    (hhigh : F + 16 + 4 * L ≤ 2 ^ 32) :
    ∃ n m, (Machine.ofWords image.words).Goes n m ∧ Stands image pos L F {} m := by
  have hready : Ready image.words 0 (Machine.ofWords image.words) := ⟨rfl, rfl, rfl⟩
  obtain ⟨c, n, hgoes, hzero, hfp, hs0, hs1, hmemory, houtput⟩ :=
    prologue_go hready (get_ofWords _ 0) himage hf hlaid hentry htop
  refine ⟨n, _, hgoes, Machine.resume_ready hready c _ n, ?_⟩
  rw [Machine.core_resume]
  refine ⟨hzero, hfp, hs0, hs1, trivial, ?_, ?_⟩
  · -- the frame lies above the program, where memory is still zero
    intro k hk
    rw [hmemory]
    exact Memory.loadWord_ofWords_above (by omega) (by omega)
  · rw [houtput]
    rfl

end Following

end PlainMachine

end StackCompiler
