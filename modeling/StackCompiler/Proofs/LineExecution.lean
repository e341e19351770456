/-
**Lines do what they mean.**

The words of a line that was laid out in an image do on the machine what the line means: the machine
makes as many steps as the line has words, and ends behind them, at the label that the line goes to,
or stopped.  One lemma for each form of a line puts together how it is encoded and how its words are
carried out; from then on nothing has to be known about words.

* `Listing.goes_line` — **a line does what it means**.
-/

import StackCompiler.Proofs.AbbreviationWords
import StackCompiler.Proofs.LineMeaning

namespace StackCompiler

open Assembly (Labels Image Mnemonic Laid addressOf)
open Listing
open Assembly.Operand (immediate_hex one shift signed16 three two wordValue)
open Machine (failure? ofBool perform)

/-- An image whose words all lie in the region that jumps can reach, with labels on words. -/
structure Assembly.Image.Addressable (image : Image) : Prop where
  size : image.words.size < 2 ^ 26
  labels : image.labels.UpTo image.words.size

namespace Machine

/-- The part of the state that lines act on. -/
def core (m : Machine) : Core := ⟨m.regs, m.hi, m.lo, m.memory, m.output⟩

/-- A machine that goes on from a core. -/
def resume (m : Machine) (c : Core) (address : UInt32) (n : Nat) : Machine :=
  { m with
    regs := c.regs, hi := c.hi, lo := c.lo, memory := c.memory, output := c.output
    pc := address, steps := m.steps + n }

/-- The state behind a line whose words end before word `j`. -/
def follow (m : Machine) (c : Core) (n j : Nat) : Next → Machine
  | .on => m.resume c (addressOf j) n
  | .to a => m.resume c a n
  | .stop status => (m.resume c (addressOf j) n).exit status

@[simp] theorem core_resume (m : Machine) (c : Core) (a : UInt32) (n : Nat) :
    (m.resume c a n).core = c := rfl

theorem resume_resume (m : Machine) (c c' : Core) (a a' : UInt32) (n n' : Nat) :
    (m.resume c a n).resume c' a' n' = m.resume c' a' (n + n') := by
  simp only [resume, Nat.add_assoc]

theorem resume_ready {m : Machine} {words : Array UInt32} {k : Nat} (h : Ready words k m)
    (c : Core) (j n : Nat) : Ready words j (m.resume c (addressOf j) n) :=
  ⟨h.text, h.running, rfl⟩

theorem Ready.advance_eq {m : Machine} {words : Array UInt32} {k : Nat} (h : Ready words k m) :
    m.advance = m.resume m.core (addressOf (k + 1)) 1 := by
  have hpc : m.pc + 4 = addressOf (k + 1) := by
    rw [h.pc, Assembly.addressOf_add]
    rfl
  rw [advance, resume, hpc]
  rfl

end Machine

theorem Assembly.Operand.label_ok {labels : Labels} {t : Text} {a : UInt32}
    (h : label labels t = .ok a) : labels[t]? = some a := by
  unfold label at h
  split at h
  · next ha => rw [ha, Except.ok.inj h]
  · cases h

namespace Listing

open Machine (Ready Goes)
open Assembly (encodeOperation)

variable {elide : Bool} {image : Image} {m : Machine} {k j : Nat}

/-! ### The words of an instruction line -/

/-- An instruction line and its words, which stand from word `k` on. -/
structure CodeAt (elide : Bool) (image : Image) (k : Nat) (mn : Mnemonic) (os : List Operand)
    (ws : List UInt32) : Prop where
  sized : ∃ known, mn.size elide known (os.flatMap Operand.words) = .ok ws.length
  encoded : mn.encode image.labels (addressOf k) ws.length (os.flatMap Operand.words) = .ok ws
  holds : image.Holds k ws

variable {os : List Operand} {rest : List Text} {w : UInt32} {o : Operation} {ws : List UInt32}
  {c : Core} {next : Next} {d s t : Register} {n : Int}

theorem laid_code {mn : Mnemonic} (h : Laid elide image k ((Line.code mn os).render :: rest) j)
    (hp : ∀ o ∈ os, o.Plain) :
    ∃ ws, CodeAt elide image k mn os ws ∧ Laid elide image (k + ws.length) rest j := by
  obtain ⟨n, s, i, hs, hplaced, hrest⟩ := h
  rw [parse_code n mn fun o ho => (hp o ho).isMade] at hs
  obtain rfl := Except.ok.inj hs
  obtain ⟨mn', ws, hname, hsized, hencoded, hholds, rfl⟩ := hplaced.encoded _ rfl
  obtain rfl : mn = mn' := Option.some.inj ((ofName?_name mn).symm.trans hname)
  exact ⟨ws, ⟨hsized, hencoded, hholds⟩, hrest⟩

/-- A line without an instruction has no words, and its labels stand where the next line does. -/
theorem laid_silent {source : Text} {names : List Text}
    (hparse : ∀ n, Assembly.Statement.parse n source = .ok ⟨n, source, names, none⟩)
    (h : Laid elide image k (source :: rest) j) :
    (∀ name ∈ names, image.labels[name]? = some (addressOf k)) ∧ Laid elide image k rest j := by
  obtain ⟨n, s, i, hs, hplaced, hrest⟩ := h
  rw [hparse n] at hs
  obtain rfl := Except.ok.inj hs
  obtain rfl := hplaced.silent rfl
  exact ⟨hplaced.labels, hrest⟩

theorem laid_label {l : Label} (hl : l.isMade)
    (h : Laid elide image k ((Line.label l).render :: rest) j) :
    image.labels[l.render]? = some (addressOf k) ∧ Laid elide image k rest j :=
  (laid_silent (parse_label · hl) h).imp_left fun h => h _ (List.mem_singleton_self _)

theorem laid_place {offset : Nat} {ins : Instruction}
    (h : Laid elide image k ((Line.place offset ins).render :: rest) j) :
    image.labels[(Label.start offset).render]? = some (addressOf k) ∧ Laid elide image k rest j :=
  (laid_silent (parse_place · offset ins) h).imp_left fun h => h _ (List.mem_singleton_self _)

/-! ### Encoded operands -/

open Assembly (threeRegisters shiftByRegister shiftByAmount multiply withImmediate memoryAccess
  branchTwo sizeNumber)
open Assembly.Operand (register_name immediate_signed label_ok distance)

theorem threeRegisters_names (o : Operation) (hd : d < 32) (hs : s < 32) (ht : t < 32) :
    threeRegisters o [d.name, s.name, t.name] = .ok (o.registerWord s t d 0) := by
  simp only [threeRegisters, three, ok_bind, register_name hd, register_name hs, register_name ht]
  rfl

theorem shiftByRegister_names (o : Operation) (hd : d < 32) (hs : s < 32) (ht : t < 32) :
    shiftByRegister o [d.name, s.name, t.name] = .ok (o.registerWord t s d 0) := by
  simp only [shiftByRegister, three, ok_bind, register_name hd, register_name hs, register_name ht]
  rfl

theorem signed16_ok {imm : UInt16} (hn : -2 ^ 63 ≤ n ∧ n < 2 ^ 63)
    (h : signed16 (Numeral.signed n) = .ok imm) :
    (-32768 ≤ n ∧ n ≤ 32767) ∧ imm = UInt16.ofInt n := by
  rw [signed16, immediate_signed hn.1 hn.2, ok_bind] at h
  split at h
  · cases h
  · exact ⟨by omega, (Except.ok.inj h).symm⟩

theorem withImmediate_ok (ht : t < 32) (hs : s < 32) (hn : -2 ^ 63 ≤ n ∧ n < 2 ^ 63)
    (h : withImmediate o signed16 [t.name, s.name, Numeral.signed n] = .ok w) :
    (-32768 ≤ n ∧ n ≤ 32767) ∧ w = o.immediateWord s t (UInt16.ofInt n) := by
  simp only [withImmediate, three, ok_bind, register_name ht, register_name hs]
    at h
  obtain ⟨imm, himm, h⟩ := bind_ok_iff.1 h
  obtain ⟨hrange, rfl⟩ := signed16_ok hn himm
  exact ⟨hrange, (pure_ok_iff.1 h).symm⟩

theorem shiftByAmount_ok (hd : d < 32) (ht : t < 32) (hn : -2 ^ 63 ≤ n ∧ n < 2 ^ 63)
    (h : shiftByAmount o [d.name, t.name, Numeral.signed n] = .ok w) :
    w = o.registerWord Register.zero t d (UInt32.ofInt n) := by
  simp only [shiftByAmount, three, ok_bind, register_name hd, register_name ht,
    shift, immediate_signed hn.1 hn.2] at h
  split at h
  · cases h
  · exact (Except.ok.inj h).symm

theorem branchTwo_ok {l : Text} {labels : Labels} {pc : UInt32} (hs : s < 32) (ht : t < 32)
    (h : branchTwo o labels pc [s.name, t.name, l] = .ok w) :
    ∃ a, labels[l]? = some a ∧ (-32768 ≤ distance pc a ∧
      distance pc a ≤ 32767) ∧
      w = o.immediateWord s t (UInt16.ofInt (distance pc a)) := by
  simp only [branchTwo, three, ok_bind, register_name ht, register_name hs] at h
  obtain ⟨imm, himm, h⟩ := bind_ok_iff.1 h
  obtain ⟨a, ha, himm⟩ := bind_ok_iff.1 himm
  refine ⟨a, label_ok ha, ?_⟩
  dsimp only at himm
  split at himm
  · cases himm
  · obtain rfl := Except.ok.inj himm
    exact ⟨by omega, (pure_ok_iff.1 h).symm⟩

theorem multiply_names (o : Operation) (hs : s < 32) (ht : t < 32) :
    multiply o [s.name, t.name] = .ok (o.registerWord s t Register.zero 0) := by
  simp only [multiply, two, ok_bind, register_name hs, register_name ht]
  rfl

theorem memoryAccess_ok {b : Register} (ht : t < 32) (hb : b < 32) (hn : -2 ^ 63 ≤ n ∧ n < 2 ^ 63)
    (h : memoryAccess o [t.name, Numeral.signed n, b.name] = .ok w) :
    (-32768 ≤ n ∧ n ≤ 32767) ∧ w = o.immediateWord b t (UInt16.ofInt n) := by
  simp only [memoryAccess, ok_bind, register_name ht, register_name hb] at h
  obtain ⟨imm, himm, h⟩ := bind_ok_iff.1 h
  obtain ⟨hrange, rfl⟩ := signed16_ok hn himm
  exact ⟨hrange, (pure_ok_iff.1 h).symm⟩

theorem sizeNumber_ok {words : Nat} (hn : -2 ^ 63 ≤ n ∧ n < 2 ^ 63)
    (h : sizeNumber [d.name, Numeral.signed n] = .ok words) : words = Assembly.numberSize n := by
  simp only [sizeNumber, two, ok_bind, wordValue, immediate_signed hn.1 hn.2] at h
  split at h
  · cases h
  · exact (pure_ok_iff.1 h).symm

theorem word_address (a : UInt32) : Assembly.Operand.word (Operand.address a).render = .ok a := by
  have ha := a.toNat_lt
  have hread := immediate_hex (n := a.toNat) (by omega)
  have hvalue : wordValue (Operand.address a).render = .ok a.toNat := by
    rw [Operand.render, wordValue, hread, ok_bind, if_neg (by omega)]
  rw [Assembly.Operand.word, hvalue, ok_bind, Word.ofInt_natCast, UInt32.ofNat_toNat]
  rfl

/-! ### Lines of one word -/

/-- The words from word `k` on take the machine to where a line leads. -/
def Does (m : Machine) (k : Nat) (ws : List UInt32) (c : Core) (next : Next) : Prop :=
  m.Goes ws.length (m.follow c ws.length (k + ws.length) next)

theorem CodeAt.word (h : CodeAt elide image k (.operation o) os ws) :
    ∃ w, ws = [w] ∧ image.words[k]? = some w ∧
      encodeOperation image.labels (addressOf k) o (os.flatMap Operand.words) = .ok w := by
  obtain ⟨w, hw, rfl⟩ := bind_pure_ok_iff.1 h.encoded
  exact ⟨w, rfl, h.holds.getElem? (i := 0) rfl, hw⟩

section Words

variable (hm : Ready image.words k m) (himage : image.Addressable)

include himage in
theorem index_lt (hw : image.words[k]? = some w) : k + 1 < 2 ^ 26 :=
  Nat.lt_of_le_of_lt (Array.getElem?_eq_some_iff.1 hw).1 himage.size

include himage in
theorem CodeAt.end_lt {mn : Mnemonic} (h : CodeAt elide image k mn os ws) :
    k + ws.length < 2 ^ 26 := Nat.lt_of_le_of_lt h.holds.le_size himage.size

include hm himage

/-- A step of the machine at the word of an operation, if the operation does not fail. -/
theorem goes_word (hw : image.words[k]? = some w)
    (ho : Operation.ofFields? (Fields.ofWord w) = some o)
    (hf : m.failure? (Fields.ofWord w) o = none) :
    m.Goes 1 ((m.resume m.core (addressOf (k + 1)) 1).perform (addressOf k) (Fields.ofWord w)
      o) := by
  have hk := index_lt himage hw
  have := hm.goes (by omega) hw ho hf
  rwa [hm.advance_eq, hm.pc] at this

theorem does_registers {funct : UInt32} {rs rt rd : Register} (hcode : o.code = .function funct)
    (hs : rs < 32) (ht : rt < 32) (hd : rd < 32)
    (hw : image.words[k]? = some (o.registerWord rs rt rd 0))
    (hdo : ∀ f : Fields, f.rs = rs → f.rt = rt → f.rd = rd → m.failure? f o = none ∧
      (m.resume m.core (addressOf (k + 1)) 1).perform (addressOf k) f o =
        m.follow c 1 (k + 1) next) : Does m k [w] c next := by
  have hk := index_lt himage hw
  refine hm.goes_registers (by omega) hcode hs ht hd hw fun f hrs hrt hrd => ?_
  rw [hm.advance_eq, hm.pc]
  exact hdo f hrs hrt hrd

theorem does_immediate {op : UInt32} {rs rt : Register} {imm : UInt16}
    (hcode : o.code = .primary op) (hs : rs < 32) (ht : rt < 32)
    (hw : image.words[k]? = some (o.immediateWord rs rt imm))
    (hdo : ∀ f : Fields, f.rs = rs → f.rt = rt → f.imm = imm → m.failure? f o = none ∧
      (m.resume m.core (addressOf (k + 1)) 1).perform (addressOf k) f o =
        m.follow c 1 (k + 1) next) : Does m k [w] c next := by
  have hk := index_lt himage hw
  refine hm.goes_immediate (by omega) hcode hs ht hw fun f hrs hrt himm => ?_
  rw [hm.advance_eq, hm.pc]
  exact hdo f hrs hrt himm

theorem does_binary {v : UInt32} (hd : d < 32) (hs : s < 32) (ht : t < 32)
    (h : CodeAt elide image k (.operation o) [.register d, .register s, .register t] ws)
    (hv : binary? o (m.core.get s) (m.core.get t) = some v) : Does m k ws (m.core.set d v) .on := by
  obtain ⟨w, rfl, hw, henc⟩ := h.word
  replace henc : encodeOperation image.labels (addressOf k) o [d.name, s.name, t.name] = .ok w :=
    henc
  unfold binary? at hv
  split at hv
  case h_9 => cases hv
  -- shifts take the amount from their last operand, the others their second value
  case h_7 | h_8 =>
    obtain rfl := Option.some.inj hv
    rw [encodeOperation, shiftByRegister_names _ hd hs ht] at henc
    obtain rfl := Except.ok.inj henc
    refine does_registers hm himage rfl ht hs hd hw fun f hrs hrt hrd => ⟨rfl, ?_⟩
    simp only [perform, hrs, hrt, hrd]
    rfl
  all_goals
    obtain rfl := Option.some.inj hv
    rw [encodeOperation, threeRegisters_names _ hd hs ht] at henc
    obtain rfl := Except.ok.inj henc
    refine does_registers hm himage rfl hs ht hd hw fun f hrs hrt hrd => ⟨rfl, ?_⟩
    simp only [perform, hrs, hrt, hrd]
    rfl

theorem does_number {v : UInt32} (ht : t < 32) (hs : s < 32) (hn : -2 ^ 63 ≤ n ∧ n < 2 ^ 63)
    (h : CodeAt elide image k (.operation o) [.register t, .register s, .number n] ws)
    (hv : withNumber? o (m.core.get s) n = some v) : Does m k ws (m.core.set t v) .on := by
  obtain ⟨w, rfl, hw, henc⟩ := h.word
  replace henc : encodeOperation image.labels (addressOf k) o
    [t.name, s.name, Numeral.signed n] = .ok w := henc
  unfold withNumber? at hv
  split at hv
  case h_4 => cases hv
  case h_3 =>
    obtain rfl := Option.some.inj hv
    obtain rfl := shiftByAmount_ok ht hs hn henc
    obtain ⟨ho, -, hrt, hrd, hshamt⟩ :=
      Operation.registerWord_decoded (o := .sll) rfl (show Register.zero < 32 by decide) hs ht
        (UInt32.ofInt n)
    have hgoes := goes_word hm himage hw ho rfl
    rw [perform] at hgoes
    simp only [hrt, hrd, hshamt] at hgoes
    exact hgoes
  all_goals
    obtain rfl := Option.some.inj hv
    obtain ⟨hrange, rfl⟩ := withImmediate_ok ht hs hn henc
    refine does_immediate hm himage rfl hs ht hw fun f hrs hrt himm => ⟨rfl, ?_⟩
    simp only [perform, hrs, hrt, himm, Word.signExtend_ofInt hrange.1 hrange.2]
    rfl

theorem does_branch {l : Label} {b : Bool} (hs : s < 32) (ht : t < 32)
    (h : CodeAt elide image k (.operation o) [.register s, .register t, .label l] ws)
    (hb : taken? o (m.core.get s) (m.core.get t) = some b) :
    ∃ a, image.labels[l.render]? = some a ∧ Does m k ws m.core (if b then .to a else .on) := by
  obtain ⟨w, rfl, hw, henc⟩ := h.word
  have hsize := himage.size
  have hk := index_lt himage hw
  -- both branches are encoded alike and differ only in what they compare
  have htaken : branchTwo o image.labels (addressOf k) [s.name, t.name, l.render] = .ok w ∧
      ∃ op, o.code = .primary op := by
    unfold taken? at hb
    split at hb
    · exact ⟨henc, _, rfl⟩
    · exact ⟨henc, _, rfl⟩
    · cases hb
  obtain ⟨hbranch, op, hcode⟩ := htaken
  obtain ⟨a, ha, hrange, rfl⟩ := branchTwo_ok hs ht hbranch
  obtain ⟨target, htarget, rfl⟩ := himage.labels _ _ ha
  have hgoal := Word.branchTarget_distance (k := k) (t := target) (by omega) (by omega) hrange.1
    hrange.2
  refine ⟨addressOf target, ha, ?_⟩
  refine does_immediate hm himage hcode hs ht hw fun f hrs hrt himm => ?_
  have hfollow : ∀ b : Bool,
      (m.resume m.core (addressOf (k + 1)) 1).goIf b (addressOf target) =
        m.follow m.core 1 (k + 1) (if b then .to (addressOf target) else .on) := by
    intro b
    cases b <;> rfl
  unfold taken? at hb
  split at hb
  case h_3 => cases hb
  all_goals
    obtain rfl := Option.some.inj hb
    refine ⟨rfl, ?_⟩
    rw [← hfollow]
    simp only [perform, hrs, hrt, himm, hgoal]
    rfl

theorem does_double {v : UInt32 × UInt32} (hs : s < 32) (ht : t < 32)
    (h : CodeAt elide image k (.operation o) [.register s, .register t] ws)
    (hv : double? o (m.core.get s) (m.core.get t) = some v) :
    Does m k ws (m.core.setHalves v) .on := by
  obtain ⟨w, rfl, hw, henc⟩ := h.word
  replace henc : encodeOperation image.labels (addressOf k) o [s.name, t.name] = .ok w := henc
  unfold double? at hv
  split at hv
  case h_3 => cases hv
  all_goals
    obtain rfl := Option.some.inj hv
    rw [encodeOperation, multiply_names _ hs ht] at henc
    obtain rfl := Except.ok.inj henc
    refine does_registers hm himage rfl hs ht (by decide) hw fun f hrs hrt hrd => ⟨rfl, ?_⟩
    simp only [perform, hrs, hrt]
    rfl

theorem does_access {b : Register} (ht : t < 32) (hb : b < 32) (hn : -2 ^ 63 ≤ n ∧ n < 2 ^ 63)
    (h : CodeAt elide image k (.operation o) [.register t, .memory n b] ws)
    (hc : access? m.core o t (m.core.get b + UInt32.ofInt n) = some c) : Does m k ws c .on := by
  obtain ⟨w, rfl, hw, henc⟩ := h.word
  replace henc : encodeOperation image.labels (addressOf k) o
    [t.name, Numeral.signed n, b.name] = .ok w := henc
  unfold access? at hc
  split at hc
  case isFalse => cases hc
  case isTrue haligned =>
    have haccessed : ∀ f : Fields, f.rs = b → f.imm = UInt16.ofInt n → -32768 ≤ n → n ≤ 32767 →
        m.accessed f = m.core.get b + UInt32.ofInt n := by
      intro f hrs himm hlo hhi
      rw [Machine.accessed, hrs, himm, Word.signExtend_ofInt hlo hhi]
      rfl
    split at hc
    case h_3 => cases hc
    all_goals
      obtain rfl := Option.some.inj hc
      obtain ⟨hrange, rfl⟩ := memoryAccess_ok ht hb hn henc
      refine does_immediate hm himage rfl hb ht hw fun f hrs hrt himm => ?_
      have hacc := haccessed f hrs himm hrange.1 hrange.2
      have hacc' : (m.resume m.core (addressOf (k + 1)) 1).accessed f = _ := hacc
      refine ⟨by rw [failure?, hacc, if_pos haligned], ?_⟩
      simp only [perform, hrt, hacc']
      rfl

theorem does_single {r : Register} (hr : r < 32)
    (h : CodeAt elide image k (.operation o) [.register r] ws)
    (hc : single? m.core o r = some (c, next)) : Does m k ws c next := by
  obtain ⟨w, rfl, hw, henc⟩ := h.word
  replace henc : encodeOperation image.labels (addressOf k) o [r.name] = .ok w := henc
  unfold single? at hc
  split at hc
  · cases hc
    simp only [encodeOperation, Assembly.fromProduct, one, ok_bind, register_name hr] at henc
    obtain rfl := pure_ok_iff.1 henc
    refine does_registers hm himage rfl (by decide) (by decide) hr hw fun f hrs hrt hrd => ⟨rfl, ?_⟩
    simp only [perform, hrd]
    rfl
  · cases hc
    simp only [encodeOperation, Assembly.jumpRegister, one, ok_bind, register_name hr] at henc
    obtain rfl := pure_ok_iff.1 henc
    refine does_registers hm himage rfl hr (by decide) (by decide) hw fun f hrs hrt hrd => ⟨rfl, ?_⟩
    simp only [perform, hrs]
    rfl
  · cases hc

theorem does_jump {l : Label} (h : CodeAt elide image k (.operation .j) [.label l] ws) :
    ∃ a, image.labels[l.render]? = some a ∧ ws.length = 1 ∧ Does m k ws m.core (.to a) := by
  obtain ⟨w, rfl, hw, henc⟩ := h.word
  have hsize := himage.size
  have hk := index_lt himage hw
  replace henc : encodeOperation image.labels (addressOf k) .j [l.render] = .ok w := henc
  simp only [encodeOperation, Assembly.jumpTo, one, ok_bind] at henc
  obtain ⟨a, ha, rfl⟩ := bind_pure_ok_iff.1 henc
  obtain ⟨target, htarget, rfl⟩ := himage.labels _ _ (label_ok ha)
  obtain ⟨ho, hindex⟩ := Operation.jumpWord_decoded (o := .j) rfl (addressOf target &&& 0x0FFFFFFF)
  refine ⟨addressOf target, label_ok ha, rfl, ?_⟩
  have hgoes := goes_word hm himage hw ho rfl
  have hgoal := Word.jumpTarget_index (k := k) (t := target) (by omega) (by omega)
  simp only [perform, hindex, hgoal] at hgoes
  exact hgoes

theorem does_serve (h : CodeAt elide image k (.operation .syscall) [] ws)
    (hc : serve? m.core = some (c, next)) : Does m k ws c next := by
  obtain ⟨w, rfl, hw, henc⟩ := h.word
  replace henc : encodeOperation image.labels (addressOf k) .syscall [] = .ok w := henc
  simp only [encodeOperation, Assembly.Operand.none, ok_bind] at henc
  obtain rfl := pure_ok_iff.1 henc
  unfold serve? at hc
  dsimp only at hc
  split at hc
  case h_4 => cases hc
  all_goals
    next hasked =>
    cases hc
    have hasked' : m.asked = some _ := hasked
    have hasked'' : (m.resume m.core (addressOf (k + 1)) 1).asked = some _ := hasked
    refine does_registers hm himage rfl (by decide) (by decide) (by decide) hw
      fun f _ _ _ => ⟨by rw [failure?, hasked']; rfl, ?_⟩
    simp only [perform, hasked'']
    rfl

/-! ### Abbreviations -/

theorem does_move (hzero : m.core.get 0 = 0) (hd : d < 32) (hs : s < 32)
    (h : CodeAt elide image k .move [.register d, .register s] ws) :
    Does m k ws (m.core.set d (m.core.get s)) .on := by
  have henc : Mnemonic.encode image.labels (addressOf k) ws.length .move [d.name, s.name] =
      .ok ws := h.encoded
  simp only [Mnemonic.encode, two, ok_bind, register_name hd, register_name hs]
    at henc
  have hk := h.end_lt himage
  obtain rfl := pure_ok_iff.1 henc
  exact hm.copies (by omega) hzero hd hs (h.holds.getElem? (i := 0) rfl)

theorem does_seq (hd : d < 32) (hs : s < 32) (ht : t < 32)
    (h : CodeAt elide image k .seq [.register d, .register s, .register t] ws) :
    Does m k ws (m.core.set d (ofBool (m.core.get s == m.core.get t))) .on := by
  have henc : Mnemonic.encode image.labels (addressOf k) ws.length .seq
      [d.name, s.name, t.name] = .ok ws := h.encoded
  simp only [Mnemonic.encode, three, ok_bind, register_name hd, register_name hs,
    register_name ht] at henc
  obtain rfl := pure_ok_iff.1 henc
  have hk : k + 2 < 2 ^ 26 := h.end_lt himage
  exact hm.compares (by omega) hd hs ht h.holds

theorem does_loadNumber (hzero : m.core.get 0 = 0) (hd : d < 32) (hn : -2 ^ 63 ≤ n ∧ n < 2 ^ 63)
    (h : CodeAt elide image k .li [.register d, .number n] ws) :
    Does m k ws (m.core.set d (UInt32.ofInt n)) .on := by
  obtain ⟨known, hsized⟩ := h.sized
  have henc : Assembly.encodeNumber [d.name, Numeral.signed n] ws.length = .ok ws := h.encoded
  rw [sizeNumber_ok hn hsized, Assembly.encodeNumber_eq, register_name hd, ok_bind,
    immediate_signed hn.1 hn.2, ok_bind] at henc
  have hk := h.end_lt himage
  exact hm.loads_number (by omega) hzero hd (pure_ok_iff.1 henc) h.holds

/-- Loading an address, whether it is that of a label or written as a number. -/
theorem does_loadAddress {o : Operand} {a : UInt32} (hd : d < 32) (hword : o.words = [o.render])
    (ha : Text.isIdentifier o.render = true ∧ image.labels[o.render]? = some a ∨
      Text.isIdentifier o.render = false ∧ Assembly.Operand.word o.render = .ok a)
    (h : CodeAt elide image k .la [.register d, o] ws) : Does m k ws (m.core.set d a) .on := by
  have henc : Assembly.encodeAddress image.labels [d.name, o.render] ws.length = .ok ws := by
    have := h.encoded
    rwa [List.flatMap_cons, List.flatMap_cons, List.flatMap_nil, hword] at this
  have hdrawn : (if ws.length = 1 ∧ a &&& 0xFFFF ≠ 0 then
      .error (.addressDrift (Assembly.lowHalfDetail o.render a))
      else pure (Assembly.loadUpper d a ws.length) : Except Assembly.Cause (List UInt32)) =
        .ok ws := by
    rcases ha with ⟨hid, ha⟩ | ⟨hid, ha⟩
    · simp only [Assembly.encodeAddress, two, ok_bind, register_name hd, hid,
        if_true, Assembly.Operand.label, ha] at henc
      exact henc
    · simp only [Assembly.encodeAddress, two, ok_bind, register_name hd, hid,
        Bool.false_eq_true, if_false, ha] at henc
      exact henc
  split at hdrawn
  · cases hdrawn
  · next hdrift =>
    have hk := h.end_lt himage
    exact hm.loads_address (by omega) hd hdrift (pure_ok_iff.1 hdrawn) h.holds

/-! ### Lines -/

theorem does_operation (hp : ∀ o ∈ os, o.Plain) (h : CodeAt elide image k (.operation o) os ws)
    (hrun : runOperation image.labels m.core o os = some (c, next)) : Does m k ws c next := by
  -- the operands decide which kind of operation it can be
  unfold runOperation at hrun
  split at hrun
  · split at hrun
    · next hs =>
      subst hs
      exact does_serve hm himage h hrun
    · cases hrun
  · next d s t =>
    obtain ⟨v, hv, ⟨⟩⟩ := Option.map_eq_some_iff.1 hrun
    simp only [List.forall_mem_cons, Operand.Plain] at hp
    exact does_binary hm himage hp.1 hp.2.1 hp.2.2.1 h hv
  · next t s n =>
    obtain ⟨v, hv, ⟨⟩⟩ := Option.map_eq_some_iff.1 hrun
    simp only [List.forall_mem_cons, Operand.Plain] at hp
    exact does_number hm himage hp.1 hp.2.1 hp.2.2.1 h hv
  · next s t l =>
    simp only [List.forall_mem_cons, Operand.Plain] at hp
    split at hrun
    · next htaken =>
      obtain ⟨a, ha, hdoes⟩ := does_branch hm himage hp.1 hp.2.1 h htaken
      rw [ha] at hrun
      cases hrun
      exact hdoes
    · next htaken =>
      obtain ⟨a, ha, hdoes⟩ := does_branch hm himage hp.1 hp.2.1 h htaken
      cases hrun
      exact hdoes
    · cases hrun
  · next s t =>
    obtain ⟨v, hv, ⟨⟩⟩ := Option.map_eq_some_iff.1 hrun
    simp only [List.forall_mem_cons, Operand.Plain] at hp
    exact does_double hm himage hp.1 hp.2.1 h hv
  · next t n b =>
    obtain ⟨c', hc', ⟨⟩⟩ := Option.map_eq_some_iff.1 hrun
    simp only [List.forall_mem_cons, Operand.Plain] at hp
    exact does_access hm himage hp.1 hp.2.1.2 hp.2.1.1 h hc'
  · next r =>
    simp only [List.forall_mem_cons, Operand.Plain] at hp
    exact does_single hm himage hp.1 h hrun
  · next l =>
    split at hrun
    · next hj =>
      subst hj
      obtain ⟨a, ha, -, hdoes⟩ := does_jump hm himage h
      rw [ha] at hrun
      cases hrun
      exact hdoes
    · cases hrun
  · cases hrun

/-- The words of an instruction line do what the line means. -/
theorem does_code {mn : Mnemonic} (hzero : m.core.get 0 = 0) (hp : ∀ o ∈ os, o.Plain)
    (h : CodeAt elide image k mn os ws)
    (hrun : runCode image.labels m.core mn os = some (c, next)) : Does m k ws c next := by
  unfold runCode at hrun
  split at hrun
  · exact does_operation hm himage hp h hrun
  · split at hrun
    · cases hrun
      simp only [List.forall_mem_cons, Operand.Plain] at hp
      exact does_move hm himage hzero hp.1 hp.2.1 h
    · cases hrun
  · split at hrun
    · cases hrun
      simp only [List.forall_mem_cons, Operand.Plain] at hp
      exact does_loadNumber hm himage hzero hp.1 hp.2.1 h
    · cases hrun
  · unfold runLoad at hrun
    split at hrun
    · next d l =>
      obtain ⟨a, ha, ⟨⟩⟩ := Option.map_eq_some_iff.1 hrun
      simp only [List.forall_mem_cons, Operand.Plain] at hp
      exact does_loadAddress (o := .label l) hm himage hp.1 rfl
        (Or.inl ⟨l.isIdentifier_render hp.2.1, ha⟩) h
    · next d a =>
      cases hrun
      simp only [List.forall_mem_cons, Operand.Plain] at hp
      exact does_loadAddress (o := .address a) hm himage hp.1 rfl
        (Or.inr ⟨Assembly.Operand.isIdentifier_hex a.toNat, word_address a⟩) h
    · cases hrun
  · split at hrun
    · cases hrun
      simp only [List.forall_mem_cons, Operand.Plain] at hp
      exact does_seq hm himage hp.1 hp.2.1 hp.2.2.1 h
    · cases hrun
  · cases hrun

end Words

theorem resume_self (hm : Ready image.words k m) : m.resume m.core (addressOf k) 0 = m := by
  rw [← hm.pc]
  rfl

/-- **A line does what it means**, in as many steps as it has words. -/
theorem goes_line {line : Line} (hm : Ready image.words k m) (himage : image.Addressable)
    (hzero : m.core.get 0 = 0) (hp : line.Plain)
    (hlaid : Laid elide image k (line.render :: rest) j)
    (hrun : line.run image.labels m.core = some (c, next)) :
    ∃ n, Laid elide image (k + n) rest j ∧ m.Goes n (m.follow c n (k + n) next) := by
  have hsilent : Laid elide image k rest j → some (m.core, Next.on) = some (c, next) →
      ∃ n, Laid elide image (k + n) rest j ∧ m.Goes n (m.follow c n (k + n) next) := by
    intro hrest heq
    cases heq
    refine ⟨0, hrest, ?_⟩
    rw [Machine.follow, Nat.add_zero, resume_self hm]
    exact Goes.refl m
  cases line with
  | textSection => exact hsilent (laid_silent (fun _ => rfl) hlaid).2 hrun
  | visible l =>
      obtain rfl : l = .main := hp
      exact hsilent (laid_silent (fun _ => rfl) hlaid).2 hrun
  | label l => exact hsilent (laid_label hp hlaid).2 hrun
  | place offset ins => exact hsilent (laid_place hlaid).2 hrun
  | comment body => cases hrun
  | code mn os =>
      obtain ⟨ws, hcode, hrest⟩ := laid_code hlaid hp
      exact ⟨ws.length, hrest, does_code hm himage hzero hp hcode hrun⟩
  | nothingFor ins => cases hrun

/-- **Lines that go on one behind the other do what they mean.** -/
theorem goes_straight {lines : List Line} (hm : Ready image.words k m) (himage : image.Addressable)
    (hzero : m.core.get 0 = 0) (hp : ∀ l ∈ lines, l.Plain)
    (hlaid : Laid elide image k (lines.map Line.render ++ rest) j)
    (hrun : straight image.labels lines m.core = some c) :
    c.get 0 = 0 ∧ ∃ n, Laid elide image (k + n) rest j ∧
      m.Goes n (m.resume c (addressOf (k + n)) n) := by
  -- register zero is carried along, because copying and loading rely on it
  induction lines generalizing m k with
  | nil =>
      obtain rfl := Option.some.inj hrun
      refine ⟨hzero, 0, hlaid, ?_⟩
      rw [Nat.add_zero, resume_self hm]
      exact Goes.refl m
  | cons line lines ih =>
      unfold straight at hrun
      split at hrun
      · next c' hline =>
        have hp' := List.forall_mem_cons.1 hp
        obtain ⟨n, hrest, hgoes⟩ := goes_line hm himage hzero hp'.1 hlaid hline
        have hzero' : c'.get 0 = 0 := (Line.run_zero hline).trans hzero
        obtain ⟨hzero'', n', hrest', hgoes'⟩ :=
          ih (Machine.resume_ready hm c' (k + n) n) hzero' hp'.2 hrest hrun
        refine ⟨hzero'', n + n', by rwa [← Nat.add_assoc], ?_⟩
        have := hgoes.trans hgoes'
        rwa [Machine.resume_resume, Nat.add_assoc] at this
      · cases hrun

end Listing

end StackCompiler
