/-
**Programs that read their own frame.**

An array is an address, and an access does not ask where its array came from.  A program that names
an address of its own may so read a slot of its frame, and which slot that is depends on where the
frame lies, which is as far below the start of the stack as a frame is large.

* `PlainMachine.Stands.element` — **an access to a slot of the frame is followed**.
-/

import StackCompiler.Proofs.VisibleSymbols

namespace StackCompiler.PlainMachine

open Listing Lowering
open Assembly (Image addressOf)
open Lowering.Mips (popLines pushLines draft Context)

/-! ### Array accesses -/

/-- The lines that load an element. -/
def elementLines : List Line :=
  popLines 8 ++ (popLines 9 ++ ([.immediate .sll 8 8 2, .registers3 .addu 9 9 8,
    .access .lw 9 0 9] ++ pushLines 10 9))

theorem draft_iaload {ctx : Context} {offset : Nat} {ins : Instruction} {ls : List Line}
    (hop : ins.op = .iaload) (h : draft ctx offset ins = .ok ls) :
    ls = .place offset ins :: elementLines := by
  obtain ⟨ls', hls', rfl⟩ := map_ok_iff.1 h
  simp only [Mips.operation, hop] at hls'
  rw [← Except.ok.inj hls']
  rfl

section Following

variable {elide : Bool} {image : Image} {ctx : Context} {list : List Instruction} {pos : Nat → Nat}
  {L D S F n : Nat} {s : State} {c : Core} {m : Machine} {ins : Instruction} {a i : Int32}
  {rest : List Int32}

/-- An access whose element is a slot of the frame reads that slot. -/
theorem elementLines_run (h : Holds L F s c) (hF : F % 4 = 0)
    (hhigh : F + 16 + 4 * L + 4 * D ≤ 2 ^ 32) (labels : Assembly.Labels)
    (hstack : s.stack = i :: a :: rest) (hn : n < L)
    (haddress : a.toUInt32 + i.toUInt32 <<< 2 = UInt32.ofNat (F + 16 + 4 * n))
    (hroom : rest.length < D) :
    ∃ c', straight labels elementLines c = some c' ∧
      Holds L F { s with stack := s.locals n :: rest } c' := by
  obtain ⟨c₁, hrun₁, h₁, h₁8, -⟩ := h.pop hF labels (r := 8) (by decide) hstack
  obtain ⟨c₂, hrun₂, h₂, h₂9, h₂regs⟩ := h₁.pop hF labels (r := 9) (by decide) rfl
  have h₂8 : c₂.get 8 = i.toUInt32 := (h₂regs 8 (by decide) (by decide)).trans h₁8
  let c₃ := c₂.set 8 (i.toUInt32 <<< 2)
  let c₄ := c₃.set 9 (UInt32.ofNat (F + 16 + 4 * n))
  have h₃ : Holds L F { s with stack := rest } c₃ := h₂.set (by decide) _
  have h₄ : Holds L F { s with stack := rest } c₄ := h₃.set (by decide) _
  have hslot : c₄.memory.loadWord (UInt32.ofNat (F + 16 + 4 * n)) = (s.locals n).toUInt32 :=
    h₄.slots n hn
  have hrun : straight labels [.immediate .sll 8 8 2, .registers3 .addu 9 9 8, .access .lw 9 0 9]
      c₂ = some (c₄.set 9 (s.locals n).toUInt32) := by
    have hsll : straight labels [.immediate .sll 8 8 2, .registers3 .addu 9 9 8, .access .lw 9 0 9]
        c₂ = straight labels [.registers3 .addu 9 9 8, .access .lw 9 0 9] c₃ := by
      show straight labels _ (c₂.set 8 (c₂.get 8 <<< 2)) = _
      rw [h₂8]
    have haddu : straight labels [.registers3 .addu 9 9 8, .access .lw 9 0 9] c₃ =
        straight labels [.access .lw 9 0 9] c₄ := by
      show straight labels _ (c₃.set 9 (c₃.get 9 + c₃.get 8)) = _
      rw [Core.get_set_other _ _ (by decide), Core.get_set_same _ _ (by decide), h₂9, haddress]
    rw [hsll, haddu, straight_load (y := F + 16 + 4 * n) (Core.get_set_same _ _ (by decide))
      (by omega) (by omega), hslot]
    rfl
  obtain ⟨c₅, hrun₅, h₅⟩ := (h₄.set (r := 9) (by decide) _).push hF hhigh hroom labels (a := 10)
    (r := 9) (by decide) (by decide) (Core.get_set_same _ _ (by decide))
  exact ⟨c₅, straight_two hrun₁ (straight_two hrun₂ (straight_two hrun hrun₅)), h₅⟩

/-- **An access to a slot of the frame is followed.** -/
theorem Stands.element (hm : Stands image pos L F s m) (hplaced : Placed elide image ctx list pos)
    (himage : image.Addressable) (hF : F % 4 = 0) (hhigh : F + 16 + 4 * L + 4 * D ≤ 2 ^ 32)
    (hins : list[s.place]? = some ins) (hop : ins.op = .iaload)
    (hstack : s.stack = i :: a :: rest) (hn : n < L)
    (haddress : a.toUInt32 + i.toUInt32 <<< 2 = UInt32.ofNat (F + 16 + 4 * n))
    (hroom : rest.length < D) :
    ∃ k m', m.Goes k m' ∧ Stands image pos L F
      ({ s with stack := s.locals n :: rest }.goTo (s.place + 1)) m' := by
  obtain ⟨offset, ls, hdraft, hreaches⟩ := hm.lines hplaced hins
  obtain rfl := draft_iaload hop hdraft
  obtain ⟨c, hrun, hc⟩ :=
    elementLines_run hm.holds hF hhigh image.labels hstack hn haddress hroom
  obtain ⟨k, hgoes⟩ := hreaches.through hm.ready himage
    (List.forall_mem_cons.2 ⟨trivial, by decide⟩) hrun
  exact ⟨k, _, hgoes, hm.of_resume (hc.goTo _)⟩

end Following

/-! ### A program that reads a fixed address -/

/-- Puts a number into its first slot and returns what it then reads at a fixed address; behind the
return there is code that nothing goes to, with a deeper stack. -/
def peek : List Instruction :=
  [⟨.iconst, [5], []⟩, ⟨.store, [0], []⟩, ⟨.iconst, [0x7fffefb0], []⟩, ⟨.iconst, [0], []⟩,
    ⟨.iaload, [], []⟩, ⟨.ret, [], []⟩, ⟨.iconst, [1], []⟩, ⟨.iconst, [1], []⟩, ⟨.iconst, [1], []⟩]

theorem functions_peek : ∃ fs, Functions.ofList peek true = .ok fs ∧ fs.entry = 0 ∧
    (∀ offset, fs.inEntry offset = true) ∧ fs.startsAt fs.entry = true := by
  obtain ⟨fs, hfs, hzero, hentry, -⟩ := functions_of_unmarked
    (show ∀ ins ∈ peek, ins.op ≠ .invoke ∧ ins.op.isMarker = false by decide)
  exact ⟨fs, hfs, hzero, hentry, hzero ▸ Functions.startsAt_of_any (n := 0) hfs rfl⟩

/-- **The status of `peek` tells the size of its frame.** -/
theorem peek_halts {depth : Int64} {out : Mips.Output} {image : Image} {elide : Bool} {D n : Nat}
    (hlower : Mips.lower ⟨peek, depth⟩ {} = .ok out)
    (himage : Assembly.assemble elide (out.lines.map Line.render) = .ok image)
    (hsize : image.words.size < 2 ^ 26)
    (hf : (Frame.ofProgram ⟨peek, depth⟩ {}).Shape 16 D (88 + 4 * n)) (hn : n < 16) (hD : 2 ≤ D) :
    Machine.Halts image.words (if n = 0 then 5 else 0) [] := by
  have haddressable : image.Addressable := ⟨hsize, Assembly.label_address himage⟩
  obtain ⟨fs, hfs, pos, hprologue, hlines, hending⟩ :=
    Mips.ordinary_lines hlower himage (by simp [peek, Mips.Ordinary, Op.isMarker])
  obtain ⟨fs', hfs', hzero, hentry, hstarts⟩ := functions_peek
  obtain rfl := Except.ok.inj (hfs'.symm.trans hfs)
  have hplaced : Placed elide image ⟨Frame.ofProgram ⟨peek, depth⟩ {}, fs'⟩ peek pos :=
    ⟨hlines, hending⟩
  have hlabel : image.labels[(Mips.entryLabel fs').render]? = some (addressOf (pos 0)) := by
    rw [Mips.entryLabel, if_pos hstarts, hzero]
    exact hplaced.label rfl
  have hfits := hf.fits
  have hsmall := hf.small
  have haligned := hf.aligned
  have htop : (0x7fffeff8 : UInt32).toNat = 2147479544 - (88 + 4 * n) + (88 + 4 * n) := by
    show 2147479544 = _
    omega
  obtain ⟨n₀, m₀, hgoes₀, hm₀⟩ :=
    stands_start haddressable hf hprologue hlabel htop (by omega) (by omega)
  have hF : (2147479544 - (88 + 4 * n)) % 4 = 0 := by omega
  have hhigh : 2147479544 - (88 + 4 * n) + 16 + 4 * 16 + 4 * D ≤ 2 ^ 32 := by omega
  -- the number is put into the first slot, and the address of an array onto the stack
  obtain ⟨n₁, m₁, hgoes₁, hm₁⟩ := hm₀.next hplaced haddressable hf hF hhigh rfl
    (.act (.iconst rfl)) (show 1 ≤ D by omega)
  obtain ⟨n₂, m₂, hgoes₂, hm₂⟩ := hm₁.next hplaced haddressable hf hF hhigh rfl
    (.act (.store rfl rfl)) (Nat.zero_le D)
  obtain ⟨n₃, m₃, hgoes₃, hm₃⟩ := hm₂.next hplaced haddressable hf hF hhigh rfl
    (.act (.iconst rfl)) (show 1 ≤ D by omega)
  obtain ⟨n₄, m₄, hgoes₄, hm₄⟩ := hm₃.next hplaced haddressable hf hF hhigh rfl
    (.act (.iconst rfl)) (show 2 ≤ D by omega)
  -- what stands at that address is slot `n`
  have haddress : (0x7fffefb0 : Int32).toUInt32 + (0 : Int32).toUInt32 <<< 2 =
      UInt32.ofNat (2147479544 - (88 + 4 * n) + 16 + 4 * n) := by
    rw [show 2147479544 - (88 + 4 * n) + 16 + 4 * n = 2147479472 by omega]
    decide
  obtain ⟨n₅, m₅, hgoes₅, hm₅⟩ := hm₄.element hplaced haddressable hF hhigh rfl rfl rfl hn haddress
    (show 0 < D by omega)
  obtain ⟨n₆, m₆, hgoes₆, hhalted, hstatus, houtput⟩ := hm₅.exit hplaced haddressable hF
    (show 1 < 2 ^ 30 by decide) hentry (Or.inr ⟨_, rfl, rfl⟩)
  have hgoes := hgoes₀.trans (hgoes₁.trans (hgoes₂.trans (hgoes₃.trans (hgoes₄.trans
    (hgoes₅.trans hgoes₆)))))
  have htop' : m₆.exitCode = if n = 0 then 5 else 0 := hstatus.trans (State.setLocal_locals _ 0 5 n)
  rw [← htop', ← show m₆.output.toList = [] from houtput]
  exact Machine.Halts.of_goes hgoes hhalted

end StackCompiler.PlainMachine
