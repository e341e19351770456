/-
**Lines one behind the other.**

The lines of an instruction are mostly run one behind the other, and the only other thing they do is
to skip a few of them.  Here is what each kind of line does to the registers and to memory when it
is met, with addresses as natural numbers, and what it is to skip lines.

* `Listing.goes_skip` — **lines between a branch and its label** are run or left out.
-/

import StackCompiler.Proofs.LineExecution

namespace StackCompiler.Listing

open Assembly (Image Labels Laid addressOf)
open Machine (Ready Goes)

/-! ### Registers -/

namespace Core

theorem get_set_same (c : Core) {r : Register} (v : UInt32) (h : r ≠ 0 ∧ r < 32) :
    (c.set r v).get r = v := by
  rw [get_set, if_pos ⟨rfl, h⟩]

theorem get_set_other (c : Core) {r r' : Register} (v : UInt32) (h : r' ≠ r) :
    (c.set r v).get r' = c.get r' := by
  rw [get_set, if_neg fun hr => h hr.1]

end Core

/-! ### Single lines -/

section Lines

variable {labels : Labels} {ls : List Line} {c : Core}

theorem straight_two {xs ys : List Line} {c₁ c₂ : Core} (hx : straight labels xs c = some c₁)
    (hy : straight labels ys c₁ = some c₂) : straight labels (xs ++ ys) c = some c₂ := by
  rw [straight_append, hx]
  exact hy

theorem straight_add (t s : Register) (n : Int) :
    straight labels (.immediate .addiu t s n :: ls) c =
      straight labels ls (c.set t (c.get s + UInt32.ofInt n)) := rfl

variable {x y : Nat}

theorem straight_displace {t s : Register} {n : Int} (hs : c.get s = UInt32.ofNat x)
    (hy : (x : Int) + n = y) : straight labels (.immediate .addiu t s n :: ls) c =
      straight labels ls (c.set t (UInt32.ofNat y)) := by
  rw [straight_add, hs, Word.ofNat_add_ofInt hy]

theorem straight_sum {d s t : Register} (hs : c.get s = UInt32.ofNat x)
    (ht : c.get t = UInt32.ofNat y) : straight labels (.registers3 .addu d s t :: ls) c =
      straight labels ls (c.set d (UInt32.ofNat (x + y))) := by
  rw [UInt32.ofNat_add, ← hs, ← ht]
  rfl

theorem straight_move (d s : Register) :
    straight labels (.move d s :: ls) c = straight labels ls (c.set d (c.get s)) := rfl

theorem straight_loadNumber (d : Register) (n : Int) :
    straight labels (.loadNumber d n :: ls) c = straight labels ls (c.set d (UInt32.ofInt n)) := rfl

theorem straight_loadLabel {d : Register} {l : Label} {a : UInt32}
    (hl : labels[l.render]? = some a) :
    straight labels (.code .la [.register d, .label l] :: ls) c =
      straight labels ls (c.set d a) := by
  simp only [straight, Line.run, runCode, runLoad, hl, Option.map_some]

theorem straight_load {t b : Register} {n : Int} (hb : c.get b = UInt32.ofNat x)
    (hy : (x : Int) + n = y) (h4 : y % 4 = 0) : straight labels (.access .lw t n b :: ls) c =
      straight labels ls (c.set t (c.memory.loadWord (UInt32.ofNat y))) := by
  simp only [Line.access, straight, Line.run, runCode, runOperation, access?, hb,
    Word.ofNat_add_ofInt hy, if_pos (Word.ofNat_aligned h4), Option.map_some]

theorem straight_store {t b : Register} {n : Int} (hb : c.get b = UInt32.ofNat x)
    (hy : (x : Int) + n = y) (h4 : y % 4 = 0) : straight labels (.access .sw t n b :: ls) c =
      straight labels ls (c.store (UInt32.ofNat y) (c.get t)) := by
  simp only [Line.access, straight, Line.run, runCode, runOperation, access?, hb,
    Word.ofNat_add_ofInt hy, if_pos (Word.ofNat_aligned h4), Option.map_some]

end Lines

/-! ### Skipping lines -/

variable {elide : Bool} {image : Image} {k j : Nat} {m : Machine}

theorem goes_resume {c c' : Core} {a a' : UInt32} {n n' : Nat} (h : m.Goes n (m.resume c a n))
    (h' : (m.resume c a n).Goes n' ((m.resume c a n).resume c' a' n')) :
    m.Goes (n + n') (m.resume c' a' (n + n')) := by
  have := h.trans h'
  rwa [Machine.resume_resume] at this

/-- A jump is only accepted if its label is known. -/
theorem goes_to {l : Label} {rest : List Text} (hm : Ready image.words k m)
    (himage : image.Addressable) (hl : l.isMade)
    (hlaid : Laid elide image k ((Line.jump l).render :: rest) j) :
    ∃ a, image.labels[l.render]? = some a ∧ Laid elide image (k + 1) rest j ∧
      m.Goes 1 (m.resume m.core a 1) := by
  obtain ⟨ws, hcode, hrest⟩ := laid_code hlaid (List.forall_mem_singleton.2 hl)
  obtain ⟨a, ha, hlen, hdoes⟩ := does_jump hm himage hcode
  rw [hlen] at hrest
  rw [Does, hlen] at hdoes
  exact ⟨a, ha, hrest, hdoes⟩

/-- **Lines between a branch and its label** are run if the register is not zero, and left out if it
is. -/
theorem goes_skip {r : Register} {l : Label} {body rest : List Line} {c : Core}
    (hm : Ready image.words k m) (himage : image.Addressable) (hzero : m.core.get 0 = 0)
    (hr : r < 32) (hl : l.isMade) (hp : ∀ line ∈ body, line.Plain)
    (hlaid : Laid elide image k
      ((.branch .beq r 0 l :: (body ++ .label l :: rest) : List Line).map Line.render) j)
    (hrun : (if m.core.get r = 0 then some m.core else straight image.labels body m.core) =
      some c) :
    c.get 0 = 0 ∧ ∃ n k', Laid elide image k' (rest.map Line.render) j ∧
      m.Goes n (m.resume c (addressOf k') n) := by
  have hplain : (Line.branch .beq r 0 l).Plain := by
    intro o ho
    simp only [List.mem_cons, List.not_mem_nil, or_false] at ho
    rcases ho with rfl | rfl | rfl
    · exact hr
    · exact show (0 : Register) < 32 by decide
    · exact hl
  rw [List.map_cons] at hlaid
  have hbranch : (Line.branch .beq r 0 l).run image.labels m.core =
      if m.core.get r = 0 then image.labels[l.render]?.map fun a => (m.core, .to a)
      else some (m.core, .on) := by
    simp only [Line.branch, Line.run, runCode, runOperation, taken?, hzero]
    by_cases h : m.core.get r = 0
    · simp [h]
    · simp [h, beq_eq_false_iff_ne.2 h]
  by_cases h : m.core.get r = 0
  · rw [if_pos h] at hrun hbranch
    obtain rfl := Option.some.inj hrun
    -- where the label is, from the place that the lines have behind the branch
    obtain ⟨i, hi⟩ : ∃ i, Laid elide image i
        ((Line.label l).render :: rest.map Line.render) j := by
      obtain ⟨ws, -, hlaid⟩ := laid_code hlaid hplain
      rw [List.map_append, Assembly.laid_append] at hlaid
      obtain ⟨i, -, hi⟩ := hlaid
      exact ⟨i, hi⟩
    obtain ⟨haddress, hrest⟩ := laid_label hl hi
    rw [haddress] at hbranch
    obtain ⟨n, -, hgoes⟩ := goes_line hm himage hzero hplain hlaid hbranch
    exact ⟨hzero, n, i, hrest, hgoes⟩
  · rw [if_neg h] at hrun hbranch
    obtain ⟨n, hrest, hgoes⟩ := goes_line hm himage hzero hplain hlaid hbranch
    rw [List.map_append] at hrest
    obtain ⟨hzero', n', hrest', hgoes'⟩ :=
      goes_straight (Machine.resume_ready hm m.core (k + n) n) himage hzero hp hrest hrun
    exact ⟨hzero', n + n', k + n + n', (laid_label hl hrest').2, goes_resume hgoes hgoes'⟩

/-! ### Getting to lines -/

/-- From a state the machine gets to lines that end before word `j`, with the given registers and
memory. -/
def Reaches (elide : Bool) (image : Image) (m : Machine) (c : Core) (lines : List Line) (j : Nat) :
    Prop :=
  c.get 0 = 0 ∧ ∃ n k, Laid elide image k (lines.map Line.render) j ∧
    m.Goes n (m.resume c (addressOf k) n)

namespace Reaches

variable {c c' : Core}

theorem start {lines : List Line} (hm : Ready image.words k m) (hzero : m.core.get 0 = 0)
    (hlaid : Laid elide image k (lines.map Line.render) j) : Reaches elide image m m.core lines j :=
  ⟨hzero, 0, k, hlaid, by rw [resume_self hm]; exact Goes.refl m⟩

theorem straight (lines : List Line) {rest : List Line} (hm : Ready image.words k m)
    (himage : image.Addressable) (h : Reaches elide image m c (lines ++ rest) j)
    (hp : ∀ l ∈ lines, l.Plain) (hrun : Listing.straight image.labels lines c = some c') :
    Reaches elide image m c' rest j := by
  obtain ⟨hzero, n, i, hlaid, hgoes⟩ := h
  rw [List.map_append] at hlaid
  obtain ⟨hzero', n', hrest, hgoes'⟩ :=
    goes_straight (Machine.resume_ready hm c i n) himage hzero hp hlaid hrun
  exact ⟨hzero', n + n', i + n', hrest, goes_resume hgoes hgoes'⟩

section

variable (hm : Ready image.words k m) (himage : image.Addressable)

include hm himage

theorem skip {r : Register} {l : Label} {body rest : List Line}
    (h : Reaches elide image m c (.branch .beq r 0 l :: (body ++ .label l :: rest)) j)
    (hr : r < 32) (hl : l.isMade) (hp : ∀ line ∈ body, line.Plain)
    (hrun : (if c.get r = 0 then some c else Listing.straight image.labels body c) = some c') :
    Reaches elide image m c' rest j := by
  obtain ⟨hzero, n, i, hlaid, hgoes⟩ := h
  obtain ⟨hzero', n', i', hrest, hgoes'⟩ :=
    goes_skip (Machine.resume_ready hm c i n) himage hzero hr hl hp hlaid hrun
  exact ⟨hzero', n + n', i', hrest, goes_resume hgoes hgoes'⟩

theorem through {lines : List Line} (h : Reaches elide image m c lines j)
    (hp : ∀ l ∈ lines, l.Plain) (hrun : Listing.straight image.labels lines c = some c') :
    ∃ n, m.Goes n (m.resume c' (addressOf j) n) := by
  obtain ⟨-, n, i, hlaid, hgoes⟩ :=
    Reaches.straight lines hm himage (by rwa [List.append_nil]) hp hrun
  obtain rfl : i = j := hlaid
  exact ⟨n, hgoes⟩

/-- The machine leaves the lines at a jump. -/
theorem leave {line : Line} {rest : List Line} {a : UInt32}
    (h : Reaches elide image m c (line :: rest) j) (hp : line.Plain)
    (hrun : line.run image.labels c = some (c', .to a)) :
    c'.get 0 = 0 ∧ ∃ n, m.Goes n (m.resume c' a n) := by
  obtain ⟨hzero, n, i, hlaid, hgoes⟩ := h
  obtain ⟨n', -, hgoes'⟩ := goes_line (Machine.resume_ready hm c i n) himage hzero hp hlaid hrun
  exact ⟨(Line.run_zero hrun).trans hzero, n + n', goes_resume hgoes hgoes'⟩

theorem stop {line : Line} {rest : List Line} {status : Int32}
    (h : Reaches elide image m c (line :: rest) j) (hp : line.Plain)
    (hrun : line.run image.labels c = some (c', .stop status)) :
    ∃ n a, m.Goes n ((m.resume c' a n).exit status) := by
  obtain ⟨hzero, n, i, hlaid, hgoes⟩ := h
  obtain ⟨n', -, hgoes'⟩ := goes_line (Machine.resume_ready hm c i n) himage hzero hp hlaid hrun
  refine ⟨n + n', addressOf (i + n'), ?_⟩
  have := hgoes.trans hgoes'
  rwa [Machine.follow, Machine.resume_resume] at this

end

end Reaches

end StackCompiler.Listing
