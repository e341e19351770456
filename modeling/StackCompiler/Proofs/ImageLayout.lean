/-
**Where the words of a line stand.**

The first pass gives every label an address and every instruction a number of words; the second
pass encodes.  A label that is defined twice is an error, so an address that was given once is never
changed.  If both passes succeed they agree: the words of every line stand one behind the other,
encoded with the addresses that the labels finally have, and a label has the address of the word
behind it.

* `Assembly.assemble_laid` — **the lines of an assembled program are laid out one behind the
  other**.
-/

import Mathlib.Algebra.GroupWithZero.Nat
import StackCompiler.Assembly.Image
import StackCompiler.Proofs.Outcomes

namespace StackCompiler.Assembly

/-! ### Addresses -/

/-- The address of the word behind `k` others. -/
def addressOf (k : Nat) : UInt32 := k.toUInt32 * 4

theorem addressOf_add (k n : Nat) : addressOf (k + n) = addressOf k + n.toUInt32 * 4 := by
  simp [addressOf, UInt32.add_mul]

variable {k : Nat} {elide : Bool} {image : Image} {lines : List Text} {ss : List Statement}

theorem addressOf_toNat (h : k < 2 ^ 30) : (addressOf k).toNat = 4 * k := by
  rw [addressOf, UInt32.toNat_mul, Nat.toUInt32_eq,
    UInt32.toNat_ofNat_of_lt' (Nat.lt_trans h (by decide))]
  show k * 4 % 2 ^ 32 = 4 * k
  omega

/-! ### Operands -/

section Operands

variable {form : String} {operands : List Text}

theorem one_ok {a : Text} (h : Operand.one form operands = .ok a) : operands = [a] := by
  unfold Operand.one at h
  split at h
  · rw [Except.ok.inj h]
  · cases h

theorem two_ok {a b : Text} (h : Operand.two form operands = .ok (a, b)) : operands = [a, b] := by
  unfold Operand.two at h
  split at h
  · cases h
    rfl
  · cases h

theorem three_ok {a b c : Text} (h : Operand.three form operands = .ok (a, b, c)) :
    operands = [a, b, c] := by
  unfold Operand.three at h
  split at h
  · cases h
    rfl
  · cases h

end Operands

/-! ### The first pass -/

/-- Every label of the first table has the same address in the second. -/
def Labels.Within (l l' : Labels) : Prop :=
  ∀ (name : Text) (a : UInt32), l[name]? = some a → l'[name]? = some a

theorem Labels.Within.trans {l₁ l₂ l₃ : Labels} (h₁ : l₁.Within l₂) (h₂ : l₂.Within l₃) :
    l₁.Within l₃ :=
  fun name a h => h₂ name a (h₁ name a h)

namespace Plan

/-- What a step of the first pass does to labels: the given names get the current address, and
nothing else is new. -/
structure Defined (p q : Plan) (names : List Text) : Prop where
  within : p.labels.Within q.labels
  new : ∀ name ∈ names, q.labels[name]? = some p.address
  only : ∀ (name : Text) (a : UInt32), q.labels[name]? = some a →
    p.labels[name]? = some a ∨ name ∈ names ∧ a = p.address

variable {p q : Plan}

theorem Defined.other {names : List Text} (h : Defined p q names) {name : Text}
    (hname : name ∉ names) : q.labels[name]? = p.labels[name]? := by
  cases hp : p.labels[name]? with
  | some a => exact h.within name a hp
  | none =>
      rw [Option.eq_none_iff_forall_ne_some]
      intro a ha
      rcases h.only name a ha with ha | ⟨hmem, -⟩
      · rw [hp] at ha
        cases ha
      · exact hname hmem

theorem define_ok {name : Text} (h : p.define name = .ok q) :
    q.address = p.address ∧ q.sized = p.sized ∧ Defined p q [name] := by
  unfold define at h
  split at h
  · cases h
  · next hnew =>
    have hnone : p.labels[name]? = none :=
      Std.HashMap.getElem?_eq_none (by simpa using hnew)
    obtain rfl := Except.ok.inj h
    refine ⟨rfl, rfl, ⟨?_, ?_, ?_⟩⟩
    · intro other a ha
      rw [Std.HashMap.getElem?_insert]
      by_cases heq : name = other
      · rw [← heq, hnone] at ha
        cases ha
      · simpa [heq] using ha
    · intro other hother
      rw [List.mem_singleton.1 hother]
      simp
    · intro other a ha
      rw [Std.HashMap.getElem?_insert] at ha
      by_cases heq : name = other
      · simp only [heq, beq_self_eq_true, if_true] at ha
        exact Or.inr ⟨List.mem_singleton.2 heq.symm, (Option.some.inj ha).symm⟩
      · simp only [beq_iff_eq, heq, if_false] at ha
        exact Or.inl ha

theorem define_all_ok {names : List Text} (h : names.foldlM define p = .ok q) :
    q.address = p.address ∧ q.sized = p.sized ∧ Defined p q names := by
  induction names generalizing p with
  | nil =>
      obtain rfl := foldlM_nil_ok_iff.1 h
      exact ⟨rfl, rfl, ⟨fun _ _ ha => ha, by simp, fun _ _ ha => Or.inl ha⟩⟩
  | cons name names ih =>
      obtain ⟨r, hr, hq⟩ := foldlM_cons_ok_iff.1 h
      obtain ⟨haddr, hsized, hdef⟩ := define_ok hr
      obtain ⟨haddr', hsized', hdef'⟩ := ih hq
      refine ⟨haddr'.trans haddr, hsized'.trans hsized, ⟨hdef.within.trans hdef'.within, ?_, ?_⟩⟩
      · intro other hother
        rcases List.mem_cons.1 hother with rfl | hother
        · exact hdef'.within _ _ (hdef.new other (List.mem_singleton.2 rfl))
        · rw [← haddr]
          exact hdef'.new other hother
      · intro other a ha
        rcases hdef'.only other a ha with ha | ⟨hmem, rfl⟩
        · exact (hdef.only other a ha).imp_right fun ⟨hmem, ha⟩ =>
            ⟨List.mem_cons.2 (Or.inl (List.mem_singleton.1 hmem)), ha⟩
        · exact Or.inr ⟨List.mem_cons_of_mem _ hmem, haddr⟩

/-- What is recorded for the instruction of a statement, with the labels known so far. -/
structure SizedAs (elide : Bool) (known : Labels) (s : Statement) (w : Written) (x : Sized) :
    Prop where
  line : x.line = s.line
  source : x.source = s.source
  mnemonic : Mnemonic.ofName? w.mnemonic = some x.mnemonic
  operands : x.operands = w.operands
  words : x.mnemonic.size elide known x.operands = .ok x.words

theorem place_ok {elide : Bool} {s : Statement} {w : Written} (h : p.place elide s w = .ok q) :
    ∃ x, SizedAs elide p.labels s w x ∧ q.labels = p.labels ∧
      q.address = p.address + x.words.toUInt32 * 4 ∧ q.sized = p.sized.push x := by
  unfold place at h
  split at h
  · cases h
  · next m hm =>
    obtain ⟨words, hwords, rfl⟩ := bind_pure_ok_iff.1 h
    exact ⟨⟨s.line, s.source, m, w.operands, words⟩, ⟨rfl, rfl, hm, rfl, hwords⟩, rfl, rfl, rfl⟩

/-- **One step of the first pass.** -/
theorem add_ok {elide : Bool} {s : Statement} (h : p.add elide s = .ok q) :
    Defined p q s.labels ∧
      ((s.instruction = none ∧ q.address = p.address ∧ q.sized = p.sized) ∨
        ∃ w x, s.instruction = some w ∧ SizedAs elide q.labels s w x ∧
          q.address = p.address + x.words.toUInt32 * 4 ∧ q.sized = p.sized.push x) := by
  obtain ⟨r, hr, h⟩ := bind_ok_iff.1 h
  obtain ⟨haddr, hsized, hdef⟩ := define_all_ok hr
  cases hins : s.instruction with
  | none =>
      rw [hins] at h
      obtain rfl := pure_ok_iff.1 h
      exact ⟨hdef, Or.inl ⟨rfl, haddr, hsized⟩⟩
  | some w =>
      rw [hins] at h
      obtain ⟨x, hx, hlabels, haddr', hsized'⟩ := place_ok h
      refine ⟨⟨?_, ?_, ?_⟩, Or.inr ⟨w, x, rfl, by rwa [hlabels], by rw [haddr', haddr],
        by rw [hsized', hsized]⟩⟩
      · rw [hlabels]; exact hdef.within
      · rw [hlabels]; exact hdef.new
      · rw [hlabels]; exact hdef.only

end Plan

/-! ### The second pass -/

/-- The number of words of lines. -/
def totalWords (xs : List Sized) : Nat := (xs.map Sized.words).sum

theorem totalWords_cons (x : Sized) (xs : List Sized) :
    totalWords (x :: xs) = x.words + totalWords xs := List.sum_cons

theorem totalWords_append (xs ys : List Sized) :
    totalWords (xs ++ ys) = totalWords xs + totalWords ys := by
  simp [totalWords]

namespace Image

/-- **One step of the second pass.** -/
theorem add_ok {i j : Image} {x : Sized} (h : i.add x = .ok j) :
    ∃ ws, x.mnemonic.encode i.labels (addressOf i.words.size) x.words x.operands = .ok ws ∧
      ws.length = x.words ∧ j = { i with
        words := i.words ++ ws, sources := i.sources.push (addressOf i.words.size, x.line) } := by
  obtain ⟨ws, hws, h⟩ := bind_ok_iff.1 h
  split at h
  · next hlen =>
    obtain rfl := pure_ok_iff.1 h
    exact ⟨ws, hws, hlen, rfl⟩
  · cases h

theorem size_appendList (words : Array UInt32) (ws : List UInt32) :
    (words ++ ws).size = words.size + ws.length := by
  rw [← Array.length_toList, Array.toList_appendList, List.length_append, Array.length_toList]

/-- The second pass keeps the labels and writes as many words as were counted. -/
theorem addAll_ok {xs : List Sized} {i j : Image} (h : xs.foldlM add i = .ok j) :
    j.labels = i.labels ∧ j.words.size = i.words.size + totalWords xs := by
  induction xs generalizing i with
  | nil =>
      obtain rfl := foldlM_nil_ok_iff.1 h
      exact ⟨rfl, rfl⟩
  | cons x xs ih =>
      obtain ⟨r, hr, hj⟩ := foldlM_cons_ok_iff.1 h
      obtain ⟨ws, -, hlen, rfl⟩ := add_ok hr
      obtain ⟨hlabels, hsize⟩ := ih hj
      refine ⟨hlabels, ?_⟩
      rw [hsize, totalWords_cons, ← Nat.add_assoc, ← hlen, ← size_appendList]

/-- Words stand in an image behind `k` others. -/
def Holds (image : Image) (k : Nat) (ws : List UInt32) : Prop :=
  ∃ before behind, image.words.toList = before ++ ws ++ behind ∧ before.length = k

theorem Holds.getElem? {image : Image} {k : Nat} {ws : List UInt32} (h : image.Holds k ws)
    {i : Nat} {w : UInt32} (hw : ws[i]? = some w) : image.words[k + i]? = some w := by
  obtain ⟨before, behind, hsplit, rfl⟩ := h
  obtain ⟨hlt, -⟩ := List.getElem?_eq_some_iff.1 hw
  rw [← Array.getElem?_toList, hsplit, List.append_assoc,
    List.getElem?_append_right (Nat.le_add_right _ _), Nat.add_sub_cancel_left,
    List.getElem?_append_left hlt, hw]

theorem Holds.le_size {image : Image} {k : Nat} {ws : List UInt32} (h : image.Holds k ws) :
    k + ws.length ≤ image.words.size := by
  obtain ⟨before, behind, hsplit, rfl⟩ := h
  rw [← Array.length_toList, hsplit, List.length_append, List.length_append]
  omega

end Image

/-! ### Both passes -/

/-- A statement whose words stand from word `k` on and end before word `j`.  Its labels have the
address of word `k`, and its instruction is encoded there with the labels of the image. -/
structure Statement.PlacedAt (elide : Bool) (image : Image) (s : Statement) (k j : Nat) :
    Prop where
  labels : ∀ name ∈ s.labels, image.labels[name]? = some (addressOf k)
  silent : s.instruction = none → j = k
  encoded : ∀ w, s.instruction = some w → ∃ m ws, Mnemonic.ofName? w.mnemonic = some m ∧
    (∃ known, m.size elide known w.operands = .ok ws.length) ∧
    m.encode image.labels (addressOf k) ws.length w.operands = .ok ws ∧
    image.Holds k ws ∧ j = k + ws.length

/-- Lines whose words stand from word `k` on and end before word `j`. -/
def Laid (elide : Bool) (image : Image) : Nat → List Text → Nat → Prop
  | k, [], j => k = j
  | k, line :: lines, j => ∃ n s i, Statement.parse n line = .ok s ∧
      s.PlacedAt elide image k i ∧ Laid elide image i lines j

theorem laid_append {xs ys : List Text} {j : Nat} :
    Laid elide image k (xs ++ ys) j ↔ ∃ i, Laid elide image k xs i ∧ Laid elide image i ys j := by
  induction xs generalizing k with
  | nil => simp [Laid]
  | cons x xs ih =>
      simp only [List.cons_append, Laid, ih]
      constructor
      · rintro ⟨n, s, i, hs, hp, i', hx, hy⟩
        exact ⟨i', ⟨n, s, i, hs, hp, hx⟩, hy⟩
      · rintro ⟨i', ⟨n, s, i, hs, hp, hx⟩, hy⟩
        exact ⟨n, s, i, hs, hp, i', hx, hy⟩

theorem Statement.PlacedAt.le {s : Statement} {j : Nat} (h : s.PlacedAt elide image k j) :
    k ≤ j := by
  cases hs : s.instruction with
  | none => exact Nat.le_of_eq (h.silent hs).symm
  | some w =>
      obtain ⟨-, ws, -, -, -, -, rfl⟩ := h.encoded w hs
      exact Nat.le_add_right k ws.length

theorem laid_le {j : Nat} (h : Laid elide image k lines j) : k ≤ j := by
  induction lines generalizing k with
  | nil => exact Nat.le_of_eq h
  | cons line lines ih =>
      obtain ⟨-, s, i, -, hplaced, hrest⟩ := h
      exact Nat.le_trans hplaced.le (ih hrest)

/-- Statements whose words stand from word `k` on and end before word `j`. -/
def StatementsLaid (elide : Bool) (image : Image) : Nat → List Statement → Nat → Prop
  | k, [], j => k = j
  | k, s :: ss, j => ∃ i, s.PlacedAt elide image k i ∧ StatementsLaid elide image i ss j

/-- Every label has the address of one of the words up to word `k`, which need not exist. -/
def Labels.UpTo (l : Labels) (k : Nat) : Prop :=
  ∀ (name : Text) (a : UInt32), l[name]? = some a → ∃ i ≤ k, a = addressOf i

/-- What holds of a plan at any time: the next word stands behind all that were counted, and labels
stand somewhere among them. -/
structure Plan.Sound (p : Plan) : Prop where
  address : p.address = addressOf (totalWords p.sized.toList)
  upTo : p.labels.UpTo (totalWords p.sized.toList)

theorem Plan.sound_empty : Sound {} := by
  refine ⟨rfl, ?_⟩
  intro name a ha
  simp at ha

variable {p q : Plan}

theorem Plan.Sound.add {s : Statement} (hp : Sound p) (h : p.add elide s = .ok q) :
    Sound q := by
  obtain ⟨hdef, hstep⟩ := add_ok h
  have hup : q.labels.UpTo (totalWords p.sized.toList) := by
    intro name a ha
    rcases hdef.only name a ha with ha | ⟨-, rfl⟩
    · exact hp.upTo name a ha
    · exact ⟨_, Nat.le_refl _, hp.address⟩
  rcases hstep with ⟨-, haddr, hsized⟩ | ⟨w, y, -, -, haddr, hsized⟩
  · constructor
    · rw [haddr, hsized]
      exact hp.address
    · rw [hsized]
      exact hup
  · have htotal : totalWords q.sized.toList = totalWords p.sized.toList + y.words := by
      rw [hsized, Array.toList_push, totalWords_append]
      rfl
    constructor
    · rw [haddr, hp.address, htotal, addressOf_add]
    · intro name a ha
      obtain ⟨i, hi, ha⟩ := hup name a ha
      exact ⟨i, by omega, ha⟩

theorem Plan.Sound.addAll (hp : Sound p) (h : ss.foldlM (Plan.add elide) p = .ok q) :
    Sound q :=
  foldlM_keeps Sound.add hp h

theorem layOut_sound {q : Plan} (h : layOut elide ss = .ok q) : Plan.Sound q :=
  Plan.sound_empty.addAll (foldlM_mapError_ok_iff.1 h)

/-- Statements whose words are to stand from word `k` on, and what the first pass has recorded for
them, sized with labels that keep their addresses. -/
inductive Planned (elide : Bool) (labels : Labels) : Nat → List Statement → List Sized → Prop where
  | nil (k : Nat) : Planned elide labels k [] []
  | silent {k : Nat} {s : Statement} {ss : List Statement} {xs : List Sized}
      (hnone : s.instruction = none)
      (hlabels : ∀ name ∈ s.labels, labels[name]? = some (addressOf k))
      (hrest : Planned elide labels k ss xs) : Planned elide labels k (s :: ss) xs
  | words {k : Nat} {s : Statement} {ss : List Statement} {x : Sized} {xs : List Sized}
      {w : Written} {known : Labels} (hsome : s.instruction = some w)
      (hlabels : ∀ name ∈ s.labels, labels[name]? = some (addressOf k))
      (hx : Plan.SizedAs elide known s w x) (hknown : known.Within labels)
      (hrest : Planned elide labels (k + x.words) ss xs) :
      Planned elide labels k (s :: ss) (x :: xs)

/-- **What the first pass has done.** -/
theorem planned_of_addAll (h : ss.foldlM (Plan.add elide) p = .ok q)
    (hk : p.address = addressOf k) :
    p.labels.Within q.labels ∧ ∃ later, q.sized.toList = p.sized.toList ++ later ∧
      Planned elide q.labels k ss later := by
  induction ss generalizing p k with
  | nil =>
      obtain rfl := foldlM_nil_ok_iff.1 h
      exact ⟨fun _ _ ha => ha, [], by simp, .nil k⟩
  | cons s ss ih =>
      obtain ⟨r, hr, hq⟩ := foldlM_cons_ok_iff.1 h
      obtain ⟨hdef, hstep⟩ := Plan.add_ok hr
      have hlabels : r.labels.Within q.labels →
          ∀ name ∈ s.labels, q.labels[name]? = some (addressOf k) := by
        intro hwithin name hname
        rw [← hk]
        exact hwithin _ _ (hdef.new name hname)
      rcases hstep with ⟨hnone, haddr, hsized⟩ | ⟨w, x, hsome, hx, haddr, hsized⟩
      · obtain ⟨hwithin, later, hlater, hplanned⟩ := ih hq (haddr.trans hk)
        exact ⟨hdef.within.trans hwithin, later, by rw [hlater, hsized],
          .silent hnone (hlabels hwithin) hplanned⟩
      · have haddr' : r.address = addressOf (k + x.words) := by
          rw [haddr, hk, addressOf_add]
        obtain ⟨hwithin, later, hlater, hplanned⟩ := ih hq haddr'
        exact ⟨hdef.within.trans hwithin, x :: later, by rw [hlater, hsized]; simp,
          .words hsome (hlabels hwithin) hx hwithin hplanned⟩

theorem layOut_planned {q : Plan} (h : layOut elide ss = .ok q) :
    Planned elide q.labels 0 ss q.sized.toList := by
  have hk : ({} : Plan).address = addressOf 0 := rfl
  obtain ⟨-, later, hlater, hplanned⟩ := planned_of_addAll (foldlM_mapError_ok_iff.1 h) hk
  obtain rfl : q.sized.toList = later := by simpa using hlater
  exact hplanned

namespace Planned

variable {elide : Bool} {labels : Labels} {k : Nat} {ss : List Statement} {xs : List Sized}

section

variable (h : Planned elide labels k ss xs)

include h

/-- Everything recorded was sized with labels that keep their addresses. -/
theorem sized {x : Sized} (hx : x ∈ xs) : ∃ known : Labels, known.Within labels ∧
      x.mnemonic.size elide known x.operands = .ok x.words := by
  induction h with
  | nil => cases hx
  | silent _ _ _ ih => exact ih hx
  | words _ _ hsized hknown _ ih =>
      rcases List.mem_cons.1 hx with rfl | hx
      · exact ⟨_, hknown, hsized.words⟩
      · exact ih hx

/-- Everything recorded was recorded for one of the statements. -/
theorem line_of_mem {x : Sized} (hx : x ∈ xs) : ∃ s ∈ ss, x.line = s.line := by
  induction h with
  | nil => cases hx
  | silent _ _ _ ih =>
      obtain ⟨s, hs, hline⟩ := ih hx
      exact ⟨s, List.mem_cons_of_mem _ hs, hline⟩
  | words _ _ hsized _ _ ih =>
      rcases List.mem_cons.1 hx with rfl | hx
      · exact ⟨_, List.mem_cons_self, hsized.line⟩
      · obtain ⟨s, hs, hline⟩ := ih hx
        exact ⟨s, List.mem_cons_of_mem _ hs, hline⟩

theorem length_le : xs.length ≤ ss.length := by
  induction h with
  | nil => exact Nat.le_refl 0
  | silent _ _ _ ih => exact Nat.le_succ_of_le ih
  | words _ _ _ _ _ ih => exact Nat.succ_le_succ ih

/-- A label stands behind the words of the statements before its own. -/
theorem label {i : Nat} {s : Statement} (hs : ss[i]? = some s)
    {name : Text} (hname : name ∈ s.labels) :
    ∃ ys zs, xs = ys ++ zs ∧ labels[name]? = some (addressOf (k + totalWords ys)) ∧
      ys.length ≤ i ∧ zs.length ≤ ss.length - i := by
  induction h generalizing i with
  | nil => cases hs
  | @silent k _ ss xs hnone hlabels hrest ih =>
      cases i with
      | zero =>
          obtain rfl := Option.some.inj hs
          exact ⟨[], xs, rfl, hlabels name hname, Nat.le_refl 0, Nat.le_succ_of_le hrest.length_le⟩
      | succ i =>
          obtain ⟨ys, zs, hsplit, ha, hys, hzs⟩ := ih hs
          exact ⟨ys, zs, hsplit, ha, Nat.le_succ_of_le hys, by simpa using hzs⟩
  | @words k _ ss x xs _ _ hsome hlabels hx hknown hrest ih =>
      cases i with
      | zero =>
          obtain rfl := Option.some.inj hs
          exact ⟨[], x :: xs, rfl, hlabels name hname, Nat.le_refl 0,
            Nat.succ_le_succ hrest.length_le⟩
      | succ i =>
          obtain ⟨ys, zs, rfl, ha, hys, hzs⟩ := ih hs
          refine ⟨x :: ys, zs, rfl, ?_, Nat.succ_le_succ hys, by simpa using hzs⟩
          rw [totalWords_cons, ← Nat.add_assoc]
          exact ha

/-- What was recorded was recorded for a statement, behind what was recorded before. -/
theorem at_record {ys zs : List Sized} {x : Sized} (hsplit : xs = ys ++ x :: zs) :
    ∃ before s after w, ∃ known : Labels, ss = before ++ s :: after ∧ s.instruction = some w ∧
      Plan.SizedAs elide known s w x ∧ known.Within labels ∧ Planned elide labels k before ys ∧
      Planned elide labels (k + totalWords ys + x.words) after zs := by
  induction h generalizing ys with
  | nil => simp at hsplit
  | @silent _ s _ _ hnone hlabels _ ih =>
      obtain ⟨before, s', after, w, known, rfl, hsome, hx, hknown, hbefore, hafter⟩ := ih hsplit
      exact ⟨s :: before, s', after, w, known, rfl, hsome, hx, hknown,
        .silent hnone hlabels hbefore, hafter⟩
  | @words k s ss y xs w known hsome hlabels hy hknown hrest ih =>
      cases ys with
      | nil =>
          obtain ⟨rfl, rfl⟩ := List.cons.inj hsplit
          exact ⟨[], s, ss, w, known, rfl, hsome, hy, hknown, .nil k, hrest⟩
      | cons y' ys =>
          obtain ⟨rfl, hxs⟩ := List.cons.inj hsplit
          obtain ⟨before, s', after, w', known', rfl, hsome', hx, hknown', hbefore, hafter⟩ :=
            ih hxs
          refine ⟨s :: before, s', after, w', known', rfl, hsome', hx, hknown',
            .words hsome hlabels hy hknown hbefore, ?_⟩
          rw [totalWords_cons, ← Nat.add_assoc]
          exact hafter

end

end Planned

/-- Statements whose words stand from word `k` on, the records of the first pass for them, their
words statement by statement, and where in the listing the words come from. -/
inductive Emitted (elide : Bool) (labels : Labels) :
    Nat → List Statement → List Sized → List (List UInt32) → List (UInt32 × Nat) → Prop where
  | nil (k : Nat) : Emitted elide labels k [] [] [] []
  | silent {k : Nat} {s : Statement} {ss : List Statement} {xs : List Sized}
      {parts : List (List UInt32)} {sources : List (UInt32 × Nat)}
      (hnone : s.instruction = none)
      (hlabels : ∀ name ∈ s.labels, labels[name]? = some (addressOf k))
      (hrest : Emitted elide labels k ss xs parts sources) :
      Emitted elide labels k (s :: ss) xs ([] :: parts) sources
  | words {k : Nat} {s : Statement} {ss : List Statement} {x : Sized} {xs : List Sized}
      {ws : List UInt32} {parts : List (List UInt32)} {sources : List (UInt32 × Nat)}
      {w : Written} {known : Labels} (hsome : s.instruction = some w)
      (hlabels : ∀ name ∈ s.labels, labels[name]? = some (addressOf k))
      (hx : Plan.SizedAs elide known s w x) (hknown : known.Within labels)
      (hws : x.mnemonic.encode labels (addressOf k) x.words x.operands = .ok ws)
      (hlength : ws.length = x.words)
      (hrest : Emitted elide labels (k + ws.length) ss xs parts sources) :
      Emitted elide labels k (s :: ss) (x :: xs) (ws :: parts) ((addressOf k, s.line) :: sources)

variable {xs : List Sized}

/-- **Two passes that succeed**: what the first has recorded, the second has written, with the
labels where the first has put them. -/
theorem Planned.emitted {labels : Labels} (h : Planned elide labels k ss xs) {i : Image}
    (himage : xs.foldlM Image.add i = .ok image) (hlabels : i.labels = labels)
    (hk : i.words.size = k) :
    ∃ parts sources, Emitted elide labels k ss xs parts sources ∧
      image.words.toList = i.words.toList ++ parts.flatten ∧
      image.sources.toList = i.sources.toList ++ sources := by
  induction h generalizing i with
  | nil =>
      obtain rfl := foldlM_nil_ok_iff.1 himage
      exact ⟨[], [], .nil _, by simp, by simp⟩
  | silent hnone hplaced _ ih =>
      obtain ⟨parts, sources, hemitted, hwords, hsources⟩ := ih himage hlabels hk
      exact ⟨[] :: parts, sources, .silent hnone hplaced hemitted, hwords, hsources⟩
  | @words k s ss x xs w known hsome hplaced hx hknown hrest ih =>
      obtain ⟨j, hj, himage⟩ := foldlM_cons_ok_iff.1 himage
      obtain ⟨ws, hws, hlen, rfl⟩ := Image.add_ok hj
      have hsize : (i.words ++ ws).size = k + x.words := by
        rw [Image.size_appendList, hk, hlen]
      obtain ⟨parts, sources, hemitted, hwords, hsources⟩ := ih himage hlabels hsize
      rw [hlabels, hk] at hws
      rw [← hlen] at hemitted
      refine ⟨ws :: parts, (addressOf k, s.line) :: sources,
        .words hsome hplaced hx hknown hws hlen hemitted, ?_, ?_⟩
      · rw [hwords, Array.toList_appendList, List.flatten_cons, List.append_assoc]
      · rw [hsources, hk, ← hx.line]
        simp

theorem Emitted.length_flatten {labels : Labels} {parts : List (List UInt32)}
    {sources : List (UInt32 × Nat)} (h : Emitted elide labels k ss xs parts sources) :
    parts.flatten.length = totalWords xs := by
  induction h with
  | nil => rfl
  | silent _ _ _ ih => exact ih
  | words _ _ _ _ _ hlength _ ih =>
      rw [List.flatten_cons, List.length_append, ih, hlength]
      rfl

/-- Statements and their words agree wherever these stand in an image. -/
theorem Emitted.laid {parts : List (List UInt32)} {sources : List (UInt32 × Nat)}
    (h : Emitted elide image.labels k ss xs parts sources) {before : List UInt32}
    (hwords : image.words.toList = before ++ parts.flatten) (hk : before.length = k) :
    StatementsLaid elide image k ss image.words.size := by
  induction h generalizing before with
  | nil =>
      rw [← hk, ← Array.length_toList, hwords]
      simp [StatementsLaid]
  | @silent k _ _ _ _ _ hnone hlabels _ ih =>
      refine ⟨k, ⟨hlabels, fun _ => rfl, ?_⟩, ih hwords hk⟩
      intro w hw
      rw [hnone] at hw
      cases hw
  | @words k s _ x _ ws parts _ w known hsome hlabels hx _ hws hlength _ ih =>
      rw [List.flatten_cons, ← List.append_assoc] at hwords
      refine ⟨k + ws.length, ⟨hlabels, ?_, ?_⟩, ih hwords (by rw [List.length_append, hk])⟩
      · intro hnone
        rw [hsome] at hnone
        cases hnone
      · intro w' hw'
        obtain rfl := Option.some.inj (hsome.symm.trans hw')
        refine ⟨x.mnemonic, ws, hx.mnemonic, ?_, ?_, ⟨before, parts.flatten, hwords, hk⟩, rfl⟩
        · rw [hlength, ← hx.operands]
          exact ⟨known, hx.words⟩
        · rw [hlength, ← hx.operands]
          exact hws

theorem laid_of_parsed {first j : Nat}
    (hss : (lines.zipIdx first).mapM (fun (source, line) => Statement.parse line source) = .ok ss)
    (h : StatementsLaid elide image k ss j) : Laid elide image k lines j := by
  induction lines generalizing first ss k with
  | nil =>
      obtain rfl : ss = [] := (pure_ok_iff.1 hss).symm
      exact h
  | cons line lines ih =>
      rw [List.zipIdx_cons] at hss
      obtain ⟨s, ss', hs, hss', rfl⟩ := mapM_cons_ok_iff.1 hss
      obtain ⟨i, hp, hrest⟩ := h
      exact ⟨first, s, i, hs, hp, ih hss' hrest⟩

section

variable (h : assemble elide lines = .ok image)

include h

/-- Both passes over lines that are assembled, with the words line by line. -/
theorem assemble_emitted :
    ∃ ss plan parts, Statement.parseAll lines = .ok ss ∧ layOut elide ss = .ok plan ∧
      image.labels = plan.labels ∧ image.words.toList = parts.flatten ∧
      Emitted elide image.labels 0 ss plan.sized.toList parts image.sources.toList := by
  obtain ⟨ss, hss, h⟩ := bind_ok_iff.1 h
  obtain ⟨plan, hplan, himage⟩ := bind_ok_iff.1 (mapError_ok_iff.1 h)
  rw [emit, foldlM_mapError_ok_iff] at himage
  have hlabels : image.labels = plan.labels := (Image.addAll_ok himage).1
  obtain ⟨parts, sources, hemitted, hwords, hsources⟩ :=
    (layOut_planned hplan).emitted himage rfl rfl
  refine ⟨ss, plan, parts, hss, hplan, hlabels, by simpa using hwords, ?_⟩
  rw [hlabels, show image.sources.toList = sources by simpa using hsources]
  exact hemitted

theorem assemble_ok : ∃ ss, Statement.parseAll lines = .ok ss ∧
      StatementsLaid elide image 0 ss image.words.size ∧ image.labels.UpTo image.words.size := by
  obtain ⟨ss, plan, parts, hss, hplan, hlabels, hwords, hemitted⟩ := assemble_emitted h
  have hstart : image.words.toList = [] ++ parts.flatten := hwords
  refine ⟨ss, hss, hemitted.laid hstart rfl, ?_⟩
  rw [hlabels, ← Array.length_toList, hwords, hemitted.length_flatten]
  exact (layOut_sound hplan).upTo

/-- **The lines of an assembled program are laid out one behind the other.** -/
theorem assemble_laid : Laid elide image 0 lines image.words.size := by
  obtain ⟨ss, hss, hlaid, -⟩ := assemble_ok h
  exact laid_of_parsed hss hlaid

/-- **A label has the address of a word or of the end.** -/
theorem label_address : image.labels.UpTo image.words.size := by
  obtain ⟨-, -, -, hup⟩ := assemble_ok h
  exact hup

end

end StackCompiler.Assembly
