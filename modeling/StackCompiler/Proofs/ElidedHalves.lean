/-
**Leaving out lower halves only helps.**

An address whose lower half is known to be zero can be loaded by one word instead of two.  Leaving
the second one out moves all that stands behind it, and other addresses with it.  But the two
layouts of a program never get out of step: between any two places there are at most as many words
as before.  So no label moves up, no branch loses its label out of reach, and whatever can be
assembled with all halves can be assembled without some.

* `Assembly.wordsTo_between` — **places only get closer to each other**;
* `Assembly.assemble_elided` — **leaving out lower halves only helps**.
-/

import StackCompiler.Proofs.ImplementedWords

namespace StackCompiler.Assembly

open Operand hiding none
open Listing (Far addressSize_le)

/-! ### Records -/

/-- What is recorded for an instruction, with the lower half of an address left out or not. -/
structure Sized.Elided (x x' : Sized) : Prop where
  mnemonic : x'.mnemonic = x.mnemonic
  operands : x'.operands = x.operands
  words : x'.words = x.words ∨ x.mnemonic = .la ∧ x.words = 2 ∧ x'.words = 1

theorem Sized.Elided.words_le {x x' : Sized} (h : x.Elided x') : x'.words ≤ x.words := by
  rcases h.words with h | ⟨-, h, h'⟩ <;> omega

/-- With all halves, an address has two words whatever labels are known. -/
theorem sizeAddress_whole {known : Labels} {operands : List Text} {n : Nat}
    (h : sizeAddress false known operands = .ok n) :
    n = 2 ∧ ∀ known' : Labels, ∃ n', sizeAddress true known' operands = .ok n' ∧
      (n' = 1 ∨ n' = 2) := by
  obtain ⟨⟨rd, target⟩, htwo, h⟩ := bind_ok_iff.1 h
  obtain ⟨r, hr, h⟩ := bind_ok_iff.1 h
  have hsize : ∀ elide address, addressSize elide address = 1 ∨ addressSize elide address = 2 :=
    fun elide address => (addressSize_le elide address).imp_left And.left
  simp only [sizeAddress, htwo, hr, ok_bind]
  by_cases hid : Text.isIdentifier target = true
  · simp only [hid, if_true] at h ⊢
    refine ⟨?_, fun known' => ?_⟩
    · split at h
      · exact (pure_ok_iff.1 h).symm
      · exact (pure_ok_iff.1 h).symm
    · split
      · exact ⟨_, rfl, hsize _ _⟩
      · exact ⟨_, rfl, .inr rfl⟩
  · simp only [hid, if_false, Bool.false_eq_true] at h ⊢
    obtain ⟨address, haddress, h⟩ := bind_ok_iff.1 h
    rw [haddress]
    exact ⟨(pure_ok_iff.1 h).symm, fun _ => ⟨_, rfl, hsize true address⟩⟩

/-- **Only addresses get smaller**, and what has a size keeps one, whatever labels are known. -/
theorem Mnemonic.size_elided {m : Mnemonic} {known : Labels} {operands : List Text} {n : Nat}
    (h : m.size false known operands = .ok n) (known' : Labels) :
    ∃ n', m.size true known' operands = .ok n' ∧ (n' = n ∨ m = .la ∧ n = 2 ∧ n' = 1) := by
  cases m with
  | la =>
      obtain ⟨rfl, hsize⟩ := sizeAddress_whole
        (show sizeAddress false known operands = .ok n from h)
      obtain ⟨n', hn', rfl | rfl⟩ := hsize known'
      · exact ⟨1, hn', .inr ⟨rfl, rfl, rfl⟩⟩
      · exact ⟨2, hn', .inl rfl⟩
  | _ => exact ⟨n, h, .inl rfl⟩

/-! ### Places -/

/-- The number of words before a line. -/
def wordsTo (xs : List Sized) (j : Nat) : Nat := totalWords (xs.take j)

@[simp] theorem wordsTo_zero (xs : List Sized) : wordsTo xs 0 = 0 := rfl

theorem wordsTo_length (xs : List Sized) : wordsTo xs xs.length = totalWords xs := by
  rw [wordsTo, List.take_length]

variable {xs : List Sized}

theorem wordsTo_append {j : Nat} (h : j ≤ xs.length) (ys : List Sized) :
    wordsTo (xs ++ ys) j = wordsTo xs j := by
  rw [wordsTo, wordsTo, List.take_append_of_le_length h]

theorem wordsTo_cons_succ (x : Sized) (xs : List Sized) (j : Nat) :
    wordsTo (x :: xs) (j + 1) = x.words + wordsTo xs j := by
  rw [wordsTo, wordsTo, List.take_succ_cons, totalWords_cons]

theorem wordsTo_le (xs : List Sized) (j : Nat) : wordsTo xs j ≤ totalWords xs := by
  have h := totalWords_append (xs.take j) (xs.drop j)
  rw [List.take_append_drop] at h
  rw [wordsTo]
  omega

theorem wordsTo_add_words_le {j : Nat} {x : Sized} (h : xs[j]? = some x) :
    wordsTo xs j + x.words ≤ totalWords xs := by
  induction xs generalizing j with
  | nil => cases h
  | cons y xs ih =>
      rw [totalWords_cons]
      cases j with
      | zero =>
          obtain rfl := Option.some.inj h
          rw [wordsTo_zero]
          omega
      | succ j =>
          have := ih h
          rw [wordsTo_cons_succ]
          omega

/-- **Places only get closer to each other**, in the order in which they were. -/
theorem wordsTo_between {xs xs' : List Sized} (h : List.Forall₂ Sized.Elided xs xs') {i j : Nat}
    (hij : i ≤ j) :
    wordsTo xs' i ≤ wordsTo xs i ∧ wordsTo xs' i ≤ wordsTo xs' j ∧
      wordsTo xs' j + wordsTo xs i ≤ wordsTo xs j + wordsTo xs' i := by
  induction h generalizing i j with
  | nil => simp [wordsTo]
  | @cons x x' xs xs' hx _ ih =>
      have hle := hx.words_le
      cases i with
      | zero =>
          cases j with
          | zero => simp
          | succ j =>
              have hrest := (ih (Nat.zero_le j)).2.2
              simp only [wordsTo_cons_succ, wordsTo_zero] at hrest ⊢
              omega
      | succ i =>
          obtain ⟨j, rfl⟩ : ∃ d, j = d + 1 := ⟨j - 1, by omega⟩
          obtain ⟨h₁, h₂, h₃⟩ := ih (Nat.le_of_succ_le_succ hij)
          simp only [wordsTo_cons_succ]
          omega

/-! ### The first pass -/

/-- What is found for a label in two tables: nothing, or the address of the same place. -/
def SamePlace (xs xs' : List Sized) (a a' : Option UInt32) : Prop :=
  a = none ∧ a' = none ∨ ∃ j ≤ xs.length,
    a = some (addressOf (wordsTo xs j)) ∧ a' = some (addressOf (wordsTo xs' j))

/-- **A plan with some lower halves left out.** -/
structure Plan.Elided (p p' : Plan) : Prop where
  address : p.address = addressOf (totalWords p.sized.toList)
  address' : p'.address = addressOf (totalWords p'.sized.toList)
  sized : List.Forall₂ Sized.Elided p.sized.toList p'.sized.toList
  labels : ∀ name : Text, SamePlace p.sized.toList p'.sized.toList p.labels[name]? p'.labels[name]?

namespace Plan

variable {p p' q : Plan}

theorem elided_empty : Elided {} {} := by
  refine ⟨rfl, rfl, .nil, fun name => .inl ?_⟩
  simp

theorem Elided.define {name : Text} (h : p.Elided p') (hq : p.define name = .ok q) :
    ∃ q', p'.define name = .ok q' ∧ q.Elided q' := by
  unfold Plan.define at hq
  split at hq
  · cases hq
  · next hnew =>
    obtain rfl := Except.ok.inj hq
    have hnone : p.labels[name]? = none := Std.HashMap.getElem?_eq_none (by simpa using hnew)
    -- a label that is new in one table is new in the other
    have hnone' : p'.labels[name]? = none := by
      rcases h.labels name with ⟨-, h⟩ | ⟨j, -, h, -⟩
      · exact h
      · rw [hnone] at h
        cases h
    have hnew' : p'.labels.contains name = false := by
      rw [Std.HashMap.contains_eq_isSome_getElem?, hnone']
      rfl
    refine ⟨{ p' with labels := p'.labels.insert name p'.address }, ?_, ⟨h.address, h.address',
      h.sized, fun other => ?_⟩⟩
    · rw [Plan.define, hnew']
      rfl
    · rw [Std.HashMap.getElem?_insert, Std.HashMap.getElem?_insert]
      by_cases heq : name = other
      · subst heq
        refine .inr ⟨_, Nat.le_refl _, ?_, ?_⟩
        · simp only [beq_self_eq_true, if_true, wordsTo_length]
          rw [h.address]
        · simp only [beq_self_eq_true, if_true, h.sized.length_eq, wordsTo_length]
          rw [h.address']
      · simpa [heq] using h.labels other

theorem Elided.defineAll {names : List Text} (h : p.Elided p')
    (hq : names.foldlM Plan.define p = .ok q) :
    ∃ q', names.foldlM Plan.define p' = .ok q' ∧ q.Elided q' :=
  foldlM_follows Elided.define h hq

theorem Elided.place {s : Statement} {w : Written} (h : p.Elided p')
    (hq : p.place false s w = .ok q) : ∃ q', p'.place true s w = .ok q' ∧ q.Elided q' := by
  unfold Plan.place at hq ⊢
  split at hq
  · cases hq
  · next m hm =>
    obtain ⟨n, hn, rfl⟩ := bind_pure_ok_iff.1 hq
    obtain ⟨n', hn', hwords⟩ := Mnemonic.size_elided hn p'.labels
    simp only [hn', ok_bind]
    have htotal : ∀ (xs : List Sized) (x : Sized), addressOf (totalWords (xs ++ [x])) =
        addressOf (totalWords xs) + x.words.toUInt32 * 4 := by
      intro xs x
      rw [totalWords_append, addressOf_add]
      rfl
    refine ⟨_, rfl, ⟨?_, ?_, ?_, ?_⟩⟩
    · rw [Array.toList_push, htotal, h.address]
    · rw [Array.toList_push, htotal, h.address']
    · rw [Array.toList_push, Array.toList_push]
      exact List.rel_append h.sized (.cons ⟨rfl, rfl, hwords⟩ .nil)
    · intro name
      rw [Array.toList_push, Array.toList_push]
      rcases h.labels name with h | ⟨j, hj, ha, ha'⟩
      · exact .inl h
      · refine .inr ⟨j, by rw [List.length_append]; omega, ?_, ?_⟩
        · rw [wordsTo_append hj]
          exact ha
        · rw [wordsTo_append (h.sized.length_eq ▸ hj)]
          exact ha'

/-- **One step of the first pass.** -/
theorem Elided.add {s : Statement} (h : p.Elided p') (hq : p.add false s = .ok q) :
    ∃ q', p'.add true s = .ok q' ∧ q.Elided q' := by
  obtain ⟨r, hr, hq⟩ := bind_ok_iff.1 hq
  obtain ⟨r', hr', h⟩ := h.defineAll hr
  unfold Plan.add
  rw [hr', ok_bind]
  cases hins : s.instruction with
  | none =>
      rw [hins] at hq
      obtain rfl := pure_ok_iff.1 hq
      exact ⟨r', rfl, h⟩
  | some w =>
      rw [hins] at hq
      exact h.place hq

theorem Elided.addAll {ss : List Statement} (h : p.Elided p')
    (hq : ss.foldlM (Plan.add false) p = .ok q) :
    ∃ q', ss.foldlM (Plan.add true) p' = .ok q' ∧ q.Elided q' :=
  foldlM_follows Elided.add h hq

end Plan

variable {ss : List Statement}

/-- **The first pass takes the same lines**, and leaves out lower halves only. -/
theorem layOut_elided {p : Plan} (h : layOut false ss = .ok p) :
    ∃ p', layOut true ss = .ok p' ∧ p.Elided p' := by
  obtain ⟨p', hp', helided⟩ := Plan.elided_empty.addAll (foldlM_mapError_ok_iff.1 h)
  exact ⟨p', foldlM_mapError_ok_iff.2 hp', helided⟩

/-! ### Encoding nearer -/

/-- A label that has an address has one in the other table, and a branch to it that reaches it still
does. -/
def Nearer (labels labels' : Labels) (pc pc' : UInt32) : Prop :=
  ∀ (t : Text) (a : UInt32), labels[t]? = some a →
    ∃ a', labels'[t]? = some a' ∧ (Far pc' a' → Far pc a)

section Nearer

variable {labels labels' : Labels} {pc pc' : UInt32} {operands : List Text} {t : Text}

section

variable (h : Nearer labels labels' pc pc')

include h

theorem Nearer.label {a : UInt32}
    (ha : label labels t = .ok a) : ∃ a', label labels' t = .ok a' ∧ (Far pc' a' → Far pc a) := by
  obtain ⟨a', ha', hfar⟩ := h t a (label_ok ha)
  exact ⟨a', by rw [Operand.label, ha'], hfar⟩

theorem Nearer.branch {imm : UInt16}
    (himm : branch labels pc t = .ok imm) : ∃ imm', branch labels' pc' t = .ok imm' := by
  obtain ⟨a, ha, himm⟩ := bind_ok_iff.1 himm
  obtain ⟨a', ha', hfar⟩ := h.label ha
  have hnear : ¬Far pc a := by
    intro hfar
    rw [Far] at hfar
    simp only [if_pos hfar] at himm
    cases himm
  exact ⟨UInt16.ofInt (distance pc' a'),
    bind_ok_iff.2 ⟨a', ha', if_neg fun hfar' => hnear (hfar hfar')⟩⟩

variable {o : Operation} {w : UInt32}

theorem Nearer.branchTwo (hw : branchTwo o labels pc operands = .ok w) :
    ∃ w', branchTwo o labels' pc' operands = .ok w' := by
  obtain ⟨⟨s, t, l⟩, hthree, hw⟩ := bind_ok_iff.1 hw
  obtain ⟨rs, hs, hw⟩ := bind_ok_iff.1 hw
  obtain ⟨rt, ht, hw⟩ := bind_ok_iff.1 hw
  obtain ⟨imm, himm, -⟩ := bind_ok_iff.1 hw
  obtain ⟨imm', himm'⟩ := h.branch himm
  refine ⟨o.immediateWord rs rt imm', ?_⟩
  simp only [Assembly.branchTwo, hthree, hs, ht, himm', ok_bind]
  rfl

theorem Nearer.branchOne (hw : branchOne o labels pc operands = .ok w) :
    ∃ w', branchOne o labels' pc' operands = .ok w' := by
  obtain ⟨⟨s, l⟩, htwo, hw⟩ := bind_ok_iff.1 hw
  obtain ⟨rs, hs, hw⟩ := bind_ok_iff.1 hw
  obtain ⟨imm, himm, -⟩ := bind_ok_iff.1 hw
  obtain ⟨imm', himm'⟩ := h.branch himm
  refine ⟨o.immediateWord rs Register.zero imm', ?_⟩
  simp only [Assembly.branchOne, htwo, hs, himm', ok_bind]
  rfl

theorem Nearer.encodeOperation (hw : encodeOperation labels pc o operands = .ok w) :
    ∃ w', encodeOperation labels' pc' o operands = .ok w' := by
  cases o with
  | beq | bne => exact h.branchTwo hw
  | blez | bgtz => exact h.branchOne hw
  | j | jal =>
      obtain ⟨l, hone, hw⟩ := bind_ok_iff.1 hw
      obtain ⟨a, ha, -⟩ := bind_ok_iff.1 hw
      obtain ⟨a', ha', -⟩ := h.label ha
      exact ⟨_, bind_ok_iff.2 ⟨l, hone, bind_ok_iff.2 ⟨a', ha', rfl⟩⟩⟩
  | _ => exact ⟨w, hw⟩

theorem Nearer.target {a : UInt32}
    (ha : target labels t = .ok a) : ∃ a', target labels' t = .ok a' := by
  unfold Operand.target at ha ⊢
  split at ha
  · next hid =>
    obtain ⟨a', ha', -⟩ := h.label ha
    exact ⟨a', by rw [if_pos hid, ha']⟩
  · next hid => exact ⟨a, by rw [if_neg hid, ha]⟩

/-- **What can be encoded can be encoded nearer**, in the number of words that are laid out there.
-/
theorem Mnemonic.encode_nearer {m : Mnemonic} {elide : Bool} {n n' : Nat} {known' : Labels}
    {ws : List UInt32} (hsize : m.size elide known' operands = .ok n')
    (hknown : known'.Within labels') (hn : n' = n ∨ m = .la)
    (hws : m.encode labels pc n operands = .ok ws) :
    ∃ ws', m.encode labels' pc' n' operands = .ok ws' ∧ ws'.length = n' := by
  have hencode : ∃ ws', m.encode labels' pc' n' operands = .ok ws' := by
    cases m with
    | la =>
        obtain ⟨d, t, rfl, hlow⟩ := sizeAddress_ok
          (show sizeAddress elide known' operands = .ok n' from hsize) hknown
        have hws : encodeAddress labels [d, t] n = .ok ws := hws
        rw [encodeAddress_eq] at hws
        obtain ⟨rd, hd, hws⟩ := bind_ok_iff.1 hws
        obtain ⟨a, ha, -⟩ := bind_ok_iff.1 hws
        obtain ⟨a', ha'⟩ := h.target ha
        -- one word is only laid out where the address is known, and has no lower half
        have hdrift : ¬(n' = 1 ∧ a' &&& 0xFFFF ≠ 0) := by
          rintro ⟨rfl, hne⟩
          rcases hlow with hlow | ⟨-, hlow⟩
          · cases hlow
          · exact hne (hlow a' ha')
        refine ⟨loadUpper rd a' n', ?_⟩
        show encodeAddress labels' [d, t] n' = _
        rw [encodeAddress_eq, hd, ok_bind, ha', ok_bind, if_neg hdrift]
        rfl
    | operation o =>
        obtain ⟨w, hw, -⟩ := bind_ok_iff.1 hws
        obtain ⟨w', hw'⟩ := h.encodeOperation hw
        exact ⟨_, bind_ok_iff.2 ⟨w', hw', rfl⟩⟩
    | beqz | bnez =>
        obtain ⟨w, hw, -⟩ := bind_ok_iff.1 hws
        obtain ⟨w', hw'⟩ := h.branchOne hw
        exact ⟨_, bind_ok_iff.2 ⟨w', hw', rfl⟩⟩
    | b =>
        obtain ⟨l, hone, hws⟩ := bind_ok_iff.1 hws
        obtain ⟨imm, himm, -⟩ := bind_ok_iff.1 hws
        obtain ⟨imm', himm'⟩ := h.branch himm
        exact ⟨_, bind_ok_iff.2 ⟨l, hone, bind_ok_iff.2 ⟨imm', himm', rfl⟩⟩⟩
    | move | li | seq | nop =>
        obtain rfl := hn.resolve_right nofun
        exact ⟨ws, hws⟩
  obtain ⟨ws', hws'⟩ := hencode
  exact ⟨ws', hws', (Mnemonic.length_encode hsize hknown hws').1⟩

end

end Nearer

/-- **Where some halves are left out, all labels are nearer.** -/
theorem Plan.Elided.nearer {p p' : Plan} (h : p.Elided p') {j : Nat}
    (hj : wordsTo p.sized.toList j + 1 < 2 ^ 30) (htotal : totalWords p.sized.toList < 2 ^ 30) :
    Nearer p.labels p'.labels (addressOf (wordsTo p.sized.toList j))
      (addressOf (wordsTo p'.sized.toList j)) := by
  intro t a ha
  rcases h.labels t with ⟨hnone, -⟩ | ⟨i, -, ha₁, ha'⟩
  · rw [hnone] at ha
    cases ha
  obtain rfl := Option.some.inj (ha.symm.trans ha₁)
  refine ⟨_, ha', ?_⟩
  have hi := wordsTo_le p.sized.toList i
  have hi' := (wordsTo_between h.sized (Nat.le_refl i)).1
  have hj' := (wordsTo_between h.sized (Nat.le_refl j)).1
  rw [Far, Far, Word.distance_addressOf (by omega) (by omega),
    Word.distance_addressOf (by omega) (by omega)]
  -- before the branch and behind it the distance has another sign, but it never grows
  rcases Nat.le_total i j with hij | hji
  · have := wordsTo_between h.sized hij
    omega
  · have := wordsTo_between h.sized hji
    omega

/-! ### The second pass -/

/-- A record can be encoded behind `k` words, in as many words as it has. -/
def Sized.Encodes (labels : Labels) (k : Nat) (x : Sized) : Prop :=
  ∃ ws, x.mnemonic.encode labels (addressOf k) x.words x.operands = .ok ws ∧ ws.length = x.words

theorem Image.add_ok_iff {i : Image} {x : Sized} :
    (∃ image, i.add x = .ok image) ↔ x.Encodes i.labels i.words.size := by
  constructor
  · rintro ⟨image, h⟩
    obtain ⟨ws, hws, hlength, -⟩ := Image.add_ok h
    exact ⟨ws, hws, hlength⟩
  · rintro ⟨ws, hws, hlength⟩
    exact ⟨_, bind_ok_iff.2 ⟨ws, hws, if_pos hlength⟩⟩

theorem Image.addAll_ok_iff {i : Image} :
    (∃ image, xs.foldlM add i = .ok image) ↔ ∀ (j : Nat) (x : Sized), xs[j]? = some x →
      x.Encodes i.labels (i.words.size + wordsTo xs j) := by
  induction xs generalizing i with
  | nil => exact ⟨fun _ _ _ => nofun, fun _ => ⟨i, rfl⟩⟩
  | cons x xs ih =>
      -- behind the first record the others stand as many words later
      have hbehind : ∀ (r : Image) (j : Nat), i.add x = .ok r → r.labels = i.labels ∧
          r.words.size + wordsTo xs j = i.words.size + wordsTo (x :: xs) (j + 1) := by
        intro r j hr
        obtain ⟨ws, -, hlength, rfl⟩ := add_ok hr
        refine ⟨rfl, ?_⟩
        rw [size_appendList, wordsTo_cons_succ, hlength, Nat.add_assoc]
      constructor
      · rintro ⟨image, h⟩ j y hy
        obtain ⟨r, hr, h⟩ := foldlM_cons_ok_iff.1 h
        cases j with
        | zero =>
            obtain rfl := Option.some.inj hy
            exact add_ok_iff.1 ⟨r, hr⟩
        | succ j =>
            obtain ⟨hlabels, hwords⟩ := hbehind r j hr
            rw [← hlabels, ← hwords]
            exact ih.1 ⟨image, h⟩ j y hy
      · intro h
        obtain ⟨r, hr⟩ := add_ok_iff.2 (h 0 x rfl)
        obtain ⟨image, himage⟩ := ih.2 fun j y hy => by
          obtain ⟨hlabels, hwords⟩ := hbehind r j hr
          rw [hlabels, hwords]
          exact h (j + 1) y hy
        exact ⟨image, foldlM_cons_ok_iff.2 ⟨r, hr, himage⟩⟩

/-- **The second pass succeeds if every record can be encoded where it stands.** -/
theorem emit_ok_iff {p : Plan} :
    (∃ image, emit p = .ok image) ↔ ∀ (j : Nat) (x : Sized), p.sized.toList[j]? = some x →
      x.Encodes p.labels (wordsTo p.sized.toList j) := by
  simp only [emit, foldlM_mapError_ok_iff, Image.addAll_ok_iff, List.size_toArray, List.length_nil,
    Nat.zero_add]

/-- **The second pass succeeds without some halves if it does with all of them.** -/
theorem emit_elided {p p' : Plan} {image : Image} (hp : layOut false ss = .ok p)
    (hp' : layOut true ss = .ok p') (h : p.Elided p') (himage : emit p = .ok image)
    (htotal : totalWords p.sized.toList < 2 ^ 30) :
    ∃ image', emit p' = .ok image' := by
  refine emit_ok_iff.2 fun j x' hx' => ?_
  obtain ⟨hj', rfl⟩ := List.getElem?_eq_some_iff.1 hx'
  have hj : j < p.sized.toList.length := h.sized.length_eq ▸ hj'
  have hx := List.getElem?_eq_getElem hj
  have helided : Sized.Elided p.sized.toList[j] p'.sized.toList[j] := h.sized.get hj hj'
  obtain ⟨ws, hws, -⟩ := emit_ok_iff.1 ⟨image, himage⟩ j _ hx
  obtain ⟨known, hknown, hsized⟩ := (layOut_planned hp).sized (List.mem_of_getElem? hx)
  obtain ⟨known', hknown', hsized'⟩ := (layOut_planned hp').sized (List.mem_of_getElem? hx')
  have hpositive := (Mnemonic.length_encode hsized hknown hws).2
  have hle := wordsTo_add_words_le hx
  rw [Sized.Encodes]
  rw [helided.mnemonic, helided.operands] at hsized' ⊢
  exact Mnemonic.encode_nearer (h.nearer (by omega) htotal) hsized' hknown'
    (helided.words.imp_right And.left) hws

/-! ### Programs -/

/-- **The words of a program line by line**, as the two passes made them. -/
structure AssembledAs (elide : Bool) (lines : List Text) (image : Image) (ss : List Statement)
    (parts : List (List UInt32)) : Prop where
  parsed : Statement.parseAll lines = .ok ss
  whole : image.words.toList = parts.flatten
  emitted : ∃ plan, layOut elide ss = .ok plan ∧
    Emitted elide image.labels 0 ss plan.sized.toList parts image.sources.toList

theorem assembledAs_of_assemble {elide : Bool} {lines : List Text} {image : Image}
    (h : assemble elide lines = .ok image) :
    ∃ ss parts, AssembledAs elide lines image ss parts := by
  obtain ⟨ss, plan, parts, hss, hplan, -, hwords, hemitted⟩ := assemble_emitted h
  exact ⟨ss, parts, hss, hwords, plan, hplan, hemitted⟩

/-- The words of a line without a lower half, if it has been left out. -/
structure ElidedPart (s : Statement) (ws ws' : List UInt32) : Prop where
  le : ws'.length ≤ ws.length
  only : ws'.length < ws.length → ∃ w, s.instruction = some w ∧
    Mnemonic.ofName? w.mnemonic = some .la ∧ ws.length = 2 ∧ ws'.length = 1

/-- **No line gets longer, and only addresses get shorter.** -/
theorem AssembledAs.elidedPart {lines : List Text} {image image' : Image}
    {parts parts' : List (List UInt32)} (h : AssembledAs false lines image ss parts)
    (h' : AssembledAs true lines image' ss parts') {i : Nat} {s : Statement}
    (hs : ss[i]? = some s) :
    ∃ ws ws', parts[i]? = some ws ∧ parts'[i]? = some ws' ∧ ElidedPart s ws ws' := by
  obtain ⟨plan, -, hemitted⟩ := h.emitted
  obtain ⟨plan', -, hemitted'⟩ := h'.emitted
  cases hins : s.instruction with
  | none =>
      exact ⟨[], [], hemitted.silent_part hs hins, hemitted'.silent_part hs hins, Nat.le_refl 0,
        fun hlt => absurd hlt (Nat.lt_irrefl 0)⟩
  | some w =>
      obtain ⟨x, -, ws, known, -, hx, hpart, hcount, -⟩ := hemitted.instruction_part hs hins
      obtain ⟨x', -, ws', known', -, hx', hpart', hcount', -⟩ := hemitted'.instruction_part hs hins
      have hsame : x'.mnemonic = x.mnemonic :=
        Option.some.inj (hx'.mnemonic.symm.trans hx.mnemonic)
      have hsize := hx.words
      have hsize' := hx'.words
      rw [hx.operands] at hsize
      rw [hx'.operands, hsame] at hsize'
      obtain ⟨n', hn', hwords⟩ := Mnemonic.size_elided hsize known'
      obtain rfl := Except.ok.inj (hn'.symm.trans hsize')
      refine ⟨ws, ws', hpart, hpart', ?_, ?_⟩
      · omega
      · intro hlt
        rcases hwords with hwords | ⟨hla, htwo, hone⟩
        · omega
        · exact ⟨w, hins, hla ▸ hx.mnemonic, by omega, by omega⟩

/-- **Leaving out lower halves only helps.**  Lines that can be assembled with all halves can be
assembled without some; then no line has more words, only loads of addresses have fewer, and no
label has moved up. -/
theorem assemble_elided {lines : List Text} {image : Image} (h : assemble false lines = .ok image)
    (hsize : image.words.size < 2 ^ 30) :
    ∃ image' ss parts parts', assemble true lines = .ok image' ∧
      AssembledAs false lines image ss parts ∧ AssembledAs true lines image' ss parts' ∧
      (∀ (i : Nat) (s : Statement), ss[i]? = some s →
        ∃ ws ws', parts[i]? = some ws ∧ parts'[i]? = some ws' ∧ ElidedPart s ws ws') ∧
      ∀ name : Text, image.labels[name]? = none ∧ image'.labels[name]? = none ∨
        ∃ a a', image.labels[name]? = some a ∧ image'.labels[name]? = some a' ∧ a' ≤ a := by
  obtain ⟨ss, hss, hpasses⟩ := bind_ok_iff.1 h
  obtain ⟨plan, hplan, hemit⟩ := bind_ok_iff.1 (mapError_ok_iff.1 hpasses)
  obtain ⟨plan', hplan', helided⟩ := layOut_elided hplan
  have hadd := Image.addAll_ok (foldlM_mapError_ok_iff.1 hemit)
  have htotal : totalWords plan.sized.toList = image.words.size := by
    rw [hadd.2]
    simp
  obtain ⟨image', hemit'⟩ := emit_elided hplan hplan' helided hemit (by omega)
  have h' : assemble true lines = .ok image' :=
    bind_ok_iff.2 ⟨ss, hss, mapError_ok_iff.2 (bind_ok_iff.2 ⟨plan', hplan', hemit'⟩)⟩
  obtain ⟨ss₁, parts, hparts⟩ := assembledAs_of_assemble h
  obtain ⟨ss₂, parts', hparts'⟩ := assembledAs_of_assemble h'
  obtain rfl := Except.ok.inj (hss.symm.trans hparts.parsed)
  obtain rfl := Except.ok.inj (hss.symm.trans hparts'.parsed)
  refine ⟨image', ss, parts, parts', h', hparts, hparts',
    fun i s hs => hparts.elidedPart hparts' hs, fun name => ?_⟩
  rw [hadd.1, (Image.addAll_ok (foldlM_mapError_ok_iff.1 hemit')).1]
  refine (helided.labels name).imp_right ?_
  rintro ⟨j, -, ha, ha'⟩
  refine ⟨_, _, ha, ha', ?_⟩
  have hj := wordsTo_le plan.sized.toList j
  have hj' := (wordsTo_between helided.sized (Nat.le_refl j)).1
  rw [UInt32.le_iff_toNat_le, addressOf_toNat (by omega), addressOf_toNat (by omega)]
  omega

theorem assemble_elided_turnLines :
    ∃ image, assemble false (turnLines.map Listing.Line.render) = .ok image ∧
      image.words.size < 2 ^ 30 ∧
      ∃ image' ss parts parts', assemble true (turnLines.map Listing.Line.render) = .ok image' ∧
        AssembledAs false (turnLines.map Listing.Line.render) image ss parts ∧
        AssembledAs true (turnLines.map Listing.Line.render) image' ss parts' ∧
        (∀ (i : Nat) (s : Statement), ss[i]? = some s →
          ∃ ws ws', parts[i]? = some ws ∧ parts'[i]? = some ws' ∧ ElidedPart s ws ws') ∧
        ∀ name : Text, image.labels[name]? = none ∧ image'.labels[name]? = none ∨
          ∃ a a', image.labels[name]? = some a ∧ image'.labels[name]? = some a' ∧ a' ≤ a := by
  have hformed : Listing.WellFormed turnLines :=
    ⟨by decide, by decide, by decide, by decide, by decide⟩
  obtain ⟨image, himage, hsize⟩ := hformed.assembles false
  have hsize' : image.words.size < 2 ^ 30 := Nat.lt_of_le_of_lt hsize (by decide)
  exact ⟨image, himage, hsize', assemble_elided himage hsize'⟩

end StackCompiler.Assembly
