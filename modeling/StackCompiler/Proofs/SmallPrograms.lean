/-
**What a small program needs to be assembled.**

Whether an instruction can be encoded depends on where it stands in one way only: a branch must not
be too far away from its label.  In a program of fewer than 2^15 words no branch is.  So such a
program is assembled exactly if no label is defined twice and each of its instructions, taken for
itself, could be assembled somewhere with these labels.

* `Assembly.assembles_iff` — **a small program is assembled exactly if its labels are distinct and
  its instructions fit**.
-/

import StackCompiler.Proofs.ElidedHalves
import StackCompiler.Proofs.ExportedLabels

namespace StackCompiler.Assembly

open Listing (Far)

/-! ### Instructions for themselves -/

variable {elide : Bool}

/-- **Whether an instruction has a size does not depend on labels**; only the size of `la` does. -/
theorem Mnemonic.size_known {m : Mnemonic} {known : Labels} {operands : List Text} {n : Nat}
    (h : m.size elide known operands = .ok n) (elide' : Bool) (known' : Labels) :
    ∃ n', m.size elide' known' operands = .ok n' ∧ (n' = n ∨ m = .la) := by
  cases m with
  | la =>
      obtain ⟨⟨rd, target⟩, htwo, h⟩ := bind_ok_iff.1
        (show sizeAddress elide known operands = .ok n from h)
      obtain ⟨r, hr, h⟩ := bind_ok_iff.1 h
      have hsize : ∃ n', sizeAddress elide' known' operands = .ok n' := by
        simp only [sizeAddress, htwo, hr, ok_bind]
        by_cases hid : Text.isIdentifier target = true
        · simp only [hid, if_true]
          split
          · exact ⟨_, rfl⟩
          · exact ⟨_, rfl⟩
        · simp only [hid, if_false, Bool.false_eq_true] at h ⊢
          obtain ⟨address, haddress, -⟩ := bind_ok_iff.1 h
          rw [haddress]
          exact ⟨_, rfl⟩
      exact hsize.imp fun n' hn' => ⟨hn', .inr rfl⟩
  | _ => exact ⟨n, h, .inl rfl⟩

/-- **An instruction that could be assembled somewhere**, with no labels among its operands but the
given ones. -/
def Written.Fits (names : List Text) (w : Written) : Prop :=
  ∃ (m : Mnemonic) (elide : Bool) (known labels : Labels) (pc : UInt32) (n : Nat)
    (ws : List UInt32), Mnemonic.ofName? w.mnemonic = some m ∧
      m.size elide known w.operands = .ok n ∧ m.encode labels pc n w.operands = .ok ws ∧
      ∀ t ∈ w.operands, ∀ a, labels[t]? = some a → t ∈ names

namespace Written

variable {w : Written} {names names' : List Text}

theorem Fits.mono (h : w.Fits names) (hsub : ∀ t ∈ w.operands, t ∈ names → t ∈ names') :
    w.Fits names' := by
  obtain ⟨m, elide, known, labels, pc, n, ws, hm, hsize, hws, hlabels⟩ := h
  exact ⟨m, elide, known, labels, pc, n, ws, hm, hsize, hws,
    fun t ht a ha => hsub t ht (hlabels t ht a ha)⟩

theorem Fits.size (h : w.Fits names) (elide : Bool) (known : Labels) :
    ∃ m n, Mnemonic.ofName? w.mnemonic = some m ∧ m.size elide known w.operands = .ok n := by
  obtain ⟨m, elide', known', -, -, n, -, hm, hsize, -⟩ := h
  obtain ⟨n', hn', -⟩ := Mnemonic.size_known hsize elide known
  exact ⟨m, n', hm, hn'⟩

/-- **What could be encoded somewhere can be encoded wherever its labels are near.** -/
theorem Fits.encode (h : w.Fits names) {m : Mnemonic} {elide : Bool} {known labels : Labels}
    {pc : UInt32} {n : Nat} (hm : Mnemonic.ofName? w.mnemonic = some m)
    (hsize : m.size elide known w.operands = .ok n) (hknown : known.Within labels)
    (hnear : ∀ t ∈ names, ∃ a, labels[t]? = some a ∧ ¬Far pc a) :
    ∃ ws, m.encode labels pc n w.operands = .ok ws ∧ ws.length = n := by
  obtain ⟨m', elide', known', labels', pc', n', ws, hm', hsize', hws, hlabels⟩ := h
  obtain rfl := Option.some.inj (hm.symm.trans hm')
  -- only the labels among the operands matter, and all of them are near
  have hoperands : ∀ t ∈ w.operands,
      (labels'.filter fun t _ => w.operands.contains t)[t]? = labels'[t]? := by
    intro t ht
    rw [Std.HashMap.getElem?_filter']
    cases labels'[t]? with
    | none => rfl
    | some a => simp [ht]
  rw [← Mnemonic.encode_congr hoperands] at hws
  refine Mnemonic.encode_nearer (fun t a ha => ?_) hsize hknown ?_ hws
  · rw [Std.HashMap.getElem?_filter'] at ha
    obtain ⟨ha, hmem⟩ := Option.filter_eq_some_iff.1 ha
    obtain ⟨a', ha', hfar⟩ := hnear t (hlabels t (List.contains_iff_mem.1 hmem) a ha)
    exact ⟨a', ha', fun hfar' => absurd hfar' hfar⟩
  · obtain ⟨n'', hn'', hsame⟩ := Mnemonic.size_known hsize' elide known
    obtain rfl := Except.ok.inj (hsize.symm.trans hn'')
    exact hsame

end Written

/-! ### The first pass -/

namespace Plan

variable {elide : Bool} {p q : Plan}

theorem new_of_define {name : Text} (h : p.define name = .ok q) : p.labels[name]? = none := by
  unfold define at h
  split at h
  · cases h
  · next hnew => exact Std.HashMap.getElem?_eq_none (by simpa using hnew)

/-- What is defined one after the other is new and distinct. -/
theorem new_of_defineAll {names : List Text} (h : names.foldlM define p = .ok q) :
    names.Nodup ∧ ∀ t ∈ names, p.labels[t]? = none := by
  induction names generalizing p with
  | nil => exact ⟨List.nodup_nil, List.forall_mem_nil _⟩
  | cons name names ih =>
      obtain ⟨r, hr, h⟩ := foldlM_cons_ok_iff.1 h
      obtain ⟨hnodup, hnew⟩ := ih h
      obtain ⟨-, -, hdefined⟩ := define_ok hr
      have hname : name ∉ names := by
        intro hmem
        have := hdefined.new name (List.mem_singleton.2 rfl)
        rw [hnew name hmem] at this
        cases this
      refine ⟨List.nodup_cons.2 ⟨hname, hnodup⟩, List.forall_mem_cons.2 ⟨new_of_define hr, ?_⟩⟩
      intro t ht
      rw [← hdefined.other fun hmem => hname (List.mem_singleton.1 hmem ▸ ht), hnew t ht]

/-- **The first pass takes no label twice.** -/
theorem new_of_addAll {ss : List Statement} (h : ss.foldlM (Plan.add elide) p = .ok q) :
    (ss.flatMap Statement.labels).Nodup ∧
      ∀ t ∈ ss.flatMap Statement.labels, p.labels[t]? = none := by
  induction ss generalizing p with
  | nil => exact ⟨List.nodup_nil, List.forall_mem_nil _⟩
  | cons s ss ih =>
      obtain ⟨r, hr, h⟩ := foldlM_cons_ok_iff.1 h
      obtain ⟨hnodup, hnew⟩ := ih h
      obtain ⟨hdefined, -⟩ := add_ok hr
      obtain ⟨r', hr', -⟩ := bind_ok_iff.1 hr
      obtain ⟨hnodup', hnew'⟩ := new_of_defineAll hr'
      have hapart : ∀ t ∈ s.labels, t ∉ ss.flatMap Statement.labels := by
        intro t ht hmem
        have := hdefined.new t ht
        rw [hnew t hmem] at this
        cases this
      rw [List.flatMap_cons]
      refine ⟨List.nodup_append.2 ⟨hnodup', hnodup, ?_⟩, List.forall_mem_append.2 ⟨hnew', ?_⟩⟩
      · rintro t ht _ hmem rfl
        exact hapart t ht hmem
      · intro t ht
        rw [← hdefined.other fun hmem => hapart t hmem ht, hnew t ht]

/-- **The first pass takes instructions that fit**, if no label comes twice. -/
theorem addAll_of_fits (elide : Bool) {ss : List Statement} {names : List Text}
    (hfits : ∀ s ∈ ss, ∀ w, s.instruction = some w → w.Fits names)
    (hnodup : (ss.flatMap Statement.labels).Nodup)
    (hnew : ∀ t ∈ ss.flatMap Statement.labels, p.labels[t]? = none) :
    ∃ q, ss.foldlM (Plan.add elide) p = .ok q := by
  induction ss generalizing p with
  | nil => exact ⟨p, rfl⟩
  | cons s ss ih =>
      obtain ⟨hs, hfits⟩ := List.forall_mem_cons.1 hfits
      rw [List.flatMap_cons] at hnodup hnew
      obtain ⟨hlabels, hnodup, hapart⟩ := List.nodup_append.1 hnodup
      obtain ⟨hnew, hlater⟩ := List.forall_mem_append.1 hnew
      obtain ⟨r, hr⟩ := Listing.define_all hlabels hnew
      have hadd : ∃ r', p.add elide s = .ok r' := by
        rw [Plan.add, hr, ok_bind]
        cases hw : s.instruction with
        | none => exact ⟨r, rfl⟩
        | some w =>
            obtain ⟨m, n, hm, hsize⟩ := (hs w hw).size elide r.labels
            simp only [Plan.place, hm, hsize, ok_bind]
            exact ⟨_, rfl⟩
      obtain ⟨r', hr'⟩ := hadd
      obtain ⟨hdefined, -⟩ := add_ok hr'
      obtain ⟨q, hq⟩ := ih hfits hnodup fun t ht => by
        rw [hdefined.other fun hmem => hapart t hmem t ht rfl, hlater t ht]
      exact ⟨q, foldlM_cons_ok_iff.2 ⟨r', hr', hq⟩⟩

end Plan

/-! ### Both passes -/

/-- Fewer than 2^15 words are laid out for lines, if the first pass takes them. -/
def Small (elide : Bool) (lines : List Text) : Prop :=
  ∀ ss plan, Statement.parseAll lines = .ok ss → layOut elide ss = .ok plan →
    totalWords plan.sized.toList < 2 ^ 15

/-- No branch among fewer than 2^15 words is too far from its label. -/
theorem not_far_of_small {k a : Nat} (hk : k < 2 ^ 15) (ha : a < 2 ^ 15) :
    ¬Far (addressOf k) (addressOf a) := by
  rw [Far, Word.distance_addressOf (by omega) (by omega)]
  omega

variable {ss : List Statement}

/-- The second pass takes instructions that fit, where all labels are near. -/
theorem emit_of_fits {plan : Plan} (hplan : layOut elide ss = .ok plan)
    (hsmall : totalWords plan.sized.toList < 2 ^ 15)
    (hfits : ∀ s ∈ ss, ∀ w, s.instruction = some w → w.Fits (ss.flatMap Statement.labels)) :
    ∃ image, emit plan = .ok image := by
  have hplanned := layOut_planned hplan
  cases hemit : emit plan with
  | ok image => exact ⟨image, rfl⟩
  | error e =>
      -- the second pass stops at a record, whose instruction fits
      obtain ⟨ys, x, zs, image, hsplit, hys, hx⟩ := foldlM_error_iff.1 hemit
      obtain ⟨c, hc, rfl⟩ := mapError_error_iff.1 hx
      obtain ⟨hlabels, hsize⟩ := Image.addAll_ok (foldlM_mapError_ok_iff.1 hys)
      obtain ⟨before, s, after, w, known, hss, hsome, hsized, hknown, -⟩ :=
        hplanned.at_record hsplit
      have hpc : image.endAddress = addressOf (totalWords ys) := by
        rw [Image.endAddress, hsize]
        simp [addressOf]
      have htotal : totalWords plan.sized.toList = totalWords ys + totalWords (x :: zs) := by
        rw [hsplit, totalWords_append]
      have hnear : ∀ t ∈ ss.flatMap Statement.labels,
          ∃ a, plan.labels[t]? = some a ∧ ¬Far (addressOf (totalWords ys)) a := by
        intro t ht
        obtain ⟨s', hs', ht⟩ := List.mem_flatMap.1 ht
        obtain ⟨i, hi⟩ := List.mem_iff_getElem?.1 hs'
        obtain ⟨ys', zs', hsplit', ha, -⟩ := hplanned.label hi ht
        rw [hsplit', totalWords_append] at hsmall htotal
        exact ⟨_, ha, not_far_of_small (by omega) (by omega)⟩
      have hsize := hsized.words
      rw [hsized.operands] at hsize
      obtain ⟨ws, hws, hlength⟩ := (hfits s (hss ▸ by simp) w hsome).encode hsized.mnemonic hsize
        hknown hnear
      rw [Image.add, hpc, hlabels, hsized.operands] at hc
      simp only [hws, ok_bind, if_pos hlength] at hc
      cases hc

/-- What is assembled has distinct labels and instructions that fit. -/
theorem fits_of_assemble {lines : List Text} {image : Image}
    (hss : Statement.parseAll lines = .ok ss) (himage : assemble elide lines = .ok image) :
    (ss.flatMap Statement.labels).Nodup ∧
      ∀ s ∈ ss, ∀ w, s.instruction = some w → w.Fits (ss.flatMap Statement.labels) := by
  obtain ⟨ss', plan, parts, hss', hplan, hlabels, -, hemitted⟩ := assemble_emitted himage
  obtain rfl := Except.ok.inj (hss.symm.trans hss')
  have hadd := foldlM_mapError_ok_iff.1 hplan
  refine ⟨(Plan.new_of_addAll hadd).1, fun s hs w hw => ?_⟩
  obtain ⟨i, hi⟩ := List.mem_iff_getElem?.1 hs
  obtain ⟨x, -, ws, known, -, hsized, -, -, hws, -⟩ := hemitted.instruction_part hi hw
  have hsize := hsized.words
  rw [hsized.operands] at hsize hws
  refine ⟨_, _, _, _, _, _, _, hsized.mnemonic, hsize, hws, fun t _ a ha => ?_⟩
  rw [hlabels] at ha
  rcases label_of_addAll hadd ha with hnone | ⟨s', hs', ht⟩
  · simp at hnone
  · exact List.mem_flatMap.2 ⟨s', hs', ht⟩

/-- **A small program is assembled exactly if its labels are distinct and its instructions fit.** -/
theorem assembles_iff {lines : List Text} (hss : Statement.parseAll lines = .ok ss)
    (hsmall : Small elide lines) :
    (∃ image, assemble elide lines = .ok image) ↔
      (ss.flatMap Statement.labels).Nodup ∧
        ∀ s ∈ ss, ∀ w, s.instruction = some w → w.Fits (ss.flatMap Statement.labels) := by
  refine ⟨fun ⟨image, himage⟩ => fits_of_assemble hss himage, ?_⟩
  rintro ⟨hnodup, hfits⟩
  obtain ⟨plan, hadd⟩ := Plan.addAll_of_fits elide (p := {}) hfits hnodup (by simp)
  have hplan : layOut elide ss = .ok plan := foldlM_mapError_ok_iff.2 hadd
  obtain ⟨image, himage⟩ := emit_of_fits hplan (hsmall ss plan hss hplan) hfits
  refine ⟨image, ?_⟩
  rw [assemble, hss, ok_bind, hplan, ok_bind, himage]
  rfl

end StackCompiler.Assembly
