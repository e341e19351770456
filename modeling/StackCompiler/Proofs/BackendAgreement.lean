/-
**Both targets accept the same programs, up to the limits of the intermediate language.**

For MIPS the instructions of a program are lowered one after the other.  For the intermediate
language they are lowered function by function, each with a range of indices.  The functions are
sorted and each ends where the next one starts, so their ranges are laid end to end: together they
are the program, without what stands behind its last byte, which has no bytes and no faults.  The
first instruction that one target refuses for a fault is therefore the first one that the other
refuses.

* `Lowering.Functions.bodies_of_ofList` — **the functions of a program are the program**, in order
  and without what has no bytes at its end;
* `Lowering.backends_agree` — **both accept the same programs up to these limits**.
-/

import StackCompiler.Proofs.InstructionFaults
import StackCompiler.Proofs.PlacedMarkers

namespace StackCompiler.Lowering

open Instruction (offset_le target totalSize offsets)

/-! ### Functions laid end to end -/

namespace Functions

/-- The instructions of a function. -/
def body (located : List (Instruction × Nat)) (f : Function) : List (Instruction × Nat) :=
  (located.take f.last).drop f.first

theorem take_drop_append {α : Type} (xs : List α) {a b c : Nat} (hab : a ≤ b) (hbc : b ≤ c) :
    (xs.take b).drop a ++ (xs.take c).drop b = (xs.take c).drop a := by
  rw [List.drop_take, List.drop_take, List.drop_take, show c - a = b - a + (c - b) by omega,
    List.take_add, List.drop_drop, Nat.add_sub_cancel' hab]

/-- Ranges each of which starts where the one before it ends are one range. -/
theorem ranges_flatten {α : Type} (xs : List α) (cut : Nat → Nat)
    (hcut : ∀ {m n : Nat}, m ≤ n → cut m ≤ cut n) {start stop : Nat} {starts : List Nat}
    (hsorted : (start :: starts).Pairwise (· ≤ ·)) (hstop : ∀ n ∈ start :: starts, n ≤ stop) :
    ((start :: starts).zip (starts ++ [stop])).flatMap
      (fun r => (xs.take (cut r.2)).drop (cut r.1)) = (xs.take (cut stop)).drop (cut start) := by
  induction starts generalizing start with
  | nil => simp
  | cons next starts ih =>
      obtain ⟨hle, hsorted⟩ := List.pairwise_cons.1 hsorted
      obtain ⟨-, hstop⟩ := List.forall_mem_cons.1 hstop
      rw [List.cons_append, List.zip_cons_cons, List.flatMap_cons, ih hsorted hstop]
      exact take_drop_append xs (hcut (hle next List.mem_cons_self))
        (hcut (hstop next List.mem_cons_self))

variable {list : List Instruction} {implicitEntry : Bool} {fs : Functions}

theorem findIdx_le_of_le (offsets : List Nat) {m n : Nat} (h : m ≤ n) :
    offsets.findIdx (m ≤ ·) ≤ offsets.findIdx (n ≤ ·) := by
  refine List.findIdx_le_findIdx fun o _ ho => ?_
  exact decide_eq_true (Nat.le_trans h (of_decide_eq_true ho))

theorem findIdx_zero (offsets : List Nat) : offsets.findIdx (0 ≤ ·) = 0 := by
  cases offsets <;> simp [List.findIdx_cons]

variable {x : Instruction × Nat}

/-- Calls go to places where something starts. -/
theorem startsAt_of_invoke (hfs : ofList list implicitEntry = .ok fs)
    (hx : x ∈ list.zip (offsets list)) (hop : x.1.op = .invoke) :
    fs.startsAt x.1.target = true := by
  have hcalls := (ofList_ok hfs).1
  rw [badCall?, List.findSome?_eq_none_iff] at hcalls
  rw [startsAt, boundaries_of_ofList hfs]
  simpa [hop] using hcalls x hx

theorem le_totalSize_of_mem_startsIn (hfs : ofList list implicitEntry = .ok fs) {n : Nat}
    (hn : n ∈ startsIn (list.zip (offsets list))) : n ≤ totalSize list := by
  have hoffset : ∀ x ∈ list.zip (offsets list), x.2 ≤ totalSize list := by
    intro x hx
    have := (Instruction.bounds_of_mem_offsetsFrom (List.of_mem_zip hx).2).2
    omega
  rcases mem_startsIn.1 hn with rfl | ⟨x, hx, hstart⟩
  · exact Nat.zero_le _
  · unfold startsOf at hstart
    split at hstart
    · rw [List.mem_singleton.1 hstart]
      exact hoffset x hx
    · split at hstart
      · next hop =>
        -- a function that is called starts at an instruction
        have hcall := startsAt_of_invoke hfs hx hop
        rw [target, if_pos hop, startsAt, boundaries_of_ofList hfs] at hcall
        obtain ⟨y, hy, hat⟩ := List.any_eq_true.1
          ((contains_boundariesOf _ (x.1.half 0)).symm.trans hcall)
        rw [Bool.and_eq_true, beq_iff_eq] at hat
        rw [List.mem_singleton.1 hstart, ← hat.2]
        exact hoffset y hy
      · cases hstart

/-- Where the functions have ended, offsets are behind the last byte. -/
theorem le_of_behind (hx : x ∈ (list.zip (offsets list)).drop
      ((offsets list).findIdx (totalSize list ≤ ·))) :
    totalSize list ≤ x.2 := by
  obtain ⟨i, hi⟩ := List.mem_iff_getElem?.1 hx
  rw [List.getElem?_drop] at hi
  obtain ⟨-, ho⟩ := List.getElem?_zip_eq_some.1 hi
  have hfirst : (offsets list).findIdx (totalSize list ≤ ·) < (offsets list).length := by
    have := (List.getElem?_eq_some_iff.1 ho).1
    omega
  have hle := of_decide_eq_true (List.findIdx_getElem (w := hfirst))
  have hmono := offset_le (List.getElem?_eq_getElem hfirst) ho (Nat.le_add_right _ i)
  omega

theorem noBytes_of_behind (hx : x ∈ (list.zip (offsets list)).drop
      ((offsets list).findIdx (totalSize list ≤ ·))) : x.1.width = 0 := by
  have hle := le_of_behind hx
  obtain ⟨i, hi⟩ := List.mem_iff_getElem?.1 (List.mem_of_mem_drop hx)
  obtain ⟨hins, ho⟩ := List.getElem?_zip_eq_some.1 hi
  have hend := Instruction.offset_add_width_le ho hins
  omega

theorem startsIn_eq_cons (located : List (Instruction × Nat)) :
    ∃ starts, startsIn located = 0 :: starts := by
  have hzero : 0 ∈ startsIn located := mem_startsIn.2 (Or.inl rfl)
  have hsorted : (startsIn located).Pairwise (· < ·) := pairwise_startsIn
  cases hstarts : startsIn located with
  | nil =>
      rw [hstarts] at hzero
      cases hzero
  | cons start starts =>
      rw [hstarts] at hzero hsorted
      rcases List.mem_cons.1 hzero with rfl | hlater
      · exact ⟨starts, rfl⟩
      · exact absurd ((List.pairwise_cons.1 hsorted).1 0 hlater) (Nat.not_lt_zero start)

/-- The ranges of the functions are laid end to end, up to the last byte. -/
theorem flatMap_body (hfs : ofList list implicitEntry = .ok fs) :
    let located := list.zip (offsets list)
    fs.functions.flatMap (body located) =
      located.take ((offsets list).findIdx (totalSize list ≤ ·)) := by
  intro located
  obtain ⟨starts, hstarts⟩ := startsIn_eq_cons located
  have hsorted : (startsIn located).Pairwise (· ≤ ·) := pairwise_startsIn.imp Nat.le_of_lt
  have hstop : ∀ n ∈ startsIn located, n ≤ totalSize list :=
    fun n => le_totalSize_of_mem_startsIn hfs
  rw [hstarts] at hsorted hstop
  have hranges := ranges_flatten located
    (fun n => (offsets list).findIdx (n ≤ ·)) (findIdx_le_of_le _) hsorted hstop
  rw [findIdx_zero, List.drop_zero] at hranges
  rw [← hranges, (ofList_ok hfs).2.2.1, hstarts, List.flatMap_map]
  rfl

/-- **The functions of a program are the program**, in order and without what has no bytes at its
end. -/
theorem bodies_of_ofList (hfs : ofList list implicitEntry = .ok fs) :
    let located := list.zip (offsets list)
    ∃ behind, located = fs.functions.flatMap (body located) ++ behind ∧
      ∀ x ∈ behind, x.1.width = 0 := by
  intro located
  refine ⟨located.drop ((offsets list).findIdx (totalSize list ≤ ·)), ?_,
    fun x => noBytes_of_behind⟩
  rw [flatMap_body hfs, List.take_append_drop]

end Functions

/-! ### MIPS -/

namespace Mips

variable {c : Context} {ins : Instruction} {kind : Kind}

theorem add_of_sound (p : Progress) (offset : Nat) (h : Sound c.frame c.functions ins) :
    ∃ q, p.add c ins offset = .ok q := by
  obtain ⟨ls, hls⟩ := lines_operation offset h
  have hdraft : draft c offset ins = .ok (.place offset ins :: ls) := map_ok_iff.2 ⟨ls, hls, rfl⟩
  rw [Progress.add]
  split
  · exact ⟨_, rfl⟩
  · exact ⟨_, rfl⟩
  · exact ⟨_, rfl⟩
  · rw [hdraft]
    exact ⟨_, rfl⟩

theorem add_of_faulty (p : Progress) (offset : Nat) (h : Faulty c.frame c.functions ins kind) :
    ∃ cause, cause.kind = kind ∧ p.add c ins offset = .error (.instruction offset ins cause) := by
  obtain ⟨cause, hkind, hthrow⟩ := operation_of_faulty offset h
  have hdraft : draft c offset ins = .error cause := by
    rw [draft, hthrow]
    rfl
  refine ⟨cause, hkind, ?_⟩
  rw [Progress.add_eq (h.ordinary), hdraft]

variable {p : Program} {s : Settings} {fs : Functions}

theorem lower_of_sound (hcheck : (Frame.ofProgram p s).check = .ok ())
    (hfs : Functions.ofList p.instructions s.features.implicitEntry = .ok fs)
    (hsound : ∀ x ∈ p.instructions.zip (offsets p.instructions),
      Sound (Frame.ofProgram p s) fs x.1) : ∃ out, lower p s = .ok out := by
  obtain ⟨w, hw⟩ := foldlM_ok_of_steps
    (f := fun w x => Progress.add ⟨Frame.ofProgram p s, fs⟩ w x.1 x.2)
    (fun w x hx => add_of_sound w x.2 (hsound x hx)) {}
  obtain ⟨out, hout, -⟩ := lower_of_parts hcheck hfs hw
  exact ⟨out, hout⟩

/-- **MIPS refuses a program at its first fault.** -/
theorem lower_of_faulty {before after : List (Instruction × Nat)} {x : Instruction × Nat}
    (hcheck : (Frame.ofProgram p s).check = .ok ())
    (hfs : Functions.ofList p.instructions s.features.implicitEntry = .ok fs)
    (hlocated : p.instructions.zip (offsets p.instructions) = before ++ x :: after)
    (hsound : ∀ y ∈ before, Sound (Frame.ofProgram p s) fs y.1)
    (hfaulty : Faulty (Frame.ofProgram p s) fs x.1 kind) :
    ∃ cause, cause.kind = kind ∧ lower p s = .error (.instruction x.2 x.1 cause) := by
  obtain ⟨w, hw⟩ := foldlM_ok_of_steps
    (f := fun w x => Progress.add ⟨Frame.ofProgram p s, fs⟩ w x.1 x.2)
    (fun w y hy => add_of_sound w y.2 (hsound y hy)) {}
  obtain ⟨cause, hkind, hadd⟩ := add_of_faulty (c := ⟨Frame.ofProgram p s, fs⟩) w x.2 hfaulty
  have hwalk := foldlM_error_iff.2 ⟨before, x, after, w, hlocated, hw, hadd⟩
  refine ⟨cause, hkind, bind_error_iff.2 (Or.inr ⟨(), hcheck, ?_⟩)⟩
  exact bind_error_iff.2 (Or.inr ⟨fs, hfs, bind_error_iff.2 (Or.inl hwalk)⟩)

end Mips

/-! ### The intermediate language -/

namespace ToIl

open Writing

variable {c : Context} {ins : Instruction} {offset : Nat} {q : Progress}

theorem instruction_eq (hins : Mips.Ordinary ins) (temps : Nat) :
    instruction c temps offset ins = (operation c offset ins).lines temps >>= fun r =>
      pure (.block (.place offset) :: .comment ins.render :: r.1, r.2) := by
  obtain ⟨hmarker, hunknown⟩ := hins
  rw [instruction]
  split
  iterate 2 · next hop => rw [hop] at hmarker; cases hmarker
  · next n hop => exact absurd hop (hunknown n)
  · rfl

theorem instruction_of_faulty {kind : Kind} (h : Faulty c.frame c.functions ins kind)
    (hcall : ins.op = .invoke → c.functions.startsAt ins.target = true) (temps offset : Nat) :
    ∃ cause, cause.kind = kind ∧ instruction c temps offset ins = .error cause := by
  obtain ⟨cause, hkind, hthrow⟩ := operation_of_faulty offset h hcall
  refine ⟨cause, hkind, ?_⟩
  rw [instruction_eq (h.ordinary), hthrow]
  rfl

theorem sound_of_add {r : Progress}
    (hcall : ins.op = .invoke → c.functions.startsAt ins.target = true)
    (h : q.add c ins offset = .ok r) : Sound c.frame c.functions ins := by
  intro kind hfaulty
  obtain ⟨cause, -, hcause⟩ := instruction_of_faulty hfaulty hcall q.temps offset
  rw [Progress.add, hcause] at h
  cases h

variable {e : Failure}

/-- An instruction is refused for a fault, or for a limit of the intermediate language. -/
theorem add_error (hcall : ins.op = .invoke → c.functions.startsAt ins.target = true)
    (h : q.add c ins offset = .error e) :
    ∃ cause, e = .instruction offset ins cause ∧
      (Faulty c.frame c.functions ins cause.kind ∨ cause.kind.IsLimit) := by
  rw [Progress.add] at h
  split at h
  · cases h
  next cause hcause =>
  refine ⟨cause, (Except.error.inj h).symm, ?_⟩
  by_cases hsound : Sound c.frame c.functions ins
  · refine Or.inr ?_
    rw [instruction] at hcause
    split at hcause
    iterate 3 cases hcause
    · rcases bind_error_iff.1 hcause with hcause | ⟨r, -, hcause⟩
      · exact failsOnly_operation offset hsound _ _ (map_error_iff.1 hcause)
      · cases hcause
  · obtain ⟨kind, hfaulty⟩ : ∃ kind, Faulty c.frame c.functions ins kind := by
      simpa [Sound] using hsound
    obtain ⟨cause', rfl, hcause'⟩ := instruction_of_faulty hfaulty hcall q.temps offset
    rw [hcause] at hcause'
    obtain rfl := Except.error.inj hcause'
    exact Or.inl hfaulty

variable {xs : List (Instruction × Nat)} {temps : Nat}

theorem sound_of_function {r : Il.Function × Nat}
    (hcall : ∀ x ∈ xs, x.1.op = .invoke → c.functions.startsAt x.1.target = true)
    (h : function c xs temps = .ok r) : ∀ x ∈ xs, Sound c.frame c.functions x.1 := by
  intro x hx
  obtain ⟨w, hw, -⟩ := bind_ok_iff.1 h
  obtain ⟨q, q', hq⟩ := foldlM_ok_step hw hx
  exact sound_of_add (hcall x hx) hq

/-- **A function is refused at its first fault**, or at a limit before it. -/
theorem function_error (hcall : ∀ x ∈ xs, x.1.op = .invoke → c.functions.startsAt x.1.target = true)
    (h : function c xs temps = .error e) :
    ∃ before x after cause, xs = before ++ x :: after ∧
      (∀ y ∈ before, Sound c.frame c.functions y.1) ∧ e = .instruction x.2 x.1 cause ∧
      (Faulty c.frame c.functions x.1 cause.kind ∨ cause.kind.IsLimit) := by
  rcases bind_error_iff.1 h with h | ⟨w, -, h⟩
  · obtain ⟨before, x, after, w, rfl, hw, hx⟩ := foldlM_error_iff.1 h
    obtain ⟨cause, he, hcause⟩ := add_error (hcall x (by simp)) hx
    refine ⟨before, x, after, cause, rfl, fun y hy => ?_, he, hcause⟩
    obtain ⟨q, q', hq⟩ := foldlM_ok_step hw hy
    exact sound_of_add (hcall y (List.mem_append_left _ hy)) hq
  · cases h

/-- Adds a function to those that are lowered. -/
def addFunction (cell : Cell) (frame : Frame) (fs : Functions)
    (located : List (Instruction × Nat)) (d : List Il.Function × Nat) (f : Lowering.Function) :
    Except Failure (List Il.Function × Nat) := do
  let r ← function ⟨cell, frame, fs, f⟩ (Functions.body located f) d.2
  return (d.1 ++ [r.1], r.2)

variable {p : Program} {s : Settings} {fs : Functions}

theorem mem_of_mem_body {located : List (Instruction × Nat)} {f : Lowering.Function}
    {x : Instruction × Nat} (h : x ∈ Functions.body located f) : x ∈ located :=
  List.mem_of_mem_take (List.mem_of_mem_drop h)

theorem sound_of_functions {list : List Instruction} {implicitEntry : Bool} {cell : Cell}
    {frame : Frame} (hfs : Functions.ofList list implicitEntry = .ok fs)
    {functions : List Lowering.Function} {d r : List Il.Function × Nat}
    (h : functions.foldlM (addFunction cell frame fs (list.zip (offsets list))) d =
      .ok r) :
    ∀ x ∈ functions.flatMap (Functions.body (list.zip (offsets list))), Sound frame fs x.1 := by
  intro x hx
  obtain ⟨f, hf, hx⟩ := List.mem_flatMap.1 hx
  obtain ⟨d, d', hd⟩ := foldlM_ok_step h hf
  obtain ⟨g, hg, -⟩ := bind_ok_iff.1 hd
  exact sound_of_function
    (fun y hy hop => Functions.startsAt_of_invoke hfs (mem_of_mem_body hy) hop) hg x hx

theorem sound_of_lower {out : Output} (h : lower p s = .ok out) :
    ∃ fs, (Frame.ofProgram p s).check = .ok () ∧
      Functions.ofList p.instructions s.features.implicitEntry = .ok fs ∧
      ∀ x ∈ p.instructions.zip (offsets p.instructions), Sound (Frame.ofProgram p s) fs x.1 := by
  obtain ⟨⟨⟩, hcheck, h⟩ := bind_ok_iff.1 h
  obtain ⟨fs, hfs, h⟩ := bind_ok_iff.1 h
  obtain ⟨r, hwalk, -⟩ := bind_ok_iff.1 h
  obtain ⟨behind, hlocated, hbehind⟩ := Functions.bodies_of_ofList hfs
  refine ⟨fs, hcheck, hfs, fun x hx => ?_⟩
  rw [hlocated] at hx
  rcases List.mem_append.1 hx with hx | hx
  · exact sound_of_functions hfs hwalk x hx
  · exact sound_of_noBytes (hbehind x hx)

/-- **The functions of a program are refused at its first fault**, or at a limit before it. -/
theorem functions_error {list : List Instruction} {implicitEntry : Bool} {cell : Cell}
    {frame : Frame} (hfs : Functions.ofList list implicitEntry = .ok fs)
    {d : List Il.Function × Nat}
    (h : fs.functions.foldlM (addFunction cell frame fs (list.zip (offsets list))) d =
      .error e) :
    ∃ before x after cause, list.zip (offsets list) = before ++ x :: after ∧
      (∀ y ∈ before, Sound frame fs y.1) ∧ e = .instruction x.2 x.1 cause ∧
      (Faulty frame fs x.1 cause.kind ∨ cause.kind.IsLimit) := by
  obtain ⟨behind, hlocated, -⟩ := Functions.bodies_of_ofList hfs
  -- one function is refused, behind others that are accepted
  obtain ⟨done, f, later, d', hfunctions, hdone, hstep⟩ := foldlM_error_iff.1 h
  rcases bind_error_iff.1 hstep with hf | ⟨g, -, hstep⟩
  · obtain ⟨before, x, after, cause, hbody, hbefore, he, hcause⟩ := function_error
      (fun y hy hop => Functions.startsAt_of_invoke hfs (mem_of_mem_body hy) hop) hf
    refine ⟨done.flatMap (Functions.body (list.zip (offsets list))) ++ before, x,
      after ++ (later.flatMap (Functions.body (list.zip (offsets list))) ++ behind),
      cause, ?_, ?_, he, hcause⟩
    · rw [hfunctions, List.flatMap_append, List.flatMap_cons, hbody] at hlocated
      simpa only [List.append_assoc, List.cons_append] using hlocated
    · exact List.forall_mem_append.2 ⟨sound_of_functions hfs hdone, hbefore⟩
  · cases hstep

theorem lower_error (h : lower p s = .error e) :
    (Frame.ofProgram p s).check = .error e ∨ (Frame.ofProgram p s).check = .ok () ∧
      (Functions.ofList p.instructions s.features.implicitEntry = .error e ∨
        ∃ fs, Functions.ofList p.instructions s.features.implicitEntry = .ok fs ∧
          ∃ before x after cause,
            p.instructions.zip (offsets p.instructions) = before ++ x :: after ∧
            (∀ y ∈ before, Sound (Frame.ofProgram p s) fs y.1) ∧ e = .instruction x.2 x.1 cause ∧
            (Faulty (Frame.ofProgram p s) fs x.1 cause.kind ∨ cause.kind.IsLimit)) := by
  rcases bind_error_iff.1 h with hcheck | ⟨⟨⟩, hcheck, h⟩
  · exact Or.inl hcheck
  refine Or.inr ⟨hcheck, ?_⟩
  rcases bind_error_iff.1 h with hfs | ⟨fs, hfs, h⟩
  · exact Or.inl hfs
  refine Or.inr ⟨fs, hfs, ?_⟩
  rcases bind_error_iff.1 h with hwalk | ⟨r, -, h⟩
  · exact functions_error hfs hwalk
  · cases h

end ToIl

/-! ### Agreement -/

variable {p : Program} {s : Settings}

/-- What the intermediate language refuses, without coming to a limit, MIPS refuses too. -/
theorem lower_refused {e : Failure} (h : ToIl.lower p s = .error e) :
    e.kind.IsLimit ∨ ∃ e', Mips.lower p s = .error e' ∧ e'.kind = e.kind ∧
      e'.offset? = e.offset? := by
  rcases ToIl.lower_error h with hcheck | ⟨hcheck, hfs | ⟨fs, hfs, h⟩⟩
  · exact Or.inr ⟨e, bind_error_iff.2 (Or.inl hcheck), rfl, rfl⟩
  · refine Or.inr ⟨e, bind_error_iff.2 (Or.inr ⟨(), hcheck, ?_⟩), rfl, rfl⟩
    exact bind_error_iff.2 (Or.inl hfs)
  · obtain ⟨before, x, after, cause, hlocated, hbefore, rfl, hfaulty | hlimit⟩ := h
    · obtain ⟨cause', hkind, hlower⟩ := Mips.lower_of_faulty hcheck hfs hlocated hbefore hfaulty
      exact Or.inr ⟨_, hlower, hkind, rfl⟩
    · exact Or.inl hlimit

/-- **Both targets accept the same programs up to the limits of the intermediate language.**  What
it accepts MIPS accepts; what only it refuses leaves a function or asks for a service that it does
not have; and if it refuses a program for anything else, MIPS does for the same kind of failure, at
the same instruction if it is about one. -/
theorem backends_agree (p : Program) (s : Settings) :
    (∀ out, ToIl.lower p s = .ok out → ∃ out', Mips.lower p s = .ok out') ∧
    (∀ out e, Mips.lower p s = .ok out → ToIl.lower p s = .error e →
      e.kind = .crossFunction ∨ e.kind = .unsupportedService) ∧
    ∀ e, ToIl.lower p s = .error e → e.kind ≠ .crossFunction → e.kind ≠ .unsupportedService →
      ∃ e', Mips.lower p s = .error e' ∧ e'.kind = e.kind ∧ e'.offset? = e.offset? := by
  refine ⟨fun out hout => ?_, fun out e hout he => ?_, fun e he hcross hservice => ?_⟩
  · obtain ⟨fs, hcheck, hfs, hsound⟩ := ToIl.sound_of_lower hout
    exact Mips.lower_of_sound hcheck hfs hsound
  · rcases lower_refused he with hlimit | ⟨e', he', -⟩
    · exact hlimit
    · rw [hout] at he'
      cases he'
  · exact (lower_refused he).resolve_left fun hlimit => hlimit.elim hcross hservice

/-- A program that both accept, one with a service that only MIPS passes on, and one that names a
slot that no frame has. -/
theorem backends_agree_slot :
    let plain : Program := ⟨[⟨.iconst, [1], []⟩, ⟨.ret, [], []⟩], 1⟩
    let service : Program := ⟨[⟨.syscall, [99, 0], []⟩], 1⟩
    let slot : Program := ⟨[⟨.iconst, [1], []⟩, ⟨.load, [99], []⟩], 1⟩
    ((∃ out, ToIl.lower plain {} = .ok out) ∧ ∃ out, Mips.lower plain {} = .ok out) ∧
    (∃ out e, Mips.lower service {} = .ok out ∧ ToIl.lower service {} = .error e ∧
      (e.kind = .crossFunction ∨ e.kind = .unsupportedService)) ∧
    (ToIl.lower slot {} = .error (.instruction 5 ⟨.load, [99], []⟩ (.slotRange 99 16)) ∧
      ∃ e, Mips.lower slot {} = .error e ∧ e.kind = .slotRange ∧ e.offset? = some 5) := by
  intro plain service slot
  obtain ⟨out, hout⟩ := isOk_iff.1 (show (ToIl.lower plain {}).isOk = true by decide +kernel)
  obtain ⟨out', hout'⟩ := isOk_iff.1 (show (Mips.lower service {}).isOk = true by decide +kernel)
  have hservice : ToIl.lower service {} =
      .error (.instruction 0 ⟨.syscall, [99, 0], []⟩ (.unsupportedService 99)) := by decide +kernel
  have hslot : ToIl.lower slot {} =
      .error (.instruction 5 ⟨.load, [99], []⟩ (.slotRange 99 16)) := by decide +kernel
  refine ⟨⟨⟨out, hout⟩, (backends_agree plain {}).1 out hout⟩,
    ⟨out', _, hout', hservice, (backends_agree service {}).2.1 out' _ hout' hservice⟩, hslot, ?_⟩
  exact (backends_agree slot {}).2.2 _ hslot (by decide) (by decide)

end StackCompiler.Lowering
