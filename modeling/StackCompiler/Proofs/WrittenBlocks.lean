/-
**The blocks of an instruction.**

An instruction is written as a block of its own.  Most instructions are straight lines; a jump with
a condition starts a block behind it, a call two, and a return two.  Jumps go to these blocks or to
places in the same function where an instruction starts, and a call needs the room that is made for
it when its function starts.

* `Lowering.ToIl.divided_instruction` — **the lines of an instruction**.
-/

import StackCompiler.Proofs.BlockStructure
import StackCompiler.Proofs.RenamedPrograms

namespace StackCompiler.Lowering.ToIl

open Il
open Il.Value (temp within_number within_of_room within_temp)
open List (forall_mem_cons forall_mem_nil forall_mem_singleton)

/-! ### Straight lines on cells -/

/-- The cells of four bytes that are words and those of eight bytes that are addresses. -/
def Cell.Standard (c : Cell) : Prop := c = ⟨4, word⟩ ∨ c = ⟨8, long⟩

section Cells

variable {rooms : List Temp} {c : Cell} {t : Temp} {v : Value}

theorem Cell.Standard.type (h : c.Standard) : isKeyword c.type = true := by
  rcases h with rfl | rfl <;> rfl

theorem Cell.Standard.load (h : c.Standard) : isOperation (text "load" ++ c.type) = true := by
  rcases h with rfl | rfl <;> rfl

theorem straight_assign {type : Text} {operation : String} {values : List Value}
    (htype : isKeyword type = true) (hop : isOperation (text operation) = true)
    (ht : (temp t).Within rooms) (hvalues : ∀ v ∈ values, v.Within rooms) :
    (assign t type operation values).Straight rooms := ⟨htype, hop, ht, hvalues⟩

theorem straight_displace {operation : String} {base : Temp}
    (hop : isOperation (text operation) = true) (ht : (temp t).Within rooms)
    (hbase : (temp base).Within rooms) (n : Int64) : (displace t operation base n).Straight rooms :=
  straight_assign rfl hop ht (forall_mem_cons.2
    ⟨hbase, forall_mem_singleton.2 (within_number rooms _)⟩)

theorem straight_load (hc : c.Standard) {address : Temp} (ht : (temp t).Within rooms)
    (haddress : (temp address).Within rooms) : (c.load t address).Straight rooms :=
  ⟨hc.type, hc.load, ht, forall_mem_singleton.2 haddress⟩

theorem straight_store (hc : c.Standard) {address : Temp} (hv : v.Within rooms)
    (haddress : (temp address).Within rooms) : (c.store v address).Straight rooms :=
  ⟨hc.type, hv, haddress⟩

theorem straight_push (hc : c.Standard) (hv : v.Within rooms) : ∀ s ∈ c.push v, s.Straight rooms :=
  forall_mem_cons.2 ⟨straight_store hc hv (within_temp rfl), forall_mem_singleton.2
    (straight_displace rfl (within_temp rfl) (within_temp rfl) _)⟩

theorem straight_pop (hc : c.Standard) (ht : (temp t).Within rooms) :
    ∀ s ∈ c.pop t, s.Straight rooms :=
  forall_mem_cons.2
    ⟨straight_displace rfl (within_temp rfl) (within_temp rfl) _,
      forall_mem_singleton.2 (straight_load hc ht (within_temp rfl))⟩

theorem straight_reserve (ht : (temp t).Within rooms) (n : Int64) :
    (c.reserve t n).Straight rooms := by
  refine straight_assign rfl ?_ ht (forall_mem_singleton.2 (within_number rooms _))
  split <;> rfl

end Cells

/-! ### Writing straight lines -/

namespace Writing

variable {α β : Type} {rooms : List Temp} {Q : α → Prop} {Q' : β → Prop} {scope : Scope}
  {bs : List Block}

/-- **Writing that adds straight lines**, and what is known of its result. -/
def Straight (rooms : List Temp) (Q : α → Prop) (writing : Writing α) : Prop :=
  ∀ d a d', writing d = .ok (a, d') → Q a ∧ ∃ ss : List Statement, (∀ s ∈ ss, s.Straight rooms) ∧
    d'.written = d.written ++ ss.map Line.statement

/-- **Writing that adds lines that are divided into blocks.** -/
def Divides (scope : Scope) (bs : List Block) (writing : Writing α) : Prop :=
  ∀ d a d', writing d = .ok (a, d') → ∃ ls, Divided scope bs ls ∧ d'.written = d.written ++ ls

variable {writing : Writing α}

theorem Straight.bind {next : α → Writing β} (h : Straight rooms Q writing)
    (hnext : ∀ a, Q a → Straight rooms Q' (next a)) : Straight rooms Q' (writing >>= next) := by
  intro d b d' hd
  obtain ⟨⟨a, d₁⟩, hd₁, hd⟩ := bind_ok_iff.1 hd
  obtain ⟨ha, ss, hss, hwritten⟩ := h d a d₁ hd₁
  obtain ⟨hb, ss', hss', hwritten'⟩ := hnext a ha d₁ b d' hd
  refine ⟨hb, ss ++ ss', List.forall_mem_append.2 ⟨hss, hss'⟩, ?_⟩
  rw [hwritten', hwritten, List.append_assoc, List.map_append]

theorem Straight.divides_bind {next : α → Writing β} (h : Straight scope.rooms Q writing)
    (hnext : ∀ a, Q a → Divides scope bs (next a)) : Divides scope bs (writing >>= next) := by
  intro d b d' hd
  obtain ⟨⟨a, d₁⟩, hd₁, hd⟩ := bind_ok_iff.1 hd
  obtain ⟨ha, ss, hss, hwritten⟩ := h d a d₁ hd₁
  obtain ⟨ls, hls, hwritten'⟩ := hnext a ha d₁ b d' hd
  refine ⟨ss.map Line.statement ++ ls, hls.straight_append hss, ?_⟩
  rw [hwritten', hwritten, List.append_assoc]

theorem Straight.divides (h : Straight scope.rooms Q writing)
    (hbs : bs = []) : Divides scope bs writing := by
  subst hbs
  intro d a d' hd
  obtain ⟨-, ss, hss, hwritten⟩ := h d a d' hd
  have hls := Divided.nil.straight_append hss
  rw [List.append_nil] at hls
  exact ⟨_, hls, hwritten⟩

theorem divides_put {ls : List Line} (h : Divided scope bs ls) : Divides scope bs (put ls) := by
  intro d a d' hd
  obtain ⟨-, rfl⟩ := Prod.mk.inj (Except.ok.inj hd)
  exact ⟨ls, h, rfl⟩

theorem straight_pure {a : α} (ha : Q a) : Straight rooms Q (pure a) := by
  intro d a' d' hd
  obtain ⟨rfl, rfl⟩ := Prod.mk.inj (Except.ok.inj hd)
  exact ⟨ha, [], forall_mem_nil _, (List.append_nil _).symm⟩

theorem straight_throw (cause : Cause) : Straight rooms Q (throw cause : Writing α) := by
  intro d a d' hd
  cases hd

theorem straight_emit {ss : List Statement} (hss : ∀ s ∈ ss, s.Straight rooms) :
    Straight rooms (fun _ => True) (emit ss) := by
  intro d a d' hd
  obtain ⟨-, rfl⟩ := Prod.mk.inj (Except.ok.inj hd)
  exact ⟨trivial, ss, hss, rfl⟩

theorem straight_fresh : Straight rooms (fun t => (temp t).Within rooms) fresh := by
  intro d t d' hd
  obtain ⟨rfl, rfl⟩ := Prod.mk.inj (Except.ok.inj hd)
  exact ⟨within_temp rfl, [], forall_mem_nil _, (List.append_nil _).symm⟩

variable {c : Cell}

/-- A statement with a new temporary, which is the result. -/
theorem straight_result {s : Temp → Statement}
    (hs : ∀ t, (temp t).Within rooms → (s t).Straight rooms) :
    Straight rooms (Value.Within rooms) (do let t ← fresh; emit [s t]; return temp t) :=
  straight_fresh.bind fun t ht =>
    (straight_emit (forall_mem_singleton.2 (hs t ht))).bind fun _ _ => straight_pure ht

theorem straight_popped (hc : c.Standard) : Straight rooms (Value.Within rooms) (pop c) :=
  straight_fresh.bind fun _ ht => (straight_emit (straight_pop hc ht)).bind fun _ _ =>
    straight_pure ht

theorem straight_pushed (hc : c.Standard) {v : Value} (hv : v.Within rooms) :
    Straight rooms (fun _ => True) (push c v) := straight_emit (straight_push hc hv)

theorem straight_widen {v : Value} (hv : v.Within rooms) :
    Straight rooms (Value.Within rooms) (widen c v) := by
  unfold widen
  split
  · exact straight_pure hv
  · exact straight_result fun t ht =>
      straight_assign rfl rfl ht (forall_mem_singleton.2 hv)

theorem straight_narrow {t : Temp} (ht : (temp t).Within rooms) :
    Straight rooms (Value.Within rooms) (narrow c t) := by
  unfold narrow
  split
  · exact straight_pure ht
  · exact straight_result fun u hu =>
      straight_assign rfl rfl hu (forall_mem_singleton.2 ht)

end Writing

open Writing

/-! ### Operations on straight lines -/

section Operations

variable {rooms : List Temp} {c : Cell}

theorem straight_binary (hc : c.Standard) {operation : Text} (hop : isOperation operation = true) :
    Straight rooms (fun _ => True) (binary c operation) := by
  refine (straight_popped hc).bind fun _ hb => (straight_popped hc).bind fun _ ha =>
    straight_fresh.bind fun _ hr => (straight_emit (forall_mem_singleton.2 ?_)).bind
      fun _ _ => straight_pushed hc hr
  exact ⟨hc.type, hop, hr, forall_mem_cons.2 ⟨ha, forall_mem_singleton.2 hb⟩⟩

theorem straight_negate (hc : c.Standard) : Straight rooms (fun _ => True) (negate c) := by
  have hop : isOperation (text "ceq" ++ c.type) = true := by rcases hc with rfl | rfl <;> rfl
  refine (straight_popped hc).bind fun _ ha => straight_fresh.bind fun _ hr =>
    (straight_emit (forall_mem_singleton.2 ?_)).bind fun _ _ => straight_pushed hc hr
  exact ⟨hc.type, hop, hr, forall_mem_cons.2
    ⟨ha, forall_mem_singleton.2 (within_number rooms 0)⟩⟩

theorem straight_duplicate (hc : c.Standard) : Straight rooms (fun _ => True) (duplicate c) :=
  straight_fresh.bind fun _ hp => straight_fresh.bind fun _ hv =>
    (straight_emit (forall_mem_cons.2
      ⟨straight_displace rfl hp (within_temp rfl) _,
        forall_mem_singleton.2 (straight_load hc hv hp)⟩)).bind fun _ _ =>
          straight_pushed hc hv

theorem straight_exchange (hc : c.Standard) : Straight rooms (fun _ => True) (exchange c) := by
  refine straight_fresh.bind fun p₁ hp₁ => straight_fresh.bind fun p₂ hp₂ =>
    straight_fresh.bind fun x hx => straight_fresh.bind fun y hy => straight_emit ?_
  simp only [forall_mem_cons]
  exact ⟨straight_displace rfl hp₁ (within_temp rfl) _,
    straight_displace rfl hp₂ (within_temp rfl) _, straight_load hc hx hp₁,
    straight_load hc hy hp₂, straight_store hc hx hp₂, straight_store hc hy hp₁,
    forall_mem_nil _⟩

theorem straight_popArguments (hc : c.Standard) (count : Nat) {arguments : List Value}
    (h : ∀ v ∈ arguments, v.Within rooms) :
    Straight rooms (fun vs => ∀ v ∈ vs, v.Within rooms) (popArguments c count arguments) := by
  induction count generalizing arguments with
  | zero => exact straight_pure h
  | succ count ih =>
      exact (straight_popped hc).bind fun v hv => ih (forall_mem_cons.2 ⟨hv, h⟩)

theorem straight_wordArgument {argument : Option Value} (h : ∀ v ∈ argument, v.Within rooms) :
    Straight rooms (Value.Within rooms) (wordArgument c argument) := by
  unfold wordArgument
  split
  · next v =>
    split
    · exact straight_result fun t ht =>
        straight_assign rfl rfl ht (forall_mem_singleton.2 (h v rfl))
    · exact straight_pure (h v rfl)
  · exact straight_pure (within_number rooms 0)

theorem straight_call {f : Global} {arguments : List Argument} (hf : f.isForeign = true)
    (harguments : ∀ a ∈ arguments, a.Within rooms) :
    Straight rooms (fun _ => True) (emit [.call none f arguments]) := by
  refine straight_emit (forall_mem_singleton.2 ⟨hf, ?_, harguments⟩)
  rintro r ⟨⟩

theorem within_word {v : Value} (hv : v.Within rooms) :
    ∀ a ∈ [Argument.typed word v], a.Within rooms := forall_mem_singleton.2 ⟨rfl, hv⟩

theorem straight_printWith {pattern : Global} {type : Text} {v : Value}
    (htype : isKeyword type = true) (hv : v.Within rooms) :
    Straight rooms (fun _ => True) (printWith pattern type v) := by
  refine straight_call rfl ?_
  simp only [forall_mem_cons]
  exact ⟨⟨rfl, Value.within_global rooms pattern⟩, trivial, ⟨htype, hv⟩, forall_mem_nil _⟩

theorem straight_calloc {t : Temp} {v : Value} {n : Int} (ht : (temp t).Within rooms)
    (hv : v.Within rooms) :
    (Statement.call (some (t, long)) .calloc [.typed long v, .typed long (.number n)]).Straight
      rooms := by
  refine ⟨rfl, ?_, forall_mem_cons.2
    ⟨⟨rfl, hv⟩, forall_mem_singleton.2 ⟨rfl, within_number rooms n⟩⟩⟩
  rintro r ⟨⟩
  exact ⟨rfl, ht⟩

theorem straight_serve (hc : c.Standard) {argument : Option Value}
    (h : ∀ v ∈ argument, v.Within rooms) (s : Service) :
    Straight rooms (Value.Within rooms) (serve c argument s) := by
  have hdefault : (argument.getD (.number 0)).Within rooms := by
    cases argument with
    | none => exact within_number rooms 0
    | some v => exact h v rfl
  have hzero : Straight rooms (Value.Within rooms) (pure (.number 0)) :=
    straight_pure (within_number rooms 0)
  cases s with
  | printNumber => exact (straight_printWith hc.type hdefault).bind fun _ _ => hzero
  | printString =>
      exact (straight_widen hdefault).bind fun _ hv => (straight_printWith rfl hv).bind fun _ _ =>
        hzero
  | printCharacter | exitStatus =>
      exact (straight_wordArgument h).bind fun _ hv =>
        (straight_call rfl (within_word hv)).bind fun _ _ => hzero
  | extendHeap =>
      exact straight_fresh.bind fun p hp => (straight_widen hdefault).bind fun n hn =>
        (straight_emit (forall_mem_singleton.2 (straight_calloc hp hn))).bind fun _ _ =>
          straight_narrow hp
  | exitZero =>
      exact (straight_call rfl (within_word (within_number rooms 0))).bind fun _ _ => hzero

theorem straight_service (hc : c.Standard) (ins : Instruction) :
    Straight rooms (fun _ => True) (service c ins) := by
  dsimp only [service]
  split
  · exact (straight_throw _).bind fun _ (_ : False) => by contradiction
  · refine (straight_popArguments hc _ (forall_mem_nil _)).bind fun arguments h => ?_
    split
    · exact straight_throw _
    · exact (straight_serve hc (fun v hv => h v (List.mem_of_mem_head? hv)) _).bind
        fun v hv => straight_pushed hc hv

theorem straight_newArray (hc : c.Standard) : Straight rooms (fun _ => True) (newArray c) :=
  (straight_popped hc).bind fun _ hv => (straight_widen hv).bind fun _ hn =>
    straight_fresh.bind fun _ hp =>
      (straight_emit (forall_mem_singleton.2 (straight_calloc hp hn))).bind fun _ _ =>
        (straight_narrow hp).bind fun _ hr => straight_pushed hc hr

theorem straight_newString (hc : c.Standard) : Straight rooms (fun _ => True) (newString c) := by
  refine (straight_popped hc).bind fun _ hv => (straight_widen hv).bind fun n hn =>
    straight_fresh.bind fun p hp => straight_fresh.bind fun more hmore =>
      (straight_emit ?_).bind fun _ _ =>
        (straight_narrow hp).bind fun _ hr => straight_pushed hc hr
  exact forall_mem_cons.2 ⟨straight_assign rfl rfl hmore (forall_mem_cons.2
    ⟨hn, forall_mem_singleton.2 (within_number rooms 1)⟩),
      forall_mem_singleton.2 (straight_calloc hp hmore)⟩

theorem straight_elementAddress (hc : c.Standard) (wide : Bool) :
    Straight rooms (Value.Within rooms) (elementAddress c wide) := by
  refine (straight_popped hc).bind fun _ hv => (straight_widen hv).bind fun index hindex =>
    (straight_popped hc).bind fun _ hu => (straight_widen hu).bind fun base hbase => ?_
  have haddress : ∀ offset : Value, offset.Within rooms → Straight rooms (Value.Within rooms)
      (do let t ← fresh; emit [assign t long "add" [base, offset]]; return temp t) :=
    fun offset hoffset => straight_result fun t ht => straight_assign rfl rfl ht
      (forall_mem_cons.2 ⟨hbase, forall_mem_singleton.2 hoffset⟩)
  -- an index of four-byte elements is scaled first
  split
  · refine (straight_result fun t ht => straight_assign rfl rfl ht ?_).bind haddress
    exact forall_mem_cons.2
      ⟨hindex, forall_mem_singleton.2 (within_number rooms 4)⟩
  · exact (straight_pure hindex).bind haddress

theorem straight_loadElement (hc : c.Standard) (wide : Bool) :
    Straight rooms (fun _ => True) (loadElement c wide) := by
  refine (straight_elementAddress hc wide).bind fun address haddress =>
    straight_fresh.bind fun v hv => (straight_emit ?_).bind fun _ _ => straight_pushed hc hv
  refine forall_mem_singleton.2
    (straight_assign hc.type ?_ hv (forall_mem_singleton.2 haddress))
  cases wide <;> rfl

theorem straight_storeElement (hc : c.Standard) (wide : Bool) :
    Straight rooms (fun _ => True) (storeElement c wide) := by
  refine (straight_popped hc).bind fun v hv => (straight_elementAddress hc wide).bind
    fun address haddress => straight_emit (forall_mem_singleton.2 ⟨?_, hv, haddress⟩)
  cases wide <;> rfl

theorem straight_slotAddress (c : Context) (ins : Instruction) :
    Straight rooms (fun t => (temp t).Within rooms) (slotAddress c ins) := by
  dsimp only [slotAddress]
  split
  · exact (straight_throw _).bind fun _ (_ : False) => by contradiction
  · exact straight_fresh.bind fun _ hp => (straight_emit (forall_mem_singleton.2
      (straight_displace rfl hp (within_temp rfl) _))).bind fun _ _ => straight_pure hp

theorem straight_loadLocal {c : Context} (hc : c.cell.Standard) (ins : Instruction) :
    Straight rooms (fun _ => True) (loadLocal c ins) :=
  (straight_slotAddress c ins).bind fun _ hp => straight_fresh.bind fun _ hv =>
    (straight_emit (forall_mem_singleton.2 (straight_load hc hv hp))).bind fun _ _ =>
      straight_pushed hc hv

theorem straight_storeLocal {c : Context} (hc : c.cell.Standard) (ins : Instruction) :
    Straight rooms (fun _ => True) (storeLocal c ins) :=
  (straight_slotAddress c ins).bind fun _ hp => (straight_popped hc).bind fun _ hv =>
    straight_emit (forall_mem_singleton.2 (straight_store hc hv hp))

theorem straight_copyArguments (hc : c.Standard) {offset : Nat} (h : .callee offset ∈ rooms)
    (ks : List Nat) : Straight rooms (fun _ => True) (ks.forM (copyArgument c offset)) := by
  have hone : ∀ k, Straight rooms (fun _ => True) (copyArgument c offset k) := by
    intro k
    refine straight_fresh.bind fun source hsource => straight_fresh.bind fun target htarget =>
      straight_fresh.bind fun v hv => straight_emit ?_
    simp only [forall_mem_cons]
    exact ⟨straight_displace rfl hsource (within_temp rfl) _, straight_load hc hv hsource,
      straight_displace rfl htarget (within_of_room h) _, straight_store hc hv htarget,
      forall_mem_nil _⟩
  induction ks with
  | nil => exact straight_pure trivial
  | cons k ks ih => exact (hone k).bind fun _ _ => ih

end Operations

/-! ### Blocks, rooms and scopes -/

/-- The blocks of an instruction behind the one that it starts with. -/
def furtherBlocks (x : Instruction × Nat) : List Block :=
  match x.1.op with
  | .jmpz | .jmpnz => [.fallThrough x.2]
  | .invoke => [.result x.2, .returned x.2]
  | .ret => [.withCell (.place x.2), .withoutCell (.place x.2)]
  | _ => []

/-- The memory that an instruction reserves. -/
def roomsOf (x : Instruction × Nat) : List Temp :=
  if x.1.op = .invoke then [.callee x.2, .calleeHasValue x.2] else []

/-- What the statements of an instruction may refer to. -/
def scopeOf (c : Context) (x : Instruction × Nat) : Scope where
  rooms := roomsOf x
  targets b := b ∈ furtherBlocks x ∨ ∃ n : Nat, b = .place n ∧ c.functions.startsAt n ∧
    c.inside.start ≤ n ∧ n < c.inside.stop
  callees n := x.1.op = .invoke ∧ n = x.1.half 0

variable {c : Context} {x : Instruction × Nat}

/-- **A return has two blocks**, and both end with a return. -/
theorem divided_handOver {scope : Scope} {cell : Cell} (hc : cell.Standard) {b : Block}
    {isEmpty v : Temp} (hempty : (temp isEmpty).Within scope.rooms)
    (hv : (temp v).Within scope.rooms)
    (hwith : (Block.withCell b).isUsed) (hwithout : (Block.withoutCell b).isUsed)
    (htargets : ∀ b' ∈ [Block.withCell b, .withoutCell b], scope.targets b') :
    Divided scope [.withCell b, .withoutCell b] (cell.handOver b isEmpty v) := by
  have hflag : ∀ n : Int, (Statement.store word (.number n) (.temp .hasValue)).Straight
      scope.rooms := fun n => ⟨rfl, within_number _ n, within_temp rfl⟩
  have hcompare : (assign isEmpty word "ceql" [.temp .top, .temp .stack]).Straight scope.rooms :=
    straight_assign rfl rfl hempty (forall_mem_cons.2
      ⟨within_temp rfl, forall_mem_singleton.2 (within_temp rfl)⟩)
  have hnone : Divided scope [.withoutCell b] [.block (.withoutCell b),
      .statement (.store word (.number 0) (.temp .hasValue)), .statement (.ret (.number 0))] :=
    .block hwithout (.straight (hflag 0) (.last (Statement.fits_ret (within_number _ 0))))
  have hvalue : Divided scope [.withoutCell b]
      ((cell.pop v).map Line.statement ++ [.statement (.store word (.number 1) (.temp .hasValue)),
        .statement (.ret (.temp v)), .block (.withoutCell b),
        .statement (.store word (.number 0) (.temp .hasValue)), .statement (.ret (.number 0))]) :=
    Divided.straight_append (straight_pop hc hv)
      (.straight (hflag 1) (.stop (Statement.fits_ret hv) hnone))
  rw [Cell.handOver, List.append_assoc]
  refine .straight hcompare (.stop ?_ (.block hwith hvalue))
  exact Statement.fits_branch hempty (htargets _ (by simp)) (htargets _ (by simp))

/-- A jump goes to a place in the same function where an instruction starts. -/
theorem straight_targetBlock {rooms : List Temp} (ins : Instruction) :
    Straight rooms (fun b => ∃ n : Nat, b = .place n ∧ c.functions.startsAt n ∧
      c.inside.start ≤ n ∧ n < c.inside.stop) (targetBlock c ins) := by
  dsimp only [targetBlock]
  split
  · exact (straight_throw _).bind fun _ (_ : False) => by contradiction
  · next hstarts =>
    split
    · exact (straight_throw _).bind fun _ (_ : False) => by contradiction
    · next hinside =>
      refine straight_pure ?_
      rw [Bool.not_eq_true', Bool.not_eq_false] at hstarts
      cases htarget : ins.target with
      | negSucc n =>
          rw [htarget] at hstarts
          cases hstarts
      | ofNat n =>
          have htarget : ins.target = (n : Int) := htarget
          rw [htarget] at hstarts hinside
          refine ⟨n, rfl, hstarts, ?_, ?_⟩ <;> omega

/-- **A call has two blocks behind it**: one that pushes the result, and one that goes on. -/
theorem divides_call (hc : c.cell.Standard) (hop : x.1.op = .invoke) :
    Divides (scopeOf c x) [.result x.2, .returned x.2] (call c x.2 x.1) := by
  have hrooms : (scopeOf c x).rooms = [.callee x.2, .calleeHasValue x.2] := if_pos hop
  have hcallee : Temp.callee x.2 ∈ (scopeOf c x).rooms := by simp [hrooms]
  have hhasValue : Temp.calleeHasValue x.2 ∈ (scopeOf c x).rooms := by simp [hrooms]
  have htargets : ∀ b ∈ [Block.result x.2, .returned x.2], (scopeOf c x).targets b := by
    intro b hb
    refine Or.inl ?_
    rw [furtherBlocks, hop]
    exact hb
  have hcall : ∀ r : Temp, (temp r).Within (scopeOf c x).rooms →
      (Statement.call (some (r, c.cell.type)) (.function (x.1.half 0))
        [.typed long (.temp (.callee x.2)), .typed long (.temp (.calleeHasValue x.2))]).Fits
          (scopeOf c x) := by
    intro r hr
    refine Statement.fits_call hc.type hr (forall_mem_cons.2
      ⟨⟨rfl, within_of_room hcallee⟩, forall_mem_singleton.2
        ⟨rfl, within_of_room hhasValue⟩⟩) ⟨hop, rfl⟩
  have hrest : Divides (scopeOf c x) [.result x.2, .returned x.2] (do
      (List.range (x.1.half 1)).forM (copyArgument c.cell x.2)
      let r ← fresh
      let h ← fresh
      put ([.statement (.call (some (r, c.cell.type)) (.function (x.1.half 0))
          [.typed long (.temp (.callee x.2)), .typed long (.temp (.calleeHasValue x.2))]),
        .statement (assign h word "loadw" [.temp (.calleeHasValue x.2)]),
        .statement (.branch (.temp h) (.result x.2) (.returned x.2)),
        .block (.result x.2)] ++
        (c.cell.push (.temp r)).map Line.statement ++ [.block (.returned x.2)])) := by
    refine (straight_copyArguments hc hcallee _).divides_bind fun _ _ =>
      straight_fresh.divides_bind fun r hr => straight_fresh.divides_bind fun h hh => ?_
    have hpush : Divided (scopeOf c x) [.returned x.2]
        ((c.cell.push (.temp r)).map Line.statement ++ [.block (.returned x.2)]) :=
      Divided.straight_append (straight_push hc hr) (.block rfl .nil)
    have hload : (assign h word "loadw" [.temp (.calleeHasValue x.2)]).Straight
        (scopeOf c x).rooms :=
      straight_assign rfl rfl hh (forall_mem_singleton.2 (within_of_room hhasValue))
    have hbranch := Statement.fits_branch hh (htargets (.result x.2) (by simp))
      (htargets (.returned x.2) (by simp))
    rw [List.append_assoc]
    refine divides_put (.statement (hcall r hr) ?_
      (.straight hload (.stop hbranch (.block rfl hpush))))
    rintro ⟨⟩
  have hmove : Straight (scopeOf c x).rooms (fun _ => True)
      (emit [displace .top "sub" .top (Int64.ofNat (x.1.half 1) * c.cell.size)]) :=
    straight_emit (forall_mem_singleton.2
      (straight_displace rfl (within_temp rfl) (within_temp rfl) _))
  dsimp only [call]
  split
  · exact (straight_throw _).divides_bind fun _ (_ : False) => by contradiction
  · split
    · exact hmove.divides_bind fun _ _ => hrest
    · exact hrest

/-- A jump with a condition has a block behind it. -/
theorem divides_branch (hc : c.cell.Standard) (hop : furtherBlocks x = [.fallThrough x.2])
    {branch : Value → Block → Statement}
    (hbranch : ∀ v b, v.Within (scopeOf c x).rooms → (scopeOf c x).targets b →
      (scopeOf c x).targets (.fallThrough x.2) → (branch v b).Fits (scopeOf c x)) :
    Divides (scopeOf c x) [.fallThrough x.2] (do
      let b ← targetBlock c x.1
      let v ← pop c.cell
      put [.statement (branch v b), .block (.fallThrough x.2)]) := by
  refine (straight_targetBlock x.1).divides_bind fun b hb => (straight_popped hc).divides_bind
    fun v hv => divides_put (.stop (hbranch v b hv (Or.inr hb) (Or.inl ?_)) (.block rfl .nil))
  rw [hop]
  exact List.mem_singleton_self _

/-- **The lines of an operation** are divided into its blocks. -/
theorem divides_operation (hc : c.cell.Standard) (x : Instruction × Nat) :
    Divides (scopeOf c x) (furtherBlocks x) (operation c x.2 x.1) := by
  have hcompare : ∀ {operation : String},
      (∀ type ∈ [word, long], isOperation (text operation ++ type) = true) →
        Straight (scopeOf c x).rooms (fun _ => True) (compare c.cell operation) := by
    intro operation hop
    refine straight_binary hc (hop _ ?_)
    rcases hc with hc | hc <;> simp [hc]
  unfold operation
  cases hop : x.1.op with
  | iconst =>
      exact (straight_pushed hc (within_number _ _)).divides (by rw [furtherBlocks, hop])
  | iadd | isub | imul | idiv | and | or | xor | shl | shr =>
      exact (straight_binary hc rfl).divides (by rw [furtherBlocks, hop])
  | ilt | igt | ieq => exact (hcompare (by decide)).divides (by rw [furtherBlocks, hop])
  | not => exact (straight_negate hc).divides (by rw [furtherBlocks, hop])
  | dup => exact (straight_duplicate hc).divides (by rw [furtherBlocks, hop])
  | swap => exact (straight_exchange hc).divides (by rw [furtherBlocks, hop])
  | pop =>
      exact (straight_emit (forall_mem_singleton.2 (straight_displace rfl
        (within_temp rfl) (within_temp rfl) _))).divides (by rw [furtherBlocks, hop])
  | load => exact (straight_loadLocal hc x.1).divides (by rw [furtherBlocks, hop])
  | store => exact (straight_storeLocal hc x.1).divides (by rw [furtherBlocks, hop])
  | jmp =>
      rw [furtherBlocks, hop]
      exact (straight_targetBlock x.1).divides_bind fun b hb =>
        divides_put (.last (Statement.fits_jump (Or.inr hb)))
  | jmpz =>
      have hfurther : furtherBlocks x = [.fallThrough x.2] := by rw [furtherBlocks, hop]
      rw [hfurther]
      exact divides_branch hc hfurther fun v b hv hb hnext => Statement.fits_branch hv hnext hb
  | jmpnz =>
      have hfurther : furtherBlocks x = [.fallThrough x.2] := by rw [furtherBlocks, hop]
      rw [hfurther]
      exact divides_branch hc hfurther fun v b hv hb hnext => Statement.fits_branch hv hb hnext
  | invoke =>
      rw [furtherBlocks, hop]
      exact divides_call hc hop
  | ret =>
      have hfurther : furtherBlocks x = [.withCell (.place x.2), .withoutCell (.place x.2)] := by
        rw [furtherBlocks, hop]
      rw [hfurther]
      exact straight_fresh.divides_bind fun _ hempty => straight_fresh.divides_bind fun _ hv =>
        divides_put (divided_handOver hc hempty hv rfl rfl fun b hb => Or.inl (hfurther ▸ hb))
  | print =>
      exact ((straight_popped hc).bind fun v hv => straight_printWith hc.type hv).divides
        (by rw [furtherBlocks, hop])
  | syscall => exact (straight_service hc x.1).divides (by rw [furtherBlocks, hop])
  | newarray => exact (straight_newArray hc).divides (by rw [furtherBlocks, hop])
  | newstr => exact (straight_newString hc).divides (by rw [furtherBlocks, hop])
  | iaload | baload => exact (straight_loadElement hc _).divides (by rw [furtherBlocks, hop])
  | iastore | bastore => exact (straight_storeElement hc _).divides (by rw [furtherBlocks, hop])
  | entry | global | unknown _ =>
      exact (straight_pure (Q := fun _ => True) trivial).divides (by rw [furtherBlocks, hop])

/-! ### Instructions -/

/-- The blocks of an instruction. -/
def blocksOf (x : Instruction × Nat) : List Block :=
  match x.1.op with
  | .entry | .global | .unknown _ => []
  | _ => .place x.2 :: furtherBlocks x

theorem blocksOf_ordinary (h : Mips.Ordinary x.1) : blocksOf x = .place x.2 :: furtherBlocks x := by
  obtain ⟨hmarker, hunknown⟩ := h
  unfold blocksOf
  split
  iterate 2 · next hop => rw [hop] at hmarker; cases hmarker
  · next n hop => exact absurd hop (hunknown n)
  · rfl

theorem blocksOf_marker (h : x.1.op.isMarker = true) : blocksOf x = [] := by
  unfold Op.isMarker at h
  split at h
  iterate 2 · next hop => rw [blocksOf, hop]
  · cases h

/-- An instruction whose comment is a single line. -/
structure SingleLine (ins : Instruction) : Prop where
  symbol : ins.op.isMarker → Text.newline ∉ ins.symbol
  render : ins.op.isMarker = false → Text.newline ∉ ins.render

/-- **The lines of an instruction** are divided into its blocks, and they open with a block. -/
theorem divided_instruction (hc : c.cell.Standard) (hline : SingleLine x.1) {temps : Nat}
    {r : List Line × Nat} (h : instruction c temps x.2 x.1 = .ok r) :
    Divided (scopeOf c x) (blocksOf x) r.1 ∧ Opens r.1 := by
  have hcomment : ∀ front : String, Text.newline ∉ text front → ∀ {body : Text},
      Text.newline ∉ body →
        Divided (scopeOf c x) [] [.comment (text front ++ body)] ∧
          Opens [.comment (text front ++ body)] := by
    intro front hfront body hbody
    exact ⟨.comment (by rw [List.mem_append, not_or]; exact ⟨hfront, hbody⟩) .nil,
      opens_nil.comment _⟩
  rcases kind_cases x.1 with hop | hop | ⟨n, hop⟩ | hordinary
  iterate 2
    · simp only [instruction, blocksOf, hop] at h ⊢
      obtain rfl := Except.ok.inj h
      exact hcomment _ (by decide) (hline.symbol (by rw [hop]; rfl))
  · simp only [instruction, blocksOf, hop] at h ⊢
    obtain rfl := Except.ok.inj h
    exact hcomment _ (by decide) (hline.render (by rw [hop]; rfl))
  · rw [instruction_eq hordinary] at h
    obtain ⟨written, hwritten, rfl⟩ := bind_pure_ok_iff.1 h
    obtain ⟨⟨_, d⟩, hrun, rfl⟩ := map_ok_iff.1 hwritten
    obtain ⟨ls, hls, hd⟩ := divides_operation hc x _ _ _ hrun
    rw [blocksOf_ordinary hordinary]
    obtain rfl : d.written = ls := hd
    exact ⟨.block rfl (.comment (hline.render hordinary.1) hls), opens_block _ _⟩

end StackCompiler.Lowering.ToIl
