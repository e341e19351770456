/-
**The structure of blocks.**

Lines are divided into blocks if nothing but a block, or the end, follows a jump or a return.  Such
lines can be put together, as long as what is added opens with a block.  Along the way every
statement stays within a scope: the blocks that it may jump to, the functions of the program that it
may call, and the temporaries that there is room for.

A function is well formed, as it is read, if its lines are divided into different blocks, if its
scope is what it defines itself, and if it ends with a return.

* `Il.Divided.wellFormed` — **a function is well formed**.
-/

import Mathlib.Data.List.Chain
import Mathlib.Data.List.Nodup
import StackCompiler.Proofs.ModuleReading

namespace StackCompiler.Il

/-! ### Scopes -/

/-- What statements may refer to. -/
structure Scope where
  /-- The temporaries that there is room for. -/
  rooms : List Temp
  targets : Block → Prop
  /-- The functions of the program that can be called, by their starts. -/
  callees : Nat → Prop

/-- A function that is not one of the program. -/
def Global.isForeign : Global → Bool
  | main | printf | putchar | calloc | exit => true
  | function _ | numberPattern | linePattern | stringPattern => false

/-- A statement that stays within a scope. -/
structure Statement.Fits (scope : Scope) (s : Statement) : Prop where
  clean : s.Clean
  rooms : ∀ t ∈ s.temps, t.isRoom → t ∈ scope.rooms
  targets : ∀ b ∈ s.targets, scope.targets b
  callees : ∀ g ∈ s.callee?, g.isForeign = false → ∃ n, g = .function n ∧ scope.callees n

/-- A scope that reaches further. -/
structure Scope.Extends (scope' scope : Scope) : Prop where
  rooms : scope.rooms ⊆ scope'.rooms
  targets : ∀ b, scope.targets b → scope'.targets b
  callees : ∀ n, scope.callees n → scope'.callees n

variable {s : Statement}

theorem Statement.Fits.mono {scope scope' : Scope} (h : s.Fits scope)
    (hscope : scope'.Extends scope) : s.Fits scope' where
  clean := h.clean
  rooms t ht hroom := hscope.rooms (h.rooms t ht hroom)
  targets b hb := hscope.targets b (h.targets b hb)
  callees g hg hforeign :=
    (h.callees g hg hforeign).imp fun n hn => ⟨hn.1, hscope.callees n hn.2⟩

/-! ### Lines that are divided into blocks -/

/-- Whether a line ends a block. -/
def Line.isEnd : Line → Bool
  | statement s => s.isEnd
  | block _ | comment _ => false

/-- Lines whose code opens with a block, if there is any. -/
def Opens (ls : List Line) : Prop := ∀ l ∈ (ls.filter Line.isCode).head?, l.block?.isSome

/-- **Lines that are divided into blocks**, by the blocks that they start. -/
inductive Divided (scope : Scope) : List Block → List Line → Prop where
  | nil : Divided scope [] []
  | comment {bs : List Block} {ls : List Line} {body : Text} (hbody : Text.newline ∉ body)
      (h : Divided scope bs ls) : Divided scope bs (.comment body :: ls)
  | block {bs : List Block} {ls : List Line} {b : Block} (hb : b.isUsed)
      (h : Divided scope bs ls) : Divided scope (b :: bs) (.block b :: ls)
  | statement {bs : List Block} {ls : List Line} {s : Statement} (hs : s.Fits scope)
      (hopens : s.isEnd → Opens ls) (h : Divided scope bs ls) :
      Divided scope bs (.statement s :: ls)

theorem opens_nil : Opens [] := by
  rintro l ⟨⟩

theorem opens_block (b : Block) (ls : List Line) : Opens (.block b :: ls) := by
  rintro l ⟨⟩
  rfl

theorem Opens.comment {ls : List Line} (h : Opens ls) (body : Text) :
    Opens (.comment body :: ls) := h

theorem Opens.append {ls ls' : List Line} (h : Opens ls) (h' : Opens ls') : Opens (ls ++ ls') := by
  intro l hl
  rw [List.filter_append, List.head?_append] at hl
  cases hhead : (ls.filter Line.isCode).head? with
  | some x =>
      rw [hhead] at hl
      exact h l (hhead ▸ hl)
  | none =>
      rw [hhead] at hl
      exact h' l hl

namespace Divided

variable {scope scope' : Scope} {bs bs' : List Block} {ls ls' : List Line}

theorem mono (h : Divided scope bs ls) (hscope : scope'.Extends scope) : Divided scope' bs ls := by
  induction h with
  | nil => exact .nil
  | comment hbody _ ih => exact ih.comment hbody
  | block hb _ ih => exact ih.block hb
  | statement hs hopens _ ih => exact ih.statement (hs.mono hscope) hopens

/-- **Divided lines, one after the other.** -/
theorem append (h : Divided scope bs ls) (h' : Divided scope bs' ls') (hopens : Opens ls') :
    Divided scope (bs ++ bs') (ls ++ ls') := by
  induction h with
  | nil => exact h'
  | comment hbody _ ih => exact ih.comment hbody
  | block hb _ ih => exact ih.block hb
  | statement hs hs' _ ih => exact ih.statement hs fun hend => (hs' hend).append hopens

/-- Divided parts, each of which opens with a block. -/
theorem flatten {parts : List (List Line)} {bss : List (List Block)}
    (h : List.Forall₂ (fun bs ls => Divided scope bs ls ∧ Opens ls) bss parts) :
    Divided scope bss.flatten parts.flatten ∧ Opens parts.flatten := by
  induction h with
  | nil => exact ⟨.nil, opens_nil⟩
  | cons hfirst _ ih => exact ⟨hfirst.1.append ih.1 ih.2, hfirst.2.append ih.2⟩

theorem blocks (h : Divided scope bs ls) : ls.filterMap Line.block? = bs := by
  induction h with
  | nil => rfl
  | comment _ _ ih => exact ih
  | block _ _ ih => exact congrArg (_ :: ·) ih
  | statement _ _ _ ih => exact ih

theorem isUsed (h : Divided scope bs ls) : ∀ b ∈ bs, b.isUsed := by
  induction h with
  | nil => exact List.forall_mem_nil _
  | comment _ _ ih => exact ih
  | block hb _ ih => exact List.forall_mem_cons.2 ⟨hb, ih⟩
  | statement _ _ _ ih => exact ih

theorem clean (h : Divided scope bs ls) : ∀ l ∈ ls, l.Clean := by
  induction h with
  | nil => exact List.forall_mem_nil _
  | comment hbody _ ih => exact List.forall_mem_cons.2 ⟨hbody, ih⟩
  | block _ _ ih => exact List.forall_mem_cons.2 ⟨trivial, ih⟩
  | statement hs _ _ ih => exact List.forall_mem_cons.2 ⟨hs.clean, ih⟩

theorem fits (h : Divided scope bs ls) : ∀ s ∈ ls.filterMap Line.statement?, s.Fits scope := by
  induction h with
  | nil => exact List.forall_mem_nil _
  | comment _ _ ih => exact ih
  | block _ _ ih => exact ih
  | statement hs _ _ ih => exact List.forall_mem_cons.2 ⟨hs, ih⟩

/-- Behind a jump or a return only a block can start. -/
theorem isChain (h : Divided scope bs ls) : (ls.filter Line.isCode).IsChain
    fun l next => l.isEnd → next.block?.isSome := by
  have hcons : ∀ {l : Line} {ls : List Line}, (l.isEnd → Opens ls) →
      (ls.filter Line.isCode).IsChain (fun l next => l.isEnd → next.block?.isSome) →
        (l :: ls.filter Line.isCode).IsChain fun l next => l.isEnd → next.block?.isSome := by
    intro l ls hopens hls
    exact List.isChain_cons.2 ⟨fun next hnext hend => hopens hend next hnext, hls⟩
  induction h with
  | nil => exact .nil
  | comment _ _ ih => exact ih
  | block _ _ ih => exact hcons (fun hend => absurd hend Bool.false_ne_true) ih
  | statement _ hopens _ ih => exact hcons hopens ih

end Divided

/-! ### Straight lines -/

/-- Whether a text is an operation with a result, other than a call. -/
def isOperation (t : Text) : Bool := isKeyword t && t != text "call"

/-- A value that reads no other rooms than these. -/
def Value.Within (rooms : List Temp) (v : Value) : Prop := ∀ t ∈ v.temp?, t.isRoom → t ∈ rooms

/-- An argument that reads no other rooms than these. -/
def Argument.Within (rooms : List Temp) : Argument → Prop
  | typed type v => isKeyword type ∧ v.Within rooms
  | others => True

/-- **A statement that neither jumps nor calls the program.** -/
def Statement.Straight (rooms : List Temp) : Statement → Prop
  | assign t type operation values => isKeyword type ∧ isOperation operation ∧
    (Value.temp t).Within rooms ∧ ∀ v ∈ values, v.Within rooms
  | store type v address => isKeyword type ∧ v.Within rooms ∧ address.Within rooms
  | call result f arguments => f.isForeign ∧
    (∀ r ∈ result, isKeyword r.2 ∧ (Value.temp r.1).Within rooms) ∧ ∀ a ∈ arguments, a.Within rooms
  | jump _ | branch _ _ _ | ret _ => False

variable {rooms : List Temp}

theorem Value.within_of_room {t : Temp} (h : t ∈ rooms) : (Value.temp t).Within rooms := by
  rintro _ ⟨⟩ -
  exact h

theorem Value.within_temp {t : Temp} (h : t.isRoom = false) : (Value.temp t).Within rooms := by
  rintro _ ⟨⟩ hroom
  exact absurd (h.symm.trans hroom) Bool.false_ne_true

theorem Value.within_number (rooms : List Temp) (n : Int) : (Value.number n).Within rooms := by
  rintro t ⟨⟩

theorem Value.within_global (rooms : List Temp) (g : Global) : (Value.global g).Within rooms := by
  rintro t ⟨⟩

theorem Value.temps_within {vs : List Value} (h : ∀ v ∈ vs, v.Within rooms) :
    ∀ t ∈ vs.filterMap Value.temp?, t.isRoom → t ∈ rooms := by
  intro t ht
  obtain ⟨v, hv, hvt⟩ := List.mem_filterMap.1 ht
  exact h v hv t hvt

theorem Argument.Within.clean {a : Argument} (h : a.Within rooms) : a.Clean := by
  cases a with
  | typed type v => exact h.1
  | others => trivial

theorem Argument.temps_within {result : Option (Temp × Text)} {f : Global}
    {arguments : List Argument} (hresult : ∀ r ∈ result, (Value.temp r.1).Within rooms)
    (harguments : ∀ a ∈ arguments, a.Within rooms) :
    ∀ t ∈ (Statement.call result f arguments).temps, t.isRoom → t ∈ rooms := by
  refine List.forall_mem_append.2 ⟨?_, ?_⟩
  · cases result with
    | none => exact List.forall_mem_nil _
    | some r => exact List.forall_mem_singleton.2 (hresult r rfl r.1 rfl)
  · intro t ht
    obtain ⟨a, ha, hat⟩ := List.mem_filterMap.1 ht
    cases a with
    | typed type v => exact (harguments _ ha).2 t hat
    | others => cases hat

namespace Statement.Straight

variable {rooms : List Temp} {s : Statement}

theorem isEnd (h : s.Straight rooms) : s.isEnd = false := by
  cases s with
  | assign _ _ _ _ | store _ _ _ | call _ _ _ => rfl
  | jump _ | branch _ _ _ | ret _ => cases h

theorem temps (h : s.Straight rooms) : ∀ t ∈ s.temps, t.isRoom → t ∈ rooms := by
  cases s with
  | assign t type operation values =>
      exact List.forall_mem_cons.2 ⟨h.2.2.1 t rfl, Value.temps_within h.2.2.2⟩
  | store type v address =>
      have hvalues : ∀ u ∈ [v, address], u.Within rooms := by simpa using h.2
      exact Value.temps_within hvalues
  | call result f arguments => exact Argument.temps_within (fun r hr => (h.2.1 r hr).2) h.2.2
  | jump _ | branch _ _ _ | ret _ => cases h

theorem clean (h : s.Straight rooms) : s.Clean := by
  cases s with
  | assign t type operation values =>
      obtain ⟨hop, hcall⟩ := Bool.and_eq_true_iff.1 h.2.1
      exact ⟨h.1, hop, by simpa using hcall⟩
  | store type v address => exact h.1
  | call result f arguments => exact ⟨fun r hr => (h.2.1 r hr).1, fun a ha => (h.2.2 a ha).clean⟩
  | jump _ | branch _ _ _ | ret _ => cases h

theorem fits {scope : Scope} (h : s.Straight scope.rooms) : s.Fits scope where
  clean := h.clean
  rooms := h.temps
  targets := by
    cases s with
    | assign _ _ _ _ | store _ _ _ | call _ _ _ => exact List.forall_mem_nil _
    | jump _ | branch _ _ _ | ret _ => cases h
  callees g hg hforeign := by
    cases s with
    | call result f arguments =>
        obtain rfl := Option.some.inj hg
        exact absurd (hforeign.symm.trans h.1) Bool.false_ne_true
    | _ => cases hg

end Statement.Straight

section Ends

variable {scope : Scope} {v : Value}

theorem Value.Within.temps (h : v.Within scope.rooms) :
    ∀ t ∈ [v].filterMap Value.temp?, t.isRoom → t ∈ scope.rooms :=
  Value.temps_within (List.forall_mem_singleton.2 h)

theorem Statement.fits_call {r : Temp} {type : Text} {n : Nat} {arguments : List Argument}
    (htype : isKeyword type = true) (hr : (Value.temp r).Within scope.rooms)
    (harguments : ∀ a ∈ arguments, a.Within scope.rooms) (hn : scope.callees n) :
    (Statement.call (some (r, type)) (.function n) arguments).Fits scope := by
  refine ⟨⟨?_, fun a ha => (harguments a ha).clean⟩, Argument.temps_within ?_ harguments,
    List.forall_mem_nil _, ?_⟩
  · rintro _ ⟨⟩
    exact htype
  · rintro _ ⟨⟩
    exact hr
  · rintro _ ⟨⟩ -
    exact ⟨n, rfl, hn⟩

theorem Statement.fits_jump {b : Block} (h : scope.targets b) : (Statement.jump b).Fits scope :=
  ⟨trivial, List.forall_mem_nil _, List.forall_mem_singleton.2 h, by rintro g ⟨⟩⟩

theorem Statement.fits_branch {b b' : Block} (hv : v.Within scope.rooms) (h : scope.targets b)
    (h' : scope.targets b') : (Statement.branch v b b').Fits scope :=
  ⟨trivial, hv.temps, List.forall_mem_cons.2 ⟨h, List.forall_mem_singleton.2 h'⟩, by rintro g ⟨⟩⟩

theorem Statement.fits_ret (hv : v.Within scope.rooms) : (Statement.ret v).Fits scope :=
  ⟨trivial, hv.temps, List.forall_mem_nil _, by rintro g ⟨⟩⟩

end Ends

namespace Divided

variable {scope : Scope} {bs : List Block} {ls : List Line} {s : Statement}

/-- A statement that ends its block, with a block behind it. -/
theorem stop {b : Block} (hs : s.Fits scope) (h : Divided scope bs (.block b :: ls)) :
    Divided scope bs (.statement s :: .block b :: ls) := h.statement hs fun _ => opens_block b ls

/-- A statement that ends its block, with nothing behind it. -/
theorem last (hs : s.Fits scope) : Divided scope [] [.statement s] :=
  nil.statement hs fun _ => opens_nil

theorem straight (hs : s.Straight scope.rooms) (h : Divided scope bs ls) :
    Divided scope bs (.statement s :: ls) :=
  h.statement hs.fits fun hend =>
    absurd (hs.isEnd.symm.trans hend) Bool.false_ne_true

theorem straight_append {ss : List Statement} (hss : ∀ s ∈ ss, s.Straight scope.rooms)
    (h : Divided scope bs ls) : Divided scope bs (ss.map Line.statement ++ ls) := by
  induction ss with
  | nil => exact h
  | cons s ss ih =>
      obtain ⟨hs, hss⟩ := List.forall_mem_cons.1 hss
      exact (ih hss).straight hs

end Divided

/-! ### Functions that are well formed -/

/-- The temporary for which a statement reserves memory. -/
def Statement.reserved? : Statement → Option Temp
  | assign t _ operation _ =>
    if operation = text "alloc4" ∨ operation = text "alloc8" then some t else none
  | _ => none

/-- The lines of the first block. -/
def firstBlock (ls : List Line) : List Line := ls.tail.takeWhile fun l => l.block?.isNone

theorem mem_firstBlock {b : Block} {ss : List Statement} (hs : s ∈ ss)
    (ls : List Line) : Line.statement s ∈ firstBlock (.block b :: ss.map Line.statement ++ ls) := by
  rw [firstBlock, List.cons_append, List.tail_cons, List.takeWhile_append_of_pos]
  · exact List.mem_append_left _ (List.mem_map_of_mem hs)
  · exact List.forall_mem_map.2 fun _ _ => rfl

theorem firstBlock_render (ls : List Line) :
    Reading.firstBlock (ls.map Line.render) = (firstBlock ls).map Line.render := by
  rw [Reading.firstBlock, firstBlock, ← List.map_tail, List.takeWhile_map]
  congr 2
  funext l
  rw [Function.comp_apply, l.label?_render, Option.isNone_map]

theorem Statement.reserved?_words {t : Temp} (h : s.reserved? = some t) :
    Reading.reserved? s.words = some t.render := by
  cases s with
  | assign u type operation values =>
      rw [reserved?] at h
      split at h
      · next hop =>
        obtain rfl := Option.some.inj h
        rw [words, Reading.reserved?, if_pos]
        · rfl
        · exact hop.imp (congrArg some) (congrArg some)
      · cases h
  | _ => cases h

/-- What makes a function well formed beyond its division into blocks. -/
structure IsWhole (scope : Scope) (bs : List Block) (ls : List Line) : Prop where
  starts : ls.head? = some (.block .start)
  once : bs.Nodup
  targets : ∀ b, scope.targets b → b ∈ bs ∧ b ≠ .start
  returns : ∃ v, ls.getLast? = some (.statement (.ret v))
  rooms : ∀ t ∈ scope.rooms, ∃ s, Line.statement s ∈ firstBlock ls ∧ s.reserved? = some t

/-- **A function is well formed**, if its lines are divided into blocks and refer to nothing but
what it defines. -/
theorem Divided.wellFormed {scope : Scope} {bs : List Block} {ls : List Line}
    (h : Divided scope bs ls) (hwhole : IsWhole scope bs ls) :
    Reading.WellFormed (ls.map Line.render) := by
  have hstatements := instructions_render h.clean
  have hfirst : ∀ l ∈ firstBlock ls, l.Clean := fun l hl =>
    h.clean l (List.mem_of_mem_tail ((List.takeWhile_sublist _).subset hl))
  have hinj : ∀ b ∈ bs, ∀ b' ∈ bs, b.render = b'.render → b = b' :=
    fun b hb b' hb' => Block.render_inj (h.isUsed b hb) (h.isUsed b' hb')
  constructor
  case starts =>
    rw [List.head?_map, hwhole.starts]
    rfl
  case once =>
    rw [labels_render, h.blocks]
    exact List.Nodup.map_on hinj hwhole.once
  case jumps =>
    rw [hstatements]
    refine List.forall_mem_map.2 fun s hs => ?_
    rw [s.targets_words, labels_render, h.blocks]
    refine List.forall_mem_map.2 fun b hb => ?_
    obtain ⟨hmem, hne⟩ := hwhole.targets b ((h.fits s hs).targets b hb)
    refine ⟨List.mem_map_of_mem hmem, fun heq => hne ?_⟩
    exact Block.render_inj (h.isUsed b hmem) (show Block.start.isUsed from rfl) heq
  case ends =>
    rw [code_render, List.isChain_map]
    refine List.IsChain.imp_of_mem_imp (fun l next hl _ hchain hend => ?_) h.isChain
    rw [Line.label?_render, Option.isSome_map]
    refine hchain ?_
    rw [Line.instruction?_render (h.clean l (List.mem_of_mem_filter hl))] at hend
    cases l with
    | statement s => exact s.isEnd_words.symm.trans hend
    | block b | comment body => cases hend
  case returns =>
    obtain ⟨v, hv⟩ := hwhole.returns
    obtain ⟨before, rfl⟩ := List.getLast?_eq_some_iff.1 hv
    have hret : Line.Clean (.statement (.ret v)) := trivial
    refine ⟨(Line.statement (.ret v)).render, [v.render], ?_, Line.instruction?_render hret⟩
    rw [code_render, List.filter_append, List.map_append]
    exact List.getLast?_concat
  case rooms =>
    rw [hstatements, firstBlock_render, instructions_render hfirst]
    refine List.forall_mem_map.2 fun s hs w hw hroom => ?_
    obtain ⟨t, ht, rfl⟩ : ∃ t ∈ s.temps.filter Temp.isRoom, t.render = w := by
      rw [← List.mem_map, ← Statement.rooms_words (h.fits s hs).clean]
      exact List.mem_filter.2 ⟨hw, hroom⟩
    obtain ⟨ht, hisRoom⟩ := List.mem_filter.1 ht
    obtain ⟨s', hs', hreserved⟩ := hwhole.rooms t ((h.fits s hs).rooms t ht hisRoom)
    refine List.mem_filterMap.2 ⟨s'.words, List.mem_map_of_mem ?_, s'.reserved?_words hreserved⟩
    exact List.mem_filterMap.2 ⟨_, hs', rfl⟩

end StackCompiler.Il
