/-
**Reading a module.**

What uses a module has nothing but its text.  It reads lines: those of a function stand between the
line that opens it and the one that closes it, a line with `@` starts a block, an indented line is
an instruction with its words, and a line with `#` is a comment.  A function is well formed if its
blocks have different names, if jumps go to its blocks, if nothing follows a jump or a return in a
block, if it ends with a return, and if its first block makes room for every call.

What is read of a module are its functions with their names, blocks and statements, as long as every
line is one line: no comment holds a line end, and types and operations are plain words.

* `Il.functionsIn_render` — **the functions that are read of a module are its functions**.
-/

import StackCompiler.Proofs.ModuleLines

namespace StackCompiler.Il

open Listing (Token token_of_all token_decimal token_signed)
open Text (newline splitOn)

/-! ### Reading -/

namespace Reading

/-- Whether a byte stands between words: blanks, commas and parentheses do. -/
def isBreak (c : UInt8) : Bool := c == 9 || c == 32 || c == 40 || c == 41 || c == 44

/-- The words of a line. -/
def words (line : Text) : List Text :=
  (splitOn 32 (line.map fun c => if isBreak c then 32 else c)).filter fun w => !w.isEmpty

/-- The name of the block that a line starts, or that a word refers to. -/
def label? (t : Text) : Option Text := if t.head? = some 64 then some t.tail else none

/-- The words of the instruction on an indented line. -/
def instruction? (line : Text) : Option (List Text) :=
  if line.head? = some 9 then some (words line.tail) else none

/-- The labels of a body. -/
def labels (body : List Text) : List Text := body.filterMap label?

/-- The instructions of a body. -/
def instructions (body : List Text) : List (List Text) := body.filterMap instruction?

/-- The lines of a body that are no comments. -/
def code (body : List Text) : List Text := body.filter fun line => !isComment line

/-- The lines of the first block. -/
def firstBlock (body : List Text) : List Text :=
  body.tail.takeWhile fun line => (label? line).isNone

/-- Whether an instruction ends a block. -/
def isEnd (ws : List Text) : Bool :=
  [text "jmp", text "jnz", text "ret"].any fun w => ws.head? == some w

/-- The labels to which an instruction jumps. -/
def targets (ws : List Text) : List Text :=
  if ws.head? = some (text "jmp") ∨ ws.head? = some (text "jnz") then ws.filterMap label? else []

/-- The function that an instruction calls, perhaps for its result. -/
def callee? (ws : List Text) : Option Text :=
  if ws.head? = some (text "call") then ws[1]?
  else if ws[2]? = some (text "call") then ws[3]? else none

/-- The temporary for which memory is reserved. -/
def reserved? (ws : List Text) : Option Text :=
  if ws[2]? = some (text "alloc4") ∨ ws[2]? = some (text "alloc8") then ws.head? else none

/-- Whether a word is a temporary that a call needs room for. -/
def isRoom (w : Text) : Bool := (text "%call").isPrefixOf w || (text "%hv").isPrefixOf w

/-- **A function that is well formed**, by the lines that it consists of. -/
structure WellFormed (body : List Text) : Prop where
  /-- It starts with a block. -/
  starts : body.head? = some (text "@start")
  once : (labels body).Nodup
  /-- Jumps go to blocks of the function, and not to the first one. -/
  jumps : ∀ ws ∈ instructions body, ∀ b ∈ targets ws, b ∈ labels body ∧ b ≠ text "start"
  /-- Behind a jump or a return only a block can start. -/
  ends : (code body).IsChain fun line next =>
    (instruction? line).any isEnd → (label? next).isSome
  returns : ∃ line ws, (code body).getLast? = some line ∧
    instruction? line = some (text "ret" :: ws)
  /-- The first block makes room for every call. -/
  rooms : ∀ ws ∈ instructions body, ∀ w ∈ ws, isRoom w →
    w ∈ (instructions (firstBlock body)).filterMap reserved?

/-- Whether a line starts a function. -/
def isHeader (line : Text) : Bool :=
  (text "function ").isPrefixOf line || (text "export function ").isPrefixOf line

/-- The name in such a line. -/
def nameIn (header : Text) : Text :=
  ((words header).find? fun w => w.head? == some 36).getD []

/-- **The functions that are read from lines**, each with its name and its own lines. -/
def functionsIn : List Text → List (Text × List Text)
  | [] => []
  | line :: rest =>
    if isHeader line then
      (nameIn line, rest.takeWhile (· != text "\x7d")) :: functionsIn rest
    else functionsIn rest

/-- **Functions of a program are called by names that are defined once.** -/
def IsLinked (fs : List (Text × List Text)) : Prop :=
  ∀ f ∈ fs, ∀ ws ∈ instructions f.2, ∀ g, callee? ws = some g → (text "$vm_f").isPrefixOf g →
    (fs.map Prod.fst).count g = 1

/-! ### Words -/

theorem words_nil : words [] = [] := rfl

theorem words_cut {c : UInt8} (hc : isBreak c = true) (s t : Text) :
    words (s ++ c :: t) = words s ++ words t := by
  rw [words, List.map_append, List.map_cons, if_pos hc, Text.splitOn_append, List.filter_append]
  rfl

theorem isBreak_of_plainByte {c : UInt8} (h : Listing.plainByte c = true) : isBreak c = false := by
  obtain ⟨⟨h33, -⟩, -, h40, h41, h44, -⟩ := Listing.plainByte_iff.1 h
  have h9 : c ≠ 9 := by rintro rfl; exact absurd h33 (by decide)
  have h32 : c ≠ 32 := by rintro rfl; exact absurd h33 (by decide)
  simp [isBreak, h9, h32, h40, h41, h44]

theorem words_token {w : Text} (h : Token w) : words w = [w] := by
  have hsame : w.map (fun c => if isBreak c then 32 else c) = w := by
    conv => rhs; rw [← List.map_id w]
    apply List.map_congr_left
    intro c hc
    rw [isBreak_of_plainByte (h.plain c hc), if_neg Bool.false_ne_true, id]
  have hblank : (32 : UInt8) ∉ w := fun hmem => absurd (h.plain 32 hmem) (by decide)
  rw [words, hsame, Text.splitOn_of_not_mem hblank, List.filter_cons_of_pos, List.filter_nil]
  simpa using h.ne_nil

theorem words_commas (ts : List Text) : words (commas ts) = ts.flatMap words := by
  induction ts with
  | nil => rfl
  | cons t ts ih =>
      cases ts with
      | nil =>
          rw [List.flatMap_singleton]
          exact congrArg words (List.append_nil t)
      | cons u us =>
          have hcut : commas (t :: u :: us) = t ++ 44 :: ([] ++ 32 :: commas (u :: us)) := rfl
          rw [hcut, words_cut rfl, words_cut rfl, ih, words_nil, List.nil_append,
            List.flatMap_cons (x := t)]

end Reading

open Reading (functionsIn isRoom words_commas words_cut words_nil words_token)

/-! ### Names are words -/

theorem Temp.token (t : Temp) : Token t.render := by
  cases t with
  | fresh n | callee n | calleeHasValue n =>
      exact (token_of_all (by decide)).append (token_decimal n).plain
  | _ => exact token_of_all (by decide)

theorem Global.token (g : Global) : Token g.render := by
  cases g with
  | function start => exact (token_of_all (by decide)).append (token_decimal start).plain
  | _ => exact token_of_all (by decide)

theorem Value.token (v : Value) : Token v.render := by
  cases v with
  | temp t => exact t.token
  | number n => exact token_signed n
  | global g => exact g.token

theorem Block.token (b : Block) : Token b.render := by
  have hnumbered : ∀ {front : Text}, (!front.isEmpty && front.all Listing.plainByte) = true →
      ∀ n, Token (front ++ Numeral.decimal n) :=
    fun hfront n => (token_of_all hfront).append (token_decimal n).plain
  induction b with
  | start | value | noValue => exact token_of_all (by decide)
  | place offset => exact hnumbered (by decide) offset
  | fallThrough offset | result offset | returned offset | stop offset =>
      exact (hnumbered (by decide) offset).append (token_of_all (by decide)).plain
  | withCell b ih | withoutCell b ih => exact ih.append (token_of_all (by decide)).plain

theorem token_reference (b : Block) : Token (reference b) :=
  (token_of_all (t := text "@") (by decide)).append b.token.plain

/-- A word of small letters and digits. -/
def isKeyword (t : Text) : Bool :=
  !t.isEmpty && t.all fun c => (97 ≤ c && c ≤ 122) || (48 ≤ c && c ≤ 57)

variable {t : Text}

theorem keyword_bytes (h : isKeyword t = true) {c : UInt8} (hc : c ∈ t) :
    Listing.plainByte c = true ∧ c ≠ 37 ∧ c ≠ 64 ∧ c ≠ 36 := by
  have hbyte := List.all_eq_true.1 (Bool.and_eq_true_iff.1 h).2 c hc
  simp only [Bool.or_eq_true, Bool.and_eq_true, decide_eq_true_eq, Listing.plainByte_iff,
    UInt8.le_iff_toNat_le, ne_eq, ← UInt8.toNat_inj, UInt8.reduceToNat] at hbyte ⊢
  omega

theorem keyword_ne_nil (h : isKeyword t = true) : t ≠ [] := by
  rintro rfl
  cases h

theorem keyword_token (h : isKeyword t = true) : Token t :=
  ⟨keyword_ne_nil h, fun _ hc => (keyword_bytes h hc).1⟩

theorem token_of_type (h : isKeyword t = true) : Token (61 :: t) :=
  (token_of_all (t := [61]) (by decide)).append (keyword_token h).plain

/-! ### The words of statements -/

/-- An argument that is read as it was written. -/
def Argument.Clean : Argument → Prop
  | typed type _ => isKeyword type
  | others => True

/-- A statement that is read as it was written. -/
def Statement.Clean : Statement → Prop
  | assign _ type operation _ => isKeyword type ∧ isKeyword operation ∧ operation ≠ text "call"
  | store type _ _ => isKeyword type
  | call result _ arguments => (∀ r ∈ result, isKeyword r.2) ∧ ∀ a ∈ arguments, a.Clean
  | jump _ | branch _ _ _ | ret _ => True

/-- The words of an argument. -/
def Argument.words : Argument → List Text
  | typed type v => [type, v.render]
  | others => [text "..."]

/-- The words of a statement. -/
def Statement.words : Statement → List Text
  | assign t type operation values =>
    t.render :: (61 :: type) :: operation :: values.map Value.render
  | store type v address => [text "store" ++ type, v.render, address.render]
  | call result f arguments =>
    (result.map fun (t, type) => [t.render, 61 :: type]).getD [] ++
      text "call" :: f.render :: arguments.flatMap Argument.words
  | jump b => [text "jmp", reference b]
  | branch v nonzero isZero => [text "jnz", v.render, reference nonzero, reference isZero]
  | ret v => [text "ret", v.render]

theorem Argument.words_render {a : Argument} (h : a.Clean) : Reading.words a.render = a.words := by
  cases a with
  | typed type v =>
      have hcut : (typed type v).render = type ++ 32 :: v.render := List.append_assoc _ _ _
      rw [hcut, words_cut rfl, words_token (keyword_token h), words_token v.token]
      rfl
  | others => exact words_token (token_of_all (by decide))

theorem words_assigned (t : Temp) {type : Text} (h : isKeyword type = true) (rest : Text) :
    Reading.words (assigned t type ++ rest) = t.render :: (61 :: type) :: Reading.words rest := by
  have hcut : assigned t type ++ rest = t.render ++ 32 :: ((61 :: type) ++ 32 :: rest) := by
    simp only [assigned, List.append_assoc]
    rfl
  rw [hcut, words_cut rfl, words_cut rfl, words_token t.token, words_token (token_of_type h)]
  rfl

theorem words_values (vs : List Value) :
    Reading.words (commas (vs.map Value.render)) = vs.map Value.render := by
  rw [words_commas, List.flatMap_map,
    List.flatMap_congr fun v _ => words_token v.token, ← List.map_eq_flatMap]

theorem words_keyword {k : Text} (hk : isKeyword k = true) (t : Text) :
    Reading.words (k ++ 32 :: t) = k :: Reading.words t := by
  rw [words_cut rfl, words_token (keyword_token hk)]
  rfl

theorem words_call (f : Global) {arguments : List Argument} (h : ∀ a ∈ arguments, a.Clean) :
    Reading.words (text "call " ++ f.render ++ text "(" ++
      commas (arguments.map Argument.render) ++ text ")") =
        text "call" :: f.render :: arguments.flatMap Argument.words := by
  have hcut : text "call " ++ f.render ++ text "(" ++ commas (arguments.map Argument.render) ++
      text ")" = text "call" ++ 32 :: (f.render ++ 40 ::
        (commas (arguments.map Argument.render) ++ 41 :: [])) := by
    simp only [List.append_assoc]
    rfl
  rw [hcut, words_keyword (by decide), words_cut rfl, words_cut rfl,
    words_token f.token, words_commas, List.flatMap_map, words_nil,
    List.append_nil, List.flatMap_congr fun a ha => Argument.words_render (h a ha)]
  rfl

/-- **The words of a statement.** -/
theorem Statement.words_render {s : Statement} (h : s.Clean) :
    Reading.words s.render = s.words := by
  cases s with
  | assign t type operation values =>
      have hrender : (assign t type operation values).render =
          assigned t type ++ (operation ++ 32 :: commas (values.map Value.render)) := by
        simp only [render, List.append_assoc]
        rfl
      rw [hrender, words_assigned t h.1, words_keyword h.2.1, words_values]
      rfl
  | store type v address =>
      have hword : isKeyword (text "store" ++ type) = true := by
        have htype : isKeyword type = true := h
        simp only [isKeyword, Bool.and_eq_true, List.all_append] at htype ⊢
        exact ⟨rfl, rfl, htype.2⟩
      have hrender : (store type v address).render =
          (text "store" ++ type) ++ 32 :: commas ([v, address].map Value.render) :=
        List.append_assoc _ _ _
      rw [hrender, words_keyword hword, words_values]
      rfl
  | call result f arguments =>
      cases result with
      | none => exact words_call f h.2
      | some r =>
          have hrender : (call (some r) f arguments).render = assigned r.1 r.2 ++
              (text "call " ++ f.render ++ text "(" ++ commas (arguments.map Argument.render) ++
                text ")") := by
            simp only [render, Option.map_some, Option.getD_some, List.append_assoc]
          rw [hrender, words_assigned r.1 (h.1 r rfl), words_call f h.2]
          rfl
  | jump b =>
      have hrender : (jump b).render = text "jmp" ++ 32 :: reference b := rfl
      rw [hrender, words_keyword (by decide), words_token (token_reference b)]
      rfl
  | branch v nonzero isZero =>
      have hrender : (branch v nonzero isZero).render =
          text "jnz" ++ 32 :: commas [v.render, reference nonzero, reference isZero] := rfl
      rw [hrender, words_keyword (by decide), words_commas]
      simp only [List.flatMap_cons, List.flatMap_nil, words_token v.token,
        words_token (token_reference _)]
      rfl
  | ret v =>
      have hrender : (ret v).render = text "ret" ++ 32 :: v.render := rfl
      rw [hrender, words_keyword (by decide), words_token v.token]
      rfl

/-! ### What is read of a statement -/

/-- The temporary of a value. -/
def Value.temp? : Value → Option Temp
  | temp t => some t
  | number _ | global _ => none

/-- The temporary of an argument. -/
def Argument.temp? : Argument → Option Temp
  | typed _ v => v.temp?
  | others => none

/-- The temporaries that stand for memory of a call. -/
def Temp.isRoom : Temp → Bool
  | callee _ | calleeHasValue _ | entryHasValue => true
  | _ => false

namespace Statement

/-- Whether a statement ends a block. -/
def isEnd : Statement → Bool
  | jump _ | branch _ _ _ | ret _ => true
  | assign _ _ _ _ | store _ _ _ | call _ _ _ => false

/-- The blocks to which a statement jumps. -/
def targets : Statement → List Block
  | jump b => [b]
  | branch _ nonzero isZero => [nonzero, isZero]
  | assign _ _ _ _ | store _ _ _ | call _ _ _ | ret _ => []

/-- The function that a statement calls. -/
def callee? : Statement → Option Global
  | call _ f _ => some f
  | _ => none

/-- The temporaries of a statement. -/
def temps : Statement → List Temp
  | assign t _ _ values => t :: values.filterMap Value.temp?
  | store _ v address => [v, address].filterMap Value.temp?
  | call result _ arguments =>
    (result.map Prod.fst).toList ++ arguments.filterMap Argument.temp?
  | branch v _ _ | ret v => [v].filterMap Value.temp?
  | jump _ => []

end Statement

theorem Temp.render_eq_cons (t : Temp) : ∃ rest, t.render = 37 :: rest := by
  have hhead : t.render.head? = some 37 := by cases t <;> rfl
  exact List.head?_eq_some_iff.1 hhead

theorem Global.render_eq_cons (g : Global) : ∃ rest, g.render = 36 :: rest := by
  have hhead : g.render.head? = some 36 := by cases g <;> rfl
  exact List.head?_eq_some_iff.1 hhead

theorem Temp.isRoom_render (t : Temp) : Reading.isRoom t.render = t.isRoom := by
  cases t <;> rfl

theorem signed_eq_cons (n : Int) : ∃ c rest, Numeral.signed n = c :: rest ∧ c < 64 ∧ c ≠ 37 := by
  cases n with
  | ofNat n =>
      obtain ⟨d, rest, hn, hd, -⟩ := Numeral.write_eq_cons 10 (by decide) n
      have hdigit : ∀ d < 10, Numeral.digit d < 64 ∧ Numeral.digit d ≠ 37 := by decide
      exact ⟨_, rest, hn, hdigit d hd⟩
  | negSucc n => exact ⟨45, Numeral.decimal (n + 1), rfl, by decide⟩

/-- No value looks like a block or like a keyword. -/
theorem Value.render_eq_cons (v : Value) : ∃ c rest, v.render = c :: rest ∧ c < 64 := by
  cases v with
  | temp t =>
      obtain ⟨rest, ht⟩ := t.render_eq_cons
      exact ⟨37, rest, ht, by decide⟩
  | number n =>
      obtain ⟨c, rest, hn, hc, -⟩ := signed_eq_cons n
      exact ⟨c, rest, hn, hc⟩
  | global g =>
      obtain ⟨rest, hg⟩ := g.render_eq_cons
      exact ⟨36, rest, hg, by decide⟩

theorem Value.label?_render (v : Value) : Reading.label? v.render = none := by
  obtain ⟨c, rest, hv, hc⟩ := v.render_eq_cons
  rw [hv, Reading.label?, if_neg]
  rintro ⟨⟩
  exact absurd hc (by decide)

theorem label?_reference (b : Block) : Reading.label? (reference b) = some b.render := rfl

theorem Value.render_ne_call (v : Value) : v.render ≠ text "call" := by
  obtain ⟨c, rest, hv, hc⟩ := v.render_eq_cons
  rw [hv]
  rintro ⟨⟩
  exact absurd hc (by decide)

theorem not_isRoom {c : UInt8} (hc : c ≠ 37) (t : Text) : isRoom (c :: t) = false := by
  have hne : ((37 : UInt8) == c) = false := by simpa using hc.symm
  have hcall : text "%call" = 37 :: text "call" := rfl
  have hvalue : text "%hv" = 37 :: text "hv" := rfl
  rw [isRoom, hcall, hvalue, List.isPrefixOf, List.isPrefixOf, hne]
  rfl

theorem not_isRoom_keyword (h : isKeyword t = true) : isRoom t = false := by
  cases t with
  | nil => cases h
  | cons c t => exact not_isRoom (keyword_bytes h List.mem_cons_self).2.1 t

theorem Value.isRoom_render (v : Value) : isRoom v.render = v.temp?.any Temp.isRoom := by
  cases v with
  | temp t => exact t.isRoom_render
  | number n =>
      obtain ⟨c, rest, hn, -, hc⟩ := signed_eq_cons n
      rw [Value.render, hn]
      exact not_isRoom hc rest
  | global g =>
      obtain ⟨rest, hg⟩ := g.render_eq_cons
      rw [Value.render, hg]
      exact not_isRoom (by decide) rest

theorem rooms_values (vs : List Value) : (vs.map Value.render).filter isRoom =
    ((vs.filterMap Value.temp?).filter Temp.isRoom).map Temp.render := by
  induction vs with
  | nil => rfl
  | cons v vs ih =>
      rw [List.map_cons, List.filter_cons, v.isRoom_render, ih, List.filterMap_cons]
      cases v with
      | temp t =>
          rw [Value.temp?, Option.any_some]
          cases hroom : t.isRoom <;> simp [hroom, Value.render]
      | number n | global g => rfl

theorem rooms_arguments {as : List Argument} (h : ∀ a ∈ as, a.Clean) :
    (as.flatMap Argument.words).filter isRoom =
      ((as.filterMap Argument.temp?).filter Temp.isRoom).map Temp.render := by
  -- types are keywords, so only the values of arguments count
  have hvalues : (as.flatMap Argument.words).filter isRoom =
      ((as.filterMap fun | .typed _ v => some v | .others => none).map Value.render).filter
        isRoom := by
    induction as with
    | nil => rfl
    | cons a as ih =>
        obtain ⟨ha, has⟩ := List.forall_mem_cons.1 h
        rw [List.flatMap_cons, List.filter_append, ih has, List.filterMap_cons]
        cases a with
        | typed type v =>
            rw [Argument.words, List.filter_cons, not_isRoom_keyword ha, List.map_cons,
              List.filter_cons, List.filter_cons, List.filter_nil]
            cases isRoom v.render <;> rfl
        | others => rfl
  have htemps : as.filterMap Argument.temp? =
      (as.filterMap fun | .typed _ v => some v | .others => none).filterMap Value.temp? := by
    rw [List.filterMap_filterMap]
    refine List.filterMap_congr fun a _ => ?_
    cases a <;> rfl
  rw [hvalues, htemps, rooms_values]

namespace Statement

theorem isEnd_words (s : Statement) : Reading.isEnd s.words = s.isEnd := by
  cases s with
  | assign t type operation values =>
      obtain ⟨rest, ht⟩ := t.render_eq_cons
      rw [words, ht]
      rfl
  | call result f arguments =>
      cases result with
      | none => rfl
      | some r =>
          obtain ⟨rest, ht⟩ := r.1.render_eq_cons
          simp only [words, Option.map_some, Option.getD_some, List.cons_append, ht]
          rfl
  | _ => rfl

theorem targets_words (s : Statement) : Reading.targets s.words = s.targets.map Block.render := by
  -- a first word that starts with `%` is neither of the two jumps
  have htemp : ∀ (t : Temp) (ws : List Text), Reading.targets (t.render :: ws) = [] := by
    intro t ws
    obtain ⟨rest, ht⟩ := t.render_eq_cons
    rw [ht, Reading.targets, if_neg]
    rintro (⟨⟨⟩⟩ | ⟨⟨⟩⟩)
  cases s with
  | assign t type operation values => exact htemp t _
  | store type v address =>
      rw [words, Reading.targets, if_neg]
      · rfl
      · rintro (⟨⟨⟩⟩ | ⟨⟨⟩⟩)
  | call result f arguments =>
      cases result with
      | none => rfl
      | some r => exact htemp r.1 _
  | jump b => rfl
  | branch v nonzero isZero =>
      rw [words, Reading.targets, if_pos]
      · simp only [List.filterMap_cons, List.filterMap_nil, v.label?_render, label?_reference]
        rfl
      · exact Or.inr rfl
  | ret v => rfl

theorem callee?_words {s : Statement} (h : s.Clean) :
    Reading.callee? s.words = s.callee?.map Global.render := by
  have htemp : ∀ (t : Temp) (ws : List Text),
      Reading.callee? (t.render :: ws) = if ws[1]? = some (text "call") then ws[2]? else none := by
    intro t ws
    obtain ⟨rest, ht⟩ := t.render_eq_cons
    rw [ht, Reading.callee?, if_neg]
    · rfl
    · rintro ⟨⟩
  cases s with
  | assign t type operation values =>
      rw [words, htemp, if_neg]
      · rfl
      · rintro ⟨⟩
        exact h.2.2 rfl
  | store type v address =>
      rw [words, Reading.callee?, if_neg, if_neg]
      · rfl
      · rintro hv
        exact address.render_ne_call (Option.some.inj hv)
      · rintro ⟨⟩
  | call result f arguments =>
      cases result with
      | none => rfl
      | some r => exact htemp r.1 _
  | branch v nonzero isZero => rfl
  | jump b | ret v => rfl

/-- **The rooms among the words of a statement are temporaries of it.** -/
theorem rooms_words {s : Statement} (h : s.Clean) :
    s.words.filter isRoom = (s.temps.filter Temp.isRoom).map Temp.render := by
  have htemp : ∀ (t : Temp) (ws : List Text) (ts : List Temp),
      ws.filter isRoom = (ts.filter Temp.isRoom).map Temp.render →
        (t.render :: ws).filter isRoom = ((t :: ts).filter Temp.isRoom).map Temp.render := by
    intro t ws ts hws
    rw [List.filter_cons, List.filter_cons, t.isRoom_render, hws]
    cases t.isRoom <;> rfl
  have hword : ∀ {w : Text} (ws : List Text), isRoom w = false →
      (w :: ws).filter isRoom = ws.filter isRoom := by
    intro w ws hw
    rw [List.filter_cons, hw, if_neg Bool.false_ne_true]
  have hreference : ∀ b, isRoom (reference b) = false := fun b => rfl
  cases s with
  | assign t type operation values =>
      refine htemp t _ _ ?_
      rw [hword _ (not_isRoom (by decide) type), hword _ (not_isRoom_keyword h.2.1), rooms_values]
  | store type v address =>
      exact (hword _ rfl).trans (rooms_values [v, address])
  | call result f arguments =>
      have hcall : (text "call" :: f.render :: arguments.flatMap Argument.words).filter
          isRoom = ((arguments.filterMap Argument.temp?).filter Temp.isRoom).map
            Temp.render := by
        have hglobal : isRoom f.render = false := Value.isRoom_render (.global f)
        rw [hword _ rfl, hword _ hglobal, rooms_arguments h.2]
      cases result with
      | none => exact hcall
      | some r =>
          refine htemp r.1 _ _ ?_
          exact (hword _ (not_isRoom (by decide) r.2)).trans hcall
  | jump b => rfl
  | branch v nonzero isZero =>
      have hlast : [v.render, reference nonzero, reference isZero].filter isRoom =
          [v.render].filter isRoom := by
        simp [List.filter_cons, hreference]
      exact (hword _ rfl).trans (hlast.trans (rooms_values [v]))
  | ret v => exact (hword _ rfl).trans (rooms_values [v])

end Statement

/-! ### What is read of lines -/

namespace Line

/-- The block that a line starts. -/
def block? : Line → Option Block
  | block b => some b
  | statement _ | comment _ => none

/-- The statement of a line. -/
def statement? : Line → Option Statement
  | statement s => some s
  | block _ | comment _ => none

/-- Whether a line is no comment. -/
def isCode : Line → Bool
  | comment _ => false
  | block _ | statement _ => true

/-- A line that is read as it was written. -/
def Clean : Line → Prop
  | block _ => True
  | statement s => s.Clean
  | comment body => newline ∉ body

theorem label?_render (l : Line) : Reading.label? l.render = l.block?.map Block.render := by
  cases l <;> rfl

theorem isComment_render (l : Line) : Il.isComment l.render = !l.isCode := by
  cases l <;> rfl

theorem instruction?_render {l : Line} (h : l.Clean) :
    Reading.instruction? l.render = l.statement?.map Statement.words := by
  cases l with
  | statement s => exact congrArg some (Statement.words_render h)
  | block b | comment body => rfl

theorem isHeader_render (l : Line) : Reading.isHeader l.render = false := by
  cases l <;> rfl

theorem render_ne_close (l : Line) : l.render ≠ text "\x7d" := by
  cases l <;> rintro ⟨⟩

end Line

theorem labels_render (ls : List Line) :
    Reading.labels (ls.map Line.render) = (ls.filterMap Line.block?).map Block.render := by
  rw [Reading.labels, List.filterMap_map, List.map_filterMap]
  exact List.filterMap_congr fun l _ => l.label?_render

theorem instructions_render {ls : List Line} (h : ∀ l ∈ ls, l.Clean) :
    Reading.instructions (ls.map Line.render) =
      (ls.filterMap Line.statement?).map Statement.words := by
  rw [Reading.instructions, List.filterMap_map, List.map_filterMap]
  exact List.filterMap_congr fun l hl => Line.instruction?_render (h l hl)

theorem code_render (ls : List Line) :
    Reading.code (ls.map Line.render) = (ls.filter Line.isCode).map Line.render := by
  rw [Reading.code, List.filter_map]
  congr 1
  refine List.filter_congr fun l _ => ?_
  rw [Function.comp_apply, l.isComment_render, Bool.not_not]

/-! ### Clean lines are single lines -/

theorem newline_notMem (h : Token t) : newline ∉ t :=
  fun hmem => absurd (h.plain _ hmem) (by decide)

theorem newline_notMem_commas {ts : List Text} (h : ∀ t ∈ ts, newline ∉ t) :
    newline ∉ commas ts := by
  induction ts with
  | nil => exact List.not_mem_nil
  | cons t ts ih =>
      obtain ⟨ht, hts⟩ := List.forall_mem_cons.1 h
      cases ts with
      | nil =>
          have hone : commas [t] = t := List.append_nil t
          rwa [hone]
      | cons u us =>
          have hcut : commas (t :: u :: us) = t ++ (text ", " ++ commas (u :: us)) := rfl
          rw [hcut, List.mem_append, List.mem_append, not_or, not_or]
          exact ⟨ht, by decide, ih hts⟩

theorem newline_notMem_values (vs : List Value) : newline ∉ commas (vs.map Value.render) :=
  newline_notMem_commas (List.forall_mem_map.2 fun v _ => newline_notMem v.token)

theorem Argument.newline_notMem {a : Argument} (h : a.Clean) : newline ∉ a.render := by
  cases a with
  | typed type v =>
      simp only [render, List.mem_append, not_or]
      exact ⟨⟨Il.newline_notMem (keyword_token h), by decide⟩, Il.newline_notMem v.token⟩
  | others => decide

theorem newline_notMem_assigned (t : Temp) {type : Text} (h : isKeyword type = true) :
    newline ∉ assigned t type := by
  simp only [assigned, List.mem_append, not_or]
  exact ⟨⟨⟨newline_notMem t.token, by decide⟩, newline_notMem (keyword_token h)⟩, by decide⟩

theorem Statement.newline_notMem {s : Statement} (h : s.Clean) : newline ∉ s.render := by
  cases s with
  | assign t type operation values =>
      simp only [render, List.mem_append, not_or]
      exact ⟨⟨⟨newline_notMem_assigned t h.1, Il.newline_notMem (keyword_token h.2.1)⟩, by decide⟩,
        newline_notMem_values values⟩
  | store type v address =>
      simp only [render, List.mem_append, not_or]
      exact ⟨⟨⟨by decide, Il.newline_notMem (keyword_token h)⟩, by decide⟩,
        newline_notMem_values [v, address]⟩
  | call result f arguments =>
      have harguments : newline ∉ commas (arguments.map Argument.render) :=
        newline_notMem_commas (List.forall_mem_map.2 fun a ha => (h.2 a ha |> a.newline_notMem))
      simp only [render, List.mem_append, not_or]
      refine ⟨⟨⟨⟨⟨?_, by decide⟩, Il.newline_notMem f.token⟩, by decide⟩, harguments⟩, by decide⟩
      cases result with
      | none => exact List.not_mem_nil
      | some r => exact newline_notMem_assigned r.1 (h.1 r rfl)
  | jump b =>
      simp only [render, List.mem_append, not_or]
      exact ⟨by decide, Il.newline_notMem (token_reference b)⟩
  | branch v nonzero isZero =>
      simp only [render, List.mem_append, not_or]
      refine ⟨by decide, newline_notMem_commas ?_⟩
      simp only [List.forall_mem_cons]
      exact ⟨Il.newline_notMem v.token, Il.newline_notMem (token_reference _),
        Il.newline_notMem (token_reference _), List.forall_mem_nil _⟩
  | ret v =>
      simp only [render, List.mem_append, not_or]
      exact ⟨by decide, Il.newline_notMem v.token⟩

theorem Line.newline_notMem {l : Line} (h : l.Clean) : newline ∉ l.render := by
  cases l with
  | block b =>
      simp only [render, List.mem_append, not_or]
      exact ⟨by decide, Il.newline_notMem b.token⟩
  | statement s =>
      simp only [render, List.mem_append, not_or]
      exact ⟨by decide, Statement.newline_notMem h⟩
  | comment body =>
      simp only [render, List.mem_append, not_or]
      exact ⟨by decide, h⟩

/-! ### What is read of a module -/

namespace Function

/-- A function that is read as it was written. -/
structure Clean (f : Function) : Prop where
  type : isKeyword f.type
  lines : ∀ l ∈ f.lines, l.Clean

variable {f : Function}

theorem isHeader_header (f : Function) : Reading.isHeader f.header = true := by
  cases hexported : f.exported <;> simp only [header, hexported] <;> rfl

/-- The name of a function is the first word with `$`. -/
theorem nameIn_header (h : f.Clean) : Reading.nameIn f.header = f.name.render := by
  obtain ⟨front, hfront, hheader⟩ : ∃ front,
      (∀ w ∈ Reading.words front, (w.head? == some 36) = false) ∧
      f.header = front ++ 32 :: (f.type ++ 32 :: (f.name.render ++ 40 ::
        (commas (f.parameters.map fun t => text "l " ++ t.render) ++ text ") \x7b"))) := by
    simp only [header, List.append_assoc]
    cases f.exported with
    | false => exact ⟨text "function", by decide, rfl⟩
    | true => exact ⟨text "export function", by decide, rfl⟩
  have htype : (f.type.head? == some 36) = false := by
    cases htype : f.type with
    | nil => rfl
    | cons c t =>
        have hbytes := keyword_bytes h.type (c := c) (htype ▸ List.mem_cons_self)
        simpa using hbytes.2.2.2
  have hname : (f.name.render.head? == some 36) = true := by
    obtain ⟨rest, hname⟩ := f.name.render_eq_cons
    rw [hname]
    rfl
  rw [hheader, Reading.nameIn, words_cut rfl, words_cut rfl, words_cut rfl,
    words_token (keyword_token h.type), words_token f.name.token,
    List.find?_append, List.find?_eq_none.2 (by simpa using hfront), Option.none_or]
  simp [htype, hname]

theorem newline_notMem_header (h : f.Clean) : newline ∉ f.header := by
  have hparameters : newline ∉ commas (f.parameters.map fun t => text "l " ++ t.render) := by
    refine newline_notMem_commas (List.forall_mem_map.2 fun t _ => ?_)
    rw [List.mem_append, not_or]
    exact ⟨by decide, newline_notMem t.token⟩
  simp only [header, List.mem_append, not_or]
  refine ⟨⟨⟨⟨⟨⟨⟨?_, by decide⟩, newline_notMem (keyword_token h.type)⟩, by decide⟩,
    newline_notMem f.name.token⟩, by decide⟩, hparameters⟩, by decide⟩
  split <;> decide

/-- The name and the body of a function. -/
def read (f : Function) : Text × List Text := (f.name.render, f.lines.map Line.render)

end Function

/-- Lines that open no function are passed over. -/
theorem functionsIn_append {ts : List Text} (h : ∀ t ∈ ts, Reading.isHeader t = false)
    (us : List Text) : functionsIn (ts ++ us) = functionsIn us := by
  induction ts with
  | nil => rfl
  | cons t ts ih =>
      obtain ⟨ht, hts⟩ := List.forall_mem_cons.1 h
      rw [List.cons_append, functionsIn, ht, if_neg Bool.false_ne_true, ih hts]

theorem functionsIn_texts {f : Function} (h : f.Clean) (us : List Text) :
    functionsIn (f.texts ++ us) = f.read :: functionsIn us := by
  have hlines : ∀ t ∈ f.lines.map Line.render ++ [text "\x7d"], Reading.isHeader t = false := by
    simp only [List.forall_mem_append, List.forall_mem_map, List.forall_mem_singleton]
    exact ⟨fun l _ => l.isHeader_render, by decide⟩
  have hbody : (f.lines.map Line.render ++ [text "\x7d"] ++ us).takeWhile (· != text "\x7d") =
      f.lines.map Line.render := by
    rw [List.append_assoc, List.takeWhile_append_of_pos]
    · rw [List.singleton_append, List.takeWhile_cons_of_neg (by simp), List.append_nil]
    · refine List.forall_mem_map.2 fun l _ => ?_
      simpa using l.render_ne_close
  have hempty : Reading.isHeader [] = false := rfl
  rw [Function.texts, List.cons_append, List.cons_append, functionsIn, hempty,
    if_neg Bool.false_ne_true, functionsIn, f.isHeader_header, if_pos rfl, hbody,
    functionsIn_append hlines, Function.nameIn_header h]
  rfl

/-- A module that is read as it was written. -/
structure Module.Clean (m : Module) : Prop where
  data : ∀ d ∈ m.data, newline ∉ d.line
  functions : ∀ f ∈ m.functions, f.Clean

/-- **The functions that are read of a module are its functions.** -/
theorem functionsIn_render {m : Module} (h : m.Clean) :
    functionsIn (splitOn newline m.render) = m.functions.map Function.read := by
  have hsingle : ∀ t ∈ m.texts, newline ∉ t := by
    simp only [Module.texts, List.forall_mem_append, List.forall_mem_map, List.forall_mem_flatMap]
    refine ⟨h.data, fun f hf => ?_⟩
    simp only [Function.texts, List.forall_mem_cons, List.forall_mem_append, List.forall_mem_map]
    exact ⟨List.not_mem_nil, Function.newline_notMem_header (h.functions f hf),
      fun l hl => Line.newline_notMem ((h.functions f hf).lines l hl), by decide⟩
  have hsplit : splitOn newline m.render = m.texts ++ [[]] := by
    rw [m.splitOn_render, List.flatMap_congr fun t ht => Text.splitOn_of_not_mem (hsingle t ht),
      List.flatMap_singleton']
  have hfunctions : ∀ fs : List Function, (∀ f ∈ fs, f.Clean) →
      functionsIn (fs.flatMap Function.texts ++ [[]]) = fs.map Function.read := by
    intro fs hfs
    induction fs with
    | nil => rfl
    | cons f fs ih =>
        obtain ⟨hf, hfs⟩ := List.forall_mem_cons.1 hfs
        rw [List.flatMap_cons, List.append_assoc, functionsIn_texts hf, ih hfs, List.map_cons]
  rw [hsplit, Module.texts, List.append_assoc, functionsIn_append, hfunctions _ h.functions]
  exact List.forall_mem_map.2 fun d _ => rfl

/-! ### Blocks have different names -/

namespace Block

/-- The first letter of a label. -/
def letter : Block → UInt8
  | start => 115
  | place _ | fallThrough _ | result _ | returned _ => 76
  | stop _ => 102
  | withCell b | withoutCell b => b.letter
  | value => 118
  | noValue => 110

/-- The offset in a label. -/
def offset? : Block → Option Nat
  | place offset | fallThrough offset | result offset | returned offset | stop offset =>
    some offset
  | withCell b | withoutCell b => b.offset?
  | start | value | noValue => none

/-- What follows it. -/
def ending : Block → Text
  | start => text "tart"
  | place _ => []
  | fallThrough _ => text "_f"
  | result _ => text "_push"
  | returned _ => text "_ret"
  | stop _ => text "_end"
  | withCell b => b.ending ++ text "_val"
  | withoutCell b => b.ending ++ text "_none"
  | value => text "alue"
  | noValue => text "one"

/-- The blocks that functions have. -/
def isUsed : Block → Bool
  | withCell (place _) | withCell (stop _) | withoutCell (place _) | withoutCell (stop _) => true
  | withCell _ | withoutCell _ => false
  | _ => true

/-- The block with a first byte, an offset and an ending. -/
def ofParts (letter : UInt8) : Option Nat → Text → Block
  | none, _ => if letter = 115 then start else if letter = 118 then value else noValue
  | some offset, t =>
    if letter = 76 then
      if t = [] then place offset
      else if t = text "_f" then fallThrough offset
      else if t = text "_push" then result offset
      else if t = text "_ret" then returned offset
      else if t = text "_val" then withCell (place offset)
      else withoutCell (place offset)
    else if t = text "_end" then stop offset
    else if t = text "_end_val" then withCell (stop offset)
    else withoutCell (stop offset)

theorem ofParts_parts {b : Block} (h : b.isUsed) : ofParts b.letter b.offset? b.ending = b := by
  cases b with
  | withCell b | withoutCell b =>
      cases b with
      | place _ | stop _ => rfl
      | _ => cases h
  | _ => rfl

theorem render_eq (b : Block) :
    b.render = b.letter :: ((b.offset?.map Numeral.decimal).getD [] ++ b.ending) := by
  induction b with
  | start | value | noValue => rfl
  | place offset => exact congrArg (76 :: ·) (List.append_nil _).symm
  | fallThrough offset | result offset | returned offset | stop offset => rfl
  | withCell b ih | withoutCell b ih =>
      rw [render, ih, List.cons_append, List.append_assoc]
      rfl

theorem parts_render {b : Block} (h : b.isUsed) :
    Listing.Label.parts b.render = ((b.offset?.map Numeral.decimal).getD [], b.ending) := by
  have hending : b.ending.head?.any Text.digitByte = false := by
    cases b with
    | withCell b | withoutCell b =>
        cases b with
        | place _ | stop _ => rfl
        | _ => cases h
    | _ => rfl
  rw [render_eq, Listing.Label.parts_eq _ _ hending]

/-- **Blocks of functions have different names.** -/
theorem render_inj {b b' : Block} (h : b.isUsed) (h' : b'.isUsed) (heq : b.render = b'.render) :
    b = b' := by
  have hparts := congrArg Listing.Label.parts heq
  rw [parts_render h, parts_render h', Prod.mk.injEq] at hparts
  have hletter : b.letter = b'.letter := by
    rw [render_eq b, render_eq b'] at heq
    exact (List.cons.inj heq).1
  rw [← ofParts_parts h, ← ofParts_parts h', hletter, Numeral.decimals_inj hparts.1, hparts.2]

end Block

end StackCompiler.Il
