/-
**Drafting the lines of an instruction.**

While the lines of one instruction are written, scratch registers are taken from a pool of ten; a
register that is held is not taken again.  All of them are free again when the lines are done, so
nothing is carried in a scratch register from one instruction to the next.
-/

import StackCompiler.Lowering.Failure
import StackCompiler.Lowering.Listing

namespace StackCompiler.Lowering

open Listing

/-- The scratch registers, in the order in which they are taken. -/
def scratchRegisters : List Register := [8, 9, 10, 11, 12, 13, 14, 15, 24, 25]

/-- The steps of writing lines. -/
inductive Drafting (α : Type) where
  | done (a : α)
  | fail (cause : Cause)
  | write (ls : List Line) (next : Drafting α)
  /-- Takes a scratch register. -/
  | take (next : Register → Drafting α)

/-- The lines of an instruction while they are written. -/
structure Draft where
  written : List Line := []
  /-- The scratch registers held, the latest first. -/
  held : List Register := []
deriving DecidableEq, Repr

namespace Drafting

variable {α β : Type}

/-- Goes on where a draft is done. -/
def bind : Drafting α → (α → Drafting β) → Drafting β
  | done a, f => f a
  | fail cause, _ => fail cause
  | write ls next, f => write ls (next.bind f)
  | take next, f => take fun r => (next r).bind f

/-- Goes on where a draft fails. -/
def handle : Drafting α → (Cause → Drafting α) → Drafting α
  | done a, _ => done a
  | fail cause, f => f cause
  | write ls next, f => write ls (next.handle f)
  | take next, f => take fun r => (next r).handle f

instance : Monad Drafting where
  pure := done
  bind := bind

instance : MonadExcept Cause Drafting where
  throw := fail
  tryCatch := handle

/-- Writes lines. -/
def emit (ls : List Line) : Drafting Unit := write ls (done ())

/-- Takes the first scratch register that is not held. -/
def scratch : Drafting Register := take done

/-- Goes through the steps.  The first scratch register that is not held is taken. -/
def run : Drafting α → Draft → Except Cause (α × Draft)
  | done a, d => .ok (a, d)
  | fail cause, _ => .error cause
  | write ls next, d => next.run { d with written := d.written ++ ls }
  | take next, d =>
    match scratchRegisters.find? fun r => !d.held.contains r with
    | some r => (next r).run { d with held := r :: d.held }
    | none => .error .noScratch

/-- The lines of a draft with a free pool. -/
def lines (draft : Drafting Unit) : Except Cause (List Line) :=
  (draft.run {}).map (·.2.written)

theorem bind_assoc {γ : Type} (m : Drafting α) (f : α → Drafting β) (g : β → Drafting γ) :
    (m.bind f).bind g = m.bind fun a => (f a).bind g := by
  induction m with
  | done a => rfl
  | fail cause => rfl
  | write ls next ih => exact congrArg (write ls) ih
  | take next ih => exact congrArg take (funext ih)

theorem id_map (m : Drafting α) : id <$> m = m := by
  induction m with
  | done a => rfl
  | fail cause => rfl
  | write ls next ih => exact congrArg (write ls) ih
  | take next ih => exact congrArg take (funext ih)

instance : LawfulMonad Drafting :=
  LawfulMonad.mk' Drafting id_map (fun _ _ => rfl) bind_assoc

end Drafting

end StackCompiler.Lowering
