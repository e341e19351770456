/-
**Services.**

A program asks its surroundings for a service by number.  Six numbers have a meaning.
-/

namespace StackCompiler

/-- What a program can ask its machine for. -/
inductive Service where
  | printNumber
  | printString
  | extendHeap
  | exitZero
  | printCharacter
  | exitStatus
deriving DecidableEq, Repr

namespace Service

/-- The number of a service. -/
def number : Service → Nat
  | printNumber => 1
  | printString => 4
  | extendHeap => 9
  | exitZero => 10
  | printCharacter => 11
  | exitStatus => 17

/-- The service with a number. -/
def ofNumber? : Nat → Option Service
  | 1 => some printNumber
  | 4 => some printString
  | 9 => some extendHeap
  | 10 => some exitZero
  | 11 => some printCharacter
  | 17 => some exitStatus
  | _ => none

theorem ofNumber?_number (s : Service) : ofNumber? s.number = some s := by cases s <;> rfl

end Service

end StackCompiler
