/-
**YAML tokens.**

The tokens out of which documents are put together.  Those that only the columns of lines show, such
as the start and the end of a block, are tokens as well.
-/

import StackCompiler.Text.Basic

namespace StackCompiler.Yaml

/-- A token. -/
inductive Token where
  | documentStart
  | documentEnd
  | blockSequenceStart
  | blockMappingStart
  | blockEnd
  | flowSequenceStart
  | flowSequenceEnd
  | flowMappingStart
  | flowMappingEnd
  | blockEntry
  | flowEntry
  | key
  | value
  | scalar (plain : Bool) (contents : Text)
  | streamEnd
deriving DecidableEq, Repr

end StackCompiler.Yaml
