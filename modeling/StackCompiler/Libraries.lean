/-
**What is taken from libraries.**

Digests, YAML texts and the names of native targets are made by libraries.  The tools ask for them,
and what is proved of the tools holds whatever the libraries answer.  The libraries that the tools
are run with are `Libraries.standard`.
-/

import StackCompiler.Text.Numeral
import StackCompiler.Yaml.Node

namespace StackCompiler

/-- The libraries of the tools. -/
class Libraries where
  /-- The digest of bytes. -/
  digest : List UInt8 → UInt64
  /-- The root of a YAML document, none if the document is malformed. -/
  readYaml : Text → Option Yaml.Node
  /-- The target for native code on an operating system and an architecture. -/
  nativeTarget : Text → Text → Text

/-- A digest as sixteen hexadecimal digits. -/
def Digest.render (h : UInt64) : Text := Numeral.hexPadded 16 h.toNat

end StackCompiler
