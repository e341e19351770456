/-
**The libraries that the tools are run with.**

Digests are XXH64, and YAML texts are read as far as settings files and manifests need it.  Native
targets are those of the back end.  A difference is shown line by line, which is one of many ways.
-/

import StackCompiler.Bytes.Digest
import StackCompiler.Regression.Report
import StackCompiler.Yaml.Document

namespace StackCompiler

namespace Libraries

/-- The native targets that are made for one kind of system. -/
def systemTargets : List ((String × String) × String) :=
  [(("darwin", "amd64"), "amd64_apple"), (("darwin", "arm64"), "arm64_apple"),
   (("linux", "arm64"), "arm64"), (("freebsd", "arm64"), "arm64"), (("linux", "riscv64"), "rv64")]

/-- **The libraries that the tools are run with.** -/
instance standard : Libraries where
  digest := Digest.ofBytes
  readYaml := Yaml.parse
  nativeTarget system arch :=
    ((systemTargets.find? fun ((s, a), _) => text s == system && text a == arch).map
      fun (_, target) => text target).getD (text "amd64_sysv")

end Libraries

namespace Regression.Differ

/-- The lines of a text behind a mark. -/
def marked (mark : String) (t : Text) : Text :=
  Text.unlines ((Text.splitOn Text.newline t).map (text mark ++ ·))

/-- Shows the lines of both sides behind their marks. -/
def sides (a b : Text) : Text := marked "-" a ++ marked "+" b

/-- **The differences that the tester is run with.** -/
instance standard : Differ where
  texts := sides
  outcomes g o := if g = o then [] else sides g.value.indented o.value.indented

end Regression.Differ

end StackCompiler
