/-! # Settings

Limits of compiling a closure, and the stem of the names of parameters.
-/

namespace StreamQuery

structure Settings where
  /-- Branches that one closure may fork on. -/
  maxBranches : Nat := 64
  /-- Instructions that one closure may run, over all its paths. -/
  maxSteps : Nat := 4096
  /-- Local variables that a closure may use. -/
  maxLocals : Nat := 256
  /-- Parameters are named by this stem and a number. -/
  paramStem : String := "param"
deriving DecidableEq, Repr, Inhabited

end StreamQuery
