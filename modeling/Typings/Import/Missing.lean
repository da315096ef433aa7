import Typings.Path.Basic

/-!
# References that lead nowhere

## Main definitions

* `Missing` — what can be missing.
* `Missing.message` — how it is told.
-/

namespace Typings

/-- Something that a definition file needs and that is not there. -/
inductive Missing where
  /-- The source file of a base class, where it was expected. -/
  | baseClass (base : String) (expected : Path)
  /-- Files that declare the types with these names. -/
  | imports (names : List String)
  deriving DecidableEq, Repr

/-- How it is told that something is missing. -/
def Missing.message : Missing → String
  | .baseClass base expected =>
    "base class '" ++ base ++ "' skipped because its expected source file does not exist: "
      ++ expected.text
  | .imports names =>
    "needed imports missing: " ++ ", ".intercalate names
      ++ ". Make sure file names match the contained class/enum name."

end Typings
