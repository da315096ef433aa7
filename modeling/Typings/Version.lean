/-!
# Version

## Main definitions

* `version` — the version that the banner of a file and the command line name.
-/

namespace Typings

/-- The version of the generator. -/
def version : String := "0.1.0"

end Typings
