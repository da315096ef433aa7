import Typings.Proofs.Body.Spelling
import Typings.Proofs.Import.Findings

/-!
# The options that a search depends on

The search for imports reads few of the options: whether modules are declared, how the names of
types are spelled, and how the names of source files and of generated files end. The policy for
what is missing decides only what becomes of its findings. The layout, the keyword of the
declarations, the spelling of members and the directive have no influence on it.

## Main results

* `findings_congr` — the findings under options that search alike.
* `resolveImports_congr` — the whole search, under the same policy.
-/

namespace Typings

/-- Both options look for the same files under the same names. -/
structure Options.SearchAlike (o o' : Options) : Prop where
  types : o.camelCaseTypeNames = o'.camelCaseTypeNames
  modules : o.declareModule = o'.declareModule
  extension : o.sourceExtension = o'.sourceExtension
  suffix : o.generatedSuffix = o'.generatedSuffix

section

variable {o o' : Options}

theorem Options.SearchAlike.typeName (h : o.SearchAlike o') : o.typeName = o'.typeName :=
  typeName_congr h.types

theorem Options.SearchAlike.moduleStem (h : o.SearchAlike o') : o.moduleStem = o'.moduleStem := by
  funext file
  rw [Options.moduleStem, Options.moduleStem, h.extension]

theorem referenceImport_congr (h : o.SearchAlike o') (source : Path) :
    referenceImport o source = referenceImport o' source := by
  funext file
  rw [referenceImport, referenceImport, h.typeName, Options.importSymbol, Options.importSymbol,
    Options.moduleSpecifier, Options.moduleSpecifier, h.moduleStem, h.suffix]

theorem expectedBaseSource_congr (h : o.SearchAlike o') (source : Path) :
    expectedBaseSource o source = expectedBaseSource o' source := by
  funext base
  rw [expectedBaseSource, expectedBaseSource, h.extension]

theorem baseImport_congr (h : o.SearchAlike o') : baseImport o = baseImport o' := by
  funext base
  rw [baseImport, baseImport, h.typeName, h.suffix]

theorem baseFindings_congr_options (h : o.SearchAlike o') (source : Path)
    (isFile : Path → Bool) (available bases : List String) :
    baseFindings o source isFile available bases
      = baseFindings o' source isFile available bases := by
  induction bases generalizing available with
  | nil => rfl
  | cons base rest ih =>
      rw [baseFindings, baseFindings, ih, ih, h.typeName, expectedBaseSource_congr h,
        baseImport_congr h]

/-- **What a search comes to** depends on modules, on the names of types and on the names of
files only. -/
theorem findings_congr (h : o.SearchAlike o') (names : Names) (source : Path)
    (isFile : Path → Bool) (types : List Descriptor) :
    findings o names source isFile types = findings o' names source isFile types := by
  rw [findings, findings, visitFindings, visitFindings, referenceImports, referenceImports,
    referenceImport_congr h, baseFindings_congr_options h, h.modules]

/-- **The search under the same policy** depends on nothing more. -/
theorem resolveImports_congr (h : o.SearchAlike o')
    (hpolicy : o.missingReferences = o'.missingReferences) (types : List Descriptor)
    (names : Names) (source : Path) (isFile : Path → Bool) :
    resolveImports o types names source isFile = resolveImports o' types names source isFile := by
  rw [resolveImports_eq_settle, resolveImports_eq_settle, findings_congr h, hpolicy]

end

end Typings
