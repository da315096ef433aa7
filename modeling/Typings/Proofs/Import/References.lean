import Mathlib.Logic.Function.Basic
import Typings.Proofs.Import.Destination
import Typings.Proofs.Import.Findings
import Typings.Proofs.Path.Places

/-!
# References are places

The files that some types refer to are gone through as places: each place once, in the order of
first occurrence, and whichever type refers to it. But the symbol that a file stands for and the
way to it are read off the path as it is spelled, and of several spellings the first one is kept.

It does not matter which one. The symbol comes from the last component of the path, and the way
from a walk, which looks at components only. So types that refer to the same places in the same
order lead to the same search.

## Main results

* `Options.importSymbol_congr`, `Options.moduleSpecifier_congr`, `referenceImport_congr_place` — what a
  file is imported as and from where.
* `findings_congr_references` — what the search takes from the types.
* `resolveImports_references` — types that refer to the same places.
-/

namespace Typings

/-! ## What a file is imported as -/

namespace Options

variable (o : Options) {p q : Path}

theorem notMem_moduleStem (p : Path) : '/' ∉ (o.moduleStem p).toList := by
  have hname : '/' ∉ (p.fileName?.getD "").toList := by
    cases hfile : p.fileName? with
    | none => exact List.not_mem_nil
    | some name =>
        have hlast := Path.getLast?_steps_of_fileName?_eq hfile
        have hstep : Path.IsName name := Path.isStep_of_mem_steps (List.mem_of_getLast? hlast)
        exact hstep.whole
  exact fun hm => hname ((stripExtension_spec o.sourceExtension _).1.subset hm)

theorem moduleStem_congr (h : p.components = q.components) : o.moduleStem p = o.moduleStem q := by
  rw [moduleStem, moduleStem, Path.fileName?_congr h]

/-- **The symbol of a file** depends on its place only. -/
theorem importSymbol_congr (h : p.components = q.components) :
    o.importSymbol p = o.importSymbol q := by
  rw [importSymbol, importSymbol, o.moduleStem_congr h]

/-- **The way to a file** depends on its place only. -/
theorem moduleSpecifier_congr (h : p.components = q.components) (dir : Path) :
    o.moduleSpecifier dir p = o.moduleSpecifier dir q := by
  rw [moduleSpecifier, moduleSpecifier, ← o.moduleStem_congr h,
    Path.relative_withFileName_congr h dir (o.notMem_moduleStem p)]

end Options

theorem referenceImport_congr_place (o : Options) (source : Path) {p q : Path}
    (h : p.components = q.components) :
    referenceImport o source p = referenceImport o source q := by
  rw [referenceImport, referenceImport, o.importSymbol_congr h, o.moduleSpecifier_congr h]

/-! ## What the search takes from the types -/

section

variable (o : Options) {types types' : List Descriptor} (names : Names) (source : Path)
  (isFile : Path → Bool)

/-- The places that some types refer to, in the order of first occurrence. -/
theorem map_components_referencedFiles (types : List Descriptor) :
    (referencedFiles types).map Path.components
      = (PathSet.ofList (types.flatMap (·.references))).places.toList :=
  map_distinctBy Path.components _

/-- **The search takes imports from the types**, and nothing else. -/
theorem findings_congr_references
    (h : (referencedFiles types).map (referenceImport o source)
      = (referencedFiles types').map (referenceImport o source)) :
    findings o names source isFile types = findings o names source isFile types' := by
  rw [findings, findings, visitFindings, visitFindings, referenceImports, referenceImports, h]

/-- **References are places.** Types that refer to the same places in the same order of first
occurrence lead to the same search, whatever names are looked for: the same lines, the same bases
without a source and the same warnings, or the same failure. The types may differ in how often
they refer to a place, in which of them does, and in the spelling. -/
theorem resolveImports_references
    (h : PathSet.ofList (types.flatMap (·.references))
      = PathSet.ofList (types'.flatMap (·.references))) :
    resolveImports o types names source isFile = resolveImports o types' names source isFile := by
  have hplaces : (referencedFiles types).map Path.components
      = (referencedFiles types').map Path.components := by
    rw [map_components_referencedFiles, map_components_referencedFiles, h]
  have himports : (referencedFiles types).map (referenceImport o source)
      = (referencedFiles types').map (referenceImport o source) := by
    -- The import of a file can be computed from its components.
    have hfactors : (referenceImport o source).FactorsThrough Path.components :=
      fun _ _ hcomponents => referenceImport_congr_place o source hcomponents
    have hsome : Nonempty Import := ⟨⟨"", ""⟩⟩
    obtain ⟨ofPlace, hofPlace⟩ := (Function.factorsThrough_iff _).mp hfactors
    rw [hofPlace, ← List.map_map, hplaces, List.map_map]
  exact resolveImports_of_findings_eq (findings_congr_references o names source isFile himports)

end

/-- Two types that refer to one file each. -/
def orderToMoney : List Descriptor :=
  [(Descriptor.interface "Order").withReference ⟨"/src/lib/Money.ts"⟩,
    (Descriptor.interface "Bill").withReference ⟨"/lib/Tax.cs"⟩]

/-- The same types, where one of them refers to both files, to one of them twice, and in other
spellings. -/
def billToMoney : List Descriptor :=
  [Descriptor.interface "Order",
    (((Descriptor.interface "Bill").withReference ⟨"/src//lib/./Money.ts/"⟩).withReference
      ⟨"/lib/Tax.cs/."⟩).withReference ⟨"/src/lib/Money.ts"⟩]

/-- The names of the two files. -/
def moneyNames : Names := ⟨.ofList ["Order", "Bill"], .ofList ["Money", "Tax"], .ofList []⟩

/-- Both lead to the same lines. -/
theorem resolveImports_references_money :
    PathSet.ofList (billToMoney.flatMap (·.references))
        = PathSet.ofList (orderToMoney.flatMap (·.references)) ∧
      resolveImports .default billToMoney moneyNames ⟨"/src/Order.cs"⟩ (fun _ => false)
        = .ok ⟨["import \x7b Money \x7d from \"./lib/Money\";",
          "import \x7b Tax \x7d from \"../lib/Tax\";"], [], []⟩ := by
  have hplaces : PathSet.ofList (billToMoney.flatMap (·.references))
      = PathSet.ofList (orderToMoney.flatMap (·.references)) :=
    congrArg PathSet.mk (OrderedSet.ext (by decide +kernel))
  refine ⟨hplaces, ?_⟩
  rw [resolveImports_references .default moneyNames ⟨"/src/Order.cs"⟩ (fun _ => false) hplaces]
  decide +kernel

end Typings
