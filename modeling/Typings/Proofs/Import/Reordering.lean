import Typings.Proofs.Descriptor.Grouping
import Typings.Proofs.Import.Outcome

/-!
# The types in another order

The order of the types shows in a file: in the order of its declarations and imports, and in the
specifier of an import for which several files stand. What is imported and what is missing does
not depend on it. The names of the types are the same sets of names in every order, and the
outcome of a search follows from these sets.

The only exception are bases that share a name. The first of them whose source exists makes the
name available, and the bases without source behind it are not looked for, while those in front
of it are missing.

## Main definitions

* `Names.SameMembers` — the same names, in whatever order.
* `Finding.SameOutcome` — the same imports and the same missing things, in whatever order.

## Main results

* `Names.sameMembers_of_perm` — the names of the types in another order.
* `sought_iff_of_distinct` — which bases are looked for, if no two of them share a name.
* `resolveImports_perm` — the searches for the types in two orders.
-/

namespace Typings

open Finding

/-! ## The same names -/

/-- The same names are declared, referred to and extended, in whatever order. -/
structure Names.SameMembers (names names' : Names) : Prop where
  declared : ∀ name, name ∈ names.declared ↔ name ∈ names'.declared
  referenced : ∀ name, name ∈ names.referenced ↔ name ∈ names'.referenced
  bases : ∀ base, base ∈ names.bases ↔ base ∈ names'.bases

theorem Names.sameMembers_of_perm (o : Options) {types types' : List Descriptor}
    (h : types.Perm types') : (ofTypes o types).SameMembers (ofTypes o types') where
  declared := by
    intro name
    simp only [mem_declared_ofTypes, h.mem_iff]
  referenced := by
    intro name
    simp only [mem_referenced_ofTypes, h.mem_iff]
  bases := by
    intro base
    simp only [mem_bases_ofTypes, h.mem_iff]

theorem Names.reached_iff_of_perm {o : Options} {types types' : List Descriptor}
    {names names' : Names} (hnames : names.SameMembers names') (h : types.Perm types')
    (name : String) : names.Reached o types name ↔ names'.Reached o types' name := by
  simp only [Names.Reached, hnames.referenced, List.mem_flatMap, h.mem_iff]

/-! ## The same outcome -/

/-- Two searches import the same symbols, leave out the same bases and tell the same bases and
the same names as missing, each in whatever order. -/
structure Finding.SameOutcome (found found' : List Finding) : Prop where
  imported : ∀ symbol, symbol ∈ symbols found ↔ symbol ∈ symbols found'
  leftOut : ∀ base, base ∈ (ImportBlock.ofFindings found).unresolvedBases
    ↔ base ∈ (ImportBlock.ofFindings found').unresolvedBases
  missingBases : ∀ base expected,
    Missing.baseClass base expected ∈ (ImportBlock.ofFindings found).warnings
      ↔ Missing.baseClass base expected ∈ (ImportBlock.ofFindings found').warnings
  missingNames : ∀ name, name ∈ (ImportBlock.ofFindings found).missingNames
    ↔ name ∈ (ImportBlock.ofFindings found').missingNames

section

variable {o : Options} {source : Path} {isFile : Path → Bool}

/-- Where no two bases share a name, a base without source is looked for if its name is not
available at the start. -/
theorem sought_iff_of_distinct {available bases : List String}
    (hdistinct : ∀ base ∈ bases, ∀ other ∈ bases, o.typeName base = o.typeName other →
      base = other)
    {base : String} (hfile : isFile (expectedBaseSource o source base) = false) :
    Sought o source isFile available bases base ↔
      base ∈ bases ∧ o.typeName base ∉ available := by
  constructor
  · intro h
    exact ⟨h.mem, h.1⟩
  · rintro ⟨hbase, hname⟩
    obtain ⟨front, behind, rfl⟩ := List.append_of_mem hbase
    refine ⟨hname, front, behind, rfl, ?_⟩
    intro other hother hsame
    have hequal : other = base := by
      apply hdistinct other (List.mem_append_left _ hother) base hbase hsame
    rw [hequal, hfile]

/-- **Which bases are missing**, where no two of them share a name: those whose name is neither
declared nor given by a file, and that have no source. -/
theorem baseClass_mem_absences_of_distinct {types : List Descriptor} {names : Names}
    (hdistinct : ∀ base ∈ names.bases, ∀ other ∈ names.bases,
      o.typeName base = o.typeName other → base = other)
    {base : String} {expected : Path} :
    Missing.baseClass base expected ∈ absences (findings o names source isFile types) ↔
      o.declareModule = false ∧ expected = expectedBaseSource o source base ∧
        base ∈ names.bases ∧ o.typeName base ∉ names.declared ∧
        ¬ names.Reached o types (o.typeName base) ∧
        isFile (expectedBaseSource o source base) = false := by
  rw [baseClass_mem_absences_findings]
  refine and_congr_right fun _ => and_congr_right fun _ => ?_
  by_cases hfile : isFile (expectedBaseSource o source base) = false
  · rw [sought_iff_of_distinct hdistinct hfile, mem_available_at_bases, not_or]
    simp only [hfile, and_true, OrderedSet.mem_def]
  · simp [hfile]

/-- **The outcome follows from the names and the files as sets**, where no two bases share a
name. -/
theorem sameOutcome_of_sameMembers {types types' : List Descriptor} {names names' : Names}
    (hnames : names.SameMembers names') (hperm : types.Perm types')
    (hdistinct : ∀ base ∈ names.bases, ∀ other ∈ names.bases,
      o.typeName base = o.typeName other → base = other) :
    SameOutcome (findings o names source isFile types)
      (findings o names' source isFile types') := by
  have hdistinct' : ∀ base ∈ names'.bases, ∀ other ∈ names'.bases,
      o.typeName base = o.typeName other → base = other := by
    intro base hbase other hother
    exact hdistinct base ((hnames.bases base).mpr hbase) other ((hnames.bases other).mpr hother)
  have hreached := Names.reached_iff_of_perm (o := o) hnames hperm
  have himported : ∀ symbol, symbol ∈ symbols (findings o names source isFile types) ↔
      symbol ∈ symbols (findings o names' source isFile types') := by
    intro symbol
    simp only [mem_symbols_findings, hnames.declared, hreached, hnames.bases]
  have hbases : ∀ base expected,
      Missing.baseClass base expected ∈ absences (findings o names source isFile types) ↔
        Missing.baseClass base expected ∈ absences (findings o names' source isFile types') := by
    intro base expected
    simp only [baseClass_mem_absences_of_distinct hdistinct,
      baseClass_mem_absences_of_distinct hdistinct', hnames.declared, hreached, hnames.bases]
  refine ⟨himported, ?_, hbases, ?_⟩
  · intro base
    simp only [mem_unresolvedBases_ofFindings, hbases]
  · intro name
    simp only [mem_missingNames_findings, hnames.declared, hnames.referenced, himported]

end

/-- **The order of the types does not matter to what is imported and what is missing.** The types
are given in two orders, the search only warns, and no two bases share a name. Then both searches
end with a block, and they import the same symbols, leave out the same bases, and tell the same
bases and the same names as missing. -/
theorem resolveImports_perm (o : Options) {types types' : List Descriptor} (source : Path)
    (isFile : Path → Bool) (hwarn : o.missingReferences = .warn) (hperm : types.Perm types')
    (hdistinct : ∀ base ∈ (Body.render o types).names.bases,
      ∀ other ∈ (Body.render o types).names.bases,
        o.typeName base = o.typeName other → base = other) :
    resolveImports o types (Body.render o types).names source isFile
        = .ok (.ofFindings (findings o (Body.render o types).names source isFile types)) ∧
      resolveImports o types' (Body.render o types').names source isFile
        = .ok (.ofFindings (findings o (Body.render o types').names source isFile types')) ∧
      SameOutcome (findings o (Body.render o types).names source isFile types)
        (findings o (Body.render o types').names source isFile types') := by
  have hnames : (Body.render o types).names.SameMembers (Body.render o types').names :=
    Names.sameMembers_of_perm o hperm
  exact ⟨resolveImports_warn hwarn types, resolveImports_warn hwarn types',
    sameOutcome_of_sameMembers hnames hperm hdistinct⟩

/-- Two types that extend bases. -/
def leafAndTwig (first second : String) : List Descriptor :=
  [(Descriptor.interface "Leaf").extending first none,
    (Descriptor.interface "Twig").extending second none]

/-- The bases that are left out for them where all names start with a small letter and only one
source exists. -/
def leftOutOfTrees (first second : String) : Except Missing (List String) :=
  let o := { Options.default with camelCaseTypeNames := true }
  (resolveImports o (leafAndTwig first second) (Names.ofTypes o (leafAndTwig first second))
    ⟨"/src/Leaf.cs"⟩ fun file => file = ⟨"/src/tree.cs"⟩).map (·.unresolvedBases)

-- Two bases that share a name: the one without source is missing only in front of the other.
example : leftOutOfTrees "tree" "Tree" = .ok [] ∧ leftOutOfTrees "Tree" "tree" = .ok ["Tree"] := by
  decide +kernel

/-- Three types in two namespaces. Two of them extend a base, one with a source and one without,
and their members refer to a type in two files of one name and to one in no file. -/
def shopTypes : List Descriptor :=
  [((((Descriptor.interface "Order").inScope "Shop").extending "Lost" none).withMember
      (.ofType "Total" (.reference "Money"))).withReference ⟨"/src/lib/Money.ts"⟩,
    ((((Descriptor.interface "Bill").inScope "Pay").extending "Entity" none).withMember
      (.ofType "Note" (.reference "Ghost"))).withReference ⟨"/lib/Money.ts"⟩,
    ((Descriptor.interface "Line").inScope "Shop").extending "Order" none]

theorem resolveImports_perm_shopTypes :
    Options.default.missingReferences = .warn ∧ shopTypes.Perm shopTypes.reverse ∧
      (∀ base ∈ (Body.render .default shopTypes).names.bases,
        ∀ other ∈ (Body.render .default shopTypes).names.bases,
          Options.default.typeName base = Options.default.typeName other → base = other) ∧
      ∃ found found',
        resolveImports .default shopTypes (Body.render .default shopTypes).names
            ⟨"/src/Shop.cs"⟩ (fun file => file = ⟨"/src/Entity.cs"⟩)
          = .ok (.ofFindings found) ∧
        resolveImports .default shopTypes.reverse
            (Body.render .default shopTypes.reverse).names ⟨"/src/Shop.cs"⟩
            (fun file => file = ⟨"/src/Entity.cs"⟩)
          = .ok (.ofFindings found') ∧
        SameOutcome found found' ∧ symbols found = ["Money", "Entity"] := by
  have hperm : shopTypes.Perm shopTypes.reverse := (List.reverse_perm shopTypes).symm
  have hdistinct : ∀ base ∈ (Body.render .default shopTypes).names.bases,
      ∀ other ∈ (Body.render .default shopTypes).names.bases,
        Options.default.typeName base = Options.default.typeName other → base = other := by
    decide +kernel
  obtain ⟨hrun, hrun', hsame⟩ := resolveImports_perm .default ⟨"/src/Shop.cs"⟩
    (fun file => file = ⟨"/src/Entity.cs"⟩) rfl hperm hdistinct
  exact ⟨rfl, hperm, hdistinct, _, _, hrun, hrun', hsame, by decide +kernel⟩

end Typings
