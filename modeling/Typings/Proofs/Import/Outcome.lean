import Typings.Proofs.Import.Accounting

/-!
# The outcome of a search without its course

What the search for imports makes of a base depends on the names that are available when it gets
there. Its outcome can be said without following it.

A name is imported if it is not declared, and either it is referred to and some file stands for
it, or it is the name of a base whose source exists. The source of a base is looked for if no
declaration and no file gives its name, and no base before it has the same name and a source. The
base is missing if its own source does not exist either. Of all this only the last condition
knows an order, and it matters only where two bases share a name.

## Main definitions

* `Names.Reached` — a name that some file stands for.
* `Sought` — a base whose source is looked for.
* `ImportBlock.missingNames` — the names that a block tells as missing.

## Main results

* `mem_absences_baseFindings`, `mem_symbols_baseFindings` — the search at the bases.
* `mem_symbols_findings` — what is imported.
* `baseClass_mem_absences_findings`, `mem_unresolvedBases_findings` — which bases are missing.
* `mem_missingNames_findings` — which names are missing.
-/

namespace Typings

open Finding

/-! ## What a block tells -/

/-- The names that are told as missing. -/
def Missing.names : Missing → List String
  | .baseClass _ _ => []
  | .imports names => names

/-- The names that a block tells as missing. -/
def ImportBlock.missingNames (block : ImportBlock) : List String :=
  block.warnings.flatMap Missing.names

theorem mem_unresolvedBases_ofFindings {fs : List Finding} {base : String} :
    base ∈ (ImportBlock.ofFindings fs).unresolvedBases
      ↔ ∃ expected, Missing.baseClass base expected ∈ absences fs := by
  rw [ImportBlock.ofFindings, List.mem_filterMap]
  constructor
  · rintro ⟨what, hwhat, hbase⟩
    cases what with
    | baseClass given expected =>
        obtain rfl : given = base := Option.some.inj hbase
        exact ⟨expected, hwhat⟩
    | imports names => cases hbase
  · rintro ⟨expected, hwhat⟩
    exact ⟨_, hwhat, rfl⟩

theorem mem_missingNames_ofFindings {fs : List Finding} {name : String} :
    name ∈ (ImportBlock.ofFindings fs).missingNames
      ↔ ∃ told, Missing.imports told ∈ absences fs ∧ name ∈ told := by
  rw [ImportBlock.missingNames, ImportBlock.ofFindings, List.mem_flatMap]
  constructor
  · rintro ⟨what, hwhat, hname⟩
    cases what with
    | baseClass base expected => cases hname
    | imports told => exact ⟨told, hwhat, hname⟩
  · rintro ⟨told, hwhat, hname⟩
    exact ⟨_, hwhat, hname⟩

/-! ## Bases -/

section Bases

variable (o : Options) (source : Path) (isFile : Path → Bool)

/-- The search looks for the source of a base: its name is not available at the start, and no
base before it has the same name and a source. -/
def Sought (available bases : List String) (base : String) : Prop :=
  o.typeName base ∉ available ∧ ∃ front behind, bases = front ++ base :: behind ∧
    ∀ other ∈ front, o.typeName other = o.typeName base →
      isFile (expectedBaseSource o source other) = false

variable {o source isFile}

theorem Sought.mem {available bases : List String} {base : String}
    (h : Sought o source isFile available bases base) : base ∈ bases := by
  obtain ⟨-, front, behind, rfl, -⟩ := h
  simp

/-- The condition of being looked for follows the search: a base that is found makes its name
available to the bases behind it. -/
theorem sought_cons {available : List String} {first : String} {rest : List String}
    {base : String} :
    Sought o source isFile available (first :: rest) base ↔
      (base = first ∧ o.typeName first ∉ available) ∨
        Sought o source isFile
          (available ++ symbols (baseFindings o source isFile available [first])) rest base := by
  -- The name of the first base is available behind it just if it was so or its source exists.
  have havailable : o.typeName base
        ∉ available ++ symbols (baseFindings o source isFile available [first]) ↔
      o.typeName base ∉ available ∧ (o.typeName first = o.typeName base →
        isFile (expectedBaseSource o source first) = false) := by
    simp only [baseFindings]
    split
    · rename_i hold
      simp only [symbols_nil, List.append_nil]
      refine ⟨fun h => ⟨h, fun hsame => absurd (hsame ▸ hold) h⟩, fun h => h.1⟩
    · split
      · rename_i hfile
        simp [baseImport, hfile, eq_comm]
      · rename_i hfile
        simp [hfile]
  simp only [Sought, havailable]
  constructor
  · rintro ⟨hname, front, behind, hsplit, hfront⟩
    cases front with
    | nil =>
        obtain ⟨rfl, -⟩ := List.cons.inj hsplit
        exact .inl ⟨rfl, hname⟩
    | cons head front =>
        obtain ⟨rfl, hrest⟩ := List.cons.inj hsplit
        refine .inr ⟨⟨hname, hfront first List.mem_cons_self⟩, front, behind, hrest, ?_⟩
        exact fun other hother => hfront other (List.mem_cons_of_mem _ hother)
  · rintro (⟨rfl, hname⟩ | ⟨⟨hname, hfirst⟩, front, behind, rfl, hfront⟩)
    · exact ⟨hname, [], rest, rfl, by simp⟩
    · refine ⟨hname, first :: front, behind, rfl, ?_⟩
      intro other hother
      rcases List.mem_cons.mp hother with rfl | hother
      · exact hfirst
      · exact hfront other hother

/-- What is missing at the bases: the bases that are looked for and have no source. -/
theorem mem_absences_baseFindings {available bases : List String} {what : Missing} :
    what ∈ absences (baseFindings o source isFile available bases) ↔
      ∃ base, what = .baseClass base (expectedBaseSource o source base) ∧
        Sought o source isFile available bases base ∧
        isFile (expectedBaseSource o source base) = false := by
  induction bases generalizing available with
  | nil => simp [baseFindings, Sought]
  | cons first rest ih =>
      have hfirst : what ∈ absences (baseFindings o source isFile available [first]) ↔
          what = .baseClass first (expectedBaseSource o source first) ∧
            o.typeName first ∉ available ∧
            isFile (expectedBaseSource o source first) = false := by
        simp only [baseFindings]
        split
        · simp [*]
        · split <;> simp [*]
      rw [baseFindings_cons, absences_append, List.mem_append, hfirst, ih]
      simp only [sought_cons]
      constructor
      · rintro (⟨rfl, hname, hfile⟩ | ⟨base, rfl, hsought, hfile⟩)
        · exact ⟨first, rfl, .inl ⟨rfl, hname⟩, hfile⟩
        · exact ⟨base, rfl, .inr hsought, hfile⟩
      · rintro ⟨base, rfl, ⟨rfl, hname⟩ | hsought, hfile⟩
        · exact .inl ⟨rfl, hname, hfile⟩
        · exact .inr ⟨base, rfl, hsought, hfile⟩

/-- What is imported at the bases: the names of bases with a source that were not available. -/
theorem mem_symbols_baseFindings {available bases : List String} {name : String} :
    name ∈ symbols (baseFindings o source isFile available bases) ↔
      name ∉ available ∧ ∃ base ∈ bases, o.typeName base = name ∧
        isFile (expectedBaseSource o source base) = true := by
  constructor
  · intro h
    obtain ⟨what, hwhat, rfl⟩ := List.mem_map.mp h
    obtain ⟨hname, base, hbase, hfile, rfl⟩ := mem_imports_baseFindings hwhat
    exact ⟨hname, base, hbase, rfl, hfile⟩
  · rintro ⟨hname, base, hbase, rfl, hfile⟩
    rcases base_settled o source isFile available hbase with hold | hnew | hmissing
    · exact absurd hold hname
    · exact hnew
    · -- A base that is missing has no source.
      obtain ⟨given, hgiven, -, hnone⟩ := mem_absences_baseFindings.mp hmissing
      obtain ⟨rfl, -⟩ := Missing.baseClass.inj hgiven
      rw [hfile] at hnone
      cases hnone

end Bases

/-! ## Names -/

/-- A name that is referred to, and some file that the descriptors refer to stands for it. -/
def Names.Reached (o : Options) (types : List Descriptor) (names : Names) (name : String) : Prop :=
  name ∈ names.referenced ∧
    ∃ file ∈ types.flatMap (·.references), o.typeName (o.importSymbol file) = name

section Names

variable {o : Options} {types : List Descriptor} {names : Names} {source : Path}
  {isFile : Path → Bool}

/-- What is imported at the files. -/
theorem mem_symbols_referenceImports {name : String} :
    name ∈ (referenceImports o names source (referencedFiles types)).map Import.symbol ↔
      name ∉ names.declared ∧ names.Reached o types name := by
  constructor
  · intro h
    obtain ⟨what, hwhat, rfl⟩ := List.mem_map.mp h
    obtain ⟨hneeded, hdeclared, file, hfile, -⟩ := fromReference_iff.mpr hwhat
    have hsymbol : o.typeName (o.importSymbol file) = what.symbol := by
      simpa using List.find?_some hfile
    exact ⟨hdeclared, hneeded, file, List.mem_of_find?_eq_some hfile, hsymbol⟩
  · rintro ⟨hdeclared, hneeded, file, hfile, hsymbol⟩
    -- The import is from the first file that stands for the name.
    have hsome : ((types.flatMap (·.references)).find?
        fun file => o.typeName (o.importSymbol file) = name).isSome := by
      rw [List.find?_isSome]
      exact ⟨file, hfile, by simpa using hsymbol⟩
    obtain ⟨first, hfirst⟩ := Option.isSome_iff_exists.mp hsome
    have hfrom (specifier : String)
        (h : specifier = o.moduleSpecifier (sourceDirectory source) first) :
        Import.FromReference o types names source ⟨name, specifier⟩ :=
      ⟨hneeded, hdeclared, first, hfirst, h⟩
    exact List.mem_map.mpr ⟨_, fromReference_iff.mp (hfrom _ rfl), rfl⟩

/-- The names that are available when the search gets to the bases. -/
theorem mem_available_at_bases {name : String} :
    name ∈ names.declared.toList
        ++ (referenceImports o names source (referencedFiles types)).map Import.symbol ↔
      name ∈ names.declared ∨ names.Reached o types name := by
  rw [List.mem_append, mem_symbols_referenceImports, ← OrderedSet.mem_def]
  by_cases hdeclared : name ∈ names.declared <;> simp [hdeclared]

theorem mem_symbols_visitFindings {name : String} :
    name ∈ symbols (visitFindings o names source isFile types) ↔
      name ∉ names.declared ∧ (names.Reached o types name ∨
        ∃ base ∈ names.bases, o.typeName base = name ∧
          isFile (expectedBaseSource o source base) = true) := by
  rw [symbols_visitFindings, List.mem_append, mem_symbols_baseFindings, mem_available_at_bases,
    mem_symbols_referenceImports]
  by_cases hreached : names.Reached o types name
  · simp [hreached]
  · simp [hreached, OrderedSet.mem_def]

/-! ## The whole search -/

/-- Nothing is imported at the end of the search. -/
theorem symbols_findings (hmodules : o.declareModule = false) :
    symbols (findings o names source isFile types)
      = symbols (visitFindings o names source isFile types) := by
  have hend (available : List String) : symbols (nameFindings names available) = [] := by
    rw [nameFindings]
    split <;> rfl
  rw [findings, if_neg (by rw [hmodules]; decide), symbols_append, hend, List.append_nil]

/-- **What is imported**, whatever the order: names that are not declared, and that some file or
the source of some base gives. -/
theorem mem_symbols_findings {name : String} :
    name ∈ symbols (findings o names source isFile types) ↔
      o.declareModule = false ∧ name ∉ names.declared ∧ (names.Reached o types name ∨
        ∃ base ∈ names.bases, o.typeName base = name ∧
          isFile (expectedBaseSource o source base) = true) := by
  cases hmodules : o.declareModule with
  | true => simp [findings, hmodules]
  | false =>
      rw [symbols_findings hmodules, mem_symbols_visitFindings]
      simp

/-- A base is missing in the end if it is looked for and has no source. -/
theorem baseClass_mem_absences_findings {base : String} {expected : Path} :
    Missing.baseClass base expected ∈ absences (findings o names source isFile types) ↔
      o.declareModule = false ∧ expected = expectedBaseSource o source base ∧
        Sought o source isFile (names.declared.toList
            ++ (referenceImports o names source (referencedFiles types)).map Import.symbol)
          names.bases.toList base ∧
        isFile (expectedBaseSource o source base) = false := by
  have hnames (available : List String) :
      Missing.baseClass base expected ∉ absences (nameFindings names available) := by
    rw [nameFindings]
    split <;> simp
  rw [findings]
  cases o.declareModule with
  | true => simp
  | false =>
      rw [if_neg (by decide), absences_append, visitFindings, absences_append,
        absences_map_found, List.nil_append, List.mem_append, mem_absences_baseFindings]
      simp only [hnames, or_false, Missing.baseClass.injEq, true_and]
      constructor
      · rintro ⟨given, ⟨rfl, rfl⟩, h⟩
        exact ⟨rfl, h⟩
      · rintro ⟨rfl, h⟩
        exact ⟨base, ⟨rfl, rfl⟩, h⟩

/-- **Which bases are left out**: those that are looked for and have no source. -/
theorem mem_unresolvedBases_findings {base : String} :
    base ∈ (ImportBlock.ofFindings (findings o names source isFile types)).unresolvedBases ↔
      o.declareModule = false ∧
        Sought o source isFile (names.declared.toList
            ++ (referenceImports o names source (referencedFiles types)).map Import.symbol)
          names.bases.toList base ∧
        isFile (expectedBaseSource o source base) = false := by
  simp only [mem_unresolvedBases_ofFindings, baseClass_mem_absences_findings]
  constructor
  · rintro ⟨expected, hmodules, -, h⟩
    exact ⟨hmodules, h⟩
  · rintro ⟨hmodules, h⟩
    exact ⟨_, hmodules, rfl, h⟩

/-- The names that are missing in the end are told together, if there are any. -/
theorem imports_mem_absences_findings {told : List String} :
    Missing.imports told ∈ absences (findings o names source isFile types) ↔
      o.declareModule = false ∧ told ≠ [] ∧ told = absentNames names
        (names.declared.toList ++ symbols (visitFindings o names source isFile types)) := by
  have hvisit : Missing.imports told ∉ absences (visitFindings o names source isFile types) := by
    obtain ⟨missing, -, heq⟩ := absences_visitFindings o names source isFile types
    simp [heq]
  rw [findings]
  cases o.declareModule with
  | true => simp
  | false =>
      rw [if_neg (by decide), absences_append, List.mem_append, or_iff_right hvisit, nameFindings]
      split
      · rename_i hnone
        simp [hnone]
      · rename_i hsome
        rw [absences_missing, absences_nil, List.mem_singleton, Missing.imports.injEq]
        constructor
        · rintro rfl
          exact ⟨rfl, hsome, rfl⟩
        · exact fun h => h.2.2

/-- **Which names are missing**: those that are referred to and neither declared nor imported. -/
theorem mem_missingNames_findings {name : String} :
    name ∈ (ImportBlock.ofFindings (findings o names source isFile types)).missingNames ↔
      o.declareModule = false ∧ name ∈ names.referenced ∧ name ∉ names.declared ∧
        name ∉ symbols (findings o names source isFile types) := by
  rw [mem_missingNames_ofFindings]
  constructor
  · rintro ⟨told, htold, hname⟩
    obtain ⟨hmodules, -, rfl⟩ := imports_mem_absences_findings.mp htold
    obtain ⟨hneeded, hdeclared, hnew⟩ := mem_absentNames.mp hname
    rw [List.mem_append, not_or] at hnew
    exact ⟨hmodules, hneeded, hdeclared, symbols_findings hmodules ▸ hnew.2⟩
  · rintro ⟨hmodules, hneeded, hdeclared, hnew⟩
    rw [symbols_findings hmodules] at hnew
    have hname : name ∈ absentNames names
        (names.declared.toList ++ symbols (visitFindings o names source isFile types)) := by
      rw [mem_absentNames, List.mem_append, not_or]
      exact ⟨hneeded, hdeclared, hdeclared, hnew⟩
    refine ⟨_, imports_mem_absences_findings.mpr ⟨hmodules, ?_, rfl⟩, hname⟩
    exact List.ne_nil_of_mem hname

end Names

end Typings
