import Typings.Proofs.Import.Outcome

/-!
# The files that a search looks for

The search for imports asks of no file but the expected source of a base whether it exists, and
of that only if the name of the base is not available yet. Where two file systems give the same
answers to these questions, the searches are the same, step by step.

With more files a search asks less, because more names become available. A base that is looked
for with more files is looked for with fewer files too (`Sought.of_more_files`), and a name that
is imported stays imported. So nothing becomes missing by a file that is added, and if nothing
was missing, every question was answered by yes, and the search does not change at all.

## Main results

* `baseFindings_congr`, `findings_congr_files` — file systems that answer alike.
* `Sought.of_more_files`, `findings_of_more_files` — one file system with more files.
* `resolveImports_files` — the searches on two file systems.
-/

namespace Typings

open Finding

section

variable {o : Options} {types : List Descriptor} {names : Names} {source : Path}
  {isFile isFile' : Path → Bool}

/-! ## The same answers -/

/-- Two searches at the bases are the same if they get the same answer for each base that the
first one looks for. -/
theorem baseFindings_congr {available bases : List String}
    (h : ∀ base, Sought o source isFile available bases base →
      isFile (expectedBaseSource o source base) = isFile' (expectedBaseSource o source base)) :
    baseFindings o source isFile available bases
      = baseFindings o source isFile' available bases := by
  induction bases generalizing available with
  | nil => rfl
  | cons first rest ih =>
      have hfirst : baseFindings o source isFile available [first]
          = baseFindings o source isFile' available [first] := by
        by_cases hname : o.typeName first ∈ available
        · simp only [baseFindings, if_pos hname]
        · have hanswer := h first (sought_cons.mpr (.inl ⟨rfl, hname⟩))
          simp only [baseFindings, hanswer]
      have hrest := ih fun base hbase => h base (sought_cons.mpr (.inr hbase))
      rw [baseFindings_cons available first rest, hrest, hfirst]
      exact (baseFindings_cons available first rest).symm

/-- Two searches are the same if they get the same answer for each base that the first one looks
for. Where modules are declared no answer matters. -/
theorem findings_congr_files
    (h : o.declareModule = false → ∀ base, Sought o source isFile (names.declared.toList
        ++ (referenceImports o names source (referencedFiles types)).map Import.symbol)
      names.bases.toList base →
        isFile (expectedBaseSource o source base) = isFile' (expectedBaseSource o source base)) :
    findings o names source isFile types = findings o names source isFile' types := by
  cases hmodules : o.declareModule with
  | true => simp only [findings, hmodules, if_true]
  | false => simp only [findings, visitFindings, baseFindings_congr (h hmodules)]

/-! ## More files -/

theorem isFile_eq_false_of_more_files (hmore : ∀ file, isFile file = true → isFile' file = true)
    {file : Path} (h : isFile' file = false) : isFile file = false := by
  cases hfile : isFile file with
  | false => rfl
  | true =>
      rw [hmore file hfile] at h
      cases h

/-- What is looked for with more files is looked for with fewer files. -/
theorem Sought.of_more_files (hmore : ∀ file, isFile file = true → isFile' file = true)
    {available bases : List String} {base : String}
    (h : Sought o source isFile' available bases base) :
    Sought o source isFile available bases base := by
  obtain ⟨hname, front, behind, hsplit, hfront⟩ := h
  refine ⟨hname, front, behind, hsplit, ?_⟩
  intro other hother hsame
  exact isFile_eq_false_of_more_files hmore (hfront other hother hsame)

/-- What is imported stays imported when there are more files. -/
theorem symbols_findings_of_more_files
    (hmore : ∀ file, isFile file = true → isFile' file = true) {name : String}
    (h : name ∈ symbols (findings o names source isFile types)) :
    name ∈ symbols (findings o names source isFile' types) := by
  rw [mem_symbols_findings] at h ⊢
  obtain ⟨hmodules, hdeclared, hreached | ⟨base, hbase, hname, hfile⟩⟩ := h
  · exact ⟨hmodules, hdeclared, .inl hreached⟩
  · exact ⟨hmodules, hdeclared, .inr ⟨base, hbase, hname, hmore _ hfile⟩⟩

/-- Nothing becomes missing when there are more files. -/
theorem missing_of_more_files (hmore : ∀ file, isFile file = true → isFile' file = true) :
    (ImportBlock.ofFindings (findings o names source isFile' types)).unresolvedBases
        ⊆ (ImportBlock.ofFindings (findings o names source isFile types)).unresolvedBases ∧
      (ImportBlock.ofFindings (findings o names source isFile' types)).missingNames
        ⊆ (ImportBlock.ofFindings (findings o names source isFile types)).missingNames := by
  constructor
  · intro base hbase
    rw [mem_unresolvedBases_findings] at hbase ⊢
    obtain ⟨hmodules, hsought, hfile⟩ := hbase
    exact ⟨hmodules, hsought.of_more_files hmore, isFile_eq_false_of_more_files hmore hfile⟩
  · intro name hname
    rw [mem_missingNames_findings] at hname ⊢
    obtain ⟨hmodules, hneeded, hdeclared, hnew⟩ := hname
    refine ⟨hmodules, hneeded, hdeclared, ?_⟩
    intro himported
    exact hnew (symbols_findings_of_more_files hmore himported)

/-- A search that misses nothing has found every source that it looked for, so more files change
nothing. -/
theorem findings_of_more_files (hmore : ∀ file, isFile file = true → isFile' file = true)
    (hnone : absences (findings o names source isFile types) = []) :
    findings o names source isFile types = findings o names source isFile' types := by
  apply findings_congr_files
  intro hmodules base hsought
  cases hfile : isFile (expectedBaseSource o source base) with
  | true => exact (hmore _ hfile).symm
  | false =>
      have hmissing := baseClass_mem_absences_findings.mpr ⟨hmodules, rfl, hsought, hfile⟩
      rw [hnone] at hmissing
      cases hmissing

end

/-! ## Two file systems -/

section

variable (o : Options) (types : List Descriptor) (names : Names) (source : Path)

/-- **More files never make the search worse.** Every file of the first file system is one of the
second. Then a search that only warns leaves out no other bases on the second one, and misses no
other names. A search that fails at the first missing thing and succeeds on the first one gives
the same block on the second one. Moreover the searches on two file systems are the same if the
two agree on the expected sources of the bases whose names are not declared, and in any case
where modules are declared. -/
theorem resolveImports_files :
    (∀ isFile isFile' : Path → Bool, (∀ file, isFile file = true → isFile' file = true) →
      (∃ block block',
        resolveImports { o with missingReferences := .warn } types names source isFile
            = .ok block ∧
          resolveImports { o with missingReferences := .warn } types names source isFile'
            = .ok block' ∧
          block'.unresolvedBases ⊆ block.unresolvedBases ∧
          block'.missingNames ⊆ block.missingNames) ∧
        ∀ block, resolveImports { o with missingReferences := .fail } types names source isFile
            = .ok block →
          resolveImports { o with missingReferences := .fail } types names source isFile'
            = .ok block) ∧
      ∀ isFile isFile' : Path → Bool,
        (o.declareModule = true ∨ ∀ base ∈ names.bases, o.typeName base ∉ names.declared →
          isFile (expectedBaseSource o source base)
            = isFile' (expectedBaseSource o source base)) →
        resolveImports o types names source isFile
          = resolveImports o types names source isFile' := by
  refine ⟨fun isFile isFile' hmore => ⟨?_, ?_⟩, ?_⟩
  · refine ⟨_, _, resolveImports_warn rfl types, resolveImports_warn rfl types, ?_⟩
    exact missing_of_more_files hmore
  · intro block hblock
    have hnone : absences (findings { o with missingReferences := .fail } names source isFile
        types) = [] := by
      rw [resolveImports_fail rfl] at hblock
      split at hblock
      · assumption
      · cases hblock
    rw [← hblock]
    exact (resolveImports_of_findings_eq (findings_of_more_files hmore hnone)).symm
  · intro isFile isFile' hagree
    apply resolveImports_of_findings_eq
    apply findings_congr_files
    intro hmodules base hsought
    rcases hagree with hdeclares | hagree
    · rw [hmodules] at hdeclares
      cases hdeclares
    · refine hagree base hsought.mem ?_
      intro hdeclared
      exact hsought.1 (List.mem_append_left _ hdeclared)

end

/-! ## The source of a base appears -/

/-- The names of an order whose base and whose only reference can be found. -/
def foundNames : Names := ⟨.ofList ["Order"], .ofList ["Order", "Money"], .ofList ["Entity"]⟩

/-- The source of one base. -/
def entityFile (file : Path) : Bool := file = ⟨"/src/Entity.cs"⟩

/-- The sources of both bases. -/
def entityAndLostFiles (file : Path) : Bool := entityFile file || file = ⟨"/src/Lost.cs"⟩

/-- The block for the names that can be found. -/
def foundBlock : ImportBlock where
  lines := ["import \x7b Money \x7d from \"./lib/Money\";",
    "import \x7b Entity \x7d from \"./Entity.generated\";"]
  unresolvedBases := []
  warnings := []

/-- With the source of the second base no more is missing than before. Where all was found, and
where the second base does not occur, it changes nothing. -/
theorem resolveImports_files_order :
    (∀ file, entityFile file = true → entityAndLostFiles file = true) ∧
      (∃ block, resolveImports { Options.default with missingReferences := .warn } orderAndBill
          orderNames ⟨"/src/Order.cs"⟩ entityAndLostFiles = .ok block ∧
        block.unresolvedBases ⊆ orderBlock.unresolvedBases ∧
        block.missingNames ⊆ ["Ghost"]) ∧
      resolveImports { Options.default with missingReferences := .fail } orderAndBill foundNames
          ⟨"/src/Order.cs"⟩ entityFile = .ok foundBlock ∧
      resolveImports { Options.default with missingReferences := .fail } orderAndBill foundNames
          ⟨"/src/Order.cs"⟩ entityAndLostFiles = .ok foundBlock ∧
      (∀ base ∈ foundNames.bases, Options.default.typeName base ∉ foundNames.declared →
        entityFile (expectedBaseSource .default ⟨"/src/Order.cs"⟩ base)
          = entityAndLostFiles (expectedBaseSource .default ⟨"/src/Order.cs"⟩ base)) ∧
      resolveImports .default orderAndBill foundNames ⟨"/src/Order.cs"⟩ entityFile
        = resolveImports .default orderAndBill foundNames ⟨"/src/Order.cs"⟩
          entityAndLostFiles := by
  have hmore : ∀ file, entityFile file = true → entityAndLostFiles file = true := by
    intro file hfile
    rw [entityAndLostFiles, hfile, Bool.true_or]
  have hagree : ∀ base ∈ foundNames.bases, Options.default.typeName base ∉ foundNames.declared →
      entityFile (expectedBaseSource .default ⟨"/src/Order.cs"⟩ base)
        = entityAndLostFiles (expectedBaseSource .default ⟨"/src/Order.cs"⟩ base) := by
    decide +kernel
  have hfound : resolveImports { Options.default with missingReferences := .fail } orderAndBill
      foundNames ⟨"/src/Order.cs"⟩ entityFile = .ok foundBlock := by
    decide +kernel
  have horder : resolveImports { Options.default with missingReferences := .warn } orderAndBill
      orderNames ⟨"/src/Order.cs"⟩ entityFile = .ok orderBlock := by
    decide +kernel
  obtain ⟨block, block', hblock, hblock', hbases, hnames⟩ :=
    ((resolveImports_files .default orderAndBill orderNames ⟨"/src/Order.cs"⟩).1
      entityFile entityAndLostFiles hmore).1
  have hstrict := ((resolveImports_files .default orderAndBill foundNames ⟨"/src/Order.cs"⟩).1
    entityFile entityAndLostFiles hmore).2 foundBlock hfound
  have hsame := (resolveImports_files .default orderAndBill foundNames ⟨"/src/Order.cs"⟩).2
    entityFile entityAndLostFiles (.inr hagree)
  rw [horder, Except.ok.injEq] at hblock
  rw [← hblock] at hbases hnames
  exact ⟨hmore, ⟨block', hblock', hbases, hnames⟩, hfound, hstrict, hagree, hsame⟩

end Typings
