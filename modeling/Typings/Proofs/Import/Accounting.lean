import Mathlib.Data.List.Nodup
import Typings.Proofs.Import.Findings

/-!
# Every name is accounted for

Where something may be missing, the search for imports settles every name. A name that is
referred to is declared, or imported, or told as missing at the end. The name of a base is
declared or imported, or the base is left out and told as missing.

Files and bases share one list of available names, which holds names as they are spelled, while
bases are told apart as they are given. So two bases may have one name, a base may have the name
of a declared type, and a file may stand for a base. The symbols that are imported are distinct
all the same, because nothing is imported under a name that is available (`nodup_symbols_visit`).

## Main definitions

* `Accounting` — what a block says about the names of a body.

## Main results

* `mem_referenceImports`, `mem_imports_baseFindings` — where an import comes from.
* `absences_baseFindings` — the bases that are missing are told once each.
* `resolveImports_accounting` — the block accounts for the names.
-/

namespace Typings

open Finding

/-! ## Files -/

section

variable {o : Options} {names : Names} {source : Path} {isFile : Path → Bool}

theorem referenceImport_symbol_congr {file file' : Path} (h : file.components = file'.components) :
    (referenceImport o source file).symbol = (referenceImport o source file').symbol := by
  simp only [referenceImport, Options.importSymbol, Options.moduleStem, Path.fileName?, h]

/-- The first place that stands for a symbol is found in its first spelling. -/
theorem find?_referencedFiles (types : List Descriptor) (symbol : String) :
    (referencedFiles types).find? (fun file => (referenceImport o source file).symbol = symbol)
      = (types.flatMap (·.references)).find?
        (fun file => (referenceImport o source file).symbol = symbol) := by
  apply find?_distinctBy
  intro file file' hplace
  rw [referenceImport_symbol_congr hplace]

/-- A file is imported if it is the first one that stands for a needed name. -/
theorem mem_referenceImports {files : List Path} {what : Import} :
    what ∈ referenceImports o names source files ↔
      what.symbol ∈ neededNames names ∧ ∃ file,
        files.find? (fun file => (referenceImport o source file).symbol = what.symbol) = some file ∧
          referenceImport o source file = what := by
  rw [referenceImports]
  by_cases hneeded : what.symbol ∈ neededNames names
  · -- Files that stand for another name do not matter to the search for the first one.
    have hfilter : ((files.map (referenceImport o source)).filter
          (·.symbol ∈ neededNames names)).find? (fun other => other.symbol = what.symbol)
        = (files.map (referenceImport o source)).find?
          (fun other => other.symbol = what.symbol) := by
      rw [List.find?_filter]
      congr 1
      funext other
      by_cases hsymbol : other.symbol = what.symbol
      · simp [hsymbol, hneeded]
      · simp [hsymbol]
    rw [mem_distinctBy, hfilter, List.find?_map, Option.map_eq_some_iff]
    exact (and_iff_right hneeded).symm
  · refine iff_of_false (fun h => ?_) fun h => hneeded h.1
    have hmem := List.mem_filter.mp (mem_of_mem_distinctBy h)
    exact hneeded (by simpa using hmem.2)

/-! ## Bases -/

/-- What is imported at some bases is imported from beside the source, under a name that was not
available. -/
theorem mem_imports_baseFindings {available bases : List String} {what : Import}
    (h : what ∈ imports (baseFindings o source isFile available bases)) :
    what.symbol ∉ available ∧ ∃ base ∈ bases,
      isFile (expectedBaseSource o source base) = true ∧ what = baseImport o base := by
  induction bases generalizing available with
  | nil => simp [baseFindings] at h
  | cons base rest ih =>
      rw [baseFindings] at h
      split at h
      · obtain ⟨hnew, given, hgiven, hrest⟩ := ih h
        exact ⟨hnew, given, List.mem_cons_of_mem _ hgiven, hrest⟩
      · rename_i hname
        split at h
        · rename_i hfile
          rw [imports_found] at h
          rcases List.mem_cons.mp h with rfl | h
          · exact ⟨hname, base, List.mem_cons_self, hfile, rfl⟩
          · obtain ⟨hnew, given, hgiven, hrest⟩ := ih h
            exact ⟨fun hold => hnew (List.mem_append_left _ hold), given,
              List.mem_cons_of_mem _ hgiven, hrest⟩
        · obtain ⟨hnew, given, hgiven, hrest⟩ := ih h
          exact ⟨hnew, given, List.mem_cons_of_mem _ hgiven, hrest⟩

/-- The symbols that are imported at some bases are distinct: each is available from then on. -/
theorem nodup_symbols_baseFindings (available bases : List String) :
    (symbols (baseFindings o source isFile available bases)).Nodup := by
  induction bases generalizing available with
  | nil => exact List.nodup_nil
  | cons base rest ih =>
      rw [baseFindings]
      split
      · exact ih available
      · split
        · rw [symbols_found, List.nodup_cons]
          refine ⟨fun hagain => ?_, ih _⟩
          obtain ⟨what, hwhat, hsymbol⟩ := List.mem_map.mp hagain
          refine (mem_imports_baseFindings hwhat).1 ?_
          rw [hsymbol]
          exact List.mem_append_right _ (List.mem_singleton.mpr rfl)
        · exact ih available

/-- What is missing at some bases are bases among them, each told once with the place where its
source was expected. -/
theorem absences_baseFindings (o : Options) (source : Path) (isFile : Path → Bool)
    (available bases : List String) :
    ∃ missing : List String, missing.Sublist bases ∧
      absences (baseFindings o source isFile available bases)
        = missing.map fun base => .baseClass base (expectedBaseSource o source base) := by
  induction bases generalizing available with
  | nil => exact ⟨[], List.Sublist.slnil, rfl⟩
  | cons base rest ih =>
      rw [baseFindings]
      split
      · obtain ⟨missing, hsub, heq⟩ := ih available
        exact ⟨missing, hsub.cons _, heq⟩
      · split
        · obtain ⟨missing, hsub, heq⟩ := ih (available ++ [o.typeName base])
          exact ⟨missing, hsub.cons _, heq⟩
        · obtain ⟨missing, hsub, heq⟩ := ih available
          exact ⟨base :: missing, hsub.cons_cons _, by rw [absences_missing, heq, List.map_cons]⟩

/-- Each base is available after the search at the bases, or it is missing. -/
theorem base_settled (o : Options) (source : Path) (isFile : Path → Bool)
    (available : List String) {bases : List String} {base : String} (h : base ∈ bases) :
    o.typeName base ∈ available ∨
      o.typeName base ∈ symbols (baseFindings o source isFile available bases) ∨
      .baseClass base (expectedBaseSource o source base)
        ∈ absences (baseFindings o source isFile available bases) := by
  induction bases generalizing available with
  | nil => simp at h
  | cons first rest ih =>
      rw [baseFindings]
      rcases List.mem_cons.mp h with rfl | h
      · split
        · rename_i hname
          exact .inl hname
        · split
          · exact .inr (.inl List.mem_cons_self)
          · exact .inr (.inr List.mem_cons_self)
      · split
        · exact ih available h
        · split
          · rcases ih (available ++ [o.typeName first]) h with hname | hname | hmissing
            · rcases List.mem_append.mp hname with hname | hname
              · exact .inl hname
              · rw [List.mem_singleton.mp hname]
                exact .inr (.inl List.mem_cons_self)
            · exact .inr (.inl (List.mem_cons_of_mem _ hname))
            · exact .inr (.inr hmissing)
          · rcases ih available h with hname | hname | hmissing
            · exact .inl hname
            · exact .inr (.inl hname)
            · exact .inr (.inr (List.mem_cons_of_mem _ hmissing))

/-! ## The visits -/

theorem symbol_needed_of_mem_referenceImports {files : List Path} {symbol : String}
    (h : symbol ∈ (referenceImports o names source files).map Import.symbol) :
    symbol ∈ neededNames names := by
  obtain ⟨what, hwhat, rfl⟩ := List.mem_map.mp h
  exact (mem_referenceImports.mp hwhat).1

theorem symbols_visitFindings (types : List Descriptor) :
    symbols (visitFindings o names source isFile types)
      = (referenceImports o names source (referencedFiles types)).map Import.symbol
        ++ symbols (baseFindings o source isFile (names.declared.toList
            ++ (referenceImports o names source (referencedFiles types)).map Import.symbol)
          names.bases.toList) := by
  rw [visitFindings, symbols_append, symbols_map_found]

/-- **Every symbol is imported once.** No import is found under a name that is available, and
what is found is available from then on. -/
theorem nodup_symbols_visit (o : Options) (names : Names) (source : Path) (isFile : Path → Bool)
    (types : List Descriptor) :
    (names.declared.toList ++ symbols (visitFindings o names source isFile types)).Nodup := by
  rw [symbols_visitFindings, ← List.append_assoc, List.nodup_append]
  refine ⟨?_, nodup_symbols_baseFindings _ _, ?_⟩
  · refine List.nodup_append.mpr ⟨names.declared.nodup, nodup_distinctBy _ _, ?_⟩
    rintro name hdeclared _ himported rfl
    exact (mem_neededNames.mp (symbol_needed_of_mem_referenceImports himported)).2 hdeclared
  · rintro name hold _ hnew rfl
    obtain ⟨what, hwhat, rfl⟩ := List.mem_map.mp hnew
    exact (mem_imports_baseFindings hwhat).1 hold

end

/-! ## The accounts -/

/-- Exactly one of three statements holds. -/
def ExactlyOne (p q r : Prop) : Prop := (p ∧ ¬ q ∧ ¬ r) ∨ (¬ p ∧ q ∧ ¬ r) ∨ (¬ p ∧ ¬ q ∧ r)

/-- An import of a name that is referred to and not declared, from the first file, over all
descriptors in order, that stands for it. -/
def Import.FromReference (o : Options) (types : List Descriptor) (names : Names) (source : Path)
    (what : Import) : Prop :=
  what.symbol ∈ names.referenced ∧ what.symbol ∉ names.declared ∧ ∃ file,
    (types.flatMap (·.references)).find?
        (fun file => o.typeName (o.importSymbol file) = what.symbol) = some file ∧
      what.specifier = o.moduleSpecifier (sourceDirectory source) file

/-- An import of the name of a base, from the file that is generated from its source, which
exists. -/
def Import.FromBase (o : Options) (names : Names) (source : Path) (isFile : Path → Bool)
    (what : Import) : Prop :=
  ∃ base ∈ names.bases, isFile (expectedBaseSource o source base) = true ∧
    what.symbol = o.typeName base ∧ what.specifier = "./" ++ base ++ o.generatedSuffix

/-- What a block says about the names of a body. Its lines are told by the findings `visited`,
behind which stands the warning about the names in `absent`, if there are any. -/
structure Accounting (o : Options) (types : List Descriptor) (names : Names) (source : Path)
    (isFile : Path → Bool) (visited : List Finding) (absent : List String)
    (block : ImportBlock) : Prop where
  /-- The block tells the findings, and at last the absent names if there are any. -/
  told : block = .ofFindings
    (visited ++ if absent = [] then [] else [.missing (.imports absent)])
  /-- What is missing before are bases. -/
  bases_before : ∀ what ∈ absences visited, ∃ base ∈ names.bases,
    what = .baseClass base (expectedBaseSource o source base)
  /-- No symbol is imported twice. -/
  distinct : (symbols visited).Nodup
  /-- No declared name is imported. -/
  undeclared : ∀ symbol ∈ symbols visited, symbol ∉ names.declared
  /-- A name that is referred to is declared, or imported, or absent. -/
  settled : ∀ name ∈ names.referenced,
    ExactlyOne (name ∈ names.declared) (name ∈ symbols visited) (name ∈ absent)
  /-- The absent names keep the order in which they are referred to. -/
  ordered : absent.Sublist names.referenced.toList
  /-- The name of a base is declared or imported, or the base is left out. -/
  covered : ∀ base ∈ names.bases, o.typeName base ∈ names.declared ∨
    o.typeName base ∈ symbols visited ∨ base ∈ block.unresolvedBases
  /-- A base is left out if exactly one warning names it. -/
  left_out : ∀ base, base ∈ block.unresolvedBases ↔
    (block.warnings.filter fun what => what.base? = some base).length = 1
  /-- An import comes from a reference or from a base. -/
  justified : ∀ what ∈ imports visited,
    what.FromReference o types names source ∨ what.FromBase o names source isFile
  /-- What can be imported from a reference is. -/
  reached : ∀ what : Import, what.FromReference o types names source → what ∈ imports visited

theorem mem_bases_iff_one_warning {warnings : List Missing}
    (h : (warnings.filterMap Missing.base?).Nodup) (base : String) :
    base ∈ warnings.filterMap Missing.base? ↔
      (warnings.filter fun what => what.base? = some base).length = 1 := by
  have hcount : (warnings.filter fun what => what.base? = some base).length
      = (warnings.filterMap Missing.base?).count base := by
    rw [List.count_filterMap, List.countP_eq_length_filter]
    congr 2
    funext what
    exact (beq_eq_decide _ _).symm
  rw [hcount]
  constructor
  · exact fun hmem => List.count_eq_one_of_mem h hmem
  · intro hone
    exact List.count_pos_iff.mp (by omega)

section

variable {o : Options} {names : Names} {source : Path} {isFile : Path → Bool}

theorem fromReference_iff {types : List Descriptor} {what : Import} :
    what.FromReference o types names source
      ↔ what ∈ referenceImports o names source (referencedFiles types) := by
  obtain ⟨symbol, specifier⟩ := what
  rw [mem_referenceImports, find?_referencedFiles, mem_neededNames, and_assoc,
    Import.FromReference]
  refine and_congr_right fun _ => and_congr_right fun _ => exists_congr fun file =>
    and_congr_right fun hfile => ?_
  have hsymbol : o.typeName (o.importSymbol file) = symbol := by
    simpa using List.find?_some hfile
  rw [referenceImport, Import.mk.injEq]
  exact ⟨fun h => ⟨hsymbol, h.symm⟩, fun h => h.2.symm⟩

theorem mem_imports_visitFindings {types : List Descriptor} {what : Import} :
    what ∈ imports (visitFindings o names source isFile types) ↔
      what.FromReference o types names source ∨
        what ∈ imports (baseFindings o source isFile (names.declared.toList
            ++ (referenceImports o names source (referencedFiles types)).map Import.symbol)
          names.bases.toList) := by
  rw [visitFindings, imports_append, imports_map_found, List.mem_append, fromReference_iff]

/-- What is missing at the files and the bases: nothing at the files, and bases at the bases. -/
theorem absences_visitFindings (o : Options) (names : Names) (source : Path)
    (isFile : Path → Bool) (types : List Descriptor) :
    ∃ missing : List String, missing.Sublist names.bases.toList ∧
      absences (visitFindings o names source isFile types)
        = missing.map fun base => .baseClass base (expectedBaseSource o source base) := by
  obtain ⟨missing, hmissing, habsences⟩ := absences_baseFindings o source isFile
    (names.declared.toList
      ++ (referenceImports o names source (referencedFiles types)).map Import.symbol)
    names.bases.toList
  refine ⟨missing, hmissing, ?_⟩
  rw [visitFindings, absences_append, absences_map_found, habsences, List.nil_append]

theorem unresolvedBases_ofFindings {visited : List Finding} {missing : List String}
    (h : absences visited
      = missing.map fun base => .baseClass base (expectedBaseSource o source base))
    (absent : List String) :
    (absences (visited ++ if absent = [] then [] else [.missing (.imports absent)])).filterMap
        Missing.base? = missing := by
  have hbases : (absences visited).filterMap Missing.base? = missing := by
    rw [h, List.filterMap_map]
    exact List.filterMap_some
  rw [absences_append, List.filterMap_append, hbases]
  split <;> simp [Missing.base?]

theorem mem_absentNames {available : List String} {name : String} :
    name ∈ absentNames names available ↔
      name ∈ names.referenced ∧ name ∉ names.declared ∧ name ∉ available := by
  rw [absentNames, List.mem_filter, mem_neededNames, decide_eq_true_iff, and_assoc]

theorem base_covered (o : Options) (source : Path) (isFile : Path → Bool)
    (types : List Descriptor) {base : String} (h : base ∈ names.bases) :
    o.typeName base ∈ names.declared ∨
      o.typeName base ∈ symbols (visitFindings o names source isFile types) ∨
      .baseClass base (expectedBaseSource o source base)
        ∈ absences (visitFindings o names source isFile types) := by
  rw [symbols_visitFindings, visitFindings, absences_append, absences_map_found, List.nil_append]
  rcases base_settled o source isFile (names.declared.toList
      ++ (referenceImports o names source (referencedFiles types)).map Import.symbol) h
    with hold | hnew | hmissing
  · rcases List.mem_append.mp hold with hdeclared | himported
    · exact .inl hdeclared
    · exact .inr (.inl (List.mem_append_left _ himported))
  · exact .inr (.inl (List.mem_append_right _ hnew))
  · exact .inr (.inr hmissing)

/-- The findings at the files and the bases account for the names, with the needed names that
are left at the end. -/
theorem accounting_visitFindings (types : List Descriptor) {visited : List Finding}
    (hvisited : visited = visitFindings o names source isFile types) {absent : List String}
    (habsent : absent = absentNames names (names.declared.toList ++ symbols visited)) :
    Accounting o types names source isFile visited absent
      (.ofFindings (visited ++ if absent = [] then [] else [.missing (.imports absent)])) := by
  have hnodup := hvisited ▸ nodup_symbols_visit o names source isFile types
  obtain ⟨-, hsymbols, hdisjoint⟩ := List.nodup_append.mp hnodup
  have hundeclared : ∀ symbol ∈ symbols visited, symbol ∉ names.declared :=
    fun symbol hsymbol h => hdisjoint symbol h symbol hsymbol rfl
  obtain ⟨missing, hmissing, habsences⟩ := absences_visitFindings o names source isFile types
  rw [← hvisited] at habsences
  have hunresolved := unresolvedBases_ofFindings habsences absent
  exact
    { told := rfl
      bases_before := by
        intro what hwhat
        rw [habsences] at hwhat
        obtain ⟨base, hbase, rfl⟩ := List.mem_map.mp hwhat
        exact ⟨base, hmissing.subset hbase, rfl⟩
      distinct := hsymbols
      undeclared := hundeclared
      settled := by
        intro name hname
        have hiff : name ∈ absent ↔ name ∉ names.declared ∧ name ∉ symbols visited := by
          rw [habsent, mem_absentNames, List.mem_append, not_or]
          exact ⟨fun h => ⟨h.2.1, h.2.2.2⟩, fun h => ⟨hname, h.1, h.1, h.2⟩⟩
        by_cases hdeclared : name ∈ names.declared
        · have hfresh : name ∉ symbols visited := fun h => hundeclared name h hdeclared
          exact .inl ⟨hdeclared, hfresh, fun h => (hiff.mp h).1 hdeclared⟩
        · by_cases himported : name ∈ symbols visited
          · exact .inr (.inl ⟨hdeclared, himported, fun h => (hiff.mp h).2 himported⟩)
          · exact .inr (.inr ⟨hdeclared, himported, hiff.mpr ⟨hdeclared, himported⟩⟩)
      ordered := by
        rw [habsent, absentNames, neededNames]
        exact List.filter_sublist.trans List.filter_sublist
      covered := by
        intro base hbase
        have hsettled := base_covered o source isFile types hbase
        rw [← hvisited, habsences] at hsettled
        refine hsettled.imp_right (Or.imp_right fun hlost => ?_)
        obtain ⟨given, hgiven, heq⟩ := List.mem_map.mp hlost
        obtain rfl : given = base := (Missing.baseClass.inj heq).1
        rw [ImportBlock.ofFindings, hunresolved]
        exact hgiven
      left_out := mem_bases_iff_one_warning (hunresolved ▸ hmissing.nodup names.bases.nodup)
      justified := by
        intro what hwhat
        rw [hvisited] at hwhat
        refine (mem_imports_visitFindings.mp hwhat).imp_right fun hbase => ?_
        obtain ⟨-, base, hgiven, hfile, rfl⟩ := mem_imports_baseFindings hbase
        exact ⟨base, hgiven, hfile, rfl, rfl⟩
      reached := by
        intro what hreference
        rw [hvisited]
        exact mem_imports_visitFindings.mpr (.inl hreference) }

/-- **Every name is accounted for.** Where modules are not declared and something may be missing,
the search for imports ends with a block that accounts for the names, whatever they are. -/
theorem resolveImports_accounting (o : Options) (types : List Descriptor) (names : Names)
    (source : Path) (isFile : Path → Bool) (hmodules : o.declareModule = false)
    (hwarn : o.missingReferences = .warn) :
    ∃ visited absent block, resolveImports o types names source isFile = .ok block ∧
      Accounting o types names source isFile visited absent block := by
  refine ⟨_, _, _, ?_, accounting_visitFindings types rfl rfl⟩
  rw [resolveImports_warn hwarn, findings, if_neg (by rw [hmodules]; decide)]
  rfl

end

/-- Two types that refer to files of one name. -/
def orderAndBill : List Descriptor :=
  [(Descriptor.interface "Order").withReference ⟨"/src/lib/Money.ts"⟩,
    (Descriptor.interface "Bill").withReference ⟨"/lib/Money.generated.ts"⟩]

/-- A name that is declared, one that no file stands for, and one that two files stand for; a
base without source, and one with a source. -/
def orderNames : Names :=
  ⟨.ofList ["Order"], .ofList ["Order", "Ghost", "Money"], .ofList ["Lost", "Entity"]⟩

/-- The block for these names. -/
def orderBlock : ImportBlock where
  lines := ["import \x7b Money \x7d from \"./lib/Money\";",
    (Missing.baseClass "Lost" ⟨"/src/Lost.cs"⟩).line,
    "import \x7b Entity \x7d from \"./Entity.generated\";",
    (Missing.imports ["Ghost"]).line]
  unresolvedBases := ["Lost"]
  warnings := [.baseClass "Lost" ⟨"/src/Lost.cs"⟩, .imports ["Ghost"]]

theorem accounting_orderBlock :
    Options.default.declareModule = false ∧ Options.default.missingReferences = .warn ∧
      ∃ visited absent, Accounting .default orderAndBill orderNames ⟨"/src/Order.cs"⟩
        (fun file => file = ⟨"/src/Entity.cs"⟩) visited absent orderBlock := by
  obtain ⟨visited, absent, block, hblock, haccounting⟩ := resolveImports_accounting .default
    orderAndBill orderNames ⟨"/src/Order.cs"⟩ (fun file => file = ⟨"/src/Entity.cs"⟩) rfl rfl
  have hrun : resolveImports .default orderAndBill orderNames ⟨"/src/Order.cs"⟩
      (fun file => file = ⟨"/src/Entity.cs"⟩) = .ok orderBlock := by
    decide +kernel
  rw [hrun, Except.ok.injEq] at hblock
  rw [← hblock] at haccounting
  exact ⟨rfl, rfl, visited, absent, haccounting⟩

end Typings
