import Typings.Proofs.Command.OutputPath
import Typings.Proofs.Command.Trace
import Typings.Proofs.Documentation.Independence
import Typings.Proofs.Import.Destination
import Typings.Proofs.Json.RoundTrip

/-!
# Where the imports of a written file lead

The imports of a definition file are found before it is decided where the file goes: each
specifier is a way from the directory of the source file. A run of the command writes the file
beside its source unless there is an output directory. So read from the directory of the written
file, an import leads to the file that it is about if both directories are the same, as they are
without an output directory.

## Main definitions

* `ImportsLead` — the imports of references stand in a text, and lead where they should.

## Main results

* `importsLead_of_generate` — the imports of a definition file, read from the directory of its
  source.
* `specifiers_lead` — the imports of each file that a run writes.
* `specifier_leads_elsewhere` — a run with an output directory.
-/

namespace Typings

open FileTree

/-! ## Imports in a text -/

/-- An import leads from a directory to a file that is referred to, without the extension of a
module. -/
structure Import.Leads (o : Options) (directory reference : Path) (i : Import) : Prop where
  symbol : i.symbol = o.typeName (o.importSymbol reference)
  dotted : Path.IsDotted ⟨i.specifier⟩
  place : Path.resolve directory.components ⟨i.specifier⟩ = o.modulePlace reference

/-- The imports for the references of some descriptors. -/
def DescriptorFile.imports (o : Options) (file : DescriptorFile) : List Import :=
  referenceImports o (Names.ofTypes o file.types) file.sourcePath (referencedFiles file.types)

/-- Each import of a reference stands in a text as a whole line, laid out as the options say, and
leads from a directory to its reference. -/
def ImportsLead (o : Options) (file : DescriptorFile) (directory : Path) (text : String) : Prop :=
  ∀ i ∈ file.imports o,
    (∃ front behind, text.toList = front ++ (o.layOut (Writer.lineChars 0 i.line) ++ behind)) ∧
      ∃ reference ∈ file.types.flatMap (·.references), i.Leads o directory reference

section

variable {o : Options} {file : DescriptorFile}

/-- A whole line of the lines above a body stands in the finished file. -/
theorem exists_layOut_line {lines : List String} {line : String} (h : line ∈ lines)
    (body : String) :
    ∃ front behind, (o.normalize ((Writer.empty.addLines lines).text ++ body)).toList
      = front ++ (o.layOut (Writer.lineChars 0 line) ++ behind) := by
  obtain ⟨before, after, rfl⟩ := List.append_of_mem h
  refine ⟨o.layOut (before.flatMap (Writer.lineChars 0)),
    o.layOut (after.flatMap (Writer.lineChars 0) ++ body.toList), ?_⟩
  have htext : ((Writer.empty.addLines (before ++ line :: after)).text ++ body).toList
      = before.flatMap (Writer.lineChars 0) ++ (Writer.lineChars 0 line
        ++ (after.flatMap (Writer.lineChars 0) ++ body.toList)) := by
    rw [String.toList_append, Writer.toList_text_addLines]
    simp [Writer.empty]
  have hline : (Writer.lineChars 0 line).getLast? ≠ some '\r' := by
    simpa using Draft.getLast?_lines 0 [line]
  rw [Options.toList_normalize, htext,
    Options.layOut_append fun e => absurd e (Draft.getLast?_lines 0 before),
    Options.layOut_append fun e => absurd e hline]

/-- The lines of a block are those of the findings. -/
theorem eq_ofFindings_of_ok {types : List Descriptor} {names : Names} {source : Path}
    {isFile : Path → Bool} {imports : ImportBlock}
    (h : resolveImports o types names source isFile = .ok imports) :
    imports = .ofFindings (findings o names source isFile types) := by
  cases hpolicy : o.missingReferences with
  | warn =>
      rw [resolveImports_warn hpolicy] at h
      exact (Except.ok.inj h).symm
  | fail =>
      rw [resolveImports_fail hpolicy] at h
      split at h
      · exact (Except.ok.inj h).symm
      · cases h

/-- Where files import each other, the imports of references are among the lines of the block. -/
theorem line_mem_of_mem_imports {isFile : Path → Bool} {block : ImportBlock}
    (hmodule : o.declareModule = false)
    (h : resolveImports o file.types (Names.ofTypes o file.types) file.sourcePath isFile
      = .ok block) {i : Import} (hi : i ∈ file.imports o) : i.line ∈ block.lines := by
  rw [eq_ofFindings_of_ok h]
  have hfound : Finding.found i ∈ findings o (Names.ofTypes o file.types) file.sourcePath isFile
      file.types := by
    rw [findings, hmodule, if_neg Bool.false_ne_true]
    refine List.mem_append_left _ (List.mem_append_left _ ?_)
    exact List.mem_map.mpr ⟨i, hi, rfl⟩
  exact List.mem_map.mpr ⟨_, hfound, rfl⟩

/-- Each import of a reference is the one of a file that the descriptors refer to. -/
theorem exists_reference_of_mem_imports {i : Import} (hi : i ∈ file.imports o) :
    ∃ reference ∈ file.types.flatMap (·.references),
      i = referenceImport o file.sourcePath reference := by
  have hfound := mem_of_mem_distinctBy hi
  obtain ⟨reference, hreference, rfl⟩ := List.mem_map.mp (List.mem_of_mem_filter hfound)
  exact ⟨reference, mem_of_mem_distinctBy hreference, rfl⟩

end

/-- **The imports of a definition file lead to their references**, read from a directory with the
components of the directory of the source. -/
theorem importsLead_of_generate {o : Options} {file : DescriptorFile} {isFile : Path → Bool}
    {definitions : Definitions} (hmodule : o.declareModule = false)
    (hsource : file.sourcePath.Straight)
    (hreferences : ∀ reference ∈ file.types.flatMap (·.references), reference.Straight)
    (h : generate o file.types file.sourcePath isFile = .ok definitions) {directory : Path}
    (hdirectory : directory.components = file.sourcePath.directory.components) :
    ImportsLead o file directory definitions.text := by
  intro i hi
  constructor
  · obtain ⟨block, himports, rfl⟩ := exists_imports_of_generate h
    have hline : i.line ∈ headLines o file.sourcePath block :=
      List.mem_append_right _ (line_mem_of_mem_imports hmodule himports hi)
    exact exists_layOut_line hline _
  · obtain ⟨reference, hreference, rfl⟩ := exists_reference_of_mem_imports hi
    obtain ⟨hplace, hdotted⟩ :=
      specifier_referenceImport o hsource.absolute (hreferences reference hreference)
    refine ⟨reference, hreference, by rw [referenceImport], hdotted, ?_⟩
    rw [hdirectory, hplace]

/-- **The imports of the files that a run writes.** Each file that a run tells of is written, and
where files import each other and all paths are straight, its imports of references lead from the
directory of the source to these references. The file itself stands in this directory if there is
no output directory and the suffix of generated files holds no separator. -/
theorem specifiers_lead {cwd : Place} {arguments : List String} {t t' : FileTree}
    {reports : List FileReport} (h : runIn cwd arguments t = (.generated false reports, t')) :
    ∃ a, Request.ofArguments arguments = .generate a ∧ ∃ run : GenerateRun cwd a t t',
      run.steps.map (·.report) = reports ∧
        ∀ step ∈ run.steps, ∀ path, step.report.outcome = .ok (.written path) →
          ∃ file definitions, step.Delivers cwd run.options run.outDir file definitions ∧
            path = outputPath run.options run.outDir file.sourcePath ∧
            (run.options.declareModule = false → file.sourcePath.Straight →
              (∀ reference ∈ file.types.flatMap (·.references), reference.Straight) →
              (∀ directory : Path,
                directory.components = file.sourcePath.directory.components →
                ImportsLead run.options file directory definitions.text) ∧
              (run.outDir = none → '/' ∉ run.options.generatedSuffix.toList →
                path.directory.components = file.sourcePath.directory.components)) := by
  obtain ⟨a, harguments, -, run, hreports⟩ := exists_generateRun h
  refine ⟨a, harguments, run, hreports, fun step hstep path hpath => ?_⟩
  obtain ⟨file, definitions, hdelivers, rfl⟩ := (run.taken_of_mem hstep).delivers hpath
  refine ⟨file, definitions, hdelivers, rfl, fun hmodule hsource hreferences => ⟨?_, ?_⟩⟩
  · intro directory hdirectory
    exact importsLead_of_generate hmodule hsource hreferences hdelivers.generated hdirectory
  · intro houtDir hsuffix
    rw [houtDir]
    exact directory_outputPath hsource.absolute hsource.getLast?_ne_parent hsuffix

/-! ## A person with an address -/

/-- A descriptor file for a type that refers to another file. -/
def personText : String :=
  "\x7b\"sourcePath\":\"/src/Person.cs\",\"types\":[\x7b\"name\":\"Person\",\"properties\":["
    ++ "\x7b\"name\":\"Home\",\"type\":\x7b\"kind\":\"known\",\"of\":\"Address\","
    ++ "\"clientSideReferenceName\":\"Address\"\x7d\x7d],"
    ++ "\"references\":[\"/lib/Address.ts\"]\x7d]\x7d"

/-- The JSON value of its type reference. -/
def addressJson : Json :=
  .object [("kind", .string "known"), ("of", .string "Address"),
    ("clientSideReferenceName", .string "Address")]

/-- The JSON value of its member. -/
def homeJson : Json := .object [("name", .string "Home"), ("type", addressJson)]

/-- The JSON value of the text. -/
def personJson : Json :=
  .object [("sourcePath", .string "/src/Person.cs"), ("types", .array [.object [
    ("name", .string "Person"), ("properties", .array [homeJson]),
    ("references", .array [.string "/lib/Address.ts"])]])]

/-- What the text says. -/
def personFile : DescriptorFile where
  sourcePath := ⟨"/src/Person.cs"⟩
  types := [
    { name := "Person"
      members := [{ name := "Home", type := ⟨.known "Address", some "Address"⟩ }]
      references := [⟨"/lib/Address.ts"⟩] }]

/-- A tree with that file. -/
def personTree : FileTree :=
  .directory [("src", .directory [("Person.types.json", .file personText)])]

/-- How the file is found. -/
def personFound : Found := ⟨⟨"/src/Person.types.json"⟩, []⟩

theorem read_personTree : personTree.read [] personFound.path = .ok personText := rfl

theorem ofJson?_personJson : DescriptorFile.ofJson? personJson = some personFile := by
  have hkind : ValueKind.ofJson? 121 "known" (some (.string "Address"))
      = some (.known "Address") := by
    rw [ValueKind.ofJson?]
    rfl
  have htype : ValueType.ofJson? 122 addressJson = some ⟨.known "Address", some "Address"⟩ := by
    rw [addressJson, ValueType.ofJson?]
    show (ValueKind.ofJson? 121 "known" (some (.string "Address"))).bind _ = _
    rw [hkind]
    rfl
  have hmember : Member.ofJson? 123 homeJson
      = some (.ofType "Home" ⟨.known "Address", some "Address"⟩) := by
    rw [homeJson, Member.ofJson?]
    show (ValueType.ofJson? 122 addressJson).bind _ = _
    rw [htype]
    rfl
  -- Above the member all readers compute.
  show ((((Member.ofJson? 123 homeJson).bind _).bind _).bind _).bind _ = _
  rw [hmember]
  rfl

theorem parse?_personText : DescriptorFile.parse? personText = some personFile := by
  have hspelled : personJson.compact = personText := by decide +kernel
  have hread : Json.parse? personText = some personJson := by
    rw [← hspelled]
    exact Json.parse?_compact (by decide +kernel)
  rw [DescriptorFile.parse?, hread]
  exact ofJson?_personJson

/-- A run over this file that can write delivers it. -/
theorem exists_delivers_person {a : GenerateArguments} {t' : FileTree}
    (run : GenerateRun [] a personTree t') (hpath : a.path = "src/Person.types.json")
    (hoptions : a.options Config.default.emit = .default) {outDir : Option Path}
    (houtDir : a.outputDirectory? (host []).cwd .default = outDir)
    (hwritable : ∀ text, (deliver (host []) (outputPath .default outDir personFile.sourcePath) text
      personTree).1 = .ok (.written (outputPath .default outDir personFile.sourcePath))) :
    run.options = .default ∧ run.outDir = outDir ∧ ∃ step ∈ run.steps, step.after = t' ∧
      ∃ definitions, step.Delivers [] .default outDir personFile definitions := by
  have hconfig : run.config = .default := Except.ok.inj (run.configured.symm.trans rfl)
  have hrunOptions : run.options = .default := by rw [GenerateRun.options, hconfig, hoptions]
  have hrunOutDir : run.outDir = outDir := by rw [GenerateRun.outDir, hconfig, houtDir]
  have hfound : run.steps.map (·.found) = [personFound] := by
    rw [run.found, hpath]
    rfl
  obtain ⟨report, hsteps⟩ := run.trace.exists_of_single hfound
  have hmem : ⟨personFound, personTree, report, t'⟩ ∈ run.steps := by
    simp [hsteps]
  have htaken := run.taken_of_mem hmem
  rw [hrunOptions, hrunOutDir] at htaken
  obtain ⟨definitions, hgenerated⟩ := exists_generate_eq_ok (o := .default) rfl personFile.types
    personFile.sourcePath (personTree.isFile [])
  have hreport : report.outcome
      = .ok (.written (outputPath .default outDir personFile.sourcePath)) := by
    have hfile := generated_eq_ok_iff.mpr
      ⟨_, _, read_personTree, parse?_personText, hgenerated, rfl⟩
    have hstep := (generateFile_of_generated outDir hfile).symm.trans htaken
    have hreport := congrArg (fun result => result.1.outcome) hstep
    exact hreport.symm.trans (hwritable definitions.text)
  obtain ⟨file, definitions', hdelivers, -⟩ := htaken.delivers hreport
  obtain ⟨text, htext, hfile⟩ := hdelivers.parsed
  have hsame : text = personText := Except.ok.inj (htext.symm.trans read_personTree)
  rw [hsame, parse?_personText] at hfile
  cases hfile
  exact ⟨hrunOptions, hrunOutDir, _, hmem, rfl, definitions', hdelivers⟩

theorem specifiers_lead_beside_source :
    ∃ reports t', runIn [] ["generate", "src/Person.types.json"] personTree
        = (.generated false reports, t') ∧
      personFile.imports .default = [⟨"Address", "../lib/Address"⟩] ∧
      ∃ definitions : Definitions, t'.read [] ⟨"/src/Person.generated.ts"⟩ = .ok definitions.text ∧
        ImportsLead .default personFile ⟨"/src"⟩ definitions.text := by
  have harguments : Request.ofArguments ["generate", "src/Person.types.json"]
      = .generate { path := "src/Person.types.json" } := by decide +kernel
  obtain ⟨reports, t', hrun⟩ : ∃ reports t', runIn [] _ personTree
      = (.generated false reports, t') :=
    ⟨_, _, runIn_generate harguments rfl rfl rfl rfl (Prod.eta _).symm⟩
  refine ⟨reports, t', hrun, by decide +kernel, ?_⟩
  obtain ⟨a, ha, run, -, hlead⟩ := specifiers_lead hrun
  cases harguments.symm.trans ha
  have houtDir : GenerateArguments.outputDirectory? { path := "src/Person.types.json" }
      (host []).cwd .default = none := rfl
  obtain ⟨hoptions, houtDir, step, hstep, rfl, definitions, hdelivers⟩ :=
    exists_delivers_person run rfl rfl houtDir fun text => rfl
  rw [hoptions, houtDir] at hlead
  obtain ⟨file, definitions', hdelivers', -, himports⟩ := hlead step hstep _ hdelivers.written
  obtain ⟨rfl, rfl⟩ := hdelivers.unique hdelivers'
  obtain ⟨hhere, -⟩ := himports rfl (by decide +kernel) (by decide +kernel)
  exact ⟨definitions, hdelivers.holds, hhere ⟨"/src"⟩ (by decide +kernel)⟩

/-- **An output directory takes a file away from its imports.** The specifier of the import is a
way from `/src`, but the file goes to `/out/types`. -/
theorem specifier_leads_elsewhere :
    ¬ ∀ (cwd : Place) (arguments : List String) (t t' : FileTree) (reports : List FileReport),
      runIn cwd arguments t = (.generated false reports, t') →
      ∀ (a : GenerateArguments) (run : GenerateRun cwd a t t') (step : FileStep),
        Request.ofArguments arguments = .generate a → step ∈ run.steps →
        ∀ file definitions, step.Delivers cwd run.options run.outDir file definitions →
          run.options.declareModule = false → file.sourcePath.Straight →
          (∀ reference ∈ file.types.flatMap (·.references), reference.Straight ∧
            ¬ file.sourcePath.directory.components <+: run.options.modulePlace reference ∧
            ¬ run.options.modulePlace reference <+: file.sourcePath.directory.components) →
          ImportsLead run.options file
            (outputPath run.options run.outDir file.sourcePath).directory definitions.text := by
  intro hall
  have harguments : Request.ofArguments
        ["generate", "src/Person.types.json", "--out-dir", "out/types"]
      = .generate { path := "src/Person.types.json", outDir := some "out/types" } := by
    decide +kernel
  obtain ⟨reports, t', hrun⟩ : ∃ reports t', runIn [] _ personTree
      = (.generated false reports, t') :=
    ⟨_, _, runIn_generate harguments rfl rfl rfl rfl (Prod.eta _).symm⟩
  obtain ⟨a, ha, -, run, -⟩ := exists_generateRun hrun
  cases harguments.symm.trans ha
  have houtDir : GenerateArguments.outputDirectory?
      { path := "src/Person.types.json", outDir := some "out/types" } (host []).cwd .default
      = some ⟨"/out/types"⟩ := rfl
  obtain ⟨hoptions, houtDir, step, hstep, rfl, definitions, hdelivers⟩ :=
    exists_delivers_person run rfl rfl houtDir fun text => rfl
  have hlead := hall _ _ _ _ _ hrun _ run step harguments hstep personFile definitions
  rw [hoptions, houtDir] at hlead
  have himport : ⟨"Address", "../lib/Address"⟩ ∈ personFile.imports .default := by decide +kernel
  obtain ⟨-, reference, hreference, hleads⟩ := hlead hdelivers rfl (by decide +kernel)
    (by decide +kernel) _ himport
  have hsame : reference = ⟨"/lib/Address.ts"⟩ := List.mem_singleton.mp hreference
  -- From `/out/types` the specifier leads to `/out/lib/Address`.
  exact absurd (hsame ▸ hleads.place) (by decide +kernel)

end Typings
