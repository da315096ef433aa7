import Typings.Import.Resolve
import Typings.Proofs.Layout
import Typings.Proofs.Path.Resolution

/-!
# Where an import leads

The specifier of an import is a path from the directory of the source file. Read there, it leads
to the file that is imported, with the extension of a module taken from its name. Nothing else
than the two paths is needed for this as long as their names are plain.

## Main definitions

* `Options.modulePlace` — the place of a file as a module.

## Main results

* `stripExtension_spec` — what is left of a file name.
* `Options.withFileName_moduleStem` — the target of an import is the place of the module.
* `specifier_referenceImport` — where an import leads.
-/

namespace Typings

/-! ## Names without extension -/

theorem properStem?_eq_some {ending text stem : List Char}
    (h : properStem? ending text = some stem) :
    text = stem ++ ending ∧ stem ≠ [] := by
  rw [properStem?, Option.filter_eq_some_iff] at h
  obtain ⟨hsuffix, hne⟩ := h
  rw [List.isSuffixOf?_eq_some_iff_append_eq] at hsuffix
  exact ⟨hsuffix.symm, by simpa using hne⟩

/-- A name without extension is the start of the name, and not empty if the name is not. -/
theorem stripExtension_spec (extension name : String) :
    (stripExtension extension name).toList <+: name.toList ∧
      (name ≠ "" → stripExtension extension name ≠ "") := by
  rw [stripExtension]
  split
  · rename_i stem hstem
    obtain ⟨ending, -, hending⟩ := List.exists_of_findSome?_eq_some hstem
    obtain ⟨htext, hne⟩ := properStem?_eq_some hending
    rw [String.toList_ofList, htext]
    exact ⟨List.prefix_append _ _, fun _ hempty => hne (by simpa using hempty)⟩
  · rw [stripSourceExtension]
    split
    · rename_i c stem found hsplit
      split
      · have htext := Text.append_of_splitLast hsplit
        rw [String.toList_ofList, htext]
        exact ⟨List.prefix_append _ _, fun _ hempty => by simp at hempty⟩
      · exact ⟨List.prefix_rfl, id⟩
    · exact ⟨List.prefix_rfl, id⟩

/-- A plain name is one without its extension, too. -/
theorem stripExtension_plain (extension : String) {name : String} (hname : Path.IsName name)
    (hdot : name.toList.head? ≠ some '.') :
    Path.IsName (stripExtension extension name) ∧
      (stripExtension extension name).toList.head? ≠ some '.' := by
  obtain ⟨hfront, hne⟩ := stripExtension_spec extension name
  have hname0 : name ≠ "" := by
    rintro rfl
    exact absurd hname.meant (by decide)
  obtain ⟨c, rest, hcons⟩ : ∃ c rest, (stripExtension extension name).toList = c :: rest :=
    List.exists_cons_of_ne_nil (by simpa using hne hname0)
  have hhead : name.toList.head? = some c := by
    rw [hcons] at hfront
    obtain ⟨behind, hbehind⟩ := hfront
    rw [← hbehind]
    rfl
  have hc : c ≠ '.' := fun e => hdot (by rw [hhead, e])
  refine ⟨Path.isName_of_mem (c := c) (by simp [hcons]) hc ?_, ?_⟩
  · exact fun hslash => hname.whole (hfront.subset hslash)
  · rw [hcons]
    simpa using hc

namespace Options

/-- The place of a file as a module: the extension of a module is taken from its name. -/
def modulePlace (o : Options) (file : Path) : List Path.Component :=
  match file.fileName? with
  | some name => file.components.dropLast ++ [.name (stripExtension o.sourceExtension name)]
  | none => file.components

variable (o : Options) {file : Path}

/-- A path is straight when all its steps are. -/
theorem straight_of_steps {p : Path} (h : p.isAbsolute = true)
    (hsteps : ∀ c ∈ p.steps, c.isPlain = true) : p.Straight where
  absolute := h
  plain := by
    rw [Path.components_of_isAbsolute h]
    exact List.forall_mem_cons.mpr ⟨rfl, hsteps⟩

/-- With the extension of a module taken from its name, a file is the place of the module. -/
theorem steps_withFileName_moduleStem (h : file.isAbsolute = true) {name : String}
    (hname : file.fileName? = some name)
    (hstem : Path.IsName (stripExtension o.sourceExtension name)) :
    (file.withFileName (o.moduleStem file)).isAbsolute = true ∧
      (file.withFileName (o.moduleStem file)).steps
        = file.steps.dropLast ++ [.name (stripExtension o.sourceExtension name)] ∧
      (file.withFileName (o.moduleStem file)).components = o.modulePlace file := by
  have hlast := Path.getLast?_steps_of_fileName? h hname
  have hne : file.steps ≠ [] := List.ne_nil_of_mem (List.mem_of_getLast? hlast)
  have hup : file.steps.getLast? ≠ some .parent := by
    rw [hlast]
    simp
  obtain ⟨habsolute, hsteps⟩ := Path.steps_withFileName h hup hstem
  rw [moduleStem, modulePlace, hname, Option.getD_some]
  refine ⟨habsolute, hsteps, ?_⟩
  show (file.withFileName _).components = file.components.dropLast ++ [_]
  rw [Path.components_of_isAbsolute habsolute, hsteps, Path.components_of_isAbsolute h,
    List.dropLast_cons_of_ne_nil hne, List.cons_append]

/-- The target of an import is a straight path to the place of the module. -/
theorem withFileName_moduleStem (h : file.Straight) :
    (file.withFileName (o.moduleStem file)).Straight ∧
      (file.withFileName (o.moduleStem file)).components = o.modulePlace file := by
  have hplain : ∀ c ∈ file.steps, c.isPlain = true := fun c hc =>
    h.plain c (by rw [Path.components_of_isAbsolute h.absolute]; simp [hc])
  cases hname : file.fileName? with
  | none =>
      -- Without a file name the path leads to the root, and an empty name adds nothing to it.
      have hnothing : stripExtension o.sourceExtension "" = "" := by
        have hfront := (stripExtension_spec o.sourceExtension "").1
        simpa using List.prefix_nil.mp hfront
      have hjoin : file.withFileName "" = file.join ⟨""⟩ := by rw [Path.withFileName, hname]
      have hsteps : (file.join ⟨""⟩).steps = file.steps := by
        have hempty : Path.steps ⟨""⟩ = [] := by decide +kernel
        rw [Path.steps_join (by decide), hempty, List.append_nil]
      have habsolute : (file.join ⟨""⟩).isAbsolute = true := Path.isAbsolute_join h.absolute
      rw [moduleStem, modulePlace, hname, Option.getD_none, hnothing, hjoin]
      refine ⟨straight_of_steps habsolute (by rwa [hsteps]), ?_⟩
      rw [Path.components_of_isAbsolute habsolute, hsteps,
        ← Path.components_of_isAbsolute h.absolute]
  | some name =>
      have hlast := Path.getLast?_steps_of_fileName? h.absolute hname
      have hmem : Path.Component.name name ∈ file.steps := List.mem_of_getLast? hlast
      obtain ⟨text, htext, hdot, hslash⟩ := h.name_of_mem_steps hmem
      cases htext
      have hown : Path.IsName name := Path.isStep_of_mem_steps hmem
      obtain ⟨hstem, hstemdot⟩ := stripExtension_plain o.sourceExtension hown hdot
      obtain ⟨habsolute, hsteps, hplace⟩ := o.steps_withFileName_moduleStem h.absolute hname hstem
      have hstemslash : '\\' ∉ (stripExtension o.sourceExtension name).toList := fun hm =>
        hslash ((stripExtension_spec o.sourceExtension name).1.subset hm)
      refine ⟨straight_of_steps habsolute ?_, hplace⟩
      rw [hsteps]
      intro c hc
      rcases List.mem_append.mp hc with hc | hc
      · exact hplain c (List.mem_of_mem_dropLast hc)
      · rw [List.mem_singleton.mp hc, Path.Component.isPlain]
        simp [hstemdot, hstemslash]

/-! ## Specifiers -/

theorem replace_backslash_eq_self {text : List Char} (h : '\\' ∉ text) :
    Text.replace ['\\'] ['/'] text = text := by
  rw [Text.replace_singleton]
  have hsame : ∀ c ∈ text, (if c = '\\' then ['/'] else [c]) = [c] := by
    intro c hc
    refine if_neg ?_
    rintro rfl
    exact h hc
  rw [List.flatMap_congr hsame]
  exact List.flatMap_singleton' text

/-- A specifier is the path along the walk to the module, with a dot in front. -/
theorem moduleSpecifier_eq_dotted {directory : Path}
    (h : '\\' ∉ (directory.relative (file.withFileName (o.moduleStem file))).text.toList) :
    (⟨o.moduleSpecifier directory file⟩ : Path)
      = (directory.relative (file.withFileName (o.moduleStem file))).dotted := by
  rw [moduleSpecifier, Path.dotted]
  simp only [replace_backslash_eq_self h, String.ofList_toList]
  generalize directory.relative (file.withFileName (o.moduleStem file)) = path
  split <;> rfl

end Options

/-! ## Imports of references -/

section

variable (o : Options) {source reference : Path}

theorem sourceDirectory_eq_directory (h : source.isAbsolute = true) :
    sourceDirectory source = source.directory ∨
      (sourceDirectory source = ⟨""⟩ ∧ source.directory.components = [.root]) := by
  rw [sourceDirectory, Path.directory]
  rcases Path.parent?_of_isAbsolute h with ⟨hnil, hnone⟩ | ⟨q, hq, -, -, -⟩
  · rw [hnone]
    refine Or.inr ⟨rfl, ?_⟩
    show source.components = [.root]
    rw [Path.components_of_isAbsolute h, hnil]
  · rw [hq]
    exact Or.inl rfl

/-- What the import of a reference says leads from the directory of the source file to the place
of the module, and it says itself that it is to be read from a directory. -/
theorem specifier_referenceImport (hsource : source.isAbsolute = true)
    (hreference : reference.Straight) :
    Path.resolve source.directory.components ⟨(referenceImport o source reference).specifier⟩
        = o.modulePlace reference ∧
      Path.IsDotted ⟨(referenceImport o source reference).specifier⟩ := by
  obtain ⟨htarget, hplace⟩ := o.withFileName_moduleStem hreference
  have hclear := htarget.clear
  have hspecifier : (referenceImport o source reference).specifier
      = o.moduleSpecifier (sourceDirectory source) reference := by rw [referenceImport]
  rw [hspecifier]
  rcases sourceDirectory_eq_directory hsource with hdirectory | ⟨hempty, hroot⟩
  · have habsolute := Path.isAbsolute_directory hsource
    rw [hdirectory, o.moduleSpecifier_eq_dotted (Path.notMem_text_relative habsolute hclear),
      Path.resolve_dotted_relative habsolute hclear, hplace]
    exact ⟨rfl, Path.isDotted_dotted_relative habsolute htarget⟩
  · rw [hempty, hroot, o.moduleSpecifier_eq_dotted (Path.notMem_text_relative_empty hclear),
      Path.resolve_dotted_relative_empty hclear, hplace]
    exact ⟨rfl, Path.isDotted_dotted_relative_empty htarget.absolute⟩

end

end Typings
