import Typings.Proofs.Command.Independence
import Typings.Proofs.Path.Order

/-!
# What is found below a directory

A search below a directory lists what is called like a descriptor file, in the order of the bytes
of its path and nothing twice. What is listed follows from what stands in the tree and not from the
order in which directories tell their entries.

Only names are looked at. So a directory that is called like a descriptor file is listed too, and
as it cannot be read the run fails. On the other hand nothing is listed from a directory whose path
is too long to open it. The search finds the descriptor files and nothing else if and only if
neither happens.

## Main definitions

* `FileTree.HoldsDescriptor` — the descriptor files below a path.
* `FileTree.Lists` — what is listed below a path.

## Main results

* `FileTree.mem_descriptorFiles_iff` — what is found.
* `FileTree.pairwise_descriptorFiles` — in which order.
* `Alike.descriptorFiles_eq` — the order of entries does not matter.
* `Batch.exitCode_of_directory` — a run that finds a directory fails.
* `FileTree.findDescriptorFiles_directory` — the search below a directory.
-/

namespace Typings

open FileTree Typings.Path

/-! ## Names behind a path -/

/-- **Names behind a path** are components behind its own. -/
theorem components_along {names : List String} (h : ∀ name ∈ names, IsName name) (p : Path) :
    (p.along names).components = p.components ++ names.map Component.name := by
  induction names generalizing p with
  | nil => exact (List.append_nil _).symm
  | cons name rest ih =>
      obtain ⟨hname, hrest⟩ := List.forall_mem_cons.mp h
      show ((p.join ⟨name⟩).along rest).components = _
      rw [ih hrest, components_join_name p hname, List.append_assoc]
      rfl

namespace FileTree

variable {cwd : Place} {input : Path} {t t' : FileTree}

/-- Names behind a path lead to the place below. -/
theorem destination_along {names : List String} (h : ∀ name ∈ names, IsName name) (p : Path) :
    destination cwd (p.along names) = destination cwd p ++ names := by
  induction names generalizing p with
  | nil => exact (List.append_nil _).symm
  | cons name rest ih =>
      obtain ⟨hname, hrest⟩ := List.forall_mem_cons.mp h
      show destination cwd ((p.join ⟨name⟩).along rest) = _
      rw [ih hrest, destination_join_name p hname, List.append_assoc]
      rfl

/-- What a path to a directory leads to. -/
theorem isDirectory_iff {p : Path} :
    t.isDirectory cwd p = true ↔ t.locate cwd p = .ok (destination cwd p) ∧
      ∃ entries, t.at? (destination cwd p) = some (.directory entries) := by
  rw [isDirectory, isDirectoryAt]
  constructor
  · intro h
    cases hlocate : t.locate cwd p with
    | error e => simp [hlocate] at h
    | ok place =>
        have hplace := destination_of_locate hlocate
        subst hplace
        refine ⟨rfl, ?_⟩
        rw [hlocate, nodeAt?_ok] at h
        rcases hat : t.at? (destination cwd p) with - | ⟨content | entries⟩ <;> simp_all
  · rintro ⟨hlocate, entries, hat⟩
    simp only [hlocate, nodeAt?_ok, hat]

/-! ## What is listed -/

/-- A descriptor file, at whatever depth below a path: a file whose name has the ending. -/
def HoldsDescriptor (t : FileTree) (cwd : Place) (input : Path) (place : Place) : Prop :=
  (∃ content, t.at? (destination cwd input ++ place) = some (.file content)) ∧
    ∃ name, place.getLast? = some name ∧ isDescriptorName name = true

/-- What is listed below a path: something that is called like a descriptor file, in a directory
whose path is not too long. The path itself is among it, with its own name. -/
def Lists (t : FileTree) (cwd : Place) (input : Path) (place : Place) : Prop :=
  (t.at? (destination cwd input ++ place)).isSome = true ∧ isDescriptorPlace input place = true ∧
    isTooLong (input.along place.dropLast) = false

section

variable (hformed : t.WellFormed) (hdirectory : t.isDirectory cwd input = true)

include hdirectory

theorem isFile_of_isDirectory : t.isFile cwd input = false := by
  obtain ⟨hlocate, entries, hat⟩ := isDirectory_iff.mp hdirectory
  simp only [isFile, isFileAt, hlocate, nodeAt?_ok, hat]

theorem descriptorFiles_of_isDirectory : t.descriptorFiles cwd input
    = ((([] :: t.placesBelow cwd input).filter (isDescriptorPlace input)).map
      (Found.below input)).mergeSort fun a b => !(b.path.precedes a.path) := by
  rw [descriptorFiles, if_neg (by simp [isFile_of_isDirectory hdirectory])]

theorem isTooLong_of_isDirectory : isTooLong input = false := by
  obtain ⟨hlocate, -⟩ := isDirectory_iff.mp hdirectory
  rw [locate] at hlocate
  obtain ⟨found, hpieces, -⟩ := bind_eq_ok hlocate
  rw [pieces] at hpieces
  split at hpieces
  · cases hpieces
  · split at hpieces
    · cases hpieces
    · rename_i hshort
      simpa using hshort

/-- Below a directory, a descriptor file is a file that is called like one. -/
theorem holdsDescriptor_iff {place : Place} : t.HoldsDescriptor cwd input place ↔
    (∃ content, t.at? (destination cwd input ++ place) = some (.file content)) ∧
      isDescriptorPlace input place = true := by
  obtain ⟨-, entries, hat⟩ := isDirectory_iff.mp hdirectory
  refine and_congr_right fun ⟨content, hfile⟩ => ?_
  cases hlast : place.getLast? with
  | none =>
      rw [List.getLast?_eq_none_iff.mp hlast, List.append_nil, hat] at hfile
      cases hfile
  | some name => simp [isDescriptorPlace, hlast]

theorem placesBelow_eq : ∃ entries, t.at? (destination cwd input) = some (.directory entries) ∧
    t.placesBelow cwd input = (directory entries).places.filter fun place =>
      !isTooLong (input.along place.dropLast) := by
  obtain ⟨hlocate, entries, hat⟩ := isDirectory_iff.mp hdirectory
  refine ⟨entries, hat, ?_⟩
  simp only [placesBelow, find?, hlocate, nodeAt?_ok, hat]

include hformed

/-- Everything that is found below a directory is there, by proper names, and its own directory
can be opened. -/
theorem mem_placesBelow_iff {place : Place} :
    place ∈ t.placesBelow cwd input ↔ place ≠ [] ∧
      (t.at? (destination cwd input ++ place)).isSome = true ∧
      isTooLong (input.along place.dropLast) = false := by
  obtain ⟨entries, hat, hplaces⟩ := placesBelow_eq hdirectory
  rw [hplaces, List.mem_filter, mem_places (hformed.of_at? hat), at?_append, hat,
    Bool.not_eq_true', and_assoc]
  rfl

theorem nodup_placesBelow : (t.placesBelow cwd input).Nodup := by
  obtain ⟨entries, hat, hplaces⟩ := placesBelow_eq hdirectory
  rw [hplaces]
  exact (nodup_places _ (hformed.of_at? hat)).filter _

theorem isName_of_isSome {place : Place}
    (hsome : (t.at? (destination cwd input ++ place)).isSome = true) :
    ∀ name ∈ place, IsName name := by
  obtain ⟨-, entries, hat⟩ := isDirectory_iff.mp hdirectory
  by_cases hne : place = []
  · simp [hne]
  · rw [at?_append, hat] at hsome
    exact (at?_of_mem_places (hformed.of_at? hat) (mem_places_of_isSome hne hsome)).2

/-- **What is found** is what is listed. -/
theorem mem_descriptorFiles_iff {found : Found} :
    found ∈ t.descriptorFiles cwd input ↔
      ∃ place, found = Found.below input place ∧ t.Lists cwd input place := by
  obtain ⟨-, entries, hat⟩ := isDirectory_iff.mp hdirectory
  have hlists {place : Place} : place ∈ [] :: t.placesBelow cwd input ∧
      isDescriptorPlace input place = true ↔ t.Lists cwd input place := by
    rw [List.mem_cons, mem_placesBelow_iff hformed hdirectory, Lists]
    by_cases hplace : place = []
    · -- The directory itself is there, and it can be opened.
      subst hplace
      have hshort : isTooLong (input.along []) = false := isTooLong_of_isDirectory hdirectory
      simp [hat, hshort]
    · simp only [hplace, false_or, ne_eq, not_false_eq_true, true_and]
      tauto
  rw [descriptorFiles_of_isDirectory hdirectory, List.mem_mergeSort, List.mem_map]
  simp only [List.mem_filter, hlists]
  exact exists_congr fun place => ⟨fun h => ⟨h.2.symm, h.1⟩, fun h => ⟨h.2, h.1.symm⟩⟩

theorem nodup_descriptorFiles : (t.descriptorFiles cwd input).Nodup := by
  have hinjective : Function.Injective (Found.below input) := fun place place' h =>
    congrArg Found.place h
  have hself : [] ∉ t.placesBelow cwd input := fun hmem =>
    ((mem_placesBelow_iff hformed hdirectory).mp hmem).1 rfl
  have hplaces : ([] :: t.placesBelow cwd input).Nodup :=
    List.nodup_cons.mpr ⟨hself, nodup_placesBelow hformed hdirectory⟩
  rw [descriptorFiles_of_isDirectory hdirectory]
  exact (List.mergeSort_perm _ _).nodup_iff.mpr ((hplaces.filter _).map hinjective)

/-- Paths to different places below a directory differ in their names. -/
theorem place_eq_of_key {place place' : Place}
    (hsome : (t.at? (destination cwd input ++ place)).isSome = true)
    (hsome' : (t.at? (destination cwd input ++ place')).isSome = true)
    (hkey : (input.along place).key = (input.along place').key) : place = place' := by
  have hcomponents : (input.along place).components = (input.along place').components :=
    Component.key_injective.list_map hkey
  rw [components_along (isName_of_isSome hformed hdirectory hsome),
    components_along (isName_of_isSome hformed hdirectory hsome')] at hcomponents
  have hname : Function.Injective Component.name := fun _ _ => Component.name.inj
  exact hname.list_map (List.append_cancel_left hcomponents)

/-- **What is found is in order**, and nothing is found twice. -/
theorem pairwise_descriptorFiles : (t.descriptorFiles cwd input).Pairwise
    fun f g => f.path.key < g.path.key := by
  have hsorted : (t.descriptorFiles cwd input).Pairwise
      fun f g => g.path.precedes f.path = false := by
    rw [descriptorFiles_of_isDirectory hdirectory]
    exact pairwise_mergeSort_precedes Found.path _
  refine (hsorted.and (nodup_descriptorFiles hformed hdirectory)).imp_of_mem
    fun {f g} hf hg ⟨hle, hne⟩ => ?_
  obtain ⟨place, rfl, hsome, -⟩ := (mem_descriptorFiles_iff hformed hdirectory).mp hf
  obtain ⟨place', rfl, hsome', -⟩ := (mem_descriptorFiles_iff hformed hdirectory).mp hg
  rw [← Bool.not_eq_true', not_precedes_iff] at hle
  refine lt_of_le_of_ne hle fun hkey => hne ?_
  rw [place_eq_of_key hformed hdirectory hsome hsome' hkey]

end

/-- **The descriptor files and nothing else** are listed if and only if all that is called like one
is a file where its directory can be opened, and only there. -/
theorem lists_iff_holdsDescriptor_iff (hdirectory : t.isDirectory cwd input = true) :
    (∀ place, t.Lists cwd input place ↔ t.HoldsDescriptor cwd input place) ↔
      ∀ place, isDescriptorPlace input place = true →
        (t.at? (destination cwd input ++ place)).isSome = true →
        ((∃ content, t.at? (destination cwd input ++ place) = some (.file content)) ↔
          isTooLong (input.along place.dropLast) = false) := by
  refine forall_congr' fun place => ?_
  have hsome : (∃ content, t.at? (destination cwd input ++ place) = some (.file content)) →
      (t.at? (destination cwd input ++ place)).isSome = true := by
    rintro ⟨content, hfile⟩
    rw [hfile]
    rfl
  rw [holdsDescriptor_iff hdirectory, Lists]
  constructor
  · intro h hnamed hstands
    exact ⟨fun hfile => (h.mpr ⟨hfile, hnamed⟩).2.2,
      fun hshort => (h.mp ⟨hstands, hnamed, hshort⟩).1⟩
  · intro h
    exact ⟨fun ⟨hstands, hnamed, hshort⟩ => ⟨(h hnamed hstands).mpr hshort, hnamed⟩,
      fun ⟨hfile, hnamed⟩ => ⟨hsome hfile, hnamed, (h hnamed (hsome hfile)).mp hfile⟩⟩

/-! ## The order of entries -/

theorem Alike.isDirectory (h : Alike t t') {p : Path} (hdirectory : t.isDirectory cwd p = true) :
    t'.isDirectory cwd p = true := by
  obtain ⟨hlocate, entries, hat⟩ := isDirectory_iff.mp hdirectory
  exact isDirectory_iff.mpr ⟨h.locate_iff.mp hlocate, (h.persists fun _ => True).directory hat⟩

/-- **The order of entries does not matter**: in trees that hold the same, the same is found. -/
theorem Alike.descriptorFiles_eq (h : Alike t t') (hformed : t.WellFormed)
    (hformed' : t'.WellFormed) (hdirectory : t.isDirectory cwd input = true) :
    t'.descriptorFiles cwd input = t.descriptorFiles cwd input := by
  have hdirectory' : t'.isDirectory cwd input = true := h.isDirectory hdirectory
  have hperm : (t'.descriptorFiles cwd input).Perm (t.descriptorFiles cwd input) := by
    refine (List.perm_ext_iff_of_nodup (nodup_descriptorFiles hformed' hdirectory')
      (nodup_descriptorFiles hformed hdirectory)).mpr fun found => ?_
    rw [mem_descriptorFiles_iff hformed' hdirectory', mem_descriptorFiles_iff hformed hdirectory]
    simp only [Lists, h.isSome_eq]
  exact hperm.eq_of_pairwise (fun _ _ _ _ hlt hgt => absurd hgt hlt.asymm)
    (pairwise_descriptorFiles hformed' hdirectory') (pairwise_descriptorFiles hformed hdirectory)

end FileTree

/-! ## Runs -/

/-- What is found below a directory and is no file cannot be read. -/
theorem FileTree.read_below_directory {cwd place : Place} {input : Path} {t : FileTree}
    (hformed : t.WellFormed) (hdirectory : t.isDirectory cwd input = true)
    {entries : List (String × FileTree)}
    (hat : t.at? (destination cwd input ++ place) = some (.directory entries)) :
    ∃ e, t.read cwd (input.along place) = .error e := by
  cases hread : t.read cwd (input.along place) with
  | error e => exact ⟨e, rfl⟩
  | ok text =>
      have hfile := (read_eq_ok_iff.mp hread).1
      rw [destination_along (isName_of_isSome hformed hdirectory (by rw [hat]; rfl)), hat] at hfile
      cases hfile

/-- **A run that finds a directory fails**: that is told for the directory, and the run ends with
a failure. -/
theorem Batch.exitCode_of_directory {cwd : Place} {arguments : List String} {t : FileTree}
    (b : Batch cwd arguments t) (hformed : t.WellFormed)
    (hdirectory : t.isDirectory cwd (b.request.input cwd) = true) {place : Place}
    {entries : List (String × FileTree)}
    (hat : t.at? (destination cwd (b.request.input cwd) ++ place) = some (.directory entries))
    (hfound : Found.below (b.request.input cwd) place ∈ b.files) :
    (∃ step ∈ b.steps, step.found = Found.below (b.request.input cwd) place ∧
      ∃ e, step.report.outcome = .error (.file e)) ∧
    (runIn cwd arguments t).1.exitCode = 1 := by
  have haccounts := b.accounts
  obtain ⟨step, hstep, hown⟩ : ∃ step ∈ b.steps,
      step.found = Found.below (b.request.input cwd) place :=
    List.mem_map.mp (haccounts.handled ▸ hfound)
  obtain ⟨e, he⟩ := read_below_directory hformed hdirectory hat
  have hread : step.before.read cwd step.found.path = .error e := by
    rw [b.read_before hformed hstep, hown]
    exact he
  have hgenerated : step.before.generated cwd b.options step.found = .error (.file e) := by
    rw [generated, hread]
  have hreport := (haccounts.untouched step hstep _ hgenerated).1
  refine ⟨⟨step, hstep, hown, e, by rw [hreport]⟩, ?_⟩
  rw [haccounts.exitCode, if_pos]
  exact ⟨step, hstep, by rw [hreport]; rfl⟩

/-! ## The search -/

/-- **The search below a directory** finds what is called like a descriptor file, in the order of
bytes and nothing twice, in whatever order entries are told. These are the descriptor files if and
only if all that is called so is a file where a directory could be opened, and only there. A run
that finds a directory among them fails. -/
theorem FileTree.findDescriptorFiles_directory {cwd : Place} {input : Path} {t : FileTree}
    (hformed : t.WellFormed) (hdirectory : t.isDirectory cwd input = true) :
    ∃ found : List Found, findDescriptorFiles (host cwd) input t = (found, t) ∧
      found.Pairwise (fun f g => f.path.byteKey < g.path.byteKey) ∧
      (∀ f, f ∈ found ↔ ∃ place, f = Found.below input place ∧ t.Lists cwd input place) ∧
      (∀ t' : FileTree, t'.WellFormed → Alike t t' →
        findDescriptorFiles (host cwd) input t' = (found, t')) ∧
      ((∀ f, f ∈ found ↔
          ∃ place, f = Found.below input place ∧ t.HoldsDescriptor cwd input place) ↔
        ∀ place, isDescriptorPlace input place = true →
          (t.at? (destination cwd input ++ place)).isSome = true →
          ((∃ content, t.at? (destination cwd input ++ place) = some (.file content)) ↔
            isTooLong (input.along place.dropLast) = false)) ∧
      ∀ (arguments : List String) (b : Batch cwd arguments t), b.request.input cwd = input →
        ∀ place entries, Found.below input place ∈ found →
          t.at? (destination cwd input ++ place) = some (.directory entries) →
          (∃ step ∈ b.steps, step.found = Found.below input place ∧
            ∃ e, step.report.outcome = .error (.file e)) ∧
          (runIn cwd arguments t).1.exitCode = 1 := by
  have hmem (f : Found) : f ∈ t.descriptorFiles cwd input ↔
      ∃ place, f = Found.below input place ∧ t.Lists cwd input place :=
    mem_descriptorFiles_iff hformed hdirectory
  refine ⟨t.descriptorFiles cwd input, findDescriptorFiles_host cwd input t,
    (pairwise_descriptorFiles hformed hdirectory).imp key_lt_iff_byteKey.mp, hmem, ?_, ?_, ?_⟩
  · intro t' hformed' halike
    rw [findDescriptorFiles_host, halike.descriptorFiles_eq hformed hformed' hdirectory]
  · rw [← lists_iff_holdsDescriptor_iff hdirectory]
    constructor
    · intro h place
      have hplace := (hmem (Found.below input place)).symm.trans (h (Found.below input place))
      simpa [Found.below] using hplace
    · intro h f
      simp only [hmem, h]
  · rintro arguments b rfl place entries hfound hat
    exact b.exitCode_of_directory hformed hdirectory hat hfound

/-! ## A directory with the name of a descriptor file -/

/-- A tree with descriptor files at two depths, and a directory that is called like one. -/
def shelfTree : FileTree :=
  .directory [
    ("a", .directory [("x.types.json", .file ""), ("notes.json", .file "")]),
    ("b.types.json", .file ""),
    ("c.types.json", .directory [])]

/-- The same tree with its entries in another order. -/
def shuffledTree : FileTree :=
  .directory [
    ("b.types.json", .file ""),
    ("a", .directory [("notes.json", .file ""), ("x.types.json", .file "")]),
    ("c.types.json", .directory [])]

/-- A run over the tree. -/
def shelfBatch : Batch [] ["generate"] shelfTree where
  request := {}
  config := .default
  asked := ofArguments_generate
  configured := rfl
  present := by decide +kernel

theorem wellFormed_shelfTree : shelfTree.WellFormed ∧ shuffledTree.WellFormed := by
  have hname (c : Char) {name : String} (h : c ∈ name.toList ∧ c ≠ '.' ∧ '/' ∉ name.toList) :
      IsName name := isName_of_mem h.1 h.2.1 h.2.2
  have ha : IsName "a" := hname 'a' (by decide)
  have hb : IsName "b.types.json" := hname 'b' (by decide)
  have hc : IsName "c.types.json" := hname 'c' (by decide)
  have hx : IsName "x.types.json" := hname 'x' (by decide)
  have hnotes : IsName "notes.json" := hname 'n' (by decide)
  exact ⟨⟨ha, by simp, ⟨hx, by simp, trivial, hnotes, by simp, trivial, trivial⟩,
      hb, by simp, trivial, hc, by simp, trivial, trivial⟩,
    hb, by simp, trivial, ha, by simp, ⟨hnotes, by simp, trivial, hx, by simp, trivial, trivial⟩,
      hc, by simp, trivial, trivial⟩

theorem alike_shuffledTree : Alike shelfTree shuffledTree := by
  have hbelow : Alike (.directory [("x.types.json", .file ""), ("notes.json", .file "")])
      (.directory [("notes.json", .file ""), ("x.types.json", .file "")]) :=
    alike_of_perm (List.Perm.swap _ _ _) (by decide)
  have hfirst : Alike shelfTree (.directory [
      ("a", .directory [("notes.json", .file ""), ("x.types.json", .file "")]),
      ("b.types.json", .file ""),
      ("c.types.json", .directory [])]) :=
    alike_of_entries (.cons ⟨rfl, hbelow⟩
      (.cons ⟨rfl, fun _ => rfl⟩ (.cons ⟨rfl, fun _ => rfl⟩ .nil)))
  exact hfirst.trans (alike_of_perm (List.Perm.swap _ _ _) (by decide))

theorem descriptorFiles_shelfTree : shelfTree.descriptorFiles [] ⟨"/."⟩
    = [["a", "x.types.json"], ["b.types.json"], ["c.types.json"]].map (Found.below ⟨"/."⟩) :=
  descriptorFiles_of_sorted (by decide +kernel) rfl (by decide +kernel)

/-- The directory is listed behind the descriptor files, and the run fails. -/
theorem findDescriptorFiles_shelfTree :
    (shelfTree.WellFormed ∧ shelfTree.isDirectory [] ⟨"/."⟩ = true) ∧
      ∃ found : List Found, found.map Found.name
          = ["a/x.types.json", "b.types.json", "c.types.json"] ∧
        findDescriptorFiles (host []) ⟨"/."⟩ shelfTree = (found, shelfTree) ∧
        findDescriptorFiles (host []) ⟨"/."⟩ shuffledTree = (found, shuffledTree) ∧
        (runIn [] ["generate"] shelfTree).1.exitCode = 1 := by
  have hdirectory : shelfTree.isDirectory [] ⟨"/."⟩ = true := by decide +kernel
  obtain ⟨hformed, hformed'⟩ := wellFormed_shelfTree
  obtain ⟨found, hfound, -, hlists, hshuffled, -, hrun⟩ :=
    findDescriptorFiles_directory hformed hdirectory
  refine ⟨⟨hformed, hdirectory⟩, found, ?_, hfound, hshuffled _ hformed' alike_shuffledTree, ?_⟩
  · rw [findDescriptorFiles_host, descriptorFiles_shelfTree] at hfound
    rw [← (Prod.mk.inj hfound).1]
    decide +kernel
  · have hinput : shelfBatch.request.input [] = ⟨"/."⟩ := by decide +kernel
    refine (hrun _ shelfBatch hinput ["c.types.json"] [] ((hlists _).mpr ⟨_, rfl, ?_⟩) rfl).2
    exact ⟨rfl, by decide +kernel, by decide +kernel⟩

/-- A tree with nothing but a directory that is called like a descriptor file. -/
def misnamedTree : FileTree := .directory [("x.types.json", .directory [])]

/-- A run over the tree. -/
def misnamedBatch : Batch [] ["generate"] misnamedTree where
  request := {}
  config := .default
  asked := ofArguments_generate
  configured := rfl
  present := by decide +kernel

/-- There is no descriptor file in the tree. Still one is found, which cannot be read, and the run
fails. -/
theorem directory_is_found :
    (∀ place, ¬ misnamedTree.HoldsDescriptor [] ⟨"/."⟩ place) ∧
      findDescriptorFiles (host []) ⟨"/."⟩ misnamedTree
        = ([⟨⟨"/./x.types.json"⟩, ["x.types.json"]⟩], misnamedTree) ∧
      misnamedTree.read [] ⟨"/./x.types.json"⟩ = .error .isDirectory ∧
      (runIn [] ["generate"] misnamedTree).1.exitCode = 1 := by
  have hfound : misnamedTree.descriptorFiles [] ⟨"/."⟩
      = [⟨⟨"/./x.types.json"⟩, ["x.types.json"]⟩] :=
    descriptorFiles_of_sorted (by decide +kernel) rfl (by decide +kernel)
  have hinput : misnamedBatch.request.input [] = ⟨"/."⟩ := by decide +kernel
  have hdirectory : misnamedTree.isDirectory [] (misnamedBatch.request.input []) = true := by
    decide +kernel
  have hformed : misnamedTree.WellFormed :=
    ⟨isName_of_mem (c := 'x') (by decide) (by decide) (by decide), by simp, trivial, trivial⟩
  refine ⟨?_, ?_, rfl, ?_⟩
  · rintro place ⟨⟨content, hfile⟩, -⟩
    have hbase : destination [] ⟨"/."⟩ = [] := by decide +kernel
    rw [hbase, List.nil_append] at hfile
    by_cases hne : place = []
    · subst hne
      cases hfile
    · have hplace : place ∈ misnamedTree.places := mem_places_of_isSome hne (by rw [hfile]; rfl)
      rw [List.mem_singleton.mp hplace] at hfile
      cases hfile
  · rw [findDescriptorFiles_host, hfound]
  · have hmem : Found.below (misnamedBatch.request.input []) ["x.types.json"]
        ∈ misnamedBatch.files := by
      rw [Batch.files, hinput, hfound]
      exact List.mem_cons_self
    exact (misnamedBatch.exitCode_of_directory hformed hdirectory rfl hmem).2

end Typings
