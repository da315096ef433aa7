import Typings.Proofs.Command.OutputPath
import Typings.Proofs.FileTree.Growth
import Typings.Proofs.FileTree.Listing
import Typings.Proofs.Path.Names

/-!
# Descriptor files stay where they were found

Everything that is found below a directory is an entry there. The path to it is spelled by the path
to the directory and these names. So resolving it comes to the same in every later tree, even where
it fails, and as long as nothing is written to its place the same is read.

## Main results

* `Persists.locate_along` — resolving a path by names behind a directory.
* `Persists.read_below` — reading what was found below a directory.
-/

namespace Typings.FileTree

open Typings.Path

variable {t t' : FileTree} {kept : Place → Prop}

/-! ## Names behind a directory -/

theorem step_of_entry {place : Place} {entries : List (String × FileTree)} {name : String}
    (hdirectory : t.at? place = some (.directory entries)) (hname : IsName name)
    (hsome : (t.at? (place ++ [name])).isSome = true) :
    t.step place name = (entryName name).map fun name => place ++ [name] := by
  rw [at?_concat hdirectory] at hsome
  rw [step, hdirectory]
  simp only
  rw [if_neg (by simp [hname.meant]), if_neg hname.proper]
  cases hentry : entryName name with
  | error e => rfl
  | ok own =>
      have hown := entryName_eq_ok hentry
      subst hown
      exact if_pos hsome

/-- Walking along the names of entries comes to the same in every later tree. -/
theorem Persists.walk_names (h : Persists kept t t') {place names : Place}
    (hnames : ∀ name ∈ names, IsName name) (hsome : (t.at? (place ++ names)).isSome = true) :
    t'.walk place names = t.walk place names := by
  induction names generalizing place with
  | nil => rfl
  | cons name rest ih =>
      obtain ⟨hname, hrest⟩ := List.forall_mem_cons.mp hnames
      obtain ⟨entries, hdirectory⟩ := exists_directory_of_isSome (List.cons_ne_nil name rest) hsome
      obtain ⟨entries', hdirectory'⟩ := h.directory hdirectory
      rw [List.append_cons] at hsome
      have hentry : (t.at? (place ++ [name])).isSome = true := by
        rw [at?_append] at hsome
        cases hat : t.at? (place ++ [name]) with
        | none => simp [hat] at hsome
        | some node => rfl
      rw [FileTree.walk, FileTree.walk, step_of_entry hdirectory hname hentry,
        step_of_entry hdirectory' hname (h.isSome hentry)]
      cases hown : entryName name with
      | error e => rfl
      | ok own =>
          have hsame := entryName_eq_ok hown
          subst hsame
          exact ih hrest hsome

theorem exists_segments_along {p : Path} {names : List String} (hp : p.text ≠ "")
    (hnames : ∀ name ∈ names, IsName name) :
    ∃ front, (p.along names).segments = front ++ names ∧
      (p.segments = front ∨ p.segments = front ++ [""]) := by
  induction names generalizing p with
  | nil => exact ⟨p.segments, by rw [List.append_nil]; rfl, Or.inl rfl⟩
  | cons name rest ih =>
      obtain ⟨hname, hrest⟩ := List.forall_mem_cons.mp hnames
      obtain ⟨front, hjoin, hfront⟩ := exists_segments_join hp hname.whole
      have hne : (p.join ⟨name⟩).text ≠ "" := by
        intro hempty
        obtain ⟨before, hbefore⟩ := exists_text_join p ⟨name⟩
        rw [hempty] at hbefore
        have hmeant := hname.meant
        simp_all [isIdle]
      obtain ⟨front', halong, hfront'⟩ := ih hne hrest
      refine ⟨front, ?_, hfront⟩
      -- A name is not the empty piece behind a separator.
      have hsame : front' = front ++ [name] := by
        rcases hfront' with hsame | hslash
        · rw [← hsame, hjoin]
        · rw [hjoin] at hslash
          have hempty : name = "" := (List.append_inj' hslash rfl).2 |> List.singleton_inj.mp
          have hmeant := hname.meant
          rw [hempty] at hmeant
          cases hmeant
      show ((p.join ⟨name⟩).along rest).segments = _
      rw [halong, hsame, List.append_assoc]
      rfl

theorem start_along {cwd : Place} {p : Path} {names : List String}
    (hnames : ∀ name ∈ names, IsName name) : start cwd (p.along names) = start cwd p := by
  induction names generalizing p with
  | nil => rfl
  | cons name rest ih =>
      obtain ⟨hname, hrest⟩ := List.forall_mem_cons.mp hnames
      show start cwd ((p.join ⟨name⟩).along rest) = _
      rw [ih hrest, start_join (isAbsolute_of_notMem hname.whole)]

/-- **Resolving a path by names behind a directory** comes to the same in every later tree. -/
theorem Persists.locate_along (h : Persists kept t t') {cwd base : Place} {p : Path}
    (hlocate : t.locate cwd p = .ok base) {names : Place} (hnames : ∀ name ∈ names, IsName name)
    (hsome : (t.at? (base ++ names)).isSome = true) :
    t'.locate cwd (p.along names) = t.locate cwd (p.along names) := by
  rw [FileTree.locate] at hlocate
  obtain ⟨found, hpieces, hwalk⟩ := bind_eq_ok hlocate
  rw [pieces_eq_ok hpieces] at hwalk
  have hp : p.text ≠ "" := by
    intro hempty
    rw [pieces, if_neg (by simp [hempty]), if_neg (by simp [isTooLong, hempty]), if_pos hempty]
      at hpieces
    cases hpieces
  obtain ⟨front, hsegments, hfront⟩ := exists_segments_along hp hnames
  have hbase : t.walk (start cwd p) front = .ok base := by
    rcases hfront with hsame | hslash
    · rw [← hsame]
      exact hwalk
    · rw [hslash, walk_append] at hwalk
      obtain ⟨middle, hmiddle, hstay⟩ := bind_eq_ok hwalk
      have hend := foldl_enter_of_walk hstay
      rw [hmiddle, hend]
      rfl
  rw [FileTree.locate, FileTree.locate, start_along hnames]
  cases hown : pieces (p.along names) with
  | error e => rfl
  | ok own =>
      rw [pieces_eq_ok hown, hsegments]
      show t'.walk _ (front ++ names) = t.walk _ (front ++ names)
      rw [walk_append, walk_append, hbase, h.walk hbase]
      exact h.walk_names hnames hsome

/-! ## Reading -/

theorem isSome_of_step {place next : Place} {piece : String}
    (h : t.step place piece = .ok next) : (t.at? next).isSome = true := by
  obtain ⟨⟨entries, hentries⟩, hto, rfl⟩ := step_eq_ok_iff.mp h
  rw [enter]
  split
  · rw [hentries]
    rfl
  · rename_i hidle
    split
    · rcases List.eq_nil_or_concat place with rfl | ⟨above, x, rfl⟩
      · rfl
      · rw [List.concat_eq_append] at hentries ⊢
        obtain ⟨entries', hentries'⟩ := exists_directory_of_isSome (List.cons_ne_nil x [])
          (by rw [hentries]; rfl)
        rw [List.dropLast_concat, hentries']
        rfl
    · rename_i hproper
      exact (hto (by simpa using hidle) hproper).2

theorem isSome_of_walk {place next : Place} {pieces : List String} (hne : pieces ≠ [])
    (h : t.walk place pieces = .ok next) : (t.at? next).isSome = true := by
  induction pieces generalizing place with
  | nil => exact absurd rfl hne
  | cons piece rest ih =>
      rw [walk] at h
      obtain ⟨middle, hstep, hrest⟩ := bind_eq_ok h
      cases rest with
      | nil =>
          cases hrest
          exact isSome_of_step hstep
      | cons other others => exact ih (List.cons_ne_nil other others) hrest

/-- There is something wherever a path leads. -/
theorem isSome_of_locate {cwd place : Place} {p : Path} (h : t.locate cwd p = .ok place) :
    (t.at? place).isSome = true := by
  rw [locate] at h
  obtain ⟨found, hpieces, hwalk⟩ := bind_eq_ok h
  rw [pieces_eq_ok hpieces] at hwalk
  exact isSome_of_walk (by simp [segments, List.splitOn_ne_nil]) hwalk

/-- A path that is resolved alike reads alike, also where it cannot be read. -/
theorem Persists.read_eq (h : Persists kept t t') {cwd : Place} {p : Path}
    (hkept : kept (destination cwd p)) (hlocate : t'.locate cwd p = t.locate cwd p) :
    t'.read cwd p = t.read cwd p := by
  rw [FileTree.read, FileTree.read, contentAt, contentAt, hlocate]
  cases hplace : t.locate cwd p with
  | error e => rfl
  | ok place =>
      have hsome := isSome_of_locate hplace
      rw [← destination_of_locate hplace] at hkept
      simp only [bind, Except.bind]
      cases hat : t.at? place with
      | none => simp [hat] at hsome
      | some node =>
          cases node with
          | file content => rw [h.content hkept hat]
          | directory entries =>
              obtain ⟨entries', hentries'⟩ := h.directory hat
              rw [hentries']

/-- **What was found below a directory** reads the same in every later tree in which nothing is
written to its place. -/
theorem Persists.read_below (h : Persists kept t t') (hformed : t.WellFormed) {cwd : Place}
    {p : Path} (hexists : t.exists? cwd p = true) {place : Place}
    (hplace : place ∈ [] :: t.placesBelow cwd p) (hkept : kept (destination cwd (p.along place))) :
    t'.read cwd (p.along place) = t.read cwd (p.along place) := by
  refine h.read_eq hkept ?_
  rw [exists?, find?] at hexists
  rw [placesBelow, find?] at hplace
  cases hlocate : t.locate cwd p with
  | error e => simp [hlocate] at hexists
  | ok base =>
      simp only [hlocate, nodeAt?_ok] at hexists hplace
      have hbelow : (t.at? (base ++ place)).isSome = true ∧ ∀ name ∈ place, IsName name := by
        rcases List.mem_cons.mp hplace with rfl | hfound
        · rw [List.append_nil]
          exact ⟨hexists, by simp⟩
        · cases hat : t.at? base with
          | none => simp [hat] at hexists
          | some node =>
              rw [hat] at hfound
              obtain ⟨hsome, hnames⟩ :=
                at?_of_mem_places (hformed.of_at? hat) (List.mem_filter.mp hfound).1
              rw [at?_append, hat]
              exact ⟨hsome, hnames⟩
      exact h.locate_along hlocate hbelow.2 hbelow.1

end Typings.FileTree
