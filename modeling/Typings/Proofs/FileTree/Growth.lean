import Typings.Proofs.FileTree.Writing

/-!
# What a changed tree gains

Making directories adds no file, and writing a file adds no other one. So a tree does not only
persist in a later one: what the later tree holds at the places to which nothing is written it
holds already. Then a path that leads to such a place without going up reads the same in both
trees. For on the way to a file there are directories, whichever tree it stands in, and each name
on the way is an entry.

## Main definitions

* `Grows` — a tree and a later one that has new files only in some places.

## Main results

* `grows_createDirectories`, `grows_write` — the two ways in which a tree grows.
* `Grows.read_iff`, `Grows.isFile_eq` — reading along a path without steps up.
-/

namespace Typings.FileTree

variable {t t' t'' : FileTree} {kept kept' : Place → Prop}

/-- A tree *grows* into a later one: it persists there, and the files at the kept places are no
new ones. -/
structure Grows (kept : Place → Prop) (t t' : FileTree) : Prop extends Persists kept t t' where
  fresh : ∀ {place content}, kept place → t'.at? place = some (.file content) →
    t.at? place = some (.file content)

namespace Grows

theorem refl (kept : Place → Prop) (t : FileTree) : Grows kept t t where
  toPersists := .refl kept t
  fresh _ h := h

theorem trans (h : Grows kept t t') (h' : Grows kept t' t'') : Grows kept t t'' where
  toPersists := h.toPersists.trans h'.toPersists
  fresh hkept hat := h.fresh hkept (h'.fresh hkept hat)

theorem mono (h : Grows kept t t') (hsub : ∀ place, kept' place → kept place) :
    Grows kept' t t' where
  toPersists := h.toPersists.mono hsub
  fresh hkept hat := h.fresh (hsub _ hkept) hat

end Grows

/-! ## Nodes at places -/

section Put

variable {node : FileTree} {name : String}

/-- A file that is neither in the place of the node nor below it was there before. -/
theorem at?_of_put {place other : Place} {entries : List (String × FileTree)} {content : String}
    (h : t.at? place = some (.directory entries)) (hother : ¬ place ++ [name] <+: other)
    (hfile : (put node (place ++ [name]) t).at? other = some (.file content)) :
    t.at? other = some (.file content) := by
  induction place generalizing t other with
  | nil =>
      have ht : t = .directory entries := by simpa [at?] using h
      subst ht
      rw [List.nil_append] at hother hfile
      cases other with
      | nil => simp [put, at?] at hfile
      | cons x more =>
          have hx : x ≠ name := by
            rintro rfl
            exact hother (List.cons_prefix_cons.mpr ⟨rfl, List.nil_prefix⟩)
          rw [put, at?, child?, lookup_putEntry, if_neg hx] at hfile
          rw [at?, child?]
          exact hfile
  | cons first rest ih =>
      cases t with
      | file content => simp [at?, child?] at h
      | directory entries' =>
          rw [at?, child?] at h
          cases hchild : entries'.lookup first with
          | none => simp [hchild] at h
          | some child =>
              rw [hchild] at h
              have hput : put node (first :: rest ++ [name]) (.directory entries')
                  = .directory (putEntry first (put node (rest ++ [name]) child) entries') := by
                rw [List.cons_append, put, hchild]
                simp
              rw [hput] at hfile
              cases other with
              | nil => simp [at?] at hfile
              | cons x more =>
                  rw [at?, child?]
                  simp only [at?, child?, lookup_putEntry] at hfile
                  by_cases hx : x = first
                  · subst hx
                    rw [hchild]
                    rw [if_pos rfl] at hfile
                    refine ih h (fun hbelow => hother ?_) hfile
                    exact List.cons_prefix_cons.mpr ⟨rfl, hbelow⟩
                  · rw [if_neg hx] at hfile
                    exact hfile

/-- What stands below the place of a node that is put into a directory stands in the node. -/
theorem at?_put_below {place more : Place} {entries : List (String × FileTree)}
    (h : t.at? place = some (.directory entries)) :
    (put node (place ++ [name]) t).at? (place ++ [name] ++ more) = node.at? more := by
  rw [at?_append, at?_put_self h, Option.bind_some]

end Put

theorem grows_makeDirectory {cwd : Place} {p : Path} (h : t.makeDirectory cwd p = .ok t') :
    Grows (fun _ => True) t t' where
  toPersists := persists_makeDirectory h
  fresh {other content} _ hat := by
    obtain ⟨place, name, entries, hentries, -, rfl⟩ := makeDirectory_eq_ok h
    by_cases hbelow : place ++ [name] <+: other
    · -- A new directory holds no file.
      obtain ⟨more, rfl⟩ := hbelow
      rw [at?_put_below hentries] at hat
      cases more <;> simp [at?, child?] at hat
    · exact at?_of_put hentries hbelow hat

/-- Making directories adds no file. -/
theorem grows_createDirectories (t : FileTree) (cwd : Place) (p : Path) :
    Grows (fun _ => True) t (t.createDirectories cwd p).1 :=
  createChain_induction (r := Grows fun _ => True) (.refl _) .trans grows_makeDirectory _ t

/-- **A write adds no file** but the one at the destination of its path. -/
theorem grows_write {cwd : Place} {p : Path} {text : String} (h : t.write cwd p text = .ok t') :
    Grows (· ≠ destination cwd p) t t' where
  toPersists := persists_write h
  fresh {other content} hother hat := by
    obtain ⟨place, name, htarget, -, -, rfl⟩ := write_eq_ok h
    obtain ⟨entries, hentries⟩ := htarget.directory
    rw [htarget.destination_eq] at hother
    by_cases hbelow : place ++ [name] <+: other
    · obtain ⟨more, rfl⟩ := hbelow
      rw [at?_put_below hentries] at hat
      cases more with
      | nil => exact absurd (List.append_nil _) hother
      | cons x more => simp [at?, child?] at hat
    · exact at?_of_put hentries hbelow hat

/-! ## Ways -/

/-- Above what is there, there are directories. -/
theorem exists_directory_of_isSome {place more : Place} (hmore : more ≠ [])
    (h : (t.at? (place ++ more)).isSome = true) :
    ∃ entries, t.at? place = some (.directory entries) := by
  rw [at?_append] at h
  cases hat : t.at? place with
  | none => simp [hat] at h
  | some node =>
      cases node with
      | directory entries => exact ⟨entries, rfl⟩
      | file content =>
          obtain ⟨x, more, rfl⟩ := List.exists_cons_of_ne_nil hmore
          simp [hat, at?, child?] at h

/-- Without steps up one stays below the place where one starts. -/
theorem prefix_foldl_enter {pieces : List String} (h : ".." ∉ pieces) (place : Place) :
    place <+: pieces.foldl enter place := by
  induction pieces generalizing place with
  | nil => exact List.prefix_rfl
  | cons piece rest ih =>
      rw [List.mem_cons, not_or] at h
      have hstep : place <+: enter place piece := by
        rw [enter]
        split
        · exact List.prefix_rfl
        · rw [if_neg fun hup => h.1 hup.symm]
          exact List.prefix_append _ _
      exact hstep.trans (ih h.2 _)

/-- **A way without steps up to a file** can be gone in every tree that has something in the place
of the file. -/
theorem walk_of_walk {place next : Place} {pieces : List String} {content : String}
    (hwalk : t'.walk place pieces = .ok next) (hup : ".." ∉ pieces)
    (hfile : t'.at? next = some (.file content)) (hat : (t.at? next).isSome = true) :
    t.walk place pieces = .ok next := by
  induction pieces generalizing place with
  | nil => exact hwalk
  | cons piece rest ih =>
      have hnext := foldl_enter_of_walk hwalk
      rw [walk] at hwalk ⊢
      obtain ⟨middle, hstep, hrest⟩ := bind_eq_ok hwalk
      obtain ⟨⟨entries, hentries⟩, hto, rfl⟩ := step_eq_ok_iff.mp hstep
      obtain ⟨more, hmore⟩ := prefix_foldl_enter hup place
      rw [← hnext] at hmore
      rw [List.mem_cons, not_or] at hup
      have hlonger : more ≠ [] := by
        rintro rfl
        rw [List.append_nil] at hmore
        rw [hmore, hfile] at hentries
        cases hentries
      have hstep' : t.step place piece = .ok (enter place piece) := by
        refine step_eq_ok_iff.mpr ⟨?_, fun hidle hproper => ⟨(hto hidle hproper).1, ?_⟩, rfl⟩
        · exact exists_directory_of_isSome hlonger (by rw [hmore]; exact hat)
        · -- The entry stands on the way to the file.
          have hentered : enter place piece = place ++ [piece] := by
            rw [enter, if_neg (by simp [hidle]), if_neg hproper]
          obtain ⟨behind, hbehind⟩ := prefix_foldl_enter hup.2 (enter place piece)
          rw [← foldl_enter_of_walk hrest, hentered] at hbehind
          rw [← hbehind] at hat
          cases behind with
          | nil => rwa [List.append_nil] at hat
          | cons x others =>
              obtain ⟨entries', hentries'⟩ :=
                exists_directory_of_isSome (List.cons_ne_nil x others) hat
              rw [hentries']
              rfl
      rw [hstep']
      exact ih hrest hup.2

/-- A path leads to a file if that can be read. -/
theorem isFile_eq_true_iff {cwd : Place} {p : Path} :
    t.isFile cwd p = true ↔ ∃ content, t.read cwd p = .ok content := by
  rw [isFile, isFileAt, read, contentAt]
  cases t.locate cwd p with
  | error e => simp [bind, Except.bind]
  | ok place =>
      simp only [bind, Except.bind, nodeAt?_ok]
      rcases t.at? place with - | ⟨content | entries⟩ <;> simp

/-- The last step along a path never leads to a file if it names no entry. -/
theorem isFile_of_getLast? {cwd : Place} {p : Path} {piece : String}
    (hlast : p.segments.getLast? = some piece) (hpiece : Path.isIdle piece = true ∨ piece = "..") :
    t.isFile cwd p = false := by
  rw [← Bool.not_eq_true, isFile_eq_true_iff]
  rintro ⟨content, hread⟩
  obtain ⟨hfile, hlocate⟩ := read_eq_ok_iff.mp hread
  obtain ⟨front, hfront⟩ := List.getLast?_eq_some_iff.mp hlast
  rw [locate] at hlocate
  obtain ⟨found, hpieces, hwalk⟩ := bind_eq_ok hlocate
  rw [pieces_eq_ok hpieces, hfront, walk_append] at hwalk
  obtain ⟨middle, -, hstep⟩ := bind_eq_ok hwalk
  rw [walk] at hstep
  obtain ⟨next, hstep, hend⟩ := bind_eq_ok hstep
  cases hend
  obtain ⟨⟨entries, hentries⟩, -, hnext⟩ := step_eq_ok_iff.mp hstep
  rw [hnext, enter] at hfile
  split at hfile
  · rw [hentries] at hfile
    cases hfile
  · rename_i hidle
    rw [if_pos (hpiece.resolve_left hidle)] at hfile
    rcases List.eq_nil_or_concat middle with rfl | ⟨above, x, rfl⟩
    · rw [List.dropLast_nil, hentries] at hfile
      cases hfile
    · rw [List.concat_eq_append] at hfile hentries
      rw [List.dropLast_concat] at hfile
      obtain ⟨entries', hentries'⟩ := exists_directory_of_isSome (t := t)
        (List.cons_ne_nil x []) (by rw [hentries]; rfl)
      rw [hentries'] at hfile
      cases hfile

namespace Grows

variable {cwd : Place} {p : Path}

/-- **Along a path without steps up to a kept place** the same is read as before. -/
theorem read_iff (h : Grows kept t t') (hkept : kept (destination cwd p)) (hup : ".." ∉ p.segments)
    {content : String} : t'.read cwd p = .ok content ↔ t.read cwd p = .ok content := by
  refine ⟨fun hread => ?_, h.toPersists.read hkept⟩
  obtain ⟨hfile, hlocate⟩ := read_eq_ok_iff.mp hread
  have hbefore := h.fresh hkept hfile
  refine read_eq_ok_iff.mpr ⟨hbefore, ?_⟩
  rw [locate] at hlocate ⊢
  obtain ⟨found, hpieces, hwalk⟩ := bind_eq_ok hlocate
  rw [hpieces]
  rw [pieces_eq_ok hpieces] at hwalk ⊢
  exact walk_of_walk hwalk hup hfile (by rw [hbefore]; rfl)

theorem isFile_eq (h : Grows kept t t') (hkept : kept (destination cwd p))
    (hup : ".." ∉ p.segments) : t'.isFile cwd p = t.isFile cwd p := by
  rw [Bool.eq_iff_iff, isFile_eq_true_iff, isFile_eq_true_iff]
  exact exists_congr fun content => h.read_iff hkept hup

end Grows

end Typings.FileTree
