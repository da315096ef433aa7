import Typings.Proofs.FileTree.Destination

/-!
# Making directories and writing files

Each operation on a tree either fails and leaves the tree as it was, or puts one node into a
directory. So the tree persists, and behind a write that succeeds the file holds what was
written. Making a whole chain of directories is a run of such operations.

## Main results

* `persists_makeDirectory`, `persists_createDirectories` — directories.
* `persists_write`, `persists_write_of_free`, `read_write` — files.
-/

namespace Typings.FileTree

variable {t t' : FileTree} {cwd : Place} {p : Path}

/-- Where a new entry would stand: behind the pieces in front of its name there is a
directory. -/
structure Target (t : FileTree) (cwd : Place) (p : Path) (pieces : List String) (place : Place)
    (name : String) : Prop where
  pieces_eq : ∃ front, pieces = front ++ [name] ∧ t.walk (start cwd p) front = .ok place
  directory : ∃ entries, t.at? place = some (.directory entries)
  isName : Path.isIdle name = false ∧ name ≠ ".."
  fits : entryName name = .ok name

theorem target_eq_ok {pieces : List String} {refusal : FileError} {place : Place} {name : String}
    (h : t.target (start cwd p) pieces refusal = .ok (place, name)) : Target t cwd p pieces place name := by
  rw [target] at h
  split at h
  · cases h
  · rename_i piece hlast
    obtain ⟨front, hfront⟩ := List.getLast?_eq_some_iff.mp hlast
    rw [hfront, List.dropLast_concat, walk_append] at h
    obtain ⟨found, hwalk, h⟩ := bind_eq_ok h
    obtain ⟨before, hbefore, hdot⟩ := bind_eq_ok hwalk
    -- The last step stays where it is, and it asks for a directory.
    have hstep : t.step before "." = .ok found := by
      rw [walk] at hdot
      obtain ⟨next, hnext, hend⟩ := bind_eq_ok hdot
      rw [hnext, ← Except.ok.inj hend]
    obtain ⟨hdirectory, -, hfound⟩ := step_eq_ok_iff.mp hstep
    have hsame : found = before := by
      rw [hfound, enter]
      exact if_pos (by decide)
    subst hsame
    split at h
    · cases h
    · rename_i hname
      rw [Bool.or_eq_true, decide_eq_true_eq, not_or] at hname
      obtain ⟨entry, hentry, h⟩ := bind_eq_ok h
      cases entryName_eq_ok hentry
      cases h
      exact ⟨⟨front, hfront, hbefore⟩, hdirectory, ⟨by simpa using hname.1, hname.2⟩, hentry⟩

/-! ## Directories -/

/-- A new directory stands where nothing was. -/
theorem makeDirectory_eq_ok (h : t.makeDirectory cwd p = .ok t') :
    ∃ place name entries, t.at? place = some (.directory entries) ∧
      t.at? (place ++ [name]) = none ∧ t' = put (.directory []) (place ++ [name]) t := by
  rw [makeDirectory] at h
  obtain ⟨found, -, h⟩ := bind_eq_ok h
  rw [makeDirectoryFrom] at h
  obtain ⟨⟨place, name⟩, htarget, h⟩ := bind_eq_ok h
  obtain ⟨entries, hentries⟩ := (target_eq_ok htarget).directory
  dsimp only at h
  split at h
  · cases h
  · rename_i hfree
    cases h
    exact ⟨place, name, entries, hentries, hfree, rfl⟩

theorem persists_makeDirectory (h : t.makeDirectory cwd p = .ok t') :
    Persists (fun _ => True) t t' := by
  obtain ⟨place, name, entries, hentries, hfree, rfl⟩ := makeDirectory_eq_ok h
  exact persists_put_of_free hentries hfree

/-- **A relation that holds across each new directory holds across a chain of them.** -/
theorem createChain_induction {σ : Type} {make : Path → σ → Except FileError σ}
    {isDirectory : Path → σ → Bool} {r : σ → σ → Prop} (hrefl : ∀ s, r s s)
    (htrans : ∀ {s s' s''}, r s s' → r s' s'' → r s s'')
    (hmade : ∀ {p s s'}, make p s = .ok s' → r s s') (ps : List Path) (s : σ) :
    r s (createChain make isDirectory ps s).1 := by
  induction ps generalizing s with
  | nil => exact hrefl s
  | cons p rest ih =>
      rw [createChain]
      split
      · exact hrefl s
      · cases hfirst : make p s with
        | ok made => exact hmade hfirst
        | error e =>
            cases e with
            | notFound =>
                have hrest := ih s
                simp only
                cases hlater : createChain make isDirectory rest s with
                | mk later result =>
                    rw [hlater] at hrest
                    cases result with
                    | error e => exact hrest
                    | ok done =>
                        simp only
                        cases hagain : make p later with
                        | ok made => exact htrans hrest (hmade hagain)
                        | error e => exact hrest
            | _ => exact hrefl s

/-- Making directories keeps all files. -/
theorem persists_createDirectories (t : FileTree) (cwd : Place) (p : Path) :
    Persists (fun _ => True) t (t.createDirectories cwd p).1 :=
  createChain_induction (r := Persists fun _ => True) (.refl _) .trans persists_makeDirectory _ t

/-! ## Files -/

/-- A write that succeeds puts a file where there was no directory. -/
theorem write_eq_ok {content : String} (h : t.write cwd p content = .ok t') :
    ∃ place name, Target t cwd p p.segments place name ∧ pieces p = .ok p.segments ∧
      (∀ entries, t.at? (place ++ [name]) ≠ some (.directory entries)) ∧
      t' = put (.file content) (place ++ [name]) t := by
  rw [write] at h
  obtain ⟨found, hpieces, hwrite⟩ := bind_eq_ok h
  have hfound := pieces_eq_ok hpieces
  rw [hfound] at hpieces hwrite
  rw [writeFrom] at hwrite
  obtain ⟨⟨place, name⟩, htarget, hput⟩ := bind_eq_ok hwrite
  refine ⟨place, name, target_eq_ok htarget, hpieces, ?_⟩
  dsimp only at hput
  split at hput
  · cases hput
  · rename_i hfree
    cases hput
    exact ⟨hfree, rfl⟩

/-- A new entry stands at the destination of its path. -/
theorem Target.destination_eq {place : Place} {name : String}
    (h : Target t cwd p p.segments place name) : destination cwd p = place ++ [name] := by
  obtain ⟨front, hfront, hwalk⟩ := h.pieces_eq
  rw [destination, hfront, List.foldl_append, ← foldl_enter_of_walk hwalk, List.foldl_cons,
    List.foldl_nil, enter, if_neg (by simp [h.isName.1]), if_neg h.isName.2]

/-- **A write changes nothing but the file at the destination of its path.** -/
theorem persists_write {content : String} (h : t.write cwd p content = .ok t') :
    Persists (· ≠ destination cwd p) t t' := by
  obtain ⟨place, name, htarget, -, hfree, rfl⟩ := write_eq_ok h
  obtain ⟨entries, hentries⟩ := htarget.directory
  rw [htarget.destination_eq]
  refine persists_put hentries fun old hold => ⟨?_, content, rfl⟩
  cases old with
  | file before => exact ⟨before, rfl⟩
  | directory entries' => exact absurd hold (hfree entries')

/-- A path to a new entry leads there once there is one. -/
theorem Target.locate {place : Place} {name : String} (h : Target t cwd p p.segments place name)
    (hpieces : pieces p = .ok p.segments) (hsome : (t.at? (place ++ [name])).isSome = true) :
    t.locate cwd p = .ok (place ++ [name]) := by
  obtain ⟨front, hfront, hwalk⟩ := h.pieces_eq
  have hlast : t.step place name = .ok (place ++ [name]) := by
    refine step_eq_ok_iff.mpr ⟨h.directory, fun _ _ => ⟨h.fits, hsome⟩, ?_⟩
    rw [enter, if_neg (by simp [h.isName.1]), if_neg h.isName.2]
  rw [FileTree.locate, hpieces]
  show walk _ (start cwd p) p.segments = _
  rw [hfront, walk_append, hwalk]
  show walk _ place [name] = _
  rw [walk, hlast]
  rfl

/-- A place for a new entry is one in every later tree. -/
theorem Target.persists {kept : Place → Prop} {pieces : List String} {place : Place} {name : String}
    (h : Target t cwd p pieces place name) (hpersists : Persists kept t t') :
    Target t' cwd p pieces place name := by
  obtain ⟨front, hfront, hwalk⟩ := h.pieces_eq
  obtain ⟨entries, hentries⟩ := h.directory
  exact ⟨⟨front, hfront, hpersists.walk hwalk⟩, hpersists.directory hentries, h.isName, h.fits⟩

/-- **What is written can be read.** -/
theorem read_write {content : String} (h : t.write cwd p content = .ok t') :
    t'.read cwd p = .ok content := by
  have hpersists := persists_write h
  obtain ⟨place, name, htarget, hpieces, -, rfl⟩ := write_eq_ok h
  obtain ⟨entries, hentries⟩ := htarget.directory
  have hself : (put (.file content) (place ++ [name]) t).at? (place ++ [name])
      = some (.file content) := at?_put_self hentries
  refine read_eq_ok_iff.mpr ?_
  rw [htarget.destination_eq]
  refine ⟨hself, (htarget.persists hpersists).locate hpieces ?_⟩
  rw [hself]
  rfl

/-- **A write to where nothing is** changes the content of no file. -/
theorem persists_write_of_free {content : String} (h : t.write cwd p content = .ok t')
    (hfree : t.exists? cwd p = false) : Persists (fun _ => True) t t' := by
  obtain ⟨place, name, htarget, hpieces, -, rfl⟩ := write_eq_ok h
  obtain ⟨entries, hentries⟩ := htarget.directory
  refine persists_put_of_free hentries ?_
  cases hat : t.at? (place ++ [name]) with
  | none => rfl
  | some node =>
      have hlocate := htarget.locate hpieces (by rw [hat]; rfl)
      rw [exists?, find?, hlocate, nodeAt?_ok] at hfree
      simp [hat] at hfree

end Typings.FileTree
