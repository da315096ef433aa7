import Typings.FileTree.Links

/-!
# Ways without links

A way on which each link is replaced by what it stands for leads through no link any more. In a
tree without links there is nothing to replace, and so each operation on a tree with links is the
one on file trees there.

## Main results

* `firstLink?_of_straighten` — no link is left on a way.
* `mem_linksIn_iff`, `nodup_linksIn` — the links of a directory.
* `isFile_ofTree`, `read_ofTree`, `placesBelow_ofTree` — looking at a tree without links.
* `createDirectories_ofTree`, `write_ofTree` — changing a tree without links.
-/

namespace Typings.LinkedTree

open FileTree

/-- **No link is left on a way** when each link is replaced by what it stands for. -/
theorem firstLink?_of_straighten {s : LinkedTree} {limit : Nat} {place place' : Place}
    {pieces pieces' : List String}
    (h : s.straighten limit place pieces = .ok (place', pieces')) :
    s.firstLink? place' pieces' = none := by
  induction limit generalizing place pieces with
  | zero =>
      rw [straighten] at h
      split at h
      · cases h
        assumption
      · cases h
  | succ limit ih =>
      rw [straighten] at h
      split at h
      · cases h
        assumption
      · exact ih h

/-! ## The links of a directory -/

/-- The links of a directory are those that are followed there. -/
theorem mem_linksIn_iff {s : LinkedTree} {place : Place} {name : String} :
    name ∈ s.linksIn place ↔ (s.link? place name).isSome = true := by
  rw [linksIn, List.mem_filterMap]
  constructor
  · rintro ⟨link, -, hname⟩
    obtain ⟨-, hown⟩ := Option.filter_eq_some_iff.mp hname
    rw [Bool.and_eq_true] at hown
    exact hown.2
  · intro hsome
    obtain ⟨target, htarget⟩ := Option.isSome_iff_exists.mp hsome
    have hlookup : s.links.lookup (place ++ [name]) = some target := by
      rw [link?] at htarget
      split at htarget
      · split at htarget
        · cases htarget
        · exact htarget
      · cases htarget
    obtain ⟨before, behind, hlinks, -⟩ := List.lookup_eq_some_iff.mp hlookup
    refine ⟨(place ++ [name], target), by simp [hlinks], ?_⟩
    simp [hsome]

/-- No link of a directory is listed twice. -/
theorem nodup_linksIn (s : LinkedTree) (place : Place) : (s.linksIn place).Nodup := by
  refine (List.pairwise_map.mp s.nodup).filterMap _ fun a b hne name hname other hother hsame => ?_
  obtain ⟨-, hown⟩ := Option.filter_eq_some_iff.mp hname
  obtain ⟨-, hown'⟩ := Option.filter_eq_some_iff.mp hother
  simp only [Bool.and_eq_true, decide_eq_true_eq] at hown hown'
  exact hne (hown.1.trans (hsame ▸ hown'.1.symm))

/-! ## Looking at a tree without links -/

variable (t : FileTree) (cwd : Place) (p : Path)

theorem link?_ofTree (place : Place) (name : String) : (ofTree t).link? place name = none := by
  rw [link?]
  split
  · split <;> rfl
  · rfl

theorem firstLink?_ofTree (place : Place) (pieces : List String) :
    (ofTree t).firstLink? place pieces = none := by
  induction pieces generalizing place with
  | nil => rfl
  | cons piece rest ih =>
      rw [firstLink?, link?_ofTree]
      cases hstep : (ofTree t).tree.step place piece with
      | ok next => exact ih next
      | error e => rfl

theorem straighten_ofTree (limit : Nat) (place : Place) (pieces : List String) :
    (ofTree t).straighten limit place pieces = .ok (place, pieces) := by
  rw [straighten.eq_def, firstLink?_ofTree]

theorem locate_ofTree : (ofTree t).locate cwd p = t.locate cwd p := by
  rw [locate, FileTree.locate]
  cases pieces p with
  | error e => rfl
  | ok found =>
      show ((ofTree t).straighten maxLinks (start cwd p) found >>= _) = _
      rw [straighten_ofTree]
      rfl

theorem isFile_ofTree : (ofTree t).isFile cwd p = t.isFile cwd p := by
  rw [isFile, locate_ofTree]
  rfl

theorem isDirectory_ofTree : (ofTree t).isDirectory cwd p = t.isDirectory cwd p := by
  rw [isDirectory, locate_ofTree]
  rfl

theorem exists?_ofTree : (ofTree t).exists? cwd p = t.exists? cwd p := by
  rw [exists?, locate_ofTree]
  rfl

theorem read_ofTree : (ofTree t).read cwd p = t.read cwd p := by
  rw [read, locate_ofTree]
  rfl

/-! ## Everything below -/

mutual

/-- Where no link leads anywhere, only the entries of directories are found. -/
theorem waysBelow_of_nothing {follow : Place → Place → List Place → List Place}
    (hnothing : ∀ names place within, follow names place within = []) (names place : Place)
    (within : List Place) :
    (node : FileTree) → waysBelow follow names place within node = node.places.map (names ++ ·)
  | .file _ => rfl
  | .directory entries => by
      rw [waysBelow, hnothing, List.nil_append, places]
      exact waysThrough_of_nothing hnothing names place (place :: within) entries

theorem waysThrough_of_nothing {follow : Place → Place → List Place → List Place}
    (hnothing : ∀ names place within, follow names place within = []) (names place : Place)
    (within : List Place) :
    (entries : List (String × FileTree)) →
      waysThrough follow names place within entries = (entryPlaces entries).map (names ++ ·)
  | [] => rfl
  | (name, node) :: rest => by
      rw [waysThrough, waysThrough_of_nothing hnothing names place within rest, entryPlaces,
        waysBelow_of_nothing hnothing (names ++ [name]) (place ++ [name]) within node]
      simp

end

theorem waysFollowed_ofTree (depth : Nat) (names place : Place) (within : List Place) :
    (ofTree t).waysFollowed cwd p depth names place within = [] := by
  cases depth <;> rfl

theorem placesBelow_ofTree : (ofTree t).placesBelow cwd p = t.placesBelow cwd p := by
  have hways (place : Place) (node : FileTree) :
      waysBelow ((ofTree t).waysFollowed cwd p (ofTree t).links.length) [] place [] node
        = node.places := by
    rw [waysBelow_of_nothing (waysFollowed_ofTree t cwd p _)]
    simp
  rw [placesBelow, FileTree.placesBelow, FileTree.find?, locate_ofTree]
  cases t.locate cwd p with
  | error e => rfl
  | ok place =>
      dsimp only [tree_ofTree, nodeAt?_ok]
      cases t.at? place with
      | none => rfl
      | some node => exact congrArg (List.filter _) (hways place node)

/-! ## Changing a tree without links -/

theorem makeDirectory_ofTree :
    (ofTree t).makeDirectory cwd p = (t.makeDirectory cwd p).map ofTree := by
  have hsplit (own : List String) : own.dropLast ++ own.getLast?.toList = own := by
    rcases List.eq_nil_or_concat own with rfl | ⟨front, last, rfl⟩ <;> simp
  rw [makeDirectory, FileTree.makeDirectory]
  cases pieces p with
  | error e => rfl
  | ok found =>
      simp only [bind, Except.bind, straighten_ofTree, firstLink?_ofTree, hsplit, tree_ofTree,
        Option.isSome_none, Bool.false_eq_true, if_false]
      cases t.makeDirectoryFrom (start cwd p) (Text.dropEndWhile (· = "") found) <;> rfl

/-- **Changing both states of a chain alike.** -/
theorem createChain_map {σ τ : Type} {e : σ → τ} {make : Path → σ → Except FileError σ}
    {make' : Path → τ → Except FileError τ} {isDirectory : Path → σ → Bool}
    {isDirectory' : Path → τ → Bool} (hmake : ∀ p s, make' p (e s) = (make p s).map e)
    (hdirectory : ∀ p s, isDirectory' p (e s) = isDirectory p s) (ps : List Path) (s : σ) :
    createChain make' isDirectory' ps (e s)
      = (e (createChain make isDirectory ps s).1, (createChain make isDirectory ps s).2) := by
  induction ps generalizing s with
  | nil => rfl
  | cons p rest ih =>
      rw [createChain, createChain, hmake, hdirectory]
      split
      · rfl
      · cases make p s with
        | ok made => rfl
        | error error =>
            cases error with
            | notFound =>
                simp only [Except.map, ih]
                obtain ⟨later, result⟩ := createChain make isDirectory rest s
                cases result with
                | error error => rfl
                | ok done =>
                    simp only [hmake, hdirectory]
                    cases make p later <;> rfl
            | _ => rfl

theorem createDirectories_ofTree :
    (ofTree t).createDirectories cwd p
      = (ofTree (t.createDirectories cwd p).1, (t.createDirectories cwd p).2) :=
  createChain_map (fun p t => makeDirectory_ofTree t cwd p)
    (fun p t => isDirectory_ofTree t cwd p) _ t

theorem write_ofTree (content : String) :
    (ofTree t).write cwd p content = (t.write cwd p content).map ofTree := by
  rw [write, FileTree.write]
  cases pieces p with
  | error e => rfl
  | ok found =>
      simp only [bind, Except.bind, straighten_ofTree, tree_ofTree]
      cases t.writeFrom (start cwd p) found content <;> rfl

end Typings.LinkedTree
