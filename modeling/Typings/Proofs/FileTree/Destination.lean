import Typings.Proofs.FileTree.Persistence

/-!
# Where paths lead in changing trees

Resolving a path asks at each step whether there is a directory with an entry. Once it has
succeeded it succeeds in every later tree, and with the same place. For the place does not
depend on the tree at all: it is the *destination* of the path, found by its pieces alone. So two
files are the same if and only if the paths to them have the same destination.

## Main definitions

* `destination` — the place that a path leads to, if it leads anywhere.

## Main results

* `destination_of_locate` — resolving a path finds its destination.
* `Persists.locate`, `Persists.read` — paths in a later tree.
-/

namespace Typings.FileTree

/-- The place behind a piece of a path. -/
def enter (place : Place) (piece : String) : Place :=
  if Path.isIdle piece then place
  else if piece = ".." then place.dropLast
  else place ++ [piece]

/-- The place that a path leads to, if it leads anywhere. -/
def destination (cwd : Place) (p : Path) : Place := p.segments.foldl enter (start cwd p)

variable {t t' : FileTree}

/-- A chain of two operations that succeeds. -/
theorem bind_eq_ok {α β : Type} {x : Except FileError α} {f : α → Except FileError β} {b : β}
    (h : (x >>= f) = .ok b) : ∃ a, x = .ok a ∧ f a = .ok b := by
  cases x with
  | error e => cases h
  | ok a => exact ⟨a, rfl, h⟩

/-! ## Steps -/

theorem entryName_eq_ok {name found : String} (h : entryName name = .ok found) : found = name := by
  rw [entryName] at h
  split at h
  · cases h
  · exact (Except.ok.inj h).symm

/-- What a step to a named entry finds. -/
def StepsTo (t : FileTree) (place : Place) (piece : String) : Prop :=
  Path.isIdle piece = false → piece ≠ ".." →
    entryName piece = .ok piece ∧ (t.at? (place ++ [piece])).isSome = true

/-- A step succeeds if it starts in a directory, which has an entry if the piece is a name, and
then it goes to the place behind the piece. -/
theorem step_eq_ok_iff {place next : Place} {piece : String} :
    t.step place piece = .ok next ↔
      (∃ entries, t.at? place = some (.directory entries)) ∧ t.StepsTo place piece ∧
        next = enter place piece := by
  rw [step]
  cases hat : t.at? place with
  | none => simp
  | some node =>
      cases node with
      | file content => simp
      | directory entries =>
          have hlookup : t.at? (place ++ [piece]) = entries.lookup piece := at?_concat hat piece
          simp only [enter, StepsTo, hlookup]
          by_cases hidle : Path.isIdle piece = true
          · rw [if_pos hidle, if_pos hidle]
            constructor
            · intro h
              exact ⟨⟨_, rfl⟩, fun hfalse => by simp [hidle] at hfalse, (Except.ok.inj h).symm⟩
            · rintro ⟨-, -, rfl⟩
              rfl
          · by_cases hup : piece = ".."
            · rw [if_neg hidle, if_neg hidle, if_pos hup, if_pos hup]
              constructor
              · intro h
                exact ⟨⟨_, rfl⟩, fun _ hne => absurd hup hne, (Except.ok.inj h).symm⟩
              · rintro ⟨-, -, rfl⟩
                rfl
            · rw [if_neg hidle, if_neg hidle, if_neg hup, if_neg hup]
              constructor
              · intro h
                obtain ⟨name, hname, hnext⟩ := bind_eq_ok h
                have hsame := entryName_eq_ok hname
                subst hsame
                split at hnext
                · rename_i hsome
                  exact ⟨⟨_, rfl⟩, fun _ _ => ⟨hname, hsome⟩, (Except.ok.inj hnext).symm⟩
                · cases hnext
              · rintro ⟨-, hto, rfl⟩
                obtain ⟨hname, hsome⟩ := hto (by simpa using hidle) hup
                rw [hname]
                exact if_pos hsome

/-! ## Walks -/

theorem walk_append (t : FileTree) (place : Place) (a b : List String) :
    t.walk place (a ++ b) = t.walk place a >>= fun next => t.walk next b := by
  induction a generalizing place with
  | nil => rfl
  | cons piece rest ih =>
      rw [List.cons_append, walk, walk]
      cases t.step place piece with
      | error e => rfl
      | ok next => exact ih next

/-- A walk goes to the place behind its pieces. -/
theorem foldl_enter_of_walk {place next : Place} {pieces : List String}
    (h : t.walk place pieces = .ok next) : next = pieces.foldl enter place := by
  induction pieces generalizing place with
  | nil => exact (Except.ok.inj h).symm
  | cons piece rest ih =>
      rw [walk] at h
      obtain ⟨middle, hstep, hrest⟩ := bind_eq_ok h
      obtain ⟨-, -, rfl⟩ := step_eq_ok_iff.mp hstep
      exact ih hrest

theorem pieces_eq_ok {p : Path} {found : List String} (h : pieces p = .ok found) :
    found = p.segments := by
  rw [pieces] at h
  split at h
  · cases h
  · split at h
    · cases h
    · split at h
      · cases h
      · exact (Except.ok.inj h).symm

/-- **Resolving a path finds its destination.** -/
theorem destination_of_locate {cwd place : Place} {p : Path} (h : t.locate cwd p = .ok place) :
    place = destination cwd p := by
  rw [locate] at h
  obtain ⟨found, hpieces, hwalk⟩ := bind_eq_ok h
  rw [foldl_enter_of_walk hwalk, pieces_eq_ok hpieces]
  rfl

/-- What is read stands in a file at the end of the path. -/
theorem read_eq_ok_iff {cwd : Place} {p : Path} {content : String} :
    t.read cwd p = .ok content ↔
      t.at? (destination cwd p) = some (.file content) ∧
        t.locate cwd p = .ok (destination cwd p) := by
  constructor
  · intro h
    rw [read, contentAt] at h
    obtain ⟨place, hlocate, hat⟩ := bind_eq_ok h
    have hplace := destination_of_locate hlocate
    subst hplace
    refine ⟨?_, hlocate⟩
    split at hat
    · rename_i found hfound
      rw [hfound, Except.ok.inj hat]
    · cases hat
    · cases hat
  · rintro ⟨hat, hlocate⟩
    simp only [read, contentAt, hlocate, bind, Except.bind, hat]

/-- What can be read is there. -/
theorem exists?_of_read {cwd : Place} {p : Path} {content : String}
    (h : t.read cwd p = .ok content) : t.exists? cwd p = true := by
  obtain ⟨hat, hlocate⟩ := read_eq_ok_iff.mp h
  rw [exists?, find?, hlocate]
  simp [hat]

/-! ## Later trees -/

namespace Persists

variable {kept : Place → Prop} (h : Persists kept t t')

include h

theorem step {place next : Place} {piece : String} (hstep : t.step place piece = .ok next) :
    t'.step place piece = .ok next := by
  obtain ⟨⟨entries, hentries⟩, hto, hnext⟩ := step_eq_ok_iff.mp hstep
  refine step_eq_ok_iff.mpr ⟨h.directory hentries, fun hidle hup => ?_, hnext⟩
  obtain ⟨hname, hsome⟩ := hto hidle hup
  exact ⟨hname, h.isSome hsome⟩

theorem walk {place next : Place} {pieces : List String} (hwalk : t.walk place pieces = .ok next) :
    t'.walk place pieces = .ok next := by
  induction pieces generalizing place with
  | nil => exact hwalk
  | cons piece rest ih =>
      rw [FileTree.walk] at hwalk ⊢
      obtain ⟨middle, hstep, hrest⟩ := bind_eq_ok hwalk
      rw [h.step hstep]
      exact ih hrest

theorem locate {cwd place : Place} {p : Path} (hlocate : t.locate cwd p = .ok place) :
    t'.locate cwd p = .ok place := by
  rw [FileTree.locate] at hlocate ⊢
  obtain ⟨found, hpieces, hwalk⟩ := bind_eq_ok hlocate
  rw [hpieces]
  exact h.walk hwalk

/-- A file at a kept place still holds what it held. -/
theorem read {cwd : Place} {p : Path} {content : String} (hkept : kept (destination cwd p))
    (hread : t.read cwd p = .ok content) : t'.read cwd p = .ok content := by
  obtain ⟨hat, hlocate⟩ := read_eq_ok_iff.mp hread
  exact read_eq_ok_iff.mpr ⟨h.content hkept hat, h.locate hlocate⟩

end Persists

end Typings.FileTree
