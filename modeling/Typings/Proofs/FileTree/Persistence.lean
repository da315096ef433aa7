import Typings.FileTree.Update

/-!
# What a changed tree keeps

Making directories and writing files never removes anything: a directory stays a directory with
at least its entries, and a file stays a file. Only the content of the one file that is written
may change. A tree *persists* in a later one, apart from some places, if this holds; what a
path leads to in the earlier tree it then leads to in the later one.

## Main definitions

* `Persists` — a tree and a later one.

## Main results

* `at?_put_self`, `persists_put` — a node at a place.
* `Persists.walk`, `Persists.read` — paths in a later tree.
-/

namespace Typings.FileTree

/-- A tree persists in a later one: what is there stays, and the contents of the files at the
kept places are the same. -/
structure Persists (kept : Place → Prop) (t t' : FileTree) : Prop where
  directory : ∀ {place entries}, t.at? place = some (.directory entries) →
    ∃ entries', t'.at? place = some (.directory entries')
  file : ∀ {place content}, t.at? place = some (.file content) →
    ∃ content', t'.at? place = some (.file content')
  content : ∀ {place content}, kept place → t.at? place = some (.file content) →
    t'.at? place = some (.file content)

namespace Persists

variable {kept kept' : Place → Prop} {t t' t'' : FileTree}

theorem refl (kept : Place → Prop) (t : FileTree) : Persists kept t t where
  directory h := ⟨_, h⟩
  file h := ⟨_, h⟩
  content _ h := h

theorem trans (h : Persists kept t t') (h' : Persists kept t' t'') : Persists kept t t'' where
  directory hat := by
    obtain ⟨entries, hentries⟩ := h.directory hat
    exact h'.directory hentries
  file hat := by
    obtain ⟨content, hcontent⟩ := h.file hat
    exact h'.file hcontent
  content hkept hat := h'.content hkept (h.content hkept hat)

theorem mono (h : Persists kept t t') (hsub : ∀ place, kept' place → kept place) :
    Persists kept' t t' where
  directory := h.directory
  file := h.file
  content hkept hat := h.content (hsub _ hkept) hat

/-- Whatever is there stays. -/
theorem isSome (h : Persists kept t t') {place : Place} (hat : (t.at? place).isSome = true) :
    (t'.at? place).isSome = true := by
  obtain ⟨node, hnode⟩ := Option.isSome_iff_exists.mp hat
  cases node with
  | file content =>
      obtain ⟨content', hcontent⟩ := h.file hnode
      rw [hcontent]
      rfl
  | directory entries =>
      obtain ⟨entries', hentries⟩ := h.directory hnode
      rw [hentries]
      rfl

end Persists

/-! ## Nodes at places -/

theorem at?_append (t : FileTree) (a b : Place) : t.at? (a ++ b) = (t.at? a).bind (·.at? b) := by
  induction a generalizing t with
  | nil => rfl
  | cons name rest ih =>
      rw [List.cons_append, at?, at?]
      cases t.child? name with
      | none => rfl
      | some child => exact ih child

/-- The entry of a directory at a place is what stands one name further. -/
theorem at?_concat {t : FileTree} {place : Place} {entries : List (String × FileTree)}
    (h : t.at? place = some (.directory entries)) (name : String) :
    t.at? (place ++ [name]) = entries.lookup name := by
  rw [at?_append, h, Option.bind_some, at?, child?]
  cases entries.lookup name <;> rfl

section Put

variable {node : FileTree} {name : String}

/-- A node that is put into a directory is there. -/
theorem at?_put_self {t : FileTree} {place : Place} {entries : List (String × FileTree)}
    (h : t.at? place = some (.directory entries)) :
    (put node (place ++ [name]) t).at? (place ++ [name]) = some node := by
  induction place generalizing t with
  | nil =>
      have ht : t = .directory entries := by simpa [at?] using h
      rw [ht, List.nil_append, put, at?, child?, lookup_putEntry, if_pos rfl]
      rfl
  | cons first rest ih =>
      cases t with
      | file content => simp [at?, child?] at h
      | directory entries' =>
          rw [at?, child?] at h
          cases hchild : entries'.lookup first with
          | none => simp [hchild] at h
          | some child =>
              rw [hchild] at h
              rw [List.cons_append, put, hchild]
              · simp only [at?, child?, lookup_putEntry, if_pos]
                exact ih h
              · simp

/-- What is neither in the place of the node nor below it stays, except that the directories
above have one more entry. -/
theorem at?_put_other {t : FileTree} {place other : Place} {entries : List (String × FileTree)}
    (h : t.at? place = some (.directory entries)) (hother : ¬ place ++ [name] <+: other)
    {old : FileTree} (hold : t.at? other = some old) :
    (put node (place ++ [name]) t).at? other = some old ∨
      ∃ before after, old = .directory before ∧
        (put node (place ++ [name]) t).at? other = some (.directory after) := by
  induction place generalizing t other with
  | nil =>
      have ht : t = .directory entries := by simpa [at?] using h
      subst ht
      rw [List.nil_append] at hother ⊢
      cases other with
      | nil => exact Or.inr ⟨entries, _, by simpa [at?] using hold.symm, rfl⟩
      | cons x more =>
          have hx : x ≠ name := by
            rintro rfl
            exact hother (List.cons_prefix_cons.mpr ⟨rfl, List.nil_prefix⟩)
          left
          rw [at?, child?] at hold
          rw [put, at?, child?, lookup_putEntry, if_neg hx]
          exact hold
  | cons first rest ih =>
      cases t with
      | file content => simp [at?, child?] at h
      | directory entries' =>
          rw [at?, child?] at h
          cases hchild : entries'.lookup first with
          | none => simp [hchild] at h
          | some child =>
              rw [hchild] at h
              have hput : put node (first :: rest ++ [name]) (.directory entries')
                  = .directory (putEntry first (put node (rest ++ [name]) child) entries') := by
                rw [List.cons_append, put, hchild]
                simp
              rw [hput]
              cases other with
              | nil => exact Or.inr ⟨entries', _, by simpa [at?] using hold.symm, rfl⟩
              | cons x more =>
                  rw [at?, child?] at hold
                  simp only [at?, child?, lookup_putEntry]
                  by_cases hx : x = first
                  · subst hx
                    rw [hchild] at hold
                    simp only [if_pos]
                    refine ih h (fun hbelow => hother ?_) hold
                    exact List.cons_prefix_cons.mpr ⟨rfl, hbelow⟩
                  · simp only [if_neg hx]
                    exact Or.inl hold

/-- A tree persists when a node is put into a directory where nothing is, or a file in place of
a file. -/
theorem persists_put {t : FileTree} {place : Place} {entries : List (String × FileTree)}
    (h : t.at? place = some (.directory entries))
    (hkind : ∀ old, t.at? (place ++ [name]) = some old →
      (∃ content, old = .file content) ∧ ∃ content, node = .file content) :
    Persists (· ≠ place ++ [name]) t (put node (place ++ [name]) t) := by
  have hbelow : ∀ more old, more ≠ [] → t.at? (place ++ [name] ++ more) ≠ some old := by
    intro more old hmore hold
    rw [at?_append] at hold
    cases hat : t.at? (place ++ [name]) with
    | none => simp [hat] at hold
    | some node =>
        obtain ⟨⟨content, rfl⟩, -⟩ := hkind node hat
        obtain ⟨x, more, rfl⟩ := List.exists_cons_of_ne_nil hmore
        simp [hat, at?, child?] at hold
  -- A place below the node is the place of the node itself.
  have hself : ∀ other old, place ++ [name] <+: other → t.at? other = some old →
      other = place ++ [name] := by
    rintro other old ⟨more, rfl⟩ hold
    have hmore : more = [] := Decidable.byContradiction fun hne => hbelow more old hne hold
    rw [hmore, List.append_nil]
  constructor
  · intro other before hbefore
    by_cases hinside : place ++ [name] <+: other
    · have hplace := hself other _ hinside hbefore
      rw [hplace] at hbefore
      obtain ⟨⟨content, hcontent⟩, -⟩ := hkind _ hbefore
      cases hcontent
    · rcases at?_put_other h hinside hbefore with hsame | ⟨-, after, -, hafter⟩
      · exact ⟨before, hsame⟩
      · exact ⟨after, hafter⟩
  · intro other content hcontent
    by_cases hinside : place ++ [name] <+: other
    · have hplace := hself other _ hinside hcontent
      rw [hplace] at hcontent ⊢
      obtain ⟨-, content', rfl⟩ := hkind _ hcontent
      exact ⟨content', at?_put_self h⟩
    · rcases at?_put_other h hinside hcontent with hsame | ⟨before, -, hbefore, -⟩
      · exact ⟨content, hsame⟩
      · cases hbefore
  · intro other content hne hcontent
    by_cases hinside : place ++ [name] <+: other
    · exact absurd (hself other _ hinside hcontent) hne
    · rcases at?_put_other h hinside hcontent with hsame | ⟨before, -, hbefore, -⟩
      · exact hsame
      · cases hbefore

/-- Where nothing is, a node changes the content of no file. -/
theorem persists_put_of_free {t : FileTree} {place : Place} {entries : List (String × FileTree)}
    (h : t.at? place = some (.directory entries)) (hfree : t.at? (place ++ [name]) = none) :
    Persists (fun _ => True) t (put node (place ++ [name]) t) := by
  have hput : Persists (· ≠ place ++ [name]) t (put node (place ++ [name]) t) :=
    persists_put h fun old hold => absurd hold (by simp [hfree])
  refine ⟨hput.directory, hput.file, fun {other content} _ hcontent => ?_⟩
  refine hput.content ?_ hcontent
  rintro rfl
  rw [hfree] at hcontent
  cases hcontent

end Put

end Typings.FileTree
