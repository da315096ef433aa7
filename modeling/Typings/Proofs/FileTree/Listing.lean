import Mathlib.Data.List.Nodup
import Typings.Proofs.FileTree.Destination
import Typings.Proofs.Path.Steps

/-!
# What a tree lists

The entries of a directory are listed in some order, and so is everything below it. In a tree that
a file system admits the order is all that a listing has of its own: it holds each place exactly
once at which something stands, and two trees that hold the same at every place list the same
places. Paths lead to the same in both of them.

## Main definitions

* `WellFormed` — the trees that a file system admits.
* `Alike` — two trees that hold the same at every place.

## Main results

* `mem_places`, `nodup_places` — what is listed.
* `alike_of_perm`, `alike_of_entries` — entries in another order, and entries that are alike.
* `Alike.locate_iff` — paths in trees that are alike.
-/

namespace Typings.FileTree

open Typings.Path

variable {t t' t'' : FileTree}

/-! ## Well-formed trees -/

mutual

/-- The entries of all directories have proper names, and no two of them the same. -/
def WellFormed : FileTree → Prop
  | .file _ => True
  | .directory entries => EntriesFormed entries

/-- So it is for some entries and below them. -/
def EntriesFormed : List (String × FileTree) → Prop
  | [] => True
  | (name, node) :: rest =>
    IsName name ∧ (∀ entry ∈ rest, entry.1 ≠ name) ∧ node.WellFormed ∧ EntriesFormed rest

end

theorem EntriesFormed.of_lookup {entries : List (String × FileTree)} (h : EntriesFormed entries)
    {name : String} {node : FileTree} (hlookup : entries.lookup name = some node) :
    node.WellFormed := by
  induction entries with
  | nil => cases hlookup
  | cons entry rest ih =>
      obtain ⟨-, -, hnode, hrest⟩ := h
      rw [List.lookup_cons] at hlookup
      split at hlookup
      · cases hlookup
        exact hnode
      · exact ih hrest hlookup

theorem WellFormed.of_at? (h : t.WellFormed) {place : Place} {node : FileTree}
    (hat : t.at? place = some node) : node.WellFormed := by
  induction place generalizing t with
  | nil =>
      cases hat
      exact h
  | cons name rest ih =>
      cases t with
      | file content => simp [at?, child?] at hat
      | directory entries =>
          rw [at?, child?] at hat
          cases hchild : entries.lookup name with
          | none => simp [hchild] at hat
          | some child =>
              rw [hchild] at hat
              exact ih (EntriesFormed.of_lookup h hchild) hat

mutual

/-- **What is found is there**, and names lead to it. -/
theorem at?_of_mem_places {t : FileTree} (h : t.WellFormed) {place : Place}
    (hplace : place ∈ t.places) :
    (t.at? place).isSome = true ∧ ∀ name ∈ place, IsName name := by
  cases t with
  | file content => simp [places] at hplace
  | directory entries =>
      obtain ⟨name, rest, node, rfl, hlookup, hat, hnames⟩ := lookup_of_mem_entryPlaces h hplace
      refine ⟨?_, hnames⟩
      rw [at?, child?, hlookup]
      exact hat

theorem lookup_of_mem_entryPlaces {entries : List (String × FileTree)} (h : EntriesFormed entries)
    {place : Place} (hplace : place ∈ entryPlaces entries) :
    ∃ name rest node, place = name :: rest ∧ entries.lookup name = some node ∧
      (node.at? rest).isSome = true ∧ ∀ n ∈ place, IsName n := by
  match entries with
  | [] => simp [entryPlaces] at hplace
  | (name, node) :: others =>
      obtain ⟨hname, hother, hnode, hothers⟩ := h
      rw [entryPlaces] at hplace
      rcases List.mem_append.mp hplace with hown | hplace
      · rcases List.mem_cons.mp hown with rfl | hbelow
        · exact ⟨name, [], node, rfl, by simp, rfl, by simpa using hname⟩
        · obtain ⟨rest, hrest, rfl⟩ := List.mem_map.mp hbelow
          obtain ⟨hat, hnames⟩ := at?_of_mem_places hnode hrest
          exact ⟨name, rest, node, rfl, by simp, hat, List.forall_mem_cons.mpr ⟨hname, hnames⟩⟩
      · obtain ⟨first, rest, found, rfl, hlookup, hat, hnames⟩ :=
          lookup_of_mem_entryPlaces hothers hplace
        refine ⟨first, rest, found, rfl, ?_, hat, hnames⟩
        -- The first entry has another name.
        have hne : first ≠ name := by
          rintro rfl
          obtain ⟨before, behind, hsplit, -⟩ := List.lookup_eq_some_iff.mp hlookup
          exact hother (first, found) (by rw [hsplit]; simp) rfl
        have hbeq : (first == name) = false := by simpa using hne
        rw [List.lookup_cons, hbeq]
        exact hlookup

end

/-! ## What is listed -/

theorem mem_entryPlaces_of_mem {entries : List (String × FileTree)} {name : String}
    {node : FileTree} (h : (name, node) ∈ entries) {rest : Place}
    (hrest : rest = [] ∨ rest ∈ node.places) : name :: rest ∈ entryPlaces entries := by
  induction entries with
  | nil => simp at h
  | cons entry others ih =>
      obtain ⟨first, found⟩ := entry
      rw [entryPlaces, List.mem_append]
      rcases List.mem_cons.mp h with hsame | hother
      · obtain ⟨rfl, rfl⟩ := Prod.mk.inj hsame
        refine Or.inl ?_
        rcases hrest with rfl | hbelow
        · exact List.mem_cons_self
        · exact List.mem_cons_of_mem _ (List.mem_map_of_mem hbelow)
      · exact Or.inr (ih hother)

/-- Everything below a node is listed. -/
theorem mem_places_of_isSome {place : Place} (hne : place ≠ [])
    (h : (t.at? place).isSome = true) : place ∈ t.places := by
  induction place generalizing t with
  | nil => exact absurd rfl hne
  | cons name rest ih =>
      cases t with
      | file content => simp [at?, child?] at h
      | directory entries =>
          rw [at?, child?] at h
          cases hchild : entries.lookup name with
          | none => simp [hchild] at h
          | some child =>
              rw [hchild] at h
              have hmem : (name, child) ∈ entries := by
                obtain ⟨before, behind, hsplit, -⟩ := List.lookup_eq_some_iff.mp hchild
                rw [hsplit]
                exact List.mem_append_right _ List.mem_cons_self
              rw [places]
              refine mem_entryPlaces_of_mem hmem ?_
              by_cases hrest : rest = []
              · exact Or.inl hrest
              · exact Or.inr (ih hrest h)

theorem exists_entry_of_mem_entryPlaces {entries : List (String × FileTree)} {place : Place}
    (h : place ∈ entryPlaces entries) : ∃ entry ∈ entries, ∃ rest, place = entry.1 :: rest := by
  induction entries with
  | nil => simp [entryPlaces] at h
  | cons entry others ih =>
      obtain ⟨name, node⟩ := entry
      rw [entryPlaces] at h
      rcases List.mem_append.mp h with hown | hothers
      · refine ⟨(name, node), List.mem_cons_self, ?_⟩
        rcases List.mem_cons.mp hown with rfl | hbelow
        · exact ⟨[], rfl⟩
        · obtain ⟨rest, -, rfl⟩ := List.mem_map.mp hbelow
          exact ⟨rest, rfl⟩
      · obtain ⟨other, hother, rest, rfl⟩ := ih hothers
        exact ⟨other, List.mem_cons_of_mem _ hother, rest, rfl⟩

theorem ne_nil_of_mem_places {place : Place} (h : place ∈ t.places) : place ≠ [] := by
  cases t with
  | file content => simp [places] at h
  | directory entries =>
      rw [places] at h
      obtain ⟨entry, -, rest, rfl⟩ := exists_entry_of_mem_entryPlaces h
      exact List.cons_ne_nil _ _

/-- **What is listed below a node** is all that stands there. -/
theorem mem_places (h : t.WellFormed) {place : Place} :
    place ∈ t.places ↔ place ≠ [] ∧ (t.at? place).isSome = true :=
  ⟨fun hmem => ⟨ne_nil_of_mem_places hmem, (at?_of_mem_places h hmem).1⟩,
    fun hat => mem_places_of_isSome hat.1 hat.2⟩

mutual

/-- **Nothing is listed twice.** -/
theorem nodup_places : (t : FileTree) → t.WellFormed → t.places.Nodup
  | .file _, _ => by
      rw [places]
      exact List.nodup_nil
  | .directory entries, h => by
      rw [places]
      exact nodup_entryPlaces entries h

theorem nodup_entryPlaces :
    (entries : List (String × FileTree)) → EntriesFormed entries → (entryPlaces entries).Nodup
  | [], _ => by
      rw [entryPlaces]
      exact List.nodup_nil
  | (name, node) :: rest, h => by
      obtain ⟨-, hother, hnode, hrest⟩ := h
      have hbelow : (node.places.map (name :: ·)).Nodup :=
        List.Nodup.map List.cons_injective (nodup_places node hnode)
      have hself : [name] ∉ node.places.map (name :: ·) := by
        intro hmem
        obtain ⟨place, hplace, hsame⟩ := List.mem_map.mp hmem
        exact ne_nil_of_mem_places hplace (List.cons.inj hsame).2
      rw [entryPlaces]
      refine List.nodup_append.mpr ⟨List.nodup_cons.mpr ⟨hself, hbelow⟩,
        nodup_entryPlaces rest hrest, ?_⟩
      -- The other entries have other names.
      intro place hown place' hplace' hsame
      obtain ⟨entry, hentry, more, rfl⟩ := exists_entry_of_mem_entryPlaces hplace'
      refine hother entry hentry ?_
      rcases List.mem_cons.mp hown with rfl | hmem
      · exact (List.cons.inj hsame).1.symm
      · obtain ⟨below, -, rfl⟩ := List.mem_map.mp hmem
        exact (List.cons.inj hsame).1.symm

end

/-! ## Trees that are alike -/

/-- What a node is by itself: a file with its content, or a directory. -/
def content? : FileTree → Option String
  | .file content => some content
  | .directory _ => none

/-- Two trees that hold the same at every place, whatever the order is in which they list it. -/
def Alike (t t' : FileTree) : Prop :=
  ∀ place, (t.at? place).map content? = (t'.at? place).map content?

theorem Alike.symm (h : Alike t t') : Alike t' t := fun place => (h place).symm

theorem Alike.trans (h : Alike t t') (h' : Alike t' t'') : Alike t t'' := fun place =>
  (h place).trans (h' place)

/-- Entries with the same names that hold the same below. -/
theorem alike_of_lookup {entries entries' : List (String × FileTree)}
    (h : ∀ name place, ((entries.lookup name).bind (·.at? place)).map content?
      = ((entries'.lookup name).bind (·.at? place)).map content?) :
    Alike (.directory entries) (.directory entries') := by
  have hat (entries : List (String × FileTree)) (name : String) (rest : Place) :
      (directory entries).at? (name :: rest) = (entries.lookup name).bind (·.at? rest) := by
    rw [at?, child?]
    cases entries.lookup name <;> rfl
  intro place
  cases place with
  | nil => rfl
  | cons name rest =>
      rw [hat, hat]
      exact h name rest

theorem lookup_eq_of_perm {entries entries' : List (String × FileTree)}
    (hperm : entries.Perm entries') (hdistinct : (entries.map (·.1)).Nodup) (name : String) :
    entries.lookup name = entries'.lookup name := by
  induction hperm with
  | nil => rfl
  | cons entry _ ih =>
      rw [List.map_cons, List.nodup_cons] at hdistinct
      rw [List.lookup_cons, List.lookup_cons, ih hdistinct.2]
  | swap entry entry' rest =>
      simp only [List.map_cons, List.nodup_cons, List.mem_cons, not_or] at hdistinct
      obtain ⟨first, node⟩ := entry
      obtain ⟨second, node'⟩ := entry'
      have hne : second ≠ first := hdistinct.1.1
      rw [List.lookup_cons, List.lookup_cons, List.lookup_cons, List.lookup_cons]
      by_cases hname : name = second
      · have hother : (name == first) = false := by simpa only [hname, beq_eq_false_iff_ne]
        rw [hother]
      · have hother : (name == second) = false := by simpa only [beq_eq_false_iff_ne]
        rw [hother]
  | trans hfront _ ih ih' =>
      rw [ih hdistinct, ih' ((hfront.map (·.1)).nodup_iff.mp hdistinct)]

/-- **Entries in another order** are the same directory. -/
theorem alike_of_perm {entries entries' : List (String × FileTree)} (hperm : entries.Perm entries')
    (hdistinct : (entries.map (·.1)).Nodup) : Alike (.directory entries) (.directory entries') := by
  refine alike_of_lookup fun name place => ?_
  rw [lookup_eq_of_perm hperm hdistinct]

/-- Entries that are alike one by one make directories that are alike. -/
theorem alike_of_entries {entries entries' : List (String × FileTree)}
    (h : List.Forall₂ (fun entry entry' => entry.1 = entry'.1 ∧ Alike entry.2 entry'.2)
      entries entries') : Alike (.directory entries) (.directory entries') := by
  refine alike_of_lookup fun name place => ?_
  induction h with
  | nil => rfl
  | @cons entry entry' rest rest' hentry _ ih =>
      obtain ⟨first, node⟩ := entry
      obtain ⟨first', node'⟩ := entry'
      obtain ⟨rfl, hnode⟩ := hentry
      rw [List.lookup_cons, List.lookup_cons]
      cases name == first with
      | true => exact hnode place
      | false => exact ih

namespace Alike

theorem persists (h : Alike t t') (kept : Place → Prop) : Persists kept t t' := by
  have hfile {place : Place} {content : String} (hat : t.at? place = some (.file content)) :
      t'.at? place = some (.file content) := by
    have hplace := h place
    rw [hat] at hplace
    rcases hat' : t'.at? place with - | ⟨other | entries⟩ <;> simp_all [content?]
  refine ⟨fun {place entries} hat => ?_, fun hat => ⟨_, hfile hat⟩, fun _ => hfile⟩
  have hplace := h place
  rw [hat] at hplace
  rcases hat' : t'.at? place with - | ⟨other | entries⟩ <;> simp_all [content?]

theorem isSome_eq (h : Alike t t') (place : Place) :
    (t.at? place).isSome = (t'.at? place).isSome := by
  have hplace := congrArg Option.isSome (h place)
  simpa using hplace

/-- **Paths lead to the same place** in trees that are alike. -/
theorem locate_iff (h : Alike t t') {cwd place : Place} {p : Path} :
    t.locate cwd p = .ok place ↔ t'.locate cwd p = .ok place :=
  ⟨(h.persists fun _ => True).locate, (h.symm.persists fun _ => True).locate⟩

end Alike

end Typings.FileTree
