import Mathlib.Data.List.Nodup
import Typings.Descriptor.Json
import Typings.Proofs.Json.Nesting

/-!
# Looser spellings of a descriptor file

A descriptor file can be given in more ways than the one in which it is written. The members of
an object may stand in any order, members with unknown keys may stand between them, and a field
may be left out when its value is the one that it has without being given. This file says what
such a looser spelling is, for each kind of object in a descriptor file, and what can still be
said about its members.

What may be inserted is a parameter. It matters inside the type of a member only, which is held
in memory before it is read.

## Main definitions

* `Shape` — the kinds of values in a descriptor file, with the fields of those that are records.
* `Loosened` — a looser spelling of a value.

## Main results

* `Rearranged.lookup` — the value of a field in a looser spelling.
* `Rearranged.required`, `Rearranged.withDefault`, `Rearranged.optional` — reading a field.
-/

namespace Typings

open Json

/-! ## Shapes -/

/-- The kinds of values in a descriptor file. -/
inductive Shape where
  /-- A value without records in it. -/
  | leaf
  /-- A list of values. -/
  | list (item : Shape)
  /-- A descriptor file. -/
  | file
  /-- A declared type. -/
  | descriptor
  /-- A member, perhaps one that is held in memory as part of a type. -/
  | member (held : Bool)
  /-- The type of a member. -/
  | type
  /-- What the kind of a type is made of: a text, a type or a list of members. -/
  | content

namespace Shape

/-- The names of the fields. -/
def keys : Shape → List String
  | .file => ["sourcePath", "types"]
  | .descriptor =>
    ["name", "namespace", "isEnum", "baseName", "baseNamespace", "summary", "properties",
      "references"]
  | .member _ => ["name", "optional", "summary", "initExpression", "type"]
  | .type => ["kind", "of", "clientSideReferenceName"]
  | _ => []

/-- What stands in a field. -/
def inside : Shape → String → Shape
  | .file, "types" => .list .descriptor
  | .descriptor, "properties" => .list (.member false)
  | .member _, "type" => .type
  | .type, "of" => .content
  | _, _ => .leaf

/-- The value of a field that is not given, for the fields that may be left out. -/
def default? : Shape → String → Option Json
  | .file, "types" => some (.array [])
  | .descriptor, "namespace" => some (.string "")
  | .descriptor, "isEnum" => some (.bool false)
  | .descriptor, "properties" => some (.array [])
  | .descriptor, "references" => some (.array [])
  | .member _, "optional" => some (.bool false)
  | .member _, "type" => some (.object [("kind", .string "unknown")])
  | _, _ => none

/-- Whether a record is held in memory before it is read. -/
def isHeld : Shape → Bool
  | .member held => held
  | .type => true
  | _ => false

end Shape

/-! ## Looser spellings -/

/-- A looser spelling of the members of an object, up to their order, when `R` says what looser
spellings of their values are. -/
inductive LooseMembers (allowed : Json → Prop) (R : Shape → Json → Json → Prop) :
    List (String × Json) → List (String × Json) → Shape → Prop where
  /-- Nothing is given. -/
  | nil {s : Shape} : LooseMembers allowed R [] [] s
  /-- A field is given, with a looser spelling of its value. -/
  | keep {s : Shape} {key : String} {v w : Json} {ms ns : List (String × Json)}
      (hvalue : R (s.inside key) v w) (hrest : LooseMembers allowed R ms ns s) :
      LooseMembers allowed R ((key, v) :: ms) ((key, w) :: ns) s
  /-- A field is left out, since its value is the one that it has then. -/
  | drop {s : Shape} {key : String} {v : Json} {ms ns : List (String × Json)}
      (hdefault : s.default? key = some v) (hrest : LooseMembers allowed R ms ns s) :
      LooseMembers allowed R ((key, v) :: ms) ns s
  /-- A member with an unknown key is inserted. -/
  | insert {s : Shape} {key : String} {w : Json} {ms ns : List (String × Json)}
      (hkey : key ∉ s.keys) (hvalue : s.isHeld = true → allowed w)
      (hrest : LooseMembers allowed R ms ns s) :
      LooseMembers allowed R ms ((key, w) :: ns) s

/-- A looser spelling of a value: in its objects the members are put in another order, members
with unknown keys are inserted, and fields with the value that they have without being given are
left out, at any depth. -/
inductive Loosened (allowed : Json → Prop) : Shape → Json → Json → Prop where
  /-- Nothing changes. -/
  | same (s : Shape) (v : Json) : Loosened allowed s v v
  /-- Nothing is in a list. -/
  | nil {s : Shape} : Loosened allowed (.list s) (.array []) (.array [])
  /-- The items of a list change one by one. -/
  | cons {s : Shape} {v w : Json} {vs ws : List Json} (hitem : Loosened allowed s v w)
      (hrest : Loosened allowed (.list s) (.array vs) (.array ws)) :
      Loosened allowed (.list s) (.array (v :: vs)) (.array (w :: ws))
  /-- The members of a record change, and they are put in another order. -/
  | object {s : Shape} {ms ns ns' : List (String × Json)} (hrecord : s.keys ≠ [])
      (hmembers : LooseMembers allowed (Loosened allowed) ms ns s) (horder : ns.Perm ns') :
      Loosened allowed s (.object ms) (.object ns')
  /-- A kind is made of a type. -/
  | ofType {v w : Json} (h : Loosened allowed .type v w) : Loosened allowed .content v w
  /-- A kind is made of members. -/
  | ofMembers {v w : Json} (h : Loosened allowed (.list (.member true)) v w) :
      Loosened allowed .content v w

/-! ## The members of a looser spelling -/

namespace LooseMembers

variable {allowed : Json → Prop} {R : Shape → Json → Json → Prop} {s : Shape}
  {ms ns : List (String × Json)} {key : String}

/-- No field is given more often than before. -/
theorem occurrences_le (h : LooseMembers allowed R ms ns s) (hkey : key ∈ s.keys) :
    occurrences key ns ≤ occurrences key ms := by
  induction h with
  | nil => exact Nat.le_refl _
  | keep hvalue hrest ih =>
      have hle := ih hkey
      simp only [occurrences, List.countP_cons] at hle ⊢
      omega
  | drop hdefault hrest ih =>
      have hle := ih hkey
      simp only [occurrences, List.countP_cons] at hle ⊢
      omega
  | insert hunknown hvalue hrest ih =>
      rename_i other w ms ns
      have hne : other ≠ key := fun e => hunknown (e ▸ hkey)
      have hle := ih hkey
      simpa [occurrences, List.countP_cons, hne] using hle

/-- What is given is a field in a looser spelling, or it was inserted. -/
theorem exists_of_mem (h : LooseMembers allowed R ms ns s) {w : Json} (hw : (key, w) ∈ ns) :
    (∃ v, (key, v) ∈ ms ∧ R (s.inside key) v w) ∨
      (key ∉ s.keys ∧ (s.isHeld = true → allowed w)) := by
  induction h with
  | nil => cases hw
  | keep hvalue hrest ih =>
      rcases List.mem_cons.mp hw with heq | hw
      · cases heq
        exact Or.inl ⟨_, List.mem_cons_self, hvalue⟩
      · exact (ih hw).imp_left fun ⟨v, hv, hloose⟩ => ⟨v, List.mem_cons_of_mem _ hv, hloose⟩
  | drop hdefault hrest ih =>
      exact (ih hw).imp_left fun ⟨v, hv, hloose⟩ => ⟨v, List.mem_cons_of_mem _ hv, hloose⟩
  | insert hunknown hvalue hrest ih =>
      rcases List.mem_cons.mp hw with heq | hw
      · cases heq
        exact Or.inr ⟨hunknown, hvalue⟩
      · exact ih hw

/-- A field is given in a looser spelling, or it has the value that it has when left out. -/
theorem exists_or_default (h : LooseMembers allowed R ms ns s) {v : Json} (hv : (key, v) ∈ ms) :
    (∃ w, (key, w) ∈ ns ∧ R (s.inside key) v w) ∨ s.default? key = some v := by
  induction h with
  | nil => cases hv
  | keep hvalue hrest ih =>
      rcases List.mem_cons.mp hv with heq | hv
      · cases heq
        exact Or.inl ⟨_, List.mem_cons_self, hvalue⟩
      · exact (ih hv).imp_left fun ⟨w, hw, hloose⟩ => ⟨w, List.mem_cons_of_mem _ hw, hloose⟩
  | drop hdefault hrest ih =>
      rcases List.mem_cons.mp hv with heq | hv
      · cases heq
        exact Or.inr hdefault
      · exact ih hv
  | insert hunknown hvalue hrest ih =>
      exact (ih hv).imp_left fun ⟨w, hw, hloose⟩ => ⟨w, List.mem_cons_of_mem _ hw, hloose⟩

/-- Each field is its own looser spelling if each value is. -/
theorem refl (hR : ∀ s v, R s v v) (ms : List (String × Json)) :
    LooseMembers allowed R ms ms s := by
  induction ms with
  | nil => exact .nil
  | cons member rest ih => exact .keep (hR _ _) ih

end LooseMembers

/-- A looser spelling of the members of an object with distinct keys, in some order. -/
structure Rearranged (allowed : Json → Prop) (s : Shape) (ms ns : List (String × Json)) :
    Prop where
  /-- The keys are distinct. -/
  nodup : (ms.map Prod.fst).Nodup
  /-- Only the order is left to change behind a looser spelling. -/
  exists_given : ∃ given, LooseMembers allowed (Loosened allowed) ms given s ∧ given.Perm ns

/-! ## Looser spellings of known values -/

namespace Loosened

variable {allowed : Json → Prop} {s : Shape} {w : Json}

/-- A text has no other spelling. -/
theorem eq_of_string {text : String} (h : Loosened allowed s (.string text) w) :
    w = .string text := by
  cases h with
  | same => rfl
  | ofType h => cases h; rfl
  | ofMembers h => cases h; rfl

theorem eq_of_bool {value : Bool} (h : Loosened allowed s (.bool value) w) : w = .bool value := by
  cases h with
  | same => rfl
  | ofType h => cases h; rfl
  | ofMembers h => cases h; rfl

/-- A list without records in it has no other spelling. -/
theorem eq_of_leaf {items : List Json} (h : Loosened allowed .leaf (.array items) w) :
    w = .array items := by
  cases h
  rfl

/-- The items of a list change one by one. -/
theorem exists_items {items : List Json} (h : Loosened allowed (.list s) (.array items) w) :
    ∃ ws, w = .array ws ∧ List.Forall₂ (Loosened allowed s) items ws := by
  induction items generalizing w with
  | nil =>
      cases h with
      | same => exact ⟨[], rfl, .nil⟩
      | nil => exact ⟨[], rfl, .nil⟩
  | cons item rest ih =>
      cases h with
      | same =>
          obtain ⟨ws, heq, hrest⟩ := ih (.same _ (.array rest))
          cases heq
          exact ⟨item :: rest, rfl, .cons (.same s item) hrest⟩
      | cons hitem hrest =>
          obtain ⟨ws, heq, hall⟩ := ih hrest
          cases heq
          exact ⟨_, rfl, .cons hitem hall⟩

/-- The members of a record change. -/
theorem exists_members {ms : List (String × Json)} (hrecord : s.keys ≠ [])
    (hnodup : (ms.map Prod.fst).Nodup) (h : Loosened allowed s (.object ms) w) :
    ∃ ns, w = .object ns ∧ Rearranged allowed s ms ns := by
  cases h with
  | same => exact ⟨ms, rfl, hnodup, ms, .refl Loosened.same ms, .refl ms⟩
  | object _ hmembers horder => exact ⟨_, rfl, hnodup, _, hmembers, horder⟩
  | ofType => exact absurd rfl hrecord
  | ofMembers => exact absurd rfl hrecord

/-- What a kind is made of is an object if it is a type. -/
theorem type_of_content {ms : List (String × Json)}
    (h : Loosened allowed .content (.object ms) w) : Loosened allowed .type (.object ms) w := by
  cases h with
  | same => exact .same _ _
  | object hrecord => exact absurd rfl hrecord
  | ofType h => exact h
  | ofMembers h =>
      cases h with
      | same => exact .same _ _
      | object hrecord => exact absurd rfl hrecord

/-- What a kind is made of is a list if it is made of members. -/
theorem members_of_content {items : List Json}
    (h : Loosened allowed .content (.array items) w) :
    Loosened allowed (.list (.member true)) (.array items) w := by
  cases h with
  | same => exact .same _ _
  | ofType h =>
      cases h
      exact .same _ _
  | ofMembers h => exact h

end Loosened

/-! ## Reading the fields of a looser spelling -/

theorem mem_of_lookup {members : List (String × Json)} {key : String} {w : Json}
    (h : members.lookup key = some w) : (key, w) ∈ members := by
  obtain ⟨front, behind, rfl, -⟩ := List.lookup_eq_some_iff.mp h
  simp

namespace Rearranged

variable {allowed : Json → Prop} {s : Shape} {ms ns : List (String × Json)} {key : String}
  {v : Json} {α : Type} {read? : Json → Option α} {a : α}

theorem lookup_eq_none (h : Rearranged allowed s ms ns) (hkey : key ∈ s.keys)
    (hnone : ∀ v, (key, v) ∉ ms) : ns.lookup key = none := by
  obtain ⟨given, hmembers, horder⟩ := h.exists_given
  rw [Option.eq_none_iff_forall_ne_some]
  intro w hw
  rcases hmembers.exists_of_mem (horder.mem_iff.mpr (mem_of_lookup hw)) with ⟨v, hv, -⟩ | ⟨hout, -⟩
  · exact hnone v hv
  · exact hout hkey

/-- **The value of a field** is a looser spelling of what it was, or it is not given and was the
value that it has then. -/
theorem lookup (h : Rearranged allowed s ms ns) (hkey : key ∈ s.keys) (hv : (key, v) ∈ ms) :
    (∃ w, ns.lookup key = some w ∧ (key, w) ∈ ns ∧ Loosened allowed (s.inside key) v w) ∨
      (ns.lookup key = none ∧ s.default? key = some v) := by
  obtain ⟨given, hmembers, horder⟩ := h.exists_given
  cases hlookup : ns.lookup key with
  | some w =>
      have hw := mem_of_lookup hlookup
      left
      rcases hmembers.exists_of_mem (horder.mem_iff.mpr hw) with ⟨v', hv', hloose⟩ | ⟨hout, -⟩
      · have hsame := List.inj_on_of_nodup_map h.nodup hv hv' rfl
        cases hsame
        exact ⟨w, rfl, hw, hloose⟩
      · exact absurd hkey hout
  | none =>
      right
      refine ⟨rfl, ?_⟩
      rcases hmembers.exists_or_default hv with ⟨w, hw, -⟩ | hdefault
      · have hnone := List.lookup_eq_none_iff.mp hlookup (key, w) (horder.mem_iff.mp hw)
        simp at hnone
      · exact hdefault

/-- No field is given twice. -/
theorem fieldsOfObject? (h : Rearranged allowed s ms ns) :
    Json.fieldsOfObject? s.keys ns = some fun name => ns.lookup name := by
  obtain ⟨given, hmembers, horder⟩ := h.exists_given
  refine if_pos (List.all_eq_true.mpr fun key hkey => decide_eq_true ?_)
  have hcount : occurrences key ms ≤ 1 := by
    have hone := List.nodup_iff_count_le_one.mp h.nodup key
    rwa [List.count, List.countP_map] at hone
  have horder' : occurrences key ns = occurrences key given := (horder.countP_eq _).symm
  rw [horder']
  exact Nat.le_trans (hmembers.occurrences_le hkey) hcount

/-- A field that must be given. -/
theorem required (h : Rearranged allowed s ms ns) (hkey : key ∈ s.keys) (hv : (key, v) ∈ ms)
    (hgiven : s.default? key = none)
    (hread : ∀ w, (key, w) ∈ ns → Loosened allowed (s.inside key) v w → read? w = some a) :
    Json.required read? (ns.lookup key) = some a := by
  rcases h.lookup hkey hv with ⟨w, hlookup, hw, hloose⟩ | ⟨-, hdefault⟩
  · rw [hlookup]
    exact hread w hw hloose
  · rw [hgiven] at hdefault
    cases hdefault

/-- A field that may be left out. -/
theorem withDefault {value : α} (h : Rearranged allowed s ms ns) (hkey : key ∈ s.keys)
    (hv : (key, v) ∈ ms) (hdefault : s.default? key = some v → value = a)
    (hread : ∀ w, (key, w) ∈ ns → Loosened allowed (s.inside key) v w → read? w = some a) :
    Json.withDefault read? value (ns.lookup key) = some a := by
  rcases h.lookup hkey hv with ⟨w, hlookup, hw, hloose⟩ | ⟨hlookup, hleft⟩
  · rw [hlookup]
    exact hread w hw hloose
  · rw [hlookup]
    exact congrArg some (hdefault hleft)

/-- A text that must be given. -/
theorem requiredText {text : String} (h : Rearranged allowed s ms ns) (hkey : key ∈ s.keys)
    (hv : (key, .string text) ∈ ms) (hgiven : s.default? key = none) :
    Json.required Json.string? (ns.lookup key) = some text :=
  h.required hkey hv hgiven fun w _ hloose => by
    rw [hloose.eq_of_string]
    rfl

/-- A truth value that may be left out. -/
theorem flag {value default : Bool} (h : Rearranged allowed s ms ns) (hkey : key ∈ s.keys)
    (hv : (key, .bool value) ∈ ms)
    (hdefault : s.default? key = some (.bool value) → default = value) :
    Json.withDefault Json.bool? default (ns.lookup key) = some value :=
  h.withDefault hkey hv hdefault fun w _ hloose => by
    rw [hloose.eq_of_bool]
    rfl

/-- A text that may be absent. -/
theorem optional {text : Option String} (h : Rearranged allowed s ms ns) (hkey : key ∈ s.keys)
    (hgiven : s.default? key = none)
    (hmem : ∀ v, (key, v) ∈ ms ↔ ∃ t, text = some t ∧ v = .string t) :
    Json.optional Json.string? (ns.lookup key) = some text := by
  cases text with
  | none =>
      have hnone : ∀ v, (key, v) ∉ ms := fun v hv => by simpa using (hmem v).mp hv
      rw [h.lookup_eq_none hkey hnone]
      rfl
  | some t =>
      rcases h.lookup hkey ((hmem _).mpr ⟨t, rfl, rfl⟩) with
        ⟨w, hlookup, -, hloose⟩ | ⟨-, hdefault⟩
      · rw [hlookup, hloose.eq_of_string]
        rfl
      · rw [hgiven] at hdefault
        cases hdefault

end Rearranged

end Typings
