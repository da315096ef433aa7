import Mathlib.Data.List.Nodup
import Typings.Descriptor.Json
import Typings.Proofs.Json.Tokens

/-!
# Written descriptors

A type, a member and a declared type are each written as an object. This file lists the members
of these objects, which is all that a reader of the objects has to know, and shows that every
descriptor file has a spelling.

## Main definitions

* `ValueKind.label`, `ValueKind.content?` — a kind as it is written: its name and what it is
  made of.
* `toMembers` for `ValueType`, `Member` and `Descriptor` — the members of the written object.

## Main results

* `mem_toMembers` for `ValueType`, `Member` and `Descriptor` — the members one by one.
* `DescriptorFile.isSpelled_toJson` — a descriptor file has a spelling.
-/

namespace Typings

open Json

/-! ## Members of the written objects -/

@[simp] theorem mem_optionalText {key name : String} {text : Option String} {v : Json} :
    (name, v) ∈ optionalText key text ↔ name = key ∧ ∃ t, text = some t ∧ v = .string t := by
  cases text <;> simp [optionalText]

/-- The name of a kind. -/
def ValueKind.label : ValueKind → String
  | .known _ => "known"
  | .array _ => "array"
  | .dictionary _ => "dictionary"
  | .shape _ => "shape"
  | .unknown => "unknown"

/-- What a kind is made of. -/
def ValueKind.content? : ValueKind → Option Json
  | .known name => some (.string name)
  | .array item => some item.toJson
  | .dictionary text => some (.string text)
  | .shape members => some (.array (membersToJson members))
  | .unknown => none

/-- The members of a type as an object. -/
def ValueType.toMembers (type : ValueType) : List (String × Json) :=
  [("kind", .string type.kind.label)]
    ++ type.kind.content?.toList.map (Prod.mk "of")
    ++ optionalText "clientSideReferenceName" type.referenceName

theorem ValueType.toJson_eq (type : ValueType) : type.toJson = .object type.toMembers := by
  obtain ⟨kind, referenceName⟩ := type
  rw [ValueType.toJson]
  cases kind <;> rw [ValueKind.toMembers] <;> rfl

theorem ValueType.mem_toMembers {type : ValueType} {key : String} {v : Json} :
    (key, v) ∈ type.toMembers ↔
      (key = "kind" ∧ v = .string type.kind.label) ∨
      (key = "of" ∧ type.kind.content? = some v) ∨
      (key = "clientSideReferenceName" ∧ ∃ t, type.referenceName = some t ∧ v = .string t) := by
  simp [ValueType.toMembers, and_comm, eq_comm]

theorem ValueType.nodup_keys (type : ValueType) : (type.toMembers.map Prod.fst).Nodup := by
  rw [ValueType.toMembers]
  cases type.kind.content? <;> cases type.referenceName <;> simp [optionalText]

/-- The members of a member as an object. -/
def Member.toMembers (m : Member) : List (String × Json) :=
  [("name", .string m.name), ("optional", .bool m.optional)]
    ++ optionalText "summary" m.summary
    ++ optionalText "initExpression" m.initializer
    ++ [("type", m.type.toJson)]

theorem Member.toJson_eq (m : Member) : m.toJson = .object m.toMembers := by
  obtain ⟨name, optional, summary, initializer, type⟩ := m
  rw [Member.toJson]
  rfl

theorem Member.mem_toMembers {m : Member} {key : String} {v : Json} :
    (key, v) ∈ m.toMembers ↔
      (key = "name" ∧ v = .string m.name) ∨ (key = "optional" ∧ v = .bool m.optional) ∨
      (key = "summary" ∧ ∃ t, m.summary = some t ∧ v = .string t) ∨
      (key = "initExpression" ∧ ∃ t, m.initializer = some t ∧ v = .string t) ∨
      (key = "type" ∧ v = m.type.toJson) := by
  simp [Member.toMembers]

theorem Member.nodup_keys (m : Member) : (m.toMembers.map Prod.fst).Nodup := by
  rw [Member.toMembers]
  cases m.summary <;> cases m.initializer <;> simp [optionalText]

/-- The members of a declared type as an object. -/
def Descriptor.toMembers (d : Descriptor) : List (String × Json) :=
  [("name", .string d.name), ("namespace", .string d.scope), ("isEnum", .bool d.isEnum)]
    ++ optionalText "baseName" d.base
    ++ optionalText "baseNamespace" d.baseScope
    ++ optionalText "summary" d.summary
    ++ [("properties", .array (membersToJson d.members)),
      ("references", .array (d.references.map Path.toJson))]

theorem Descriptor.toJson_eq (d : Descriptor) : d.toJson = .object d.toMembers := rfl

theorem Descriptor.mem_toMembers {d : Descriptor} {key : String} {v : Json} :
    (key, v) ∈ d.toMembers ↔
      (key = "name" ∧ v = .string d.name) ∨ (key = "namespace" ∧ v = .string d.scope) ∨
      (key = "isEnum" ∧ v = .bool d.isEnum) ∨
      (key = "baseName" ∧ ∃ t, d.base = some t ∧ v = .string t) ∨
      (key = "baseNamespace" ∧ ∃ t, d.baseScope = some t ∧ v = .string t) ∨
      (key = "summary" ∧ ∃ t, d.summary = some t ∧ v = .string t) ∨
      (key = "properties" ∧ v = .array (membersToJson d.members)) ∨
      (key = "references" ∧ v = .array (d.references.map Path.toJson)) := by
  simp [Descriptor.toMembers]

theorem Descriptor.nodup_keys (d : Descriptor) : (d.toMembers.map Prod.fst).Nodup := by
  rw [Descriptor.toMembers]
  cases d.base <;> cases d.baseScope <;> cases d.summary <;> simp [optionalText]

/-- Only the type about which nothing is known is written like it. -/
theorem ValueType.eq_unknown_of_toJson {type : ValueType}
    (h : type.toJson = .object [("kind", .string "unknown")]) : type = .unknown := by
  obtain ⟨kind, referenceName⟩ := type
  rw [ValueType.toJson, Json.object.injEq] at h
  cases kind with
  | unknown =>
      cases referenceName with
      | none => rfl
      | some name => simp [ValueKind.toMembers, optionalText] at h
  | _ => simp [ValueKind.toMembers] at h

/-! ## Spelling -/

mutual

theorem ValueType.isSpelled_toJson : (type : ValueType) → type.toJson.isSpelled = true
  | ⟨kind, referenceName⟩ => by
      rw [ValueType.toJson_eq]
      refine isSpelled_object_iff.mpr fun key v hv => ?_
      rcases ValueType.mem_toMembers.mp hv with ⟨-, rfl⟩ | ⟨-, hmade⟩ | ⟨-, t, -, rfl⟩
      · rfl
      · exact ValueKind.isSpelled_content kind hmade
      · rfl

theorem ValueKind.isSpelled_content :
    (kind : ValueKind) → ∀ {v : Json}, kind.content? = some v → v.isSpelled = true
  | .known _, _, h => by
      cases h
      rfl
  | .array item, _, h => by
      cases h
      exact ValueType.isSpelled_toJson item
  | .dictionary _, _, h => by
      cases h
      rfl
  | .shape members, _, h => by
      cases h
      exact isSpelled_array_iff.mpr (isSpelled_membersToJson members)
  | .unknown, _, h => by cases h

theorem Member.isSpelled_toJson : (m : Member) → m.toJson.isSpelled = true
  | ⟨_, _, _, _, type⟩ => by
      rw [Member.toJson_eq]
      refine isSpelled_object_iff.mpr fun key v hv => ?_
      rcases Member.mem_toMembers.mp hv with
        ⟨-, rfl⟩ | ⟨-, rfl⟩ | ⟨-, t, -, rfl⟩ | ⟨-, t, -, rfl⟩ | ⟨-, rfl⟩
      case inr.inr.inr.inr => exact ValueType.isSpelled_toJson type
      all_goals rfl

theorem isSpelled_membersToJson :
    (members : List Member) → ∀ v ∈ membersToJson members, v.isSpelled = true
  | [] => by simp [membersToJson]
  | m :: rest => by
      rw [membersToJson]
      exact List.forall_mem_cons.mpr ⟨Member.isSpelled_toJson m, isSpelled_membersToJson rest⟩

end

theorem Descriptor.isSpelled_toJson (d : Descriptor) : d.toJson.isSpelled = true := by
  rw [Descriptor.toJson_eq]
  refine isSpelled_object_iff.mpr fun key v hv => ?_
  rcases Descriptor.mem_toMembers.mp hv with
    ⟨-, rfl⟩ | ⟨-, rfl⟩ | ⟨-, rfl⟩ | ⟨-, t, -, rfl⟩ | ⟨-, t, -, rfl⟩ | ⟨-, t, -, rfl⟩ |
      ⟨-, rfl⟩ | ⟨-, rfl⟩
  case inr.inr.inr.inr.inr.inr.inl =>
    exact isSpelled_array_iff.mpr (isSpelled_membersToJson d.members)
  case inr.inr.inr.inr.inr.inr.inr =>
    refine isSpelled_array_iff.mpr fun item hitem => ?_
    obtain ⟨path, -, rfl⟩ := List.mem_map.mp hitem
    rfl
  all_goals rfl

/-- A descriptor file has a spelling. -/
theorem DescriptorFile.isSpelled_toJson (f : DescriptorFile) : f.toJson.isSpelled = true := by
  rw [DescriptorFile.toJson]
  refine isSpelled_object_iff.mpr fun key v hv => ?_
  rcases (by simpa using hv : (key = "sourcePath" ∧ v = f.sourcePath.toJson) ∨
    (key = "types" ∧ v = .array (f.types.map Descriptor.toJson))) with ⟨-, rfl⟩ | ⟨-, rfl⟩
  · rfl
  · refine isSpelled_array_iff.mpr fun item hitem => ?_
    obtain ⟨d, -, rfl⟩ := List.mem_map.mp hitem
    exact d.isSpelled_toJson

end Typings
