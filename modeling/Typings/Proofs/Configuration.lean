import Mathlib.Data.List.Nodup
import Typings.Config
import Typings.Descriptor.Json
import Typings.Proofs.Json.Indented

/-!
# Written configurations

A configuration is written as an object, with the options as an object inside it. A reader fills
every field that is not given with its default. The default of a field is not the zero of its type:
it is the value that the field has in the default options. So a field may be left out exactly as
long as it holds this value, each one independently of the others, and what is read is the
configuration that was written. Both layouts spell the same value.

## Main definitions

* `Json.without` — members without those of some names.
* `Options.HoldsDefaults`, `Config.HoldsDefaults` — the named fields hold their defaults.
* `Options.toJsonWithout`, `Config.toJsonWithout` — what is written when these are left out.

## Main results

* `Json.withDefault_of_left` — a field that is left out.
* `Options.ofJson?_toJsonWithout`, `Config.ofJson?_toJsonWithout` — the object is read.
* `Config.parse?_toJsonWithout`, `Config.parse?_write` — the text is read, in both layouts.
-/

namespace Typings

open Json

/-! ## Numbers -/

namespace Json.Number

theorem toList_toString (n : Nat) : (toString n).toList = Nat.toDigits 10 n := by
  rw [Nat.toString_eq_ofList_toDigits, String.toList_ofList]

theorem isDigit_of_mem_toDigits {n : Nat} : ∀ c ∈ Nat.toDigits 10 n, c.isDigit = true :=
  fun _ => Nat.isDigit_of_mem_toDigits (by omega) (by omega)

/-- Only zero starts with the digit zero. -/
theorem toDigits_of_head? {n : Nat} (h : (Nat.toDigits 10 n).head? = some '0') :
    Nat.toDigits 10 n = ['0'] := by
  induction n using Nat.strongRecOn with
  | ind n ih =>
      rw [Nat.toDigits_eq_if (by omega)] at h ⊢
      by_cases hsmall : n < 10
      · rw [if_pos hsmall] at h ⊢
        exact congrArg (fun c => [c]) (Option.some.inj h)
      · rw [if_neg hsmall, List.head?_append] at h
        have hfirst : (Nat.toDigits 10 (n / 10)).head? = some '0' := by
          rwa [Option.or_of_isSome (by simp)] at h
        have hzero : n / 10 = 0 := by
          rw [← Nat.ofDigitChars_ten_toDigits (n := n / 10), ih _ (by omega) hfirst]
          rfl
        omega

/-- A written number is read as itself. -/
theorem natural?_toString (n : Nat) : natural? (toString n) = some n := by
  have hdigits : (Nat.toDigits 10 n).all Char.isDigit = true :=
    List.all_eq_true.mpr isDigit_of_mem_toDigits
  rw [natural?, toList_toString, if_pos ⟨Nat.toDigits_ne_nil, hdigits⟩]
  exact congrArg some Nat.ofDigitChars_ten_toDigits

/-- A written number is a literal. -/
theorem isSome_parse?_toString (n : Nat) : (parse? (toString n).toList).isSome = true := by
  have hdigits := isDigit_of_mem_toDigits (n := n)
  have hwhole : ¬ (Nat.toDigits 10 n = [] ∨
      ((Nat.toDigits 10 n).head? = some '0' ∧ Nat.toDigits 10 n ≠ ['0'])) := by
    rintro (hnone | ⟨hhead, hlong⟩)
    · exact Nat.toDigits_ne_nil hnone
    · exact hlong (toDigits_of_head? hhead)
  have htake : takeDigits (Nat.toDigits 10 n) = (Nat.toDigits 10 n, []) := by
    rw [takeDigits, List.takeWhile_eq_self_iff.mpr hdigits, List.dropWhile_eq_nil_iff.mpr hdigits]
  have hunsigned : unsigned? false (Nat.toDigits 10 n)
      = some ⟨false, Nat.toDigits 10 n, [], 0⟩ := by
    simp only [unsigned?, htake, if_neg hwhole]
    rfl
  rw [toList_toString, parse?.eq_def]
  split
  · rename_i rest hminus
    exact absurd (hdigits '-' (by simp [hminus])) (by decide)
  · rw [hunsigned]
    rfl

end Json.Number

/-! ## Fields that are left out -/

namespace Json

/-- Members without those of some names. -/
def without (left : List String) (members : List (String × Json)) : List (String × Json) :=
  members.filter fun member => member.1 ∉ left

theorem mem_of_mem_without {left : List String} {members : List (String × Json)}
    {member : String × Json} (h : member ∈ without left members) : member ∈ members :=
  (List.mem_filter.mp h).1

theorem lookup_without (left : List String) (members : List (String × Json)) (key : String) :
    (without left members).lookup key = if key ∈ left then none else members.lookup key := by
  induction members with
  | nil => simp [without]
  | cons member rest ih =>
      obtain ⟨name, value⟩ := member
      have hcons : without left ((name, value) :: rest)
          = if name ∈ left then without left rest else (name, value) :: without left rest := by
        by_cases hname : name ∈ left <;> simp [without, hname]
      rw [hcons, List.lookup_cons]
      by_cases hkey : key = name
      · subst hkey
        by_cases hleft : key ∈ left <;> simp [hleft, ih]
      · have hother : (key == name) = false := beq_eq_false_iff_ne.mpr hkey
        by_cases hleft : name ∈ left <;> simp [hleft, hother, ih, List.lookup_cons]

/-- An object is read by its fields also if some of them are left out. -/
theorem exists_fields_without {members : List (String × Json)}
    (hnodup : (members.map Prod.fst).Nodup) (names left : List String) :
    ∃ field : Fields, fields? names (.object (without left members)) = some field ∧
      ∀ name, field name = if name ∈ left then none else members.lookup name := by
  have honce (name : String) : occurrences name (without left members) ≤ 1 := by
    have hone := List.nodup_iff_count_le_one.mp hnodup name
    rw [List.count, List.countP_map] at hone
    exact Nat.le_trans (List.filter_sublist.countP_le) hone
  exact ⟨_, if_pos (List.all_eq_true.mpr fun name _ => decide_eq_true (honce name)),
    lookup_without left members⟩

/-- **A field with a default** is read as the same value whether it is left out or not, if it is
left out only where this value is the default. -/
theorem withDefault_of_left {α : Type} {read? : Json → Option α} {given : Option Json} {v : Json}
    {value base : α} {left : Prop} [Decidable left] (hleft : left → value = base)
    (hgiven : given = if left then none else some v) (hread : read? v = some value) :
    withDefault read? base given = some value := by
  rw [hgiven]
  split
  · rename_i hout
    exact congrArg some (hleft hout).symm
  · exact hread

end Json

/-! ## Options -/

theorem Indentation.ofJson?_toJson (i : Indentation) : ofJson? i.toJson = some i := by
  cases i with
  | tab => rfl
  | spaces width =>
      have hlt : width.toNat < 256 := width.toNat_lt
      rw [toJson, ofJson?, Json.natural?, Number.natural?_toString]
      show (if width.toNat < 256 then some (spaces (UInt8.ofNat width.toNat)) else none) = _
      rw [if_pos hlt, UInt8.ofNat_toNat]

theorem Indentation.isSpelled_toJson (i : Indentation) : i.toJson.isSpelled = true := by
  cases i with
  | tab => rfl
  | spaces width =>
      rw [toJson, isSpelled_object_iff]
      intro key value hmem
      cases List.mem_singleton.mp hmem
      rw [isSpelled]
      exact Number.isSome_parse?_toString width.toNat

theorem LineEnding.ofJson?_toJson (e : LineEnding) : ofJson? e.toJson = some e := by
  cases e <;> rfl

theorem LineEnding.isSpelled_toJson (e : LineEnding) : e.toJson.isSpelled = true := by
  cases e <;> rfl

theorem MissingPolicy.ofJson?_toJson (p : MissingPolicy) : ofJson? p.toJson = some p := by
  cases p <;> rfl

theorem MissingPolicy.isSpelled_toJson (p : MissingPolicy) : p.toJson.isSpelled = true := by
  cases p <;> rfl

namespace Options

/-- The options with their names, as they are written. -/
def toMembers (o : Options) : List (String × Json) :=
  fieldNames.zip [.bool o.declareModule, .bool o.classInsteadOfInterface, o.indent.toJson,
    o.lineEnding.toJson, o.missingReferences.toJson, .bool o.camelCaseTypeNames,
    .bool o.camelCasePropertyNames, .bool o.camelCaseEnumValues, .bool o.amdModuleName,
    .string o.sourceExtension, .string o.generatedSuffix]

theorem toJson_eq (o : Options) : o.toJson = .object o.toMembers := rfl

theorem nodup_keys (o : Options) : (o.toMembers.map Prod.fst).Nodup := by
  have hkeys : o.toMembers.map Prod.fst = fieldNames := rfl
  rw [hkeys]
  decide

/-- Each option that is named holds its default value. -/
structure HoldsDefaults (o : Options) (names : List String) : Prop where
  declareModule : "declareModule" ∈ names → o.declareModule = Options.default.declareModule
  classInsteadOfInterface : "classInsteadOfInterface" ∈ names →
    o.classInsteadOfInterface = Options.default.classInsteadOfInterface
  indent : "indent" ∈ names → o.indent = Options.default.indent
  lineEnding : "lineEnding" ∈ names → o.lineEnding = Options.default.lineEnding
  missingReferences : "missingReferences" ∈ names →
    o.missingReferences = Options.default.missingReferences
  camelCaseTypeNames : "camelCaseTypeNames" ∈ names →
    o.camelCaseTypeNames = Options.default.camelCaseTypeNames
  camelCasePropertyNames : "camelCasePropertyNames" ∈ names →
    o.camelCasePropertyNames = Options.default.camelCasePropertyNames
  camelCaseEnumValues : "camelCaseEnumValues" ∈ names →
    o.camelCaseEnumValues = Options.default.camelCaseEnumValues
  amdModuleName : "amdModuleName" ∈ names → o.amdModuleName = Options.default.amdModuleName
  sourceExtension : "sourceExtension" ∈ names →
    o.sourceExtension = Options.default.sourceExtension
  generatedSuffix : "generatedSuffix" ∈ names →
    o.generatedSuffix = Options.default.generatedSuffix

/-- Options as an object without some of them. -/
def toJsonWithout (o : Options) (left : List String) : Json := .object (without left o.toMembers)

variable {o : Options} {left : List String}

/-- **Options are read** from an object without some of those that hold their defaults. -/
theorem ofJson?_toJsonWithout (h : o.HoldsDefaults left) :
    ofJson? (o.toJsonWithout left) = some o := by
  obtain ⟨field, hfields, hfield⟩ := exists_fields_without o.nodup_keys fieldNames left
  have hgiven {α : Type} {read? : Json → Option α} {name : String} {value base : α} {v : Json}
      (hleft : name ∈ left → value = base) (hlookup : o.toMembers.lookup name = some v)
      (hread : read? v = some value) :
      Json.withDefault read? base (field name) = some value :=
    withDefault_of_left hleft (hlookup ▸ hfield name) hread
  have hindent := hgiven h.indent rfl o.indent.ofJson?_toJson
  have hlineEnding := hgiven h.lineEnding rfl o.lineEnding.ofJson?_toJson
  have hmissing := hgiven h.missingReferences rfl o.missingReferences.ofJson?_toJson
  have hflag {name : String} {value base : Bool} (hleft : name ∈ left → value = base)
      (hlookup : o.toMembers.lookup name = some (.bool value)) :
      Json.withDefault Json.bool? base (field name) = some value := hgiven hleft hlookup rfl
  have htext {name value base : String} (hleft : name ∈ left → value = base)
      (hlookup : o.toMembers.lookup name = some (.string value)) :
      Json.withDefault Json.string? base (field name) = some value := hgiven hleft hlookup rfl
  rw [toJsonWithout, ofJson?, hfields]
  simp [hindent, hlineEnding, hmissing, hflag h.declareModule rfl,
    hflag h.classInsteadOfInterface rfl, hflag h.camelCaseTypeNames rfl,
    hflag h.camelCasePropertyNames rfl, hflag h.camelCaseEnumValues rfl,
    hflag h.amdModuleName rfl, htext h.sourceExtension rfl, htext h.generatedSuffix rfl]

theorem isSpelled_toJsonWithout (o : Options) (left : List String) :
    (o.toJsonWithout left).isSpelled = true := by
  have hspelled : o.toJson.isSpelled = true := by
    simp [toJson, isSpelled, membersSpelled, o.indent.isSpelled_toJson,
      o.lineEnding.isSpelled_toJson, o.missingReferences.isSpelled_toJson]
  rw [toJson_eq, isSpelled_object_iff] at hspelled
  rw [toJsonWithout, isSpelled_object_iff]
  exact fun key value hmem => hspelled key value (mem_of_mem_without hmem)

end Options

/-! ## Configurations -/

namespace Config

/-- Each field that is named holds its default value, and so does each option that is named. -/
structure HoldsDefaults (c : Config) (names optionNames : List String) : Prop where
  emit : "emit" ∈ names → c.emit = Options.default
  outDir : "outDir" ∈ names → c.outDir = none
  options : c.emit.HoldsDefaults optionNames

/-- A configuration as an object without some of its fields and some of its options. -/
def toJsonWithout (c : Config) (left leftOptions : List String) : Json :=
  .object (without left
    (("emit", c.emit.toJsonWithout leftOptions) :: optionalText "outDir" c.outDir))

theorem toJson_eq (c : Config) : c.toJson = c.toJsonWithout [] [] := by
  obtain ⟨emit, outDir⟩ := c
  cases outDir <;>
    simp [toJson, toJsonWithout, Options.toJsonWithout, Options.toJson_eq, without, optionalText]

variable {c : Config} {left leftOptions : List String}

/-- **A configuration is read** from an object without some fields and options that hold their
defaults. -/
theorem ofJson?_toJsonWithout (h : c.HoldsDefaults left leftOptions) :
    ofJson? (c.toJsonWithout left leftOptions) = some c := by
  have hnodup : ((("emit", c.emit.toJsonWithout leftOptions)
      :: optionalText "outDir" c.outDir).map Prod.fst).Nodup := by
    cases c.outDir <;> simp [optionalText]
  obtain ⟨field, hfields, hfield⟩ := exists_fields_without hnodup ["emit", "outDir"] left
  have hemit : Json.withDefault Options.ofJson? Options.default (field "emit") = some c.emit :=
    withDefault_of_left h.emit (hfield "emit") (Options.ofJson?_toJsonWithout h.options)
  have houtDir : Json.optional Json.string? (field "outDir") = some c.outDir := by
    rw [hfield]
    cases hdir : c.outDir with
    | none => simp [optionalText, Json.optional, List.lookup_cons]
    | some dir =>
        have hgiven : "outDir" ∉ left := fun hleft => by simp [h.outDir hleft] at hdir
        rw [if_neg hgiven]
        rfl
  rw [toJsonWithout, ofJson?, hfields]
  simp [hemit, houtDir]

theorem isSpelled_toJsonWithout (c : Config) (left leftOptions : List String) :
    (c.toJsonWithout left leftOptions).isSpelled = true := by
  rw [toJsonWithout, isSpelled_object_iff]
  intro key value hmem
  rcases List.mem_cons.mp (mem_of_mem_without hmem) with hfirst | hrest
  · cases hfirst
    exact c.emit.isSpelled_toJsonWithout leftOptions
  · cases hdir : c.outDir with
    | none => simp [hdir, optionalText] at hrest
    | some dir =>
        rw [hdir] at hrest
        cases List.mem_singleton.mp hrest
        rfl

/-- **A configuration is read from its text** in both layouts, also without some fields and
options that hold their defaults. -/
theorem parse?_toJsonWithout (h : c.HoldsDefaults left leftOptions) :
    parse? (c.toJsonWithout left leftOptions).compact = some c ∧
      parse? (c.toJsonWithout left leftOptions).indented = some c := by
  have hspelled := c.isSpelled_toJsonWithout left leftOptions
  have hread := ofJson?_toJsonWithout h
  rw [parse?, parse?, parse?_compact hspelled, parse?_indented hspelled]
  exact ⟨hread, hread⟩

theorem holdsDefaults_nil (c : Config) : c.HoldsDefaults [] [] :=
  ⟨by simp, by simp, by constructor <;> simp⟩

/-- **A configuration is read as it was written.** -/
theorem parse?_write (c : Config) :
    parse? c.write = some c ∧ parse? c.writeIndented = some c := by
  rw [write, writeIndented, toJson_eq]
  exact parse?_toJsonWithout c.holdsDefaults_nil

end Config

end Typings
