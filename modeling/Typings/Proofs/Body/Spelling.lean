import Typings.Body

/-!
# The options that a body depends on

A body depends on few of the options: on the way in which names are spelled, on the keyword of
its declarations and on whether it declares modules. Members depend on the spelling alone. The
layout, the names of files and the policy for what is missing have no influence on it.

## Main results

* `membersDraft_congr` — members under options that spell names alike.
* `Body.render_congr` — bodies under options that write alike.
-/

namespace Typings

/-- Both options spell names in the same way. -/
structure Options.SpellAlike (o o' : Options) : Prop where
  types : o.camelCaseTypeNames = o'.camelCaseTypeNames
  properties : o.camelCasePropertyNames = o'.camelCasePropertyNames
  constants : o.camelCaseEnumValues = o'.camelCaseEnumValues

/-- Both options write the same body. -/
structure Options.WriteAlike (o o' : Options) : Prop extends o.SpellAlike o' where
  keyword : o.classInsteadOfInterface = o'.classInsteadOfInterface
  modules : o.declareModule = o'.declareModule

section

variable {o o' : Options}

theorem Options.typeName_congr (h : o.camelCaseTypeNames = o'.camelCaseTypeNames) :
    o.typeName = o'.typeName := by
  funext name
  rw [typeName, typeName, h]

theorem Options.SpellAlike.typeName (h : o.SpellAlike o') : o.typeName = o'.typeName :=
  typeName_congr h.types

theorem Options.SpellAlike.propertyName (h : o.SpellAlike o') :
    o.propertyName = o'.propertyName := by
  funext name
  rw [Options.propertyName, Options.propertyName, h.properties]

theorem Options.SpellAlike.constantName (h : o.SpellAlike o') :
    o.constantName = o'.constantName := by
  funext name
  rw [Options.constantName, Options.constantName, h.constants]

/-! ## Members -/

mutual

theorem ValueType.draft_congr (h : o.SpellAlike o') :
    (type : ValueType) → type.draft o = type.draft o'
  | ⟨kind, referenceName⟩ => by
      rw [ValueType.draft, ValueType.draft]
      exact ValueKind.draft_congr h _ kind

theorem ValueKind.draft_congr (h : o.SpellAlike o') (isReference : Bool) :
    (kind : ValueKind) → kind.draft o isReference = kind.draft o' isReference
  | .known name => by
      rw [ValueKind.draft, ValueKind.draft, h.typeName]
  | .array ⟨kind, referenceName⟩ => by
      rw [ValueKind.draft, ValueKind.draft, ValueKind.draft_congr h _ kind]
  | .dictionary _ => by
      rw [ValueKind.draft, ValueKind.draft]
  | .shape members => by
      rw [ValueKind.draft, ValueKind.draft, membersDraft_congr h members]
  | .unknown => by
      rw [ValueKind.draft, ValueKind.draft]

theorem Member.draft_congr (h : o.SpellAlike o') : (m : Member) → m.draft o = m.draft o'
  | ⟨name, optional, summary, initializer, type⟩ => by
      rw [Member.draft, Member.draft, h.propertyName, ValueType.draft_congr h type]

/-- Members are written alike under options that spell names alike. -/
theorem membersDraft_congr (h : o.SpellAlike o') :
    (members : List Member) → membersDraft o members = membersDraft o' members
  | [] => rfl
  | m :: rest => by
      rw [membersDraft, membersDraft, Member.draft_congr h m, membersDraft_congr h rest]

end

theorem Member.constantDraft_congr (h : o.SpellAlike o') :
    Member.constantDraft o = Member.constantDraft o' := by
  funext m
  rw [Member.constantDraft, Member.constantDraft, h.constantName]

/-! ## Declarations -/

namespace Descriptor

theorem extendsClause_congr (h : o.SpellAlike o') (d : Descriptor) :
    d.extendsClause o = d.extendsClause o' := by
  funext base
  rw [extendsClause, extendsClause, h.typeName]

theorem enumDraft_congr (h : o.SpellAlike o') (modifier : String) (d : Descriptor) :
    d.enumDraft o modifier = d.enumDraft o' modifier := by
  rw [enumDraft, enumDraft, h.typeName, Member.constantDraft_congr h]

theorem interfaceDraft_congr (h : o.SpellAlike o')
    (hkeyword : o.classInsteadOfInterface = o'.classInsteadOfInterface) (modifier : String)
    (d : Descriptor) : d.interfaceDraft o modifier = d.interfaceDraft o' modifier := by
  rw [interfaceDraft, interfaceDraft, headerDraft, headerDraft, blockDraft, blockDraft, keyword,
    keyword, hkeyword, h.typeName, membersDraft_congr h]

theorem draft_congr (h : o.SpellAlike o')
    (hkeyword : o.classInsteadOfInterface = o'.classInsteadOfInterface) (modifier : String) :
    Descriptor.draft o modifier = Descriptor.draft o' modifier := by
  funext d
  rw [draft, draft, enumDraft_congr h, interfaceDraft_congr h hkeyword]

end Descriptor

/-! ## Bodies -/

theorem Names.ofTypes_congr (h : o.SpellAlike o') (types : List Descriptor) :
    Names.ofTypes o types = Names.ofTypes o' types := by
  rw [Names.ofTypes, Names.ofTypes, h.typeName]

namespace Body

theorem draft_congr (h : o.WriteAlike o') (types : List Descriptor) :
    draft o types = draft o' types := by
  rw [draft, draft]
  congr 1
  funext ⟨scope, members⟩
  show scopeDraft o scope members = scopeDraft o' scope members
  rw [scopeDraft, scopeDraft, modifier, modifier, enclose, enclose, isWrapped, isWrapped,
    h.modules, Descriptor.draft_congr h.toSpellAlike h.keyword]

theorem clauseList_congr (h : o.SpellAlike o') (types : List Descriptor) :
    clauseList o types = clauseList o' types := by
  rw [clauseList, clauseList]
  congr 1
  funext d
  rw [Descriptor.extendsClause_congr h]

/-- **A body depends on spelling, keyword and modules only.** -/
theorem render_congr (h : o.WriteAlike o') (types : List Descriptor) :
    render o types = render o' types := by
  rw [render, render, draft_congr h, clauseList_congr h.toSpellAlike,
    Names.ofTypes_congr h.toSpellAlike]

end Body

end

end Typings
