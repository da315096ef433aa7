import Typings.Import.Resolve
import Typings.Proofs.Descriptor.Grouping
import Typings.Proofs.Draft.Comments

/-!
# What documentation leaves alone

Documentation stands in summaries: of declared types, of members, and of the members of inline
types at any depth. Of all that a body is made of, a summary goes into comments, and the summary
of a declared type may carry the choice to leave out its base. So the names of a body, the files
that are searched for imports and the draft of the body without its comments are the same for
descriptors that differ in nothing but documentation.

## Main definitions

* `Descriptor.undocumented` — a type without any summary.
* `Descriptor.bare` — a type of whose summaries only the choice is left.

## Main results

* `Body.bare_draft_bare` — the draft of a body without its comments.
* `resolveImports_bare` — the search for imports.
* `Body.lined_draft` — each comment of a body starts a line.
-/

namespace Typings

/-! ## Members without documentation -/

mutual

/-- A type whose inline types have no summaries. -/
def ValueType.undocumented : ValueType → ValueType
  | ⟨kind, referenceName⟩ => ⟨kind.undocumented, referenceName⟩

/-- A kind whose inline types have no summaries. -/
def ValueKind.undocumented : ValueKind → ValueKind
  | .known name => .known name
  | .array item => .array item.undocumented
  | .dictionary text => .dictionary text
  | .shape members => .shape (membersUndocumented members)
  | .unknown => .unknown

/-- A member without summaries. -/
def Member.undocumented : Member → Member
  | ⟨name, optional, _, initializer, type⟩ =>
    ⟨name, optional, none, initializer, type.undocumented⟩

/-- Some members without summaries. -/
def membersUndocumented : List Member → List Member
  | [] => []
  | m :: rest => m.undocumented :: membersUndocumented rest

end

theorem membersUndocumented_eq_map (members : List Member) :
    membersUndocumented members = members.map Member.undocumented := by
  induction members with
  | nil => rfl
  | cons m rest ih => rw [membersUndocumented, ih, List.map_cons]

theorem Member.undocumented_mem {members : List Member} {m : Member} (hm : m ∈ members) :
    m.undocumented ∈ membersUndocumented members := by
  rw [membersUndocumented_eq_map]
  exact List.mem_map_of_mem hm

mutual

theorem ValueType.isDictionary_undocumented :
    (type : ValueType) → type.undocumented.isDictionary = type.isDictionary
  | ⟨kind, _⟩ => by
      rw [ValueType.undocumented, ValueType.isDictionary, ValueType.isDictionary]
      exact ValueKind.isDictionary_undocumented kind

theorem ValueKind.isDictionary_undocumented :
    (kind : ValueKind) → kind.undocumented.isDictionary = kind.isDictionary
  | .known _ => rfl
  | .array item => by
      rw [ValueKind.undocumented, ValueKind.isDictionary, ValueKind.isDictionary]
      exact ValueType.isDictionary_undocumented item
  | .dictionary _ => rfl
  | .shape _ => rfl
  | .unknown => rfl

end

theorem ValueKind.refers_undocumented (kind : ValueKind) (referenceName : Option String) :
    kind.undocumented.refers referenceName = kind.refers referenceName := by
  rw [ValueKind.refers, ValueKind.refers, ValueKind.isDictionary_undocumented]

mutual

theorem ValueType.referenceNames_undocumented :
    (type : ValueType) → type.undocumented.referenceNames = type.referenceNames
  | ⟨kind, referenceName⟩ => by
      rw [ValueType.undocumented, ValueType.referenceNames, ValueType.referenceNames,
        ValueKind.isDictionary_undocumented, ValueKind.referenceNames_undocumented kind]

theorem ValueKind.referenceNames_undocumented :
    (kind : ValueKind) → kind.undocumented.referenceNames = kind.referenceNames
  | .known _ => rfl
  | .array item => by
      rw [ValueKind.undocumented, ValueKind.referenceNames, ValueKind.referenceNames]
      exact ValueType.referenceNames_undocumented item
  | .dictionary _ => rfl
  | .shape members => by
      rw [ValueKind.undocumented, ValueKind.referenceNames, ValueKind.referenceNames]
      exact membersReferenceNames_undocumented members
  | .unknown => rfl

theorem Member.referenceNames_undocumented :
    (m : Member) → m.undocumented.referenceNames = m.referenceNames
  | ⟨_, _, _, _, type⟩ => by
      rw [Member.undocumented, Member.referenceNames, Member.referenceNames]
      exact ValueType.referenceNames_undocumented type

theorem membersReferenceNames_undocumented :
    (members : List Member) →
      membersReferenceNames (membersUndocumented members) = membersReferenceNames members
  | [] => rfl
  | m :: rest => by
      rw [membersUndocumented, membersReferenceNames, membersReferenceNames,
        Member.referenceNames_undocumented m, membersReferenceNames_undocumented rest]

end

section Drafts

variable (o : Options)

mutual

theorem ValueType.bare_draft :
    (type : ValueType) → (type.draft o).bare = type.undocumented.draft o
  | ⟨kind, referenceName⟩ => by
      rw [ValueType.undocumented, ValueType.draft, ValueType.draft,
        ValueKind.refers_undocumented]
      exact ValueKind.bare_draft (kind.refers referenceName) kind

theorem ValueKind.bare_draft (isReference : Bool) :
    (kind : ValueKind) → (kind.draft o isReference).bare = kind.undocumented.draft o isReference
  | .known name => by
      rw [ValueKind.undocumented, ValueKind.draft]
      rfl
  | .array ⟨kind, referenceName⟩ => by
      rw [ValueKind.undocumented, ValueType.undocumented, ValueKind.draft, ValueKind.draft,
        ValueKind.refers_undocumented, Draft.bare_append, ValueKind.bare_draft _ kind]
      rfl
  | .dictionary text => by
      rw [ValueKind.undocumented, ValueKind.draft]
      rfl
  | .shape members => by
      rw [ValueKind.undocumented, ValueKind.draft, ValueKind.draft, Draft.bare_append,
        Draft.bare_append, bare_membersDraft members]
      rfl
  | .unknown => by
      rw [ValueKind.undocumented, ValueKind.draft]
      rfl

theorem Member.bare_draft : (m : Member) → (m.draft o).bare = m.undocumented.draft o
  | ⟨name, optional, summary, initializer, type⟩ => by
      rw [Member.undocumented, Member.draft, Member.draft, Draft.bare_append, Draft.bare_append,
        ValueType.bare_draft type]
      rfl

/-- Dropping the summaries of members drops them in the draft, at any depth. -/
theorem bare_membersDraft :
    (members : List Member) →
      (membersDraft o members).bare = membersDraft o (membersUndocumented members)
  | [] => rfl
  | m :: rest => by
      rw [membersUndocumented, membersDraft, membersDraft, Draft.bare_append,
        Member.bare_draft m, bare_membersDraft rest]

end

theorem Member.bare_constantDraft :
    (m : Member) → (m.constantDraft o).bare = m.undocumented.constantDraft o
  | ⟨_, _, _, _, _⟩ => rfl

/-! ## Comments start lines -/

/-- The members of an inline type start on a line of their own. -/
theorem lined_braces {before : Bool} {members closing : Draft}
    (h : members.Lined true) (hclosing : closing.Lined (members.startsLine true)) :
    ([.add "\x7b", .newline, .indent] ++ members ++ closing : Draft).Lined before := by
  rw [List.append_assoc]
  refine Draft.lined_append trivial ?_
  exact Draft.lined_append h hclosing

mutual

theorem ValueType.lined_draft (before : Bool) :
    (type : ValueType) → (type.draft o).Lined before
  | ⟨kind, referenceName⟩ => by
      rw [ValueType.draft]
      exact ValueKind.lined_draft before (kind.refers referenceName) kind

theorem ValueKind.lined_draft (before isReference : Bool) :
    (kind : ValueKind) → (kind.draft o isReference).Lined before
  | .known _ => by
      rw [ValueKind.draft]
      exact trivial
  | .array ⟨kind, _⟩ => by
      rw [ValueKind.draft]
      exact Draft.lined_append (ValueKind.lined_draft before _ kind) trivial
  | .dictionary _ => by
      rw [ValueKind.draft]
      exact trivial
  | .shape members => by
      rw [ValueKind.draft]
      exact lined_braces (lined_membersDraft members).1 trivial
  | .unknown => by
      rw [ValueKind.draft]
      exact trivial

theorem Member.lined_draft :
    (m : Member) → (m.draft o).Lined true ∧ (m.draft o).startsLine true = true
  | ⟨name, optional, summary, initializer, type⟩ => by
      rw [Member.draft]
      constructor
      · refine Draft.lined_append ?_ trivial
        exact Draft.lined_append ⟨rfl, trivial⟩ (ValueType.lined_draft false type)
      · rw [Draft.startsLine_append]
        rfl

theorem lined_membersDraft :
    (members : List Member) →
      (membersDraft o members).Lined true ∧ (membersDraft o members).startsLine true = true
  | [] => ⟨trivial, rfl⟩
  | m :: rest => by
      obtain ⟨hm, hstart⟩ := Member.lined_draft m
      obtain ⟨hrest, hend⟩ := lined_membersDraft rest
      rw [membersDraft, Draft.startsLine_append, hstart]
      exact ⟨Draft.lined_append hm (by rwa [hstart]), hend⟩

end

end Drafts

/-! ## Declared types without documentation -/

/-- The shortest summary that asks to leave out the base. -/
def Summary.ignoring : String := marker ++ ignoreBase

theorem Summary.ignoresBase_ignoring : ignoresBase (some ignoring) = true := by decide +kernel

namespace Descriptor

/-- A declared type without summaries. -/
def undocumented (d : Descriptor) : Descriptor :=
  { d with summary := none, members := membersUndocumented d.members }

/-- A declared type of whose summaries only the choice is left to leave out the base. -/
def bare (d : Descriptor) : Descriptor :=
  { d.undocumented with
    summary := if Summary.ignoresBase d.summary then some Summary.ignoring else none }

/-- Types that agree in everything but documentation, and in the choice, leave the same type. -/
theorem map_bare_eq {types types' : List Descriptor}
    (hcode : types.map undocumented = types'.map undocumented)
    (hchoice : types.map (Summary.ignoresBase ·.summary)
      = types'.map (Summary.ignoresBase ·.summary)) :
    types.map bare = types'.map bare := by
  induction types generalizing types' with
  | nil =>
      have hnil : types' = [] := List.map_eq_nil_iff.mp hcode.symm
      rw [hnil]
  | cons d rest ih =>
      cases types' with
      | nil => simp at hcode
      | cons d' rest' =>
          obtain ⟨hd, hrest⟩ := List.cons.inj hcode
          obtain ⟨hd', hrest'⟩ := List.cons.inj hchoice
          have hbare : d.bare = d'.bare := by
            have hsame : Summary.ignoresBase d.summary = Summary.ignoresBase d'.summary := hd'
            rw [bare, bare, hd, hsame]
          rw [List.map_cons, List.map_cons, hbare, ih hrest hrest']

theorem ignoresBase_bare (d : Descriptor) :
    Summary.ignoresBase d.bare.summary = Summary.ignoresBase d.summary := by
  show Summary.ignoresBase (if Summary.ignoresBase d.summary then _ else none) = _
  cases h : Summary.ignoresBase d.summary with
  | true => exact Summary.ignoresBase_ignoring
  | false => rfl

theorem extendedBase?_bare (d : Descriptor) : d.bare.extendedBase? = d.extendedBase? := by
  rw [extendedBase?, extendedBase?, ignoresBase_bare]
  rfl

theorem slot_bare (d : Descriptor) : d.bare.slot = d.slot := by
  rw [slot, slot, extendedBase?_bare]

theorem referenceNames_bare (d : Descriptor) : d.bare.referenceNames = d.referenceNames := by
  show (if d.isEnum then [] else membersReferenceNames (membersUndocumented d.members)) = _
  rw [membersReferenceNames_undocumented]
  rfl

theorem bare_constants (o : Options) (d : Descriptor) :
    Draft.bare (d.bare.members.flatMap (Member.constantDraft o))
      = Draft.bare (d.members.flatMap (Member.constantDraft o)) := by
  have hmembers : d.bare.members = d.members.map Member.undocumented :=
    membersUndocumented_eq_map d.members
  rw [hmembers, List.flatMap_map, Draft.bare_flatMap, Draft.bare_flatMap]
  congr 1
  funext m
  rw [← Member.bare_constantDraft, Draft.bare_bare]

theorem bare_members (o : Options) (d : Descriptor) :
    Draft.bare (membersDraft o d.bare.members) = Draft.bare (membersDraft o d.members) := by
  have hmembers : d.bare.members = membersUndocumented d.members := rfl
  rw [hmembers, ← bare_membersDraft, Draft.bare_bare]

/-- Without its comments, a declaration is the one of the bare type. -/
theorem bare_draft (o : Options) (modifier : String) (d : Descriptor) :
    Draft.bare (d.bare.draft o modifier) = Draft.bare (d.draft o modifier) := by
  have henum : d.bare.isEnum = d.isEnum := rfl
  rw [draft, draft, henum]
  split
  · rw [enumDraft, enumDraft]
    simp only [Draft.bare_append, bare_constants]
    rfl
  · rw [interfaceDraft, interfaceDraft, blockDraft, blockDraft, slot_bare]
    simp only [Draft.bare_append, bare_members]
    rfl

theorem lined_constants (o : Options) (members : List Member) :
    Draft.Lined true (members.flatMap (Member.constantDraft o)) ∧
      Draft.startsLine true (members.flatMap (Member.constantDraft o)) = true :=
  Draft.lined_flatMap fun _ _ => ⟨⟨rfl, trivial⟩, rfl⟩

/-- Each comment of a declaration starts a line, and a line starts behind it. -/
theorem lined_draft (o : Options) (modifier : String) (d : Descriptor) :
    (d.draft o modifier).Lined true ∧ (d.draft o modifier).startsLine true = true := by
  rw [draft]
  split
  · obtain ⟨hconstants, hstart⟩ := lined_constants o d.members
    rw [enumDraft, List.append_assoc]
    constructor
    · refine Draft.lined_append ?_ trivial
      refine Draft.lined_append ⟨rfl, trivial⟩ ?_
      exact hconstants
    · rw [Draft.startsLine_append]
      rfl
  · have hmembers := lined_membersDraft o d.members
    have hblock (before : Bool) : (d.blockDraft o).Lined before := by
      rw [blockDraft, List.append_assoc]
      exact lined_braces hmembers.1 trivial
    have hslot (before : Bool) : d.slot.Lined before := by
      rw [slot]
      split <;> exact trivial
    rw [interfaceDraft]
    constructor
    · refine Draft.lined_append ?_ (hblock _)
      exact Draft.lined_append ⟨rfl, trivial⟩ (hslot _)
    · rw [Draft.startsLine_append, blockDraft, Draft.startsLine_append]
      rfl

/-! ## Lists of types -/

variable (types : List Descriptor)

theorem scopes_map_bare : scopes (types.map bare) = scopes types := by
  rw [scopes, scopes, List.map_map]
  rfl

theorem ofScope_map_bare (scope : String) :
    ofScope (types.map bare) scope = (ofScope types scope).map bare := by
  rw [ofScope, ofScope, List.filter_map]
  rfl

theorem renderOrder_map_bare : renderOrder (types.map bare) = (renderOrder types).map bare := by
  rw [renderOrder, renderOrder, groups, groups, scopes_map_bare, List.flatMap_map,
    List.flatMap_map, List.map_flatMap]
  congr 1
  funext scope
  exact ofScope_map_bare types scope

end Descriptor

theorem Names.ofTypes_bare (o : Options) (types : List Descriptor) :
    Names.ofTypes o (types.map Descriptor.bare) = Names.ofTypes o types := by
  have hnames : (fun d => o.typeName d.name) ∘ Descriptor.bare = fun d => o.typeName d.name := rfl
  have hreferences : (fun d => d.bare.referenceNames) = Descriptor.referenceNames :=
    funext Descriptor.referenceNames_bare
  have hbases : Descriptor.extendedBase? ∘ Descriptor.bare = Descriptor.extendedBase? :=
    funext Descriptor.extendedBase?_bare
  rw [Names.ofTypes, Names.ofTypes, Descriptor.renderOrder_map_bare]
  simp only [List.map_map, List.flatMap_map, List.filterMap_map, hnames, hreferences, hbases]

theorem resolveImports_bare (o : Options) (types : List Descriptor) (names : Names)
    (source : Path) (isFile : Path → Bool) :
    resolveImports o (types.map Descriptor.bare) names source isFile
      = resolveImports o types names source isFile := by
  have hfiles : referencedFiles (types.map Descriptor.bare) = referencedFiles types := by
    rw [referencedFiles, referencedFiles, List.flatMap_map]
    rfl
  rw [resolveImports, resolveImports, hfiles]

namespace Body

variable (o : Options) (types : List Descriptor)

theorem clauses_bare :
    (render o (types.map Descriptor.bare)).clauses = (render o types).clauses := by
  have hlist : clauseList o (types.map Descriptor.bare) = clauseList o types := by
    rw [clauseList, clauseList, Descriptor.renderOrder_map_bare, List.filterMap_map]
    congr 1
    funext d
    show d.bare.extendedBase?.map _ = _
    rw [Descriptor.extendedBase?_bare]
    rfl
  show Extends.Registry.empty.registerAll _ = Extends.Registry.empty.registerAll _
  rw [hlist]

theorem bare_enclose (scope : String) (declarations : Draft) :
    Draft.bare (enclose o scope declarations) = enclose o scope (Draft.bare declarations) := by
  rw [enclose, enclose]
  split
  · simp only [Draft.bare_append]
    rfl
  · rfl

/-- **Without its comments, the draft of a body is the one for the bare types.** -/
theorem bare_draft_bare :
    Draft.bare (draft o (types.map Descriptor.bare)) = Draft.bare (draft o types) := by
  rw [draft, draft, Descriptor.groups, Descriptor.groups, Descriptor.scopes_map_bare,
    List.flatMap_map, List.flatMap_map, Draft.bare_flatMap, Draft.bare_flatMap]
  congr 1
  funext scope
  show Draft.bare (scopeDraft o scope _) = Draft.bare (scopeDraft o scope _)
  rw [Descriptor.ofScope_map_bare, scopeDraft, scopeDraft, bare_enclose, bare_enclose,
    List.flatMap_map, Draft.bare_flatMap, Draft.bare_flatMap]
  congr 2
  funext d
  exact Descriptor.bare_draft o _ d

theorem lined_enclose {scope : String} {declarations : Draft}
    (h : declarations.Lined true ∧ declarations.startsLine true = true) :
    (enclose o scope declarations).Lined true ∧
      (enclose o scope declarations).startsLine true = true := by
  rw [enclose]
  split
  · rw [List.append_assoc, List.append_assoc]
    constructor
    · refine Draft.lined_append trivial ?_
      exact Draft.lined_append h.1 trivial
    · rw [← List.append_assoc, Draft.startsLine_append]
      rfl
  · exact h

/-- **Each comment of a body starts a line.** -/
theorem lined_draft : (draft o types).Lined true := by
  refine (Draft.lined_flatMap fun ⟨scope, members⟩ _ => ?_).1
  exact lined_enclose o (Draft.lined_flatMap fun d _ => Descriptor.lined_draft o _ d)

end Body

end Typings
