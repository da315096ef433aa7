import Mathlib.Data.List.Basic
import Typings.Body

/-!
# The body in one pass

A body can also be rendered in one pass over the descriptors. The pass writes the declarations and
takes down the names and the clauses that it comes across, each where it writes. It goes through
an array in two ways: an array that is reached by reference hands the reference on to items without
a name of their own, and every other item is looked at anew.

All that the pass does is to add to what it has. So what a part of it adds can be said by a record:
a draft, clauses, and the names of each kind, in order. Records are put one behind the other like
drafts, and the record of a whole body is the body.

## Main definitions

* `Renderer` — what the pass holds, with one function for each kind of declaration.
* `Renderer.Record` — what a part of the pass adds, and `Renderer.after`, the pass behind it.

## Main results

* `Renderer.after_append` — one record behind the other.
* `Renderer.ofType_eq`, `Renderer.ofMembers_eq` — what the pass adds for types of members.
* `Renderer.body_eq_render` — the pass renders the body.
-/

namespace Typings

/-- What a pass over descriptors holds. -/
structure Renderer where
  /-- What has been written, with tokens for extends clauses. -/
  writer : Writer
  /-- The clauses for the bases that have come up. -/
  clauses : Extends.Registry
  /-- The names that have come up. -/
  names : Names

namespace Renderer

/-! ## The pass -/

/-- Nothing has been written and nothing has come up. -/
def empty : Renderer := ⟨.empty, .empty, ⟨.empty, .empty, .empty⟩⟩

/-- Write something. -/
def write (r : Renderer) (draft : Draft) : Renderer :=
  { r with writer := draft.write Extends.token r.writer }

/-- Take down the name of a declared type. -/
def declare (r : Renderer) (name : String) : Renderer :=
  { r with names := { r.names with declared := r.names.declared.insert name } }

/-- Take down a name that a member refers to. -/
def refer (r : Renderer) (name : String) : Renderer :=
  { r with names := { r.names with referenced := r.names.referenced.insert name } }

/-- Take down a base and the clause for it. -/
def extend (r : Renderer) (base clause : String) : Renderer :=
  { r with
    clauses := r.clauses.register base clause
    names := { r.names with bases := r.names.bases.insert base } }

mutual

/-- Write a type, and take down the name that it refers to. Dictionaries refer to nothing. -/
def ofType (o : Options) (r : Renderer) : ValueType → Renderer
  | ⟨kind, referenceName⟩ =>
    match referenceName.filter fun _ => !kind.isDictionary with
    | some name => ofKind o true (r.refer (o.typeName name)) kind
    | none => ofKind o false r kind

/-- Write a kind, which may be reached by reference. -/
def ofKind (o : Options) (isReference : Bool) (r : Renderer) : ValueKind → Renderer
  | .known name => r.write [.add (if isReference then o.typeName name else name)]
  | .array ⟨kind, referenceName⟩ =>
    -- Only an item without a name is still reached by the same reference.
    let item :=
      if isReference && referenceName.isNone then ofKind o true r kind
      else ofType o r ⟨kind, referenceName⟩
    item.write [.add "[]"]
  | .dictionary text => r.write [.add text]
  | .shape members =>
    (ofMembers o (r.write [.add "\x7b", .newline, .indent]) members).write
      [.dedent, .addIndented "\x7d"]
  | .unknown => r.write [.add "any"]

/-- Write a property. -/
def ofMember (o : Options) (r : Renderer) : Member → Renderer
  | ⟨name, optional, summary, initializer, type⟩ =>
    let label := Member.label ⟨name, optional, summary, initializer, type⟩
    let labelled := r.write [.comment summary, .addIndented (o.propertyName label ++ ": ")]
    (ofType o labelled type).write [.add ";", .newline]

/-- Write some properties. -/
def ofMembers (o : Options) (r : Renderer) : List Member → Renderer
  | [] => r
  | m :: rest => ofMembers o (ofMember o r m) rest

end

/-- Write an enumeration. Its members are constants. -/
def ofEnum (o : Options) (modifier : String) (r : Renderer) (d : Descriptor) : Renderer :=
  let name := o.typeName d.name
  let header := Draft.line (modifier ++ "const enum " ++ name ++ " \x7b")
  let opened := ((r.write (.comment d.summary :: header)).declare name).write [.indent]
  let filled := d.members.foldl (fun r m => r.write (m.constantDraft o)) opened
  filled.write (.dedent :: Draft.line "\x7d")

/-- Write the slot for the base of an interface or class, if it has one that it does not ask to
leave out, and take the base down. -/
def ofBase (o : Options) (r : Renderer) (d : Descriptor) : Renderer :=
  match d.base.filter (· ≠ "") with
  | some base =>
    if Summary.ignoresBase d.summary then r
    else (r.write [.slot base]).extend base (d.extendsClause o base)
  | none => r

/-- Write an interface or class. -/
def ofInterface (o : Options) (modifier : String) (r : Renderer) (d : Descriptor) : Renderer :=
  let declared := (r.write (d.headerDraft o modifier)).declare (o.typeName d.name)
  let opened := (ofBase o declared d).write [.add "\x7b", .newline, .indent]
  (ofMembers o opened d.members).write (.dedent :: Draft.line "\x7d")

/-- Write a declared type. -/
def ofDescriptor (o : Options) (modifier : String) (r : Renderer) (d : Descriptor) : Renderer :=
  if d.isEnum then ofEnum o modifier r d else ofInterface o modifier r d

/-- Write the declarations of a namespace. -/
def ofGroup (o : Options) (r : Renderer) (group : String × List Descriptor) : Renderer :=
  let declarations (r : Renderer) := group.2.foldl (ofDescriptor o (Body.modifier o group.1)) r
  if Body.isWrapped o group.1 then
    (declarations (r.write
      (Draft.line ("declare module " ++ group.1 ++ " \x7b") ++ [.indent]))).write
        (.dedent :: Draft.line "\x7d")
  else declarations r

/-- The body for some descriptors. -/
def body (o : Options) (types : List Descriptor) : Body :=
  let r := (Descriptor.groups types).foldl (ofGroup o) empty
  ⟨r.writer.text, r.clauses, r.names⟩

/-! ## Records -/

/-- What a part of the pass adds. -/
structure Record where
  /-- What is written. -/
  draft : Draft := []
  /-- The clauses, each with its base. -/
  clauses : List (String × String) := []
  /-- The names that are declared. -/
  declared : List String := []
  /-- The names that are referred to. -/
  referenced : List String := []
  /-- The bases. -/
  bases : List String := []

/-- One record behind the other. -/
def Record.append (a b : Record) : Record where
  draft := a.draft ++ b.draft
  clauses := a.clauses ++ b.clauses
  declared := a.declared ++ b.declared
  referenced := a.referenced ++ b.referenced
  bases := a.bases ++ b.bases

instance : Append Record := ⟨Record.append⟩

/-- The records of some parts, one behind the other. -/
def Record.flatMap {α : Type} (f : α → Record) (xs : List α) : Record where
  draft := xs.flatMap fun x => (f x).draft
  clauses := xs.flatMap fun x => (f x).clauses
  declared := xs.flatMap fun x => (f x).declared
  referenced := xs.flatMap fun x => (f x).referenced
  bases := xs.flatMap fun x => (f x).bases

/-- The pass behind a part that adds a record. -/
def after (r : Renderer) (a : Record) : Renderer where
  writer := a.draft.write Extends.token r.writer
  clauses := r.clauses.registerAll a.clauses
  names :=
    { declared := a.declared.foldl .insert r.names.declared
      referenced := a.referenced.foldl .insert r.names.referenced
      bases := a.bases.foldl .insert r.names.bases }

/-- **One record behind the other** is added as a whole. -/
theorem after_append (r : Renderer) (a b : Record) : r.after (a ++ b) = (r.after a).after b := by
  have happend : a ++ b = a.append b := rfl
  simp only [happend, after, Record.append, Draft.write_append, Extends.Registry.registerAll,
    List.foldl_append]

theorem after_flatMap {α : Type} {step : Renderer → α → Renderer} {f : α → Record} {xs : List α}
    (h : ∀ x ∈ xs, ∀ r, step r x = r.after (f x)) (r : Renderer) :
    xs.foldl step r = r.after (.flatMap f xs) := by
  induction xs generalizing r with
  | nil => rfl
  | cons x rest ih =>
      have hcons : Record.flatMap f (x :: rest) = f x ++ Record.flatMap f rest := rfl
      rw [List.foldl_cons, h x List.mem_cons_self, hcons, after_append]
      exact ih (fun y hy => h y (List.mem_cons_of_mem _ hy)) _

/-! ## Members -/

/-- What a part adds that writes a draft and refers to some names. -/
def Record.ofPart (o : Options) (draft : Draft) (names : List String) : Record where
  draft := draft
  referenced := names.map o.typeName

theorem Record.ofPart_append (o : Options) (a b : Draft) (xs ys : List String) :
    ofPart o a xs ++ ofPart o b ys = ofPart o (a ++ b) (xs ++ ys) := by
  have hnames : (xs ++ ys).map o.typeName = xs.map o.typeName ++ ys.map o.typeName :=
    List.map_append
  show (ofPart o a xs).append (ofPart o b ys) = ⟨a ++ b, [], [], (xs ++ ys).map o.typeName, []⟩
  rw [hnames]
  rfl

theorem write_after (o : Options) (r : Renderer) (a b : Draft) (names : List String) :
    (r.after (.ofPart o a names)).write b = r.after (.ofPart o (a ++ b) names) := by
  have hwrite : (r.after (.ofPart o a names)).write b
      = (r.after (.ofPart o a names)).after (.ofPart o b []) := rfl
  rw [hwrite, ← after_append, Record.ofPart_append, List.append_nil]

theorem after_write (o : Options) (r : Renderer) (a b : Draft) (names : List String) :
    (r.write a).after (.ofPart o b names) = r.after (.ofPart o (a ++ b) names) := by
  have hwrite : r.write a = r.after (.ofPart o a []) := rfl
  rw [hwrite, ← after_append, Record.ofPart_append, List.nil_append]

mutual

/-- **What a type adds** to the pass. -/
theorem ofType_eq (o : Options) (r : Renderer) :
    (type : ValueType) →
      ofType o r type = r.after (.ofPart o (type.draft o) type.referenceNames)
  | ⟨kind, none⟩ => by
      have hrefers : kind.refers none = false := rfl
      rw [ofType, Option.filter_none, ValueType.draft, ValueType.referenceNames, hrefers,
        Option.toList_none, ite_self, List.nil_append]
      exact ofKind_eq o false r kind
  | ⟨kind, some name⟩ => by
      rw [ofType, ValueType.draft, ValueType.referenceNames, ValueKind.refers]
      cases hdictionary : kind.isDictionary with
      | true =>
          rw [Option.filter_some_neg (by simp)]
          exact ofKind_eq o false r kind
      | false =>
          rw [Option.filter_some_pos (by simp)]
          have hrefer : r.refer (o.typeName name) = r.after (.ofPart o [] [name]) := rfl
          show ofKind o true (r.refer (o.typeName name)) kind = _
          rw [ofKind_eq o true _ kind, hrefer, ← after_append, Record.ofPart_append]
          rfl

theorem ofKind_eq (o : Options) (isReference : Bool) (r : Renderer) :
    (kind : ValueKind) →
      ofKind o isReference r kind
        = r.after (.ofPart o (kind.draft o isReference) kind.referenceNames)
  | .known name => by
      rw [ofKind, ValueKind.draft, ValueKind.referenceNames]
      · rfl
      all_goals simp
  | .array ⟨kind, some name⟩ => by
      -- The item has a name of its own, so it is looked at anew.
      rw [ofKind, Option.isNone_some, Bool.and_false, if_neg Bool.false_ne_true,
        ofType_eq o r ⟨kind, some name⟩, write_after, ValueKind.draft, ValueKind.referenceNames,
        ValueType.draft]
      rfl
  | .array ⟨kind, none⟩ => by
      have hnames : ValueType.referenceNames ⟨kind, none⟩ = kind.referenceNames := by
        rw [ValueType.referenceNames, Option.toList_none, ite_self, List.nil_append]
      rw [ofKind, ValueKind.draft, ValueKind.referenceNames, hnames, Option.isSome_none,
        if_neg Bool.false_ne_true]
      cases isReference with
      | true =>
          rw [if_pos (by rfl), ofKind_eq o true r kind, write_after]
      | false =>
          have hrefers : kind.refers none = false := rfl
          rw [if_neg (by simp), ofType_eq o r ⟨kind, none⟩, write_after, hnames, ValueType.draft,
            hrefers]
  | .dictionary text => by
      rw [ofKind, ValueKind.draft, ValueKind.referenceNames]
      · rfl
      all_goals simp
  | .shape members => by
      rw [ofKind, ofMembers_eq o _ members, after_write, write_after, ValueKind.draft,
        ValueKind.referenceNames]
  | .unknown => by
      rw [ofKind, ValueKind.draft, ValueKind.referenceNames]
      · rfl
      all_goals simp

theorem ofMember_eq (o : Options) (r : Renderer) :
    (m : Member) → ofMember o r m = r.after (.ofPart o (m.draft o) m.referenceNames)
  | ⟨name, optional, summary, initializer, type⟩ => by
      rw [ofMember, ofType_eq o _ type, after_write, write_after, Member.draft,
        Member.referenceNames]

/-- **What some properties add** to the pass. -/
theorem ofMembers_eq (o : Options) (r : Renderer) :
    (members : List Member) →
      ofMembers o r members
        = r.after (.ofPart o (membersDraft o members) (membersReferenceNames members))
  | [] => rfl
  | m :: rest => by
      rw [ofMembers, ofMember_eq o r m, ofMembers_eq o _ rest, ← after_append,
        Record.ofPart_append, membersDraft, membersReferenceNames]

end

/-! ## Declarations -/

/-- What the base of an interface or class adds. -/
def Record.ofBase (o : Options) (d : Descriptor) : Record where
  draft := d.slot
  clauses := (d.extendedBase?.map fun base => (base, d.extendsClause o base)).toList
  bases := d.extendedBase?.toList

/-- What a declared type adds. -/
def Record.ofDescriptor (o : Options) (modifier : String) (d : Descriptor) : Record where
  draft := d.draft o modifier
  clauses := (d.extendedBase?.map fun base => (base, d.extendsClause o base)).toList
  declared := [o.typeName d.name]
  referenced := d.referenceNames.map o.typeName
  bases := d.extendedBase?.toList

theorem foldl_constants (o : Options) (members : List Member) (r : Renderer) :
    members.foldl (fun r m => r.write (m.constantDraft o)) r
      = r.write (members.flatMap (Member.constantDraft o)) := by
  induction members generalizing r with
  | nil => rfl
  | cons m rest ih =>
      have hwrite : (r.write (m.constantDraft o)).write (rest.flatMap (Member.constantDraft o))
          = r.write (m.constantDraft o ++ rest.flatMap (Member.constantDraft o)) := by
        simp only [write, Draft.write_append]
      rw [List.foldl_cons, ih, List.flatMap_cons, hwrite]

theorem ofEnum_eq (o : Options) (modifier : String) (r : Renderer) {d : Descriptor}
    (h : d.isEnum = true) :
    ofEnum o modifier r d = r.after (.ofDescriptor o modifier d) := by
  have hbase : d.extendedBase? = none := by
    rw [Descriptor.extendedBase?, h, Bool.true_or, if_pos rfl]
  have hnames : d.referenceNames = [] := by rw [Descriptor.referenceNames, if_pos h]
  have hdraft : d.draft o modifier = d.enumDraft o modifier := by rw [Descriptor.draft, if_pos h]
  rw [Record.ofDescriptor, hbase, hnames, hdraft, ofEnum, foldl_constants, Descriptor.enumDraft]
  simp only [after, Draft.write_append]
  rfl

theorem ofBase_eq (o : Options) (r : Renderer) {d : Descriptor} (h : d.isEnum = false) :
    ofBase o r d = r.after (.ofBase o d) := by
  have hextended : d.extendedBase?
      = if Summary.ignoresBase d.summary then none else d.base.filter (· ≠ "") := by
    rw [Descriptor.extendedBase?, h, Bool.false_or]
  rw [ofBase, Record.ofBase, Descriptor.slot, hextended]
  cases Summary.ignoresBase d.summary <;> cases d.base.filter (· ≠ "") <;> rfl

theorem ofInterface_eq (o : Options) (modifier : String) (r : Renderer) {d : Descriptor}
    (h : d.isEnum = false) :
    ofInterface o modifier r d = r.after (.ofDescriptor o modifier d) := by
  have hnames : d.referenceNames = membersReferenceNames d.members := by
    rw [Descriptor.referenceNames, if_neg (by simp [h])]
  have hdraft : d.draft o modifier = d.interfaceDraft o modifier := by
    rw [Descriptor.draft, if_neg (by simp [h])]
  rw [Record.ofDescriptor, hnames, hdraft, ofInterface, ofBase_eq o _ h, ofMembers_eq,
    Descriptor.interfaceDraft, Descriptor.blockDraft]
  simp only [after, write, Draft.write_append]
  rfl

theorem ofDescriptor_eq (o : Options) (modifier : String) (r : Renderer) (d : Descriptor) :
    ofDescriptor o modifier r d = r.after (.ofDescriptor o modifier d) := by
  rw [ofDescriptor]
  split
  · exact ofEnum_eq o modifier r ‹_›
  · exact ofInterface_eq o modifier r (by simpa using ‹¬d.isEnum = true›)

/-! ## The body -/

/-- What a namespace adds. -/
def Record.ofGroup (o : Options) (group : String × List Descriptor) : Record :=
  { Record.flatMap (Record.ofDescriptor o (Body.modifier o group.1)) group.2 with
    draft := Body.scopeDraft o group.1 group.2 }

theorem ofGroup_eq (o : Options) (r : Renderer) (group : String × List Descriptor) :
    ofGroup o r group = r.after (.ofGroup o group) := by
  have hdeclarations (r : Renderer) :
      group.2.foldl (ofDescriptor o (Body.modifier o group.1)) r
        = r.after (.flatMap (.ofDescriptor o (Body.modifier o group.1)) group.2) :=
    after_flatMap (fun d _ r => ofDescriptor_eq o _ r d) r
  rw [ofGroup, Record.ofGroup, Body.scopeDraft, Body.enclose]
  simp only [hdeclarations]
  split
  · simp only [after, write, Draft.write_append]
    rfl
  · rfl

/-- **The pass renders the body**: in one pass the same is written, and the same names and clauses
are taken down. -/
theorem body_eq_render (o : Options) (types : List Descriptor) :
    body o types = Body.render o types := by
  have hpass : (Descriptor.groups types).foldl (ofGroup o) empty
      = empty.after (.flatMap (.ofGroup o) (Descriptor.groups types)) :=
    after_flatMap (fun group _ r => ofGroup_eq o r group) empty
  -- What is taken down group by group is taken down in the order of declaration.
  have horder {α : Type} (f : Descriptor → List α) :
      (Descriptor.groups types).flatMap (fun group => group.2.flatMap f)
        = (Descriptor.renderOrder types).flatMap f := List.flatMap_assoc.symm
  have hset (names : List String) : names.foldl OrderedSet.insert .empty = .ofList names :=
    OrderedSet.foldl_insert_ofList [] names
  have hdeclared : (Descriptor.renderOrder types).flatMap (fun d => [o.typeName d.name])
      = (Descriptor.renderOrder types).map fun d => o.typeName d.name := List.map_eq_flatMap.symm
  have hreferenced : (Descriptor.renderOrder types).flatMap
        (fun d => d.referenceNames.map o.typeName)
      = ((Descriptor.renderOrder types).flatMap Descriptor.referenceNames).map o.typeName :=
    List.map_flatMap.symm
  have hbases : (Descriptor.renderOrder types).flatMap (fun d => d.extendedBase?.toList)
      = (Descriptor.renderOrder types).filterMap Descriptor.extendedBase? :=
    (List.filterMap_eq_flatMap_toList _ _).symm
  have hclauses : (Descriptor.renderOrder types).flatMap (fun d =>
        (d.extendedBase?.map fun base => (base, d.extendsClause o base)).toList)
      = Body.clauseList o types := (List.filterMap_eq_flatMap_toList _ _).symm
  rw [body, hpass]
  simp only [after, Record.flatMap, Record.ofGroup, Record.ofDescriptor, horder, hdeclared,
    hreferenced, hbases, hclauses]
  simp only [empty, hset]
  rfl

end Renderer

end Typings
