import Typings.Proofs.Body.Bare
import Typings.Proofs.Body.Plain
import Typings.Proofs.Body.Spelling
import Typings.Proofs.Draft.Shifting

/-!
# Exports and module declarations

A body either exports its declarations or puts them into module declarations. Both say the same:
the names and clauses are collected without a look at the mode, and the declarations of a
namespace are written from one draft, at the outermost level behind `export` or one level deeper
inside a module declaration. So the second text follows from the first, namespace by namespace.

Only the line breaks of the writer itself may break lines. A line feed in a name would break a
line that the writer does not indent.

## Main definitions

* `Unbroken` — texts without line feeds.
* `Options.exporting`, `Options.declaring` — the two modes.
* `Descriptor.declared` — the text of a declaration behind its comment and its modifier.

## Main results

* `Descriptor.shifts_draft` — a declaration indents each of its lines once.
* `Body.render_declaring` — the body of module declarations from the exported one.
-/

namespace Typings

/-- Texts that hold no line feed. -/
def Unbroken (texts : List String) : Prop := ∀ text ∈ texts, '\n' ∉ text.toList

instance (texts : List String) : Decidable (Unbroken texts) :=
  inferInstanceAs (Decidable (∀ text ∈ texts, '\n' ∉ text.toList))

theorem unbroken_append {a b : List String} : Unbroken (a ++ b) ↔ Unbroken a ∧ Unbroken b :=
  List.forall_mem_append

theorem Unbroken.head {text : String} {rest : List String} (h : Unbroken (text :: rest)) :
    '\n' ∉ text.toList := h text (by simp)

theorem Unbroken.tail {text : String} {rest : List String} (h : Unbroken (text :: rest)) :
    Unbroken rest := fun t ht => h t (by simp [ht])

/-! ## Given texts as they are written -/

/-- A name with a small first letter or as it is given. No character of ASCII is made by that but
small letters. -/
theorem notMem_spelled {c : Char} (hpos : 0 < c.toNat)
    (hother : c.toNat < 0x61 ∨ 0x7B ≤ c.toNat ∧ c.toNat < 0x80) (small : Bool) {name : String}
    (h : c ∉ name.toList) :
    c ∉ (if small then camelCase name else name).toList := by
  split
  · rw [camelCase]
    split
    · simp
    · rename_i first rest hname
      rw [hname, List.mem_cons, not_or] at h
      rw [String.toList_ofList, List.mem_append, not_or]
      exact ⟨fun hm => h.1 (Text.eq_of_mem_lowercase hm hpos hother), h.2⟩
  · exact h

theorem notMem_label {c : Char} (hc : c ≠ '?') {m : Member} (h : c ∉ m.name.toList) :
    c ∉ m.label.toList := by
  rw [Member.label]
  split
  · rw [String.toList_append, List.mem_append, not_or]
    exact ⟨h, by simpa using hc⟩
  · exact h

theorem notMem_clean {c : Char} (hc : c ≠ '0') {value : String} (h : c ∉ value.toList) :
    c ∉ (Initializer.clean value).toList := by
  have hdigits : c ∉ Text.dropEndWhile Initializer.isSuffixLetter value.toList :=
    fun hm => h ((Text.dropEndWhile_prefix _ _).subset hm)
  rw [Initializer.clean, String.toList_ofList, Initializer.cleanChars]
  split
  · exact hdigits
  · rw [Initializer.dropZeros]
    split
    · simpa using hc
    · exact fun hm => hdigits ((List.dropWhile_suffix _).subset hm)

/-! ## Members -/

section Members

variable (o : Options) {slot : String → String}

mutual

theorem ValueType.shifts_draft :
    (type : ValueType) → Unbroken type.undocumented.texts →
      (type.draft o).Shifts slot false false
  | ⟨kind, referenceName⟩, h => by
      rw [ValueType.undocumented, ValueType.texts] at h
      rw [ValueType.draft]
      exact ValueKind.shifts_draft _ kind h

theorem ValueKind.shifts_draft (isReference : Bool) :
    (kind : ValueKind) → Unbroken kind.undocumented.texts →
      (kind.draft o isReference).Shifts slot false false
  | .known name, h => by
      have hname : '\n' ∉ name.toList := h.head
      rw [ValueKind.draft]
      refine Draft.shifts_add ?_
      cases isReference with
      | true => exact notMem_spelled (by decide) (by decide) _ hname
      | false => exact hname
  | .array ⟨kind, referenceName⟩, h => by
      rw [ValueKind.undocumented, ValueType.undocumented, ValueKind.texts, ValueType.texts] at h
      rw [ValueKind.draft]
      exact (ValueKind.shifts_draft _ kind h).append (Draft.shifts_add (by decide))
  | .dictionary text, h => by
      rw [ValueKind.draft]
      exact Draft.shifts_add h.head
  | .shape members, h => by
      rw [ValueKind.undocumented, ValueKind.texts] at h
      have hopening : Draft.Shifts slot false true [.add "\x7b", .newline] :=
        Draft.Shifts.append (Draft.shifts_add (by decide)) Draft.shifts_newline
      have hclosing : Draft.Shifts slot true false [.addIndented "\x7d"] :=
        Draft.shifts_addIndented (by decide) (by decide)
      have hall := (hopening.append (shifts_membersDraft members h).indented).append hclosing
      rw [ValueKind.draft]
      simpa only [List.append_assoc, List.cons_append, List.nil_append] using hall
  | .unknown, _ => by
      rw [ValueKind.draft]
      exact Draft.shifts_add (by decide)

theorem Member.shifts_draft :
    (m : Member) → Unbroken m.undocumented.texts → (m.draft o).Shifts slot true true
  | ⟨name, optional, summary, initializer, type⟩, h => by
      rw [Member.undocumented, Member.texts] at h
      obtain ⟨-, h'⟩ := unbroken_append.mp h.tail
      obtain ⟨-, htype⟩ := unbroken_append.mp h'
      -- The label starts the line, and the type stands behind it, perhaps over several lines.
      have hlabel : '\n' ∉ (o.propertyName
          (Member.label ⟨name, optional, summary, initializer, type⟩) ++ ": ").toList := by
        rw [String.toList_append, List.mem_append, not_or]
        exact ⟨notMem_spelled (by decide) (by decide) _ (notMem_label (by decide) h.head),
          by decide⟩
      have hnonempty : o.propertyName
          (Member.label ⟨name, optional, summary, initializer, type⟩) ++ ": " ≠ "" := by
        intro hempty
        have hchars := congrArg String.toList hempty
        rw [String.toList_append] at hchars
        exact List.append_ne_nil_of_right_ne_nil _ (by decide) hchars
      have hcomment : Draft.Shifts slot true true [.comment summary] :=
        Draft.shifts_comment summary
      have hstart := hcomment.append (Draft.shifts_addIndented hnonempty hlabel)
      have hend : Draft.Shifts slot false true [.add ";", .newline] :=
        Draft.Shifts.append (Draft.shifts_add (by decide)) Draft.shifts_newline
      rw [Member.draft]
      exact (hstart.append (ValueType.shifts_draft type htype)).append hend

/-- Members indent each of their lines once, at any depth. -/
theorem shifts_membersDraft :
    (members : List Member) → Unbroken (membersTexts (membersUndocumented members)) →
      (membersDraft o members).Shifts slot true true
  | [], _ => Draft.shifts_nil
  | m :: rest, h => by
      rw [membersUndocumented, membersTexts] at h
      obtain ⟨hm, hrest⟩ := unbroken_append.mp h
      rw [membersDraft]
      exact (Member.shifts_draft m hm).append (shifts_membersDraft rest hrest)

end

theorem unbroken_of_mem {members : List Member}
    (h : Unbroken (membersTexts (membersUndocumented members))) {m : Member} (hm : m ∈ members) :
    Unbroken m.undocumented.texts := fun text htext =>
  h text (Member.texts_subset (Member.undocumented_mem hm) htext)

theorem Member.shifts_constantDraft {m : Member} (h : Unbroken m.undocumented.texts) :
    (m.constantDraft o).Shifts slot true true := by
  obtain ⟨name, optional, summary, initializer, type⟩ := m
  rw [Member.undocumented, Member.texts] at h
  obtain ⟨-, h'⟩ := unbroken_append.mp h.tail
  obtain ⟨hinit, -⟩ := unbroken_append.mp h'
  have hname : '\n' ∉ (o.constantName name).toList :=
    notMem_spelled (by decide) (by decide) _ h.head
  rw [Member.constantDraft]
  refine (Draft.shifts_comment summary).append (Draft.shifts_line ?_)
  cases initializer with
  | none => simp [hname]
  | some value =>
      have hvalue := notMem_clean (by decide) (hinit value (by simp))
      simp [hname, hvalue]

end Members

/-! ## Declarations -/

namespace Descriptor

variable {o : Options} {d : Descriptor} {modifier : String}

theorem mem_texts_of_base {base : String} (hbase : d.base = some base) :
    base ∈ d.undocumented.texts := by
  have hmem : base ∈ d.base.toList := by
    rw [hbase]
    exact List.mem_singleton.mpr rfl
  exact List.mem_cons_of_mem _ (List.mem_cons_of_mem _ (List.mem_append_left _ hmem))

theorem membersTexts_subset (d : Descriptor) :
    membersTexts (membersUndocumented d.members) ⊆ d.undocumented.texts := fun _ htext =>
  List.mem_cons_of_mem _ (List.mem_cons_of_mem _ (List.mem_append_right _
    (List.mem_append_right _ (List.mem_append_right _ htext))))

theorem unbroken_members (h : Unbroken d.undocumented.texts) :
    Unbroken (membersTexts (membersUndocumented d.members)) := fun text htext =>
  h text (d.membersTexts_subset htext)

theorem shifts_slot (h : Unbroken d.undocumented.texts) :
    d.slot.Shifts Extends.token false false := by
  rw [slot]
  split
  · rename_i base hbase
    have hbase : '\n' ∉ base.toList :=
      h base (mem_texts_of_base (base_of_extendedBase? hbase))
    refine Draft.shifts_slot ?_
    rw [Extends.token, String.toList_append, String.toList_append]
    simp only [List.mem_append, not_or]
    exact ⟨⟨by decide, hbase⟩, by decide⟩
  · exact Draft.shifts_nil

theorem shifts_closing : Draft.Shifts Extends.token true true (Draft.line "\x7d") :=
  Draft.shifts_line (by decide)

theorem shifts_enumDraft (hmodifier : '\n' ∉ modifier.toList)
    (h : Unbroken d.undocumented.texts) :
    (d.enumDraft o modifier).Shifts Extends.token true true := by
  have hname : '\n' ∉ (o.typeName d.name).toList :=
    notMem_spelled (by decide) (by decide) _ h.head
  have hheader : '\n' ∉ (modifier ++ "const enum " ++ o.typeName d.name ++ " \x7b").toList := by
    simp [hmodifier, hname]
  have hconstants : Draft.Shifts Extends.token true true
      (d.members.flatMap (Member.constantDraft o)) :=
    Draft.shifts_flatMap fun m hm =>
      Member.shifts_constantDraft o (unbroken_of_mem (unbroken_members h) hm)
  have hcomment : Draft.Shifts Extends.token true true [.comment d.summary] :=
    Draft.shifts_comment d.summary
  have hstart := hcomment.append (Draft.shifts_line hheader)
  have hall := (hstart.append hconstants.indented).append shifts_closing
  rw [enumDraft]
  simpa only [List.append_assoc, List.cons_append, List.nil_append] using hall

theorem shifts_interfaceDraft (hmodifier : '\n' ∉ modifier.toList)
    (h : Unbroken d.undocumented.texts) :
    (d.interfaceDraft o modifier).Shifts Extends.token true true := by
  have hname : '\n' ∉ (o.typeName d.name).toList :=
    notMem_spelled (by decide) (by decide) _ h.head
  have hkeyword : '\n' ∉ (keyword o).toList := by
    rw [keyword]
    split <;> decide
  have hheader : '\n' ∉ (modifier ++ keyword o ++ " " ++ o.typeName d.name ++ " ").toList := by
    simp [hmodifier, hkeyword, hname]
  have hnonempty : modifier ++ keyword o ++ " " ++ o.typeName d.name ++ " " ≠ "" := by
    intro hempty
    have hchars := congrArg String.toList hempty
    rw [String.toList_append] at hchars
    exact List.append_ne_nil_of_right_ne_nil _ (by decide) hchars
  have hbrace : Draft.Shifts Extends.token false true [.add "\x7b", .newline] :=
    Draft.Shifts.append (Draft.shifts_add (by decide)) Draft.shifts_newline
  have hcomment : Draft.Shifts Extends.token true true [.comment d.summary] :=
    Draft.shifts_comment d.summary
  have hstart := hcomment.append (Draft.shifts_addIndented hnonempty hheader)
  have hmembers : (membersDraft o d.members).Shifts Extends.token true true :=
    shifts_membersDraft o d.members (unbroken_members h)
  have hblock := (hbrace.append hmembers.indented).append shifts_closing
  have hall := (hstart.append (shifts_slot h)).append hblock
  rw [interfaceDraft, headerDraft, blockDraft]
  simpa only [List.append_assoc, List.cons_append, List.nil_append] using hall

/-- **A declaration indents each of its lines once.** -/
theorem shifts_draft (o : Options) (hmodifier : '\n' ∉ modifier.toList)
    (h : Unbroken d.undocumented.texts) :
    (d.draft o modifier).Shifts Extends.token true true := by
  rw [draft]
  split
  · exact shifts_enumDraft hmodifier h
  · exact shifts_interfaceDraft hmodifier h

/-- The text of a declaration behind its comment and its modifier, at the outermost level. -/
def declared (o : Options) (d : Descriptor) : List Char :=
  Draft.written Extends.token 0 ((d.draft o "").drop 1)

/-- The start of a declaration: what is declared, and its name. -/
def opening (o : Options) (d : Descriptor) : String :=
  (if d.isEnum then "const enum" else keyword o) ++ " " ++ o.typeName d.name ++ " "

theorem opening_prefix_declared (o : Options) (d : Descriptor) :
    (d.opening o).toList <+: d.declared o := by
  rw [declared, draft, opening]
  split
  · rw [enumDraft]
    simp [Draft.line, Draft.Step.written]
  · rw [interfaceDraft, headerDraft]
    simp [Draft.Step.written]

/-- A declaration is its comment, its modifier and the rest. -/
theorem written_draft (o : Options) (modifier : String) (d : Descriptor) :
    Draft.written Extends.token 0 (d.draft o modifier)
      = Writer.commentChars 0 d.summary ++ (modifier.toList ++ d.declared o) := by
  rw [declared, draft, draft]
  split
  · rw [enumDraft, enumDraft]
    simp [Draft.line, Draft.Step.written, Draft.Step.levelAfter, Writer.commentChars]
  · rw [interfaceDraft, interfaceDraft, headerDraft, headerDraft]
    simp [Draft.Step.written, Draft.Step.levelAfter, Writer.commentChars]

end Descriptor

/-! ## The two modes -/

namespace Options

/-- The same options, with exported declarations. -/
def exporting (o : Options) : Options := { o with declareModule := false }

/-- The same options, with module declarations. -/
def declaring (o : Options) : Options := { o with declareModule := true }

end Options

namespace Body

/-- The declarations of some types with a modifier in front of each, at the outermost level. -/
def declarations (o : Options) (modifier : String) (types : List Descriptor) : List Char :=
  types.flatMap fun d =>
    Writer.commentChars 0 d.summary ++ (modifier.toList ++ d.declared o)

section

variable {o : Options} {types : List Descriptor} {modifier : String}

theorem shifts_declarations (o : Options) (hmodifier : '\n' ∉ modifier.toList)
    (h : ∀ d ∈ types, Unbroken d.undocumented.texts) :
    Draft.Shifts Extends.token true true (types.flatMap (Descriptor.draft o modifier)) :=
  Draft.shifts_flatMap fun d hd => Descriptor.shifts_draft o hmodifier (h d hd)

theorem written_declarations (o : Options) (hmodifier : '\n' ∉ modifier.toList)
    (h : ∀ d ∈ types, Unbroken d.undocumented.texts) :
    Draft.written Extends.token 0 (types.flatMap (Descriptor.draft o modifier))
      = declarations o modifier types := by
  rw [Draft.written_flatMap fun d hd => (Descriptor.shifts_draft o hmodifier (h d hd) 0).1]
  exact List.flatMap_congr fun d _ => Descriptor.written_draft o modifier d

/-- Declarations are drafted alike in both modes. -/
theorem scopeDraft_exporting (o : Options) (scope : String) (types : List Descriptor) :
    scopeDraft o.exporting scope types = types.flatMap (Descriptor.draft o "export ") := by
  have halike : o.exporting.SpellAlike o := ⟨rfl, rfl, rfl⟩
  have hmodifier : modifier o.exporting scope = "export " := rfl
  have hwrapped : isWrapped o.exporting scope = false := rfl
  rw [scopeDraft, hmodifier, Descriptor.draft_congr halike rfl, enclose, hwrapped,
    if_neg Bool.false_ne_true]

theorem scopeDraft_declaring (o : Options) (scope : String) (types : List Descriptor) :
    scopeDraft o.declaring scope types
      = if scope = "" then types.flatMap (Descriptor.draft o "declare ")
        else Draft.line ("declare module " ++ scope ++ " \x7b")
          ++ ([.indent] ++ types.flatMap (Descriptor.draft o "") ++ [.dedent])
          ++ Draft.line "\x7d" := by
  have halike : o.declaring.SpellAlike o := ⟨rfl, rfl, rfl⟩
  have hmode : o.declaring.declareModule = true := rfl
  rw [scopeDraft, Descriptor.draft_congr halike rfl, modifier, enclose, isWrapped, hmode,
    if_pos rfl, Bool.true_and]
  by_cases hscope : scope = ""
  · have hnone : decide (scope ≠ "") = false := by simp [hscope]
    rw [hnone, if_neg Bool.false_ne_true, if_neg Bool.false_ne_true, if_pos hscope]
  · have hsome : decide (scope ≠ "") = true := by simp [hscope]
    rw [hsome, if_pos rfl, if_pos rfl, if_neg hscope]
    simp only [List.append_assoc]

/-- What an exported namespace writes. -/
theorem written_scopeDraft_exporting (o : Options) (scope : String)
    (h : ∀ d ∈ types, Unbroken d.undocumented.texts) :
    Draft.written Extends.token 0 (scopeDraft o.exporting scope types)
        = declarations o "export " types ∧
      Draft.levelAfter 0 (scopeDraft o.exporting scope types) = 0 := by
  have hmodifier : '\n' ∉ "export ".toList := by decide
  rw [scopeDraft_exporting]
  exact ⟨written_declarations o hmodifier h, (shifts_declarations o hmodifier h 0).1⟩

/-- What a namespace writes as a module declaration: the same declarations, one level deeper. -/
theorem written_scopeDraft_declaring (o : Options) (scope : String)
    (h : ∀ d ∈ types, Unbroken d.undocumented.texts) :
    Draft.written Extends.token 0 (scopeDraft o.declaring scope types)
        = (if scope = "" then declarations o "declare " types
          else Writer.lineChars 0 ("declare module " ++ scope ++ " \x7b")
            ++ Text.indentLines true (declarations o "" types) ++ Writer.lineChars 0 "\x7d") ∧
      Draft.levelAfter 0 (scopeDraft o.declaring scope types) = 0 := by
  rw [scopeDraft_declaring]
  split
  · have hmodifier : '\n' ∉ "declare ".toList := by decide
    exact ⟨written_declarations o hmodifier h, (shifts_declarations o hmodifier h 0).1⟩
  · have hmodifier : '\n' ∉ "".toList := by decide
    have hshifts := shifts_declarations o hmodifier h
    have hinside : Draft.written Extends.token 0
        ([.indent] ++ types.flatMap (Descriptor.draft o "") ++ [.dedent])
          = Text.indentLines true (declarations o "" types) := by
      rw [← written_declarations o hmodifier h, ← hshifts.written_succ 0, Draft.written_append,
        Draft.written_append]
      simp [Draft.Step.written, Draft.levelAfter, Draft.Step.levelAfter]
    have hlevel := (hshifts.indented 0).1
    have hopening : Draft.levelAfter 0 (Draft.line ("declare module " ++ scope ++ " \x7b")) = 0 :=
      rfl
    constructor
    · rw [Draft.written_append, Draft.written_append, Draft.levelAfter_append, hopening, hlevel,
        hinside, Draft.written_line, Draft.written_line]
    · rw [Draft.levelAfter_append, Draft.levelAfter_append, hopening, hlevel]
      rfl

end

/-- **Module declarations and exports declare the same.** Names and clauses are equal. Each
namespace of the exported body is the list of its declarations behind `export`; in module
declarations the same stands behind `declare` if the namespace has no name, and otherwise
without a modifier in a module declaration, with one more tab in front of each line. -/
theorem render_declaring (o : Options) (types : List Descriptor)
    (h : ∀ d ∈ types, Unbroken d.undocumented.texts) :
    (render o.declaring types).names = (render o.exporting types).names ∧
      (render o.declaring types).clauses = (render o.exporting types).clauses ∧
      (∀ d ∈ types, (d.opening o).toList <+: d.declared o) ∧
      (render o.exporting types).text.toList
        = (Descriptor.groups types).flatMap (fun (_, members) =>
          declarations o "export " members) ∧
      (render o.declaring types).text.toList
        = (Descriptor.groups types).flatMap (fun (scope, members) =>
          if scope = "" then declarations o "declare " members
          else Writer.lineChars 0 ("declare module " ++ scope ++ " \x7b")
            ++ Text.indentLines true (declarations o "" members)
            ++ Writer.lineChars 0 "\x7d") := by
  have halike : o.declaring.SpellAlike o.exporting := ⟨rfl, rfl, rfl⟩
  have hgroup : ∀ group ∈ Descriptor.groups types,
      ∀ d ∈ group.2, Unbroken d.undocumented.texts := by
    rintro ⟨scope, members⟩ hmem d hd
    obtain ⟨-, rfl⟩ := Descriptor.mem_groups.mp hmem
    exact h d (Descriptor.mem_ofScope.mp hd).1
  refine ⟨Names.ofTypes_congr halike types, ?_, fun d _ => d.opening_prefix_declared o, ?_, ?_⟩
  · show Extends.Registry.empty.registerAll (clauseList o.declaring types) = _
    rw [clauseList_congr halike]
    rfl
  · show ((draft o.exporting types).text Extends.token).toList = _
    rw [Draft.toList_text, draft, Draft.written_flatMap fun group hmem =>
      (written_scopeDraft_exporting o group.1 (hgroup group hmem)).2]
    exact List.flatMap_congr fun group hmem =>
      (written_scopeDraft_exporting o group.1 (hgroup group hmem)).1
  · show ((draft o.declaring types).text Extends.token).toList = _
    rw [Draft.toList_text, draft, Draft.written_flatMap fun group hmem =>
      (written_scopeDraft_declaring o group.1 (hgroup group hmem)).2]
    exact List.flatMap_congr fun group hmem =>
      (written_scopeDraft_declaring o group.1 (hgroup group hmem)).1

/-- A documented type with an inline type in a namespace, and a type in none. -/
def placeAndColor : List Descriptor :=
  [(((Descriptor.interface "Place").inScope "Map").withSummary
        "Where it is.\nAnd how far.").withMember
      ((Member.ofType "spot" (.shape [Member.ofType "x" (.array (.known "number"))])).withSummary
        "On the map."),
    (Descriptor.enumeration "Color").withMember (.constant "Red" (some "01L"))]

/-- Both bodies for the two types. -/
theorem render_declaring_placeAndColor :
    (∀ d ∈ placeAndColor, Unbroken d.undocumented.texts) ∧
      (render Options.default.exporting placeAndColor).text
        = "/**\r\n * Where it is.\r\n * And how far.\r\n */\r\nexport interface Place \x7b\r\n"
          ++ "\t/**\r\n\t * On the map.\r\n\t */\r\n\tspot: \x7b\r\n\t\tx: number[];\r\n\t\x7d;\r\n"
          ++ "\x7d\r\nexport const enum Color \x7b\r\n\tRed = 1,\r\n\x7d\r\n" ∧
      (render Options.default.declaring placeAndColor).text
        = "declare module Map \x7b\r\n"
          ++ "\t/**\r\n\t * Where it is.\r\n\t * And how far.\r\n\t */\r\n"
          ++ "\tinterface Place \x7b\r\n"
          ++ "\t\t/**\r\n\t\t * On the map.\r\n\t\t */\r\n"
          ++ "\t\tspot: \x7b\r\n\t\t\tx: number[];\r\n\t\t\x7d;\r\n\t\x7d\r\n\x7d\r\n"
          ++ "declare const enum Color \x7b\r\n\tRed = 1,\r\n\x7d\r\n" := by
  have hunbroken : ∀ d ∈ placeAndColor, Unbroken d.undocumented.texts := by decide +kernel
  obtain ⟨-, -, -, hexporting, hdeclaring⟩ := render_declaring .default placeAndColor hunbroken
  refine ⟨hunbroken, ?_, ?_⟩
  · rw [← String.toList_inj, hexporting]
    simp only [String.toList_append]
    decide +kernel
  · rw [← String.toList_inj, hdeclaring]
    simp only [String.toList_append]
    decide +kernel

end Body

end Typings
