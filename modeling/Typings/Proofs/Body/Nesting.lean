import Typings.Proofs.Body.Composition
import Typings.Proofs.Draft.Nesting

/-!
# Blocks and indentation in a body

Enumerations, interfaces, modules and inline types are blocks in braces. Their ends are written by
different steps: a brace may stand in a header of its own line or behind an extends clause, and an
inline type may stand in an array at any depth. Yet the blocks nest, and each line is indented by
the blocks that it stands in.

The given texts must not disturb this. They stand on one line, they have no tabs, and the braces in
each of them match. The names of bases are no exception: in a token they stand in braces, which
match if theirs do. Summaries may hold anything, for comments do not count, and they are indented
line by line.

## Main results

* `matched_spelled`, `inline_label`, `inline_clean` — given texts as they are written.
* `nests_membersDraft`, `Descriptor.nests_draft`, `Body.nests_draft` — the parts of a body.
* `Body.nested_render` — a body nests and indents.
-/

namespace Typings

open Text

/-! ## Given texts as they are written -/

/-- The braces of a name still match when its first letter is made a small one. -/
theorem matched_spelled (small : Bool) {name : String} (h : Matched name.toList) :
    Matched (if small then camelCase name else name).toList := by
  split
  · rw [camelCase]
    split
    · decide
    · rename_i first rest hname
      rw [hname] at h
      rw [String.toList_ofList]
      by_cases hopen : first = '\x7b'
      · have hself : lowercase '\x7b' = ['\x7b'] := by decide +kernel
        rw [hopen, hself]
        rwa [hopen] at h
      by_cases hclose : first = '\x7d'
      · exact absurd hclose h.head_ne
      · have hfirst : Unbraced [first] := by
          simp only [Unbraced, List.mem_singleton]
          exact ⟨fun e => hopen e.symm, fun e => hclose e.symm⟩
        have hlower : Unbraced (lowercase first) :=
          ⟨fun hm => hopen (eq_of_mem_lowercase hm (by decide) (by decide)).symm,
            fun hm => hclose (eq_of_mem_lowercase hm (by decide) (by decide)).symm⟩
        exact (matched_append_iff_right hlower).mpr ((matched_append_iff_right hfirst).mp h)
  · exact h

theorem inline_spelled (small : Bool) {name : String} (h : Inline name.toList) :
    Inline (if small then camelCase name else name).toList :=
  ⟨oneLine_spelled small h.oneLine, notMem_spelled (by decide) (by decide) small h.untabbed,
    matched_spelled small h.matched⟩

theorem inline_label {m : Member} (h : Inline m.name.toList) : Inline m.label.toList := by
  rw [Member.label]
  split
  · exact h.append (by decide)
  · exact h

/-- What is taken from the ends of a value are letters and digits, but no braces. -/
theorem matched_clean {value : String} (h : Matched value.toList) :
    Matched (Initializer.clean value).toList := by
  have hdigits : Matched (dropEndWhile Initializer.isSuffixLetter value.toList) :=
    h.dropEndWhile (by decide) (by decide)
  rw [Initializer.clean, String.toList_ofList, Initializer.cleanChars]
  split
  · exact hdigits
  · rw [Initializer.dropZeros]
    split
    · decide
    · exact hdigits.dropWhile (by decide) (by decide)

theorem inline_clean {value : String} (h : Inline value.toList) :
    Inline (Initializer.clean value).toList :=
  ⟨oneLine_clean h.oneLine, notMem_clean (by decide) h.untabbed, matched_clean h.matched⟩

theorem inline_token {base : String} (h : Inline base.toList) :
    OneLine (Extends.token base).toList ∧ Matched (Extends.token base).toList := by
  refine ⟨Extends.oneLine_token h.oneLine, ?_⟩
  have hstart : Extends.tokenStart.toList = ['#'] ++ '\x7b' :: "ExtendsPlaceholder_".toList := by
    decide
  have hbraced : Matched ('\x7b' :: ("ExtendsPlaceholder_".toList ++ base.toList ++ ['\x7d'])) :=
    ((matched_append_iff_right (by decide)).mpr h.matched).braced
  have hend : Extends.tokenEnd = '\x7d' := rfl
  rw [Extends.token_toList, hstart, hend, List.append_assoc]
  refine (matched_append_iff_right (by decide)).mpr ?_
  simpa only [List.cons_append, List.append_assoc] using hbraced

/-! ## Members -/

section Members

variable (o : Options) {slot : String → String}

open Draft

mutual

theorem ValueType.nests_draft :
    (type : ValueType) → (∀ text ∈ type.undocumented.texts, Inline text.toList) →
      Nests slot (.inside 0) (type.draft o) (.inside 0)
  | ⟨kind, referenceName⟩, h => by
      rw [ValueType.undocumented, ValueType.texts] at h
      rw [ValueType.draft]
      exact ValueKind.nests_draft _ kind h

theorem ValueKind.nests_draft (isReference : Bool) :
    (kind : ValueKind) → (∀ text ∈ kind.undocumented.texts, Inline text.toList) →
      Nests slot (.inside 0) (kind.draft o isReference) (.inside 0)
  | .known name, h => by
      have hname : Inline name.toList := h name (List.mem_singleton.mpr rfl)
      rw [ValueKind.draft]
      cases isReference with
      | true =>
          have hspelled := inline_spelled o.camelCaseTypeNames hname
          exact nests_add hspelled.oneLine hspelled.matched
      | false => exact nests_add hname.oneLine hname.matched
  | .array ⟨kind, referenceName⟩, h => by
      rw [ValueKind.undocumented, ValueType.undocumented, ValueKind.texts, ValueType.texts] at h
      rw [ValueKind.draft]
      exact (ValueKind.nests_draft _ kind h).append (nests_add (by decide) (by decide))
  | .dictionary text, h => by
      have htext : Inline text.toList := h text (List.mem_singleton.mpr rfl)
      rw [ValueKind.draft]
      exact nests_add htext.oneLine htext.matched
  | .shape members, h => by
      rw [ValueKind.undocumented, ValueKind.texts] at h
      rw [ValueKind.draft]
      exact (nests_opening.append (nests_membersDraft members h).deeper).append nests_closing
  | .unknown, _ => by
      rw [ValueKind.draft]
      exact nests_add (by decide) (by decide)

theorem Member.nests_draft :
    (m : Member) → (∀ text ∈ m.undocumented.texts, Inline text.toList) →
      Nests slot (.start 0) (m.draft o) (.start 0)
  | ⟨name, optional, summary, initializer, type⟩, h => by
      rw [Member.undocumented, Member.texts] at h
      obtain ⟨hname, h⟩ := List.forall_mem_cons.mp h
      have htype := (List.forall_mem_append.mp (List.forall_mem_append.mp h).2).2
      have hlabel : Inline (o.propertyName
          (Member.label ⟨name, optional, summary, initializer, type⟩) ++ ": ").toList :=
        Inline.append (inline_spelled _ (inline_label hname)) (by decide)
      have hstart : Nests slot (.start 0) [.comment summary, .addIndented (o.propertyName
          (Member.label ⟨name, optional, summary, initializer, type⟩) ++ ": ")] (.inside 0) :=
        (nests_comment summary).append (nests_addIndented hlabel (by simp))
      have hend : Nests slot (.inside 0) [.add ";", .newline] (.start 0) :=
        (nests_add (by decide) (by decide)).append nests_newline
      rw [Member.draft]
      exact (hstart.append (ValueType.nests_draft type htype)).append hend

/-- **Members are whole lines, and their types nest**, at any depth. -/
theorem nests_membersDraft :
    (members : List Member) →
      (∀ text ∈ membersTexts (membersUndocumented members), Inline text.toList) →
      Nests slot (.start 0) (membersDraft o members) (.start 0)
  | [], _ => nests_nil
  | m :: rest, h => by
      rw [membersUndocumented, membersTexts] at h
      obtain ⟨hm, hrest⟩ := List.forall_mem_append.mp h
      rw [membersDraft]
      exact (Member.nests_draft m hm).append (nests_membersDraft rest hrest)

end

theorem Member.nests_constantDraft {m : Member}
    (h : ∀ text ∈ m.undocumented.texts, Inline text.toList) :
    Nests slot (.start 0) (m.constantDraft o) (.start 0) := by
  obtain ⟨name, optional, summary, initializer, type⟩ := m
  rw [Member.undocumented, Member.texts] at h
  obtain ⟨hname, h⟩ := List.forall_mem_cons.mp h
  have hinit := (List.forall_mem_append.mp (List.forall_mem_append.mp h).2).1
  have hspelled : Inline (o.constantName name).toList := inline_spelled _ hname
  rw [Member.constantDraft]
  cases initializer with
  | none =>
      exact (nests_comment summary).append (nests_line (hspelled.append (by decide)) (by simp))
  | some value =>
      have hvalue : Inline (Initializer.clean value).toList :=
        inline_clean (hinit value (List.mem_singleton.mpr rfl))
      have hline := ((hspelled.append (b := " = ") (by decide)).append hvalue).append (b := ",")
        (by decide)
      exact (nests_comment summary).append (nests_line hline (by simp))

end Members

/-! ## Declarations -/

namespace Descriptor

open Draft

variable {o : Options} {d : Descriptor} {modifier : String}

theorem nests_slot (h : ∀ text ∈ d.undocumented.texts, Inline text.toList) :
    Nests Extends.token (.inside 0) d.slot (.inside 0) := by
  rw [slot]
  split
  · rename_i base hbase
    have hgiven : Inline base.toList := h base (mem_texts_of_base (base_of_extendedBase? hbase))
    obtain ⟨hline, hmatched⟩ := inline_token hgiven
    exact Draft.nests_slot hline hmatched
  · exact nests_nil

theorem nests_enumDraft (hmodifier : Inline modifier.toList)
    (h : ∀ text ∈ d.undocumented.texts, Inline text.toList) :
    Nests Extends.token (.start 0) (d.enumDraft o modifier) (.start 0) := by
  have hname : Inline (o.typeName d.name).toList :=
    inline_spelled _ (h d.name List.mem_cons_self)
  have hheader : Inline (modifier ++ "const enum " ++ o.typeName d.name ++ " ").toList :=
    ((hmodifier.append (by decide)).append hname).append (by decide)
  have hconstants : Nests Extends.token (.start 0)
      (d.members.flatMap (Member.constantDraft o)) (.start 0) :=
    nests_flatMap fun m hm => Member.nests_constantDraft o fun text htext =>
      h text (d.membersTexts_subset (Member.texts_subset (Member.undocumented_mem hm) htext))
  have hopening : Nests Extends.token (.start 0) _ (.start 1) :=
    nests_openingLine hheader (by simp)
  have hall := (((nests_comment d.summary).append hopening).append hconstants.deeper).append
    nests_closingLine
  have hline : modifier ++ "const enum " ++ o.typeName d.name ++ " " ++ "\x7b"
      = modifier ++ "const enum " ++ o.typeName d.name ++ " \x7b" := by
    rw [String.append_assoc]
    rfl
  rw [hline] at hall
  rw [enumDraft]
  simpa only [List.append_assoc] using hall

theorem nests_interfaceDraft (hmodifier : Inline modifier.toList)
    (h : ∀ text ∈ d.undocumented.texts, Inline text.toList) :
    Nests Extends.token (.start 0) (d.interfaceDraft o modifier) (.start 0) := by
  have hname : Inline (o.typeName d.name).toList :=
    inline_spelled _ (h d.name List.mem_cons_self)
  have hkeyword : Inline (keyword o).toList := by
    rw [keyword]
    split <;> decide
  have hheader : Inline (modifier ++ keyword o ++ " " ++ o.typeName d.name ++ " ").toList :=
    (((hmodifier.append hkeyword).append (by decide)).append hname).append (by decide)
  have hstart : Nests Extends.token (.start 0) (d.headerDraft o modifier) (.inside 0) :=
    (nests_comment d.summary).append (nests_addIndented hheader (by simp))
  have hmembers : Nests Extends.token (.start 0) (membersDraft o d.members) (.start 0) :=
    nests_membersDraft o d.members fun text htext => h text (d.membersTexts_subset htext)
  have hblock : Nests Extends.token (.inside 0) (d.blockDraft o) (.start 0) := by
    have hall := (nests_opening.append hmembers.deeper).append nests_closingLine
    rw [blockDraft]
    simpa only [List.append_assoc] using hall
  exact (hstart.append (nests_slot h)).append hblock

/-- **A declaration is made of whole lines, and its block nests.** -/
theorem nests_draft (o : Options) (hmodifier : Inline modifier.toList)
    (h : ∀ text ∈ d.undocumented.texts, Inline text.toList) :
    Nests Extends.token (.start 0) (d.draft o modifier) (.start 0) := by
  rw [draft]
  split
  · exact nests_enumDraft hmodifier h
  · exact nests_interfaceDraft hmodifier h

end Descriptor

namespace Body

open Draft

/-- **A body is made of whole lines, and its blocks nest.** -/
theorem nests_draft (o : Options) {types : List Descriptor}
    (h : ∀ d ∈ types, ∀ text ∈ d.undocumented.texts, Inline text.toList) :
    Nests Extends.token (.start 0) (draft o types) (.start 0) := by
  refine nests_flatMap fun group hgroup => ?_
  obtain ⟨scope, members⟩ := group
  obtain ⟨⟨d, hd, rfl⟩, rfl⟩ := Descriptor.mem_groups.mp hgroup
  have hmodifier : Inline (modifier o d.scope).toList := by
    rw [modifier]
    split
    · split <;> decide
    · decide
  have hdeclarations : Nests Extends.token (.start 0) ((Descriptor.ofScope types d.scope).flatMap
      (Descriptor.draft o (modifier o d.scope))) (.start 0) :=
    nests_flatMap fun other hother =>
      Descriptor.nests_draft o hmodifier (h other (Descriptor.mem_ofScope.mp hother).1)
  show Nests Extends.token (.start 0) (scopeDraft o d.scope _) (.start 0)
  rw [scopeDraft, enclose]
  split
  · have hscope : Inline d.scope.toList :=
      h d hd d.scope (List.mem_cons_of_mem _ List.mem_cons_self)
    have hheader : Inline ("declare module " ++ d.scope ++ " ").toList :=
      (Inline.append (by decide) hscope).append (by decide)
    have hopening : Nests Extends.token (.start 0) _ (.start 1) :=
      nests_openingLine hheader (by simp)
    have hall := (hopening.append hdeclarations.deeper).append nests_closingLine
    have hline : "declare module " ++ d.scope ++ " " ++ "\x7b"
        = "declare module " ++ d.scope ++ " \x7b" := by
      rw [String.append_assoc]
      rfl
    rw [hline] at hall
    simpa only [List.append_assoc] using hall
  · exact hdeclarations

/-- **Blocks nest and indent correctly.** If the texts of all types apart from their summaries
stand on one line, without tabs and with matching braces, then in the text of the body no brace is
closed that is not open and in the end none is, where comments do not count, and each line is
indented by the braces that are open where it starts, or by one less if it starts with a brace that
closes. The writer ends at the highest level, and at this level it is never asked to come up. -/
theorem nested_render (o : Options) (types : List Descriptor)
    (h : ∀ d ∈ types, ∀ text ∈ d.undocumented.texts, Inline text.toList) :
    (marked Extends.token 0 (draft o types)).map (·.1) = (render o types).text.toList ∧
      Nested (marked Extends.token 0 (draft o types)) ∧
      ((draft o types).write Extends.token .empty).level = 0 ∧
      ∀ front behind, draft o types = front ++ .dedent :: behind →
        0 < (Draft.write Extends.token .empty front).level := by
  refine ⟨?_, (nests_draft o h).nested, ?_, fun front behind hsplit => ?_⟩
  · rw [map_fst_marked]
    exact (toList_text Extends.token (draft o types)).symm
  · rw [level_write]
    exact balanced_draft o types 0
  · rw [level_write]
    exact (balanced_draft o types).levelAfter_pos hsplit

/-- A type in a namespace with inline types in arrays, whose documentation opens a brace, and an
enumeration. -/
def crateAndSize : List Descriptor :=
  [(((Descriptor.interface "Crate").inScope "Post").extending "Box" none |>.withSummary
        "Opens \x7b\nand more.").withMember
      ((Member.ofType "sides" (.array (.shape [.ofType "edges" (.array (.shape
        [.ofType "length" (.known "number")])), .ofType "any\x7bone\x7d" .unknown]))).withSummary
          "All \x7d of them."),
    (Descriptor.enumeration "Size").withMember (.constant "Small" (some "01L"))]

/-- The body for the two types, with a module declaration for the first of them. -/
theorem nested_render_crateAndSize :
    (∀ d ∈ crateAndSize, ∀ text ∈ d.undocumented.texts, Inline text.toList) ∧
      (render Options.default.declaring crateAndSize).text
        = "declare module Post \x7b\r\n"
          ++ "\t/**\r\n\t * Opens \x7b\r\n\t * and more.\r\n\t */\r\n"
          ++ "\tinterface Crate #\x7bExtendsPlaceholder_Box\x7d\x7b\r\n"
          ++ "\t\t/**\r\n\t\t * All \x7d of them.\r\n\t\t */\r\n"
          ++ "\t\tsides: \x7b\r\n\t\t\tedges: \x7b\r\n\t\t\t\tlength: number;\r\n"
          ++ "\t\t\t\x7d[];\r\n\t\t\tany\x7bone\x7d: any;\r\n\t\t\x7d[];\r\n"
          ++ "\t\x7d\r\n\x7d\r\n"
          ++ "declare const enum Size \x7b\r\n\tSmall = 1,\r\n\x7d\r\n" ∧
      Nested (marked Extends.token 0 (draft Options.default.declaring crateAndSize)) := by
  have hinline : ∀ d ∈ crateAndSize, ∀ text ∈ d.undocumented.texts, Inline text.toList := by
    decide +kernel
  obtain ⟨htext, hnested, -, -⟩ := nested_render Options.default.declaring crateAndSize hinline
  refine ⟨hinline, ?_, hnested⟩
  rw [← String.toList_inj, ← htext]
  simp only [String.toList_append]
  decide +kernel

end Body

end Typings
