import Typings.Body
import Typings.Proofs.Draft.Written
import Typings.Proofs.Extends.Token

/-!
# Declarations in which no token starts

The declarations of descriptors are put together from the texts of the descriptors and from
fixed texts. If no token starts in the texts of the descriptors, then none starts in what is
written from them, and none starts across the places where two texts meet: every given text
stands between fixed ones that begin and end with characters foreign to tokens.

A draft is *plain* when it writes a plain text at every level, and *sealed* when it writes a
sealed one. Types of members are plain, since a given text may stand at their very end; all
else is sealed.

## Main results

* `plain_typeName`, `sealed_comment` — the texts of a descriptor as they are written.
* `sealed_membersDraft` — the members of a type, at any depth.
* `Descriptor.sealed_enumDraft`, `Descriptor.sealed_headerDraft`,
  `Descriptor.sealed_blockDraft` — the parts of a declaration.
-/

namespace Typings

open Extends

/-! ## The texts of a descriptor -/

mutual

/-- The texts that a type is written from. -/
def ValueType.texts : ValueType → List String
  | ⟨kind, _⟩ => kind.texts

/-- The texts that a kind is written from. -/
def ValueKind.texts : ValueKind → List String
  | .known name => [name]
  | .array item => item.texts
  | .dictionary text => [text]
  | .shape members => membersTexts members
  | .unknown => []

/-- The texts that a member is written from. -/
def Member.texts : Member → List String
  | ⟨name, _, summary, initializer, type⟩ =>
    name :: (summary.toList ++ (initializer.toList ++ type.texts))

/-- The texts that some members are written from. -/
def membersTexts : List Member → List String
  | [] => []
  | m :: rest => m.texts ++ membersTexts rest

end

/-- The texts that a declared type is written from. -/
def Descriptor.texts (d : Descriptor) : List String :=
  d.name :: d.scope :: (d.base.toList ++ (d.baseScope.toList ++ (d.summary.toList
    ++ membersTexts d.members)))

theorem Member.texts_subset {members : List Member} {m : Member} (hm : m ∈ members) :
    m.texts ⊆ membersTexts members := by
  induction members with
  | nil => simp at hm
  | cons first rest ih =>
      rw [membersTexts]
      rcases List.mem_cons.mp hm with rfl | hm
      · exact List.subset_append_left _ _
      · exact fun text htext => List.mem_append_right _ (ih hm htext)

/-- Texts in which no token starts. -/
def AllPlain (texts : List String) : Prop := ∀ text ∈ texts, Plain text.toList

instance (texts : List String) : Decidable (AllPlain texts) :=
  inferInstanceAs (Decidable (∀ text ∈ texts, Plain text.toList))

theorem allPlain_append {a b : List String} : AllPlain (a ++ b) ↔ AllPlain a ∧ AllPlain b :=
  List.forall_mem_append

theorem AllPlain.head {text : String} {rest : List String} (h : AllPlain (text :: rest)) :
    Plain text.toList := h text (by simp)

theorem AllPlain.tail {text : String} {rest : List String} (h : AllPlain (text :: rest)) :
    AllPlain rest := fun t ht => h t (by simp [ht])

/-! ## Given texts as they are written -/

/-- Spelling a name with a small first letter starts no token. -/
theorem plain_camelCase {name : String} (h : Plain name.toList) :
    Plain (camelCase name).toList := by
  rw [camelCase]
  split
  · exact plain_nil
  · rename_i first rest hname
    rw [hname] at h
    rw [String.toList_ofList]
    by_cases hhash : '#' ∈ Text.lowercase first
    · have hfirst := Text.eq_of_mem_lowercase hhash (by decide) (by decide)
      subst hfirst
      have hself : Text.lowercase '#' = ['#'] := by decide +kernel
      rw [hself]
      exact h
    · exact Plain.append_left hhash (h.mono (List.suffix_cons first rest).isInfix)

theorem plain_typeName (o : Options) {name : String} (h : Plain name.toList) :
    Plain (o.typeName name).toList := by
  rw [Options.typeName]
  split
  · exact plain_camelCase h
  · exact h

theorem plain_propertyName (o : Options) {name : String} (h : Plain name.toList) :
    Plain (o.propertyName name).toList := by
  rw [Options.propertyName]
  split
  · exact plain_camelCase h
  · exact h

theorem plain_constantName (o : Options) {name : String} (h : Plain name.toList) :
    Plain (o.constantName name).toList := by
  rw [Options.constantName]
  split
  · exact plain_camelCase h
  · exact h

theorem plain_label {m : Member} (h : Plain m.name.toList) : Plain m.label.toList := by
  rw [Member.label]
  split
  · rw [String.toList_append]
    exact (h.concat (by decide)).plain
  · exact h

/-- A value without its suffix and its zeros is a part of it, or a single zero. -/
theorem plain_clean {value : String} (h : Plain value.toList) :
    Plain (Initializer.clean value).toList := by
  have hdigits := h.mono (Text.dropEndWhile_prefix Initializer.isSuffixLetter _).isInfix
  rw [Initializer.clean, String.toList_ofList, Initializer.cleanChars]
  split
  · exact hdigits
  · rw [Initializer.dropZeros]
    split
    · decide
    · exact hdigits.mono (List.dropWhile_suffix _).isInfix

/-- A line of a summary in which no token starts becomes a line of a comment in which none
starts: the escape writes characters that are foreign to tokens. -/
theorem plain_commentLine {line : List Char} (h : Plain line) :
    Plain (Summary.commentLine line).toList := by
  have hescaped : Plain (Text.replace "*/".toList "*\\/".toList line) :=
    Text.not_infix_replace (by decide) (by decide) (by simp [tokenStart]) h
  have hstar : Sealed " * ".toList := by decide
  rw [Summary.commentLine, String.toList_ofList]
  exact (hstar.append_plain hescaped).mono (Text.dropEndWhile_prefix _ _).isInfix

/-! ## Plain and sealed drafts -/

namespace Draft

/-- No token starts in what a draft writes. -/
protected def Plain (draft : Draft) : Prop :=
  ∀ slot level, Extends.Plain (written slot level draft)

/-- No token starts in what a draft writes, whatever is written behind it. -/
protected def Sealed (draft : Draft) : Prop :=
  ∀ slot level, Extends.Sealed (written slot level draft)

protected theorem Sealed.append {a b : Draft} (ha : a.Sealed) (hb : b.Sealed) :
    (a ++ b).Sealed := by
  intro slot level
  rw [written_append]
  exact sealed_append (ha slot level) (hb slot _)

protected theorem Sealed.append_plain {a b : Draft} (ha : a.Sealed) (hb : b.Plain) :
    (a ++ b).Plain := by
  intro slot level
  rw [written_append]
  exact (ha slot level).append_plain (hb slot _)

/-- A text that starts with a character foreign to tokens seals a plain draft. -/
protected theorem Plain.append_add {a : Draft} {c : Char} {rest : List Char}
    (ha : a.Plain) (text : String) (htext : text.toList = c :: rest) (hc : c ∉ tokenStart.toList)
    (hrest : Extends.Sealed rest) : Draft.Sealed (a ++ [.add text]) := by
  intro slot level
  have hadded : written slot (levelAfter level a) [.add text] = c :: rest := by
    simp [Step.written, htext]
  rw [written_append, hadded]
  exact (ha slot level).append_fixed hc hrest

theorem sealed_flatMap {α : Type} {f : α → Draft} {xs : List α} (h : ∀ x ∈ xs, (f x).Sealed) :
    Draft.Sealed (xs.flatMap f) := by
  induction xs with
  | nil =>
      intro slot level
      trivial
  | cons x rest ih =>
      rw [List.flatMap_cons]
      exact (h x (by simp)).append (ih fun y hy => h y (by simp [hy]))

end Draft

theorem sealed_tabs (level : Nat) : Sealed (List.replicate level '\t') := by
  induction level with
  | zero => trivial
  | succ level ih =>
      rw [List.replicate_succ]
      exact sealed_append (a := ['\t']) (by decide) ih

/-- A whole line with a plain text is sealed by its end. -/
theorem sealed_lineChars (level : Nat) {text : String} (h : Plain text.toList) :
    Sealed (Writer.lineChars level text) := by
  have hbreak : Text.newline.toList = '\r' :: ['\n'] := by decide
  rw [Writer.lineChars, hbreak]
  exact sealed_append (sealed_tabs level) (h.append_fixed (by decide) (by decide))

namespace Draft

theorem sealed_line {text : String} (h : Extends.Plain text.toList) : (line text).Sealed := by
  intro slot level
  rw [written_line]
  exact sealed_lineChars level h

theorem sealed_addIndented {text : String} (h : Extends.Sealed text.toList) :
    Draft.Sealed [.addIndented text] := by
  intro slot level
  rw [written_cons, written_nil, List.append_nil]
  exact sealed_append (sealed_tabs level) h

theorem sealed_indent : Draft.Sealed [.indent] := fun _ _ => trivial

theorem sealed_dedent : Draft.Sealed [.dedent] := fun _ _ => trivial

theorem sealed_newline : Draft.Sealed [.newline] := by
  intro slot level
  rw [written_cons, written_nil, List.append_nil]
  show Extends.Sealed Text.newline.toList
  decide

/-- The lines of the comment for a summary are plain. -/
theorem plain_of_mem_comment {summary : Option String} (h : AllPlain summary.toList)
    {line : String} (hline : line ∈ Summary.comment summary) : Extends.Plain line.toList := by
  cases summary with
  | none => simp [Summary.comment] at hline
  | some text =>
      have htext : Extends.Plain text.toList := h text (by simp)
      rw [Summary.comment] at hline
      split at hline
      · simp at hline
      · rcases List.mem_append.mp hline with hline | hline
        · rcases List.mem_cons.mp hline with rfl | hline
          · decide
          · obtain ⟨given, hgiven, rfl⟩ := List.mem_map.mp hline
            exact plain_commentLine (htext.mono (Text.infix_of_mem_lines hgiven))
        · rw [List.mem_singleton.mp hline]
          decide

/-- The comment for a summary is sealed, line by line. -/
theorem sealed_comment {summary : Option String} (h : AllPlain summary.toList) :
    Draft.Sealed [.comment summary] := by
  intro slot level
  have hlines : ∀ line ∈ Summary.comment summary, Extends.Plain line.toList :=
    fun line hline => plain_of_mem_comment h hline
  rw [written_cons, written_nil, List.append_nil]
  show Extends.Sealed ((Summary.comment summary).flatMap (Writer.lineChars level))
  generalize Summary.comment summary = lines at hlines
  induction lines with
  | nil => trivial
  | cons line rest ih =>
      rw [List.flatMap_cons]
      exact sealed_append (sealed_lineChars level (hlines line (by simp)))
        (ih fun l hl => hlines l (by simp [hl]))

/-- An opening brace is sealed by the end of its line. -/
theorem sealed_brace : Draft.Sealed [.add "\x7b", .newline, .indent] := by
  intro slot level
  show Extends.Sealed ("\x7b".toList ++ (Text.newline.toList ++ []))
  decide

end Draft

/-! ## Members -/

mutual

theorem ValueType.plain_draft (o : Options) :
    (type : ValueType) → AllPlain type.texts → Draft.Plain (type.draft o)
  | ⟨kind, referenceName⟩, h => by
      rw [ValueType.draft]
      rw [ValueType.texts] at h
      exact ValueKind.plain_draft o (kind.refers referenceName) kind h

/-- What a kind writes is plain, whether it is reached by reference or not. -/
theorem ValueKind.plain_draft (o : Options) (isReference : Bool) :
    (kind : ValueKind) → AllPlain kind.texts → Draft.Plain (kind.draft o isReference)
  | .known name, h => by
      have hname : Plain name.toList := h.head
      intro slot level
      rw [ValueKind.draft, Draft.written_cons, Draft.written_nil, List.append_nil]
      cases isReference with
      | true => exact plain_typeName o hname
      | false => exact hname
  | .array ⟨kind, referenceName⟩, h => by
      rw [ValueKind.texts, ValueType.texts] at h
      rw [ValueKind.draft]
      intro slot level
      exact (((ValueKind.plain_draft o _ kind h).append_add "[]" rfl (by decide)
        (by decide)) slot level).plain
  | .dictionary text, h => by
      intro slot level
      rw [ValueKind.draft, Draft.written_cons, Draft.written_nil, List.append_nil]
      exact h.head
  | .shape members, h => by
      rw [ValueKind.texts] at h
      rw [ValueKind.draft]
      intro slot level
      have hclose : Draft.Sealed [.dedent, .addIndented "\x7d"] :=
        Draft.Sealed.append Draft.sealed_dedent (Draft.sealed_addIndented (by decide))
      exact (((Draft.sealed_brace.append (sealed_membersDraft o members h)).append hclose)
        slot level).plain
  | .unknown, _ => by
      intro slot level
      show Plain "any".toList
      decide

theorem Member.sealed_draft (o : Options) :
    (m : Member) → AllPlain m.texts → Draft.Sealed (m.draft o)
  | ⟨name, optional, summary, initializer, type⟩, h => by
      rw [Member.texts] at h
      obtain ⟨hsummary, h'⟩ := allPlain_append.mp h.tail
      obtain ⟨-, htype⟩ := allPlain_append.mp h'
      -- A colon stands behind the label, and a semicolon behind the type.
      have hlabel := plain_propertyName o
        (plain_label (m := ⟨name, optional, summary, initializer, type⟩) h.head)
      have hhead : Draft.Sealed
          [.addIndented (o.propertyName
            (Member.label ⟨name, optional, summary, initializer, type⟩) ++ ": ")] := by
        apply Draft.sealed_addIndented
        rw [String.toList_append]
        exact hlabel.append_fixed (by decide) (by decide)
      have hsemi := (ValueType.plain_draft o type htype).append_add
        ";" rfl (by decide) (by decide)
      have hall := ((Draft.sealed_comment hsummary).append hhead).append
        (hsemi.append Draft.sealed_newline)
      rw [Member.draft]
      simpa only [List.append_assoc, List.cons_append, List.nil_append] using hall

/-- The members of a type are sealed: a semicolon stands behind each. -/
theorem sealed_membersDraft (o : Options) :
    (members : List Member) → AllPlain (membersTexts members) →
      Draft.Sealed (membersDraft o members)
  | [], _ => by
      intro slot level
      trivial
  | m :: rest, h => by
      rw [membersTexts] at h
      obtain ⟨hm, hrest⟩ := allPlain_append.mp h
      rw [membersDraft]
      exact (Member.sealed_draft o m hm).append (sealed_membersDraft o rest hrest)

end

theorem allPlain_of_mem {members : List Member} (h : AllPlain (membersTexts members)) {m : Member}
    (hm : m ∈ members) : AllPlain m.texts := fun text htext => h text (Member.texts_subset hm htext)

theorem Member.sealed_constantDraft (o : Options) {m : Member} (h : AllPlain m.texts) :
    Draft.Sealed (m.constantDraft o) := by
  obtain ⟨name, optional, summary, initializer, type⟩ := m
  rw [Member.texts] at h
  obtain ⟨hsummary, h'⟩ := allPlain_append.mp h.tail
  obtain ⟨hinit, -⟩ := allPlain_append.mp h'
  have hname : Plain (o.constantName name).toList := plain_constantName o h.head
  rw [Member.constantDraft]
  refine (Draft.sealed_comment hsummary).append (Draft.sealed_line ?_)
  cases initializer with
  | none =>
      rw [String.toList_append]
      exact (hname.append_fixed (by decide) (by decide)).plain
  | some value =>
      have hvalue := plain_clean (hinit value (by simp))
      have hequals : Sealed (o.constantName name ++ " = ").toList := by
        rw [String.toList_append]
        exact hname.append_fixed (by decide) (by decide)
      rw [String.toList_append, String.toList_append]
      exact ((hequals.append_plain hvalue).append_fixed (by decide) (by decide)).plain

/-! ## Declarations -/

namespace Descriptor

variable {d : Descriptor}

/-- What stands in front of a declaration is one of three fixed texts. -/
theorem sealed_modifier (o : Options) (scope : String) : Sealed (Body.modifier o scope).toList := by
  rw [Body.modifier]
  split
  · split <;> decide
  · decide

theorem plain_scope (h : AllPlain d.texts) : Plain d.scope.toList := h.tail.head

theorem allPlain_summary (h : AllPlain d.texts) : AllPlain d.summary.toList := by
  obtain ⟨-, h⟩ := allPlain_append.mp h.tail.tail
  obtain ⟨-, h⟩ := allPlain_append.mp h
  exact (allPlain_append.mp h).1

theorem allPlain_members (h : AllPlain d.texts) : AllPlain (membersTexts d.members) := by
  obtain ⟨-, h⟩ := allPlain_append.mp h.tail.tail
  obtain ⟨-, h⟩ := allPlain_append.mp h
  exact (allPlain_append.mp h).2

theorem sealed_enumDraft (o : Options) {modifier : String} (hm : Sealed modifier.toList)
    (h : AllPlain d.texts) : Draft.Sealed (d.enumDraft o modifier) := by
  have hopening : Sealed (modifier ++ "const enum ").toList := by
    rw [String.toList_append]
    exact sealed_append hm (by decide)
  have hheader : Plain (modifier ++ "const enum " ++ o.typeName d.name ++ " \x7b").toList := by
    rw [String.toList_append, String.toList_append (s := modifier ++ "const enum ")]
    exact Sealed.append_fixed_plain hopening (plain_typeName o h.head) (by decide)
  have hconstants : Draft.Sealed (d.members.flatMap (Member.constantDraft o)) :=
    Draft.sealed_flatMap fun m hm =>
      Member.sealed_constantDraft o (allPlain_of_mem (allPlain_members h) hm)
  exact (((((Draft.sealed_comment (allPlain_summary h)).append (Draft.sealed_line hheader)).append
    Draft.sealed_indent).append hconstants).append Draft.sealed_dedent).append
    (Draft.sealed_line (by decide))

theorem sealed_headerDraft (o : Options) {modifier : String} (hm : Sealed modifier.toList)
    (h : AllPlain d.texts) : Draft.Sealed (d.headerDraft o modifier) := by
  have hkeyword : Sealed (keyword o ++ " ").toList := by
    rw [keyword]
    split <;> decide
  have hopening : Sealed (modifier ++ keyword o ++ " ").toList := by
    rw [String.append_assoc, String.toList_append]
    exact sealed_append hm hkeyword
  have hheader : Sealed (modifier ++ keyword o ++ " " ++ o.typeName d.name ++ " ").toList := by
    rw [String.toList_append, String.toList_append (s := modifier ++ keyword o ++ " ")]
    exact (hopening.append_plain (plain_typeName o h.head)).append_fixed (by decide) trivial
  exact (Draft.sealed_comment (allPlain_summary h)).append (Draft.sealed_addIndented hheader)

theorem sealed_blockDraft (o : Options) (h : AllPlain d.texts) :
    Draft.Sealed (d.blockDraft o) := by
  exact ((Draft.sealed_brace.append (sealed_membersDraft o _ (allPlain_members h))).append
    Draft.sealed_dedent).append (Draft.sealed_line (by decide))

end Descriptor

namespace Body

theorem sealed_moduleLine {scope : String} (hscope : Plain scope.toList) :
    Draft.Sealed (Draft.line ("declare module " ++ scope ++ " \x7b")) := by
  have hopening : Sealed "declare module ".toList := by decide
  apply Draft.sealed_line
  rw [String.toList_append, String.toList_append]
  exact hopening.append_fixed_plain hscope (by decide)

theorem sealed_enclose (o : Options) {scope : String} (hscope : Plain scope.toList)
    {declarations : Draft} (h : declarations.Sealed) :
    Draft.Sealed (enclose o scope declarations) := by
  rw [enclose]
  split
  · exact ((((sealed_moduleLine hscope).append Draft.sealed_indent).append h).append
      Draft.sealed_dedent).append (Draft.sealed_line (by decide))
  · exact h

end Body

end Typings
