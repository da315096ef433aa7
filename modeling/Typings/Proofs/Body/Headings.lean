import Typings.Proofs.Body.Filled
import Typings.Proofs.Body.Headers
import Typings.Proofs.Body.InStep
import Typings.Proofs.Text.Occurrences

/-!
# The headers of a body

The text of a body can be cut at the headers of its types. There is one header for each type, in
the order of declaration, and what stands between two headers does not depend on what the slots
hold. So a slot is filled in the header of a type that extends a base, directly in front of the
brace, and nowhere else.

With tokens in the slots this says where the tokens are. A text of a descriptor may hold one as
well. If no token starts in any of them, the tokens of the body are those in its headers.

## Main definitions

* `Descriptor.heading` — the header of a declared type.
* `Outline` — a text that is cut at headers.
* `Draft.Outlined` — a draft that writes the headers of some types.

## Main results

* `Body.outlined_draft` — the headers of a body.
* `Outline.occurrences_token` — how many tokens there are.
* `Body.bases_in_step` — the registry, the bases and the headers of a body.
-/

namespace Typings

open Extends

/-! ## Texts that are cut at headers -/

/-- The header of a declared type from its keyword to the brace, with some texts in the slots. -/
def Descriptor.heading (o : Options) (slot : String → String) (d : Descriptor) : String :=
  if d.isEnum then "const enum " ++ o.typeName d.name ++ " \x7b"
  else match d.extendedBase? with
    | some base => OnePass.header o d (slot base)
    | none => OnePass.header o d ""

/-- A text that is cut at the headers of some types. -/
inductive Outline where
  /-- A text without headers. -/
  | rest (text : List Char)
  /-- A header, what stands in front of it and what stands behind it. -/
  | header (before : List Char) (type : Descriptor) (behind : Outline)

namespace Outline

/-- The types whose headers there are. -/
def types : Outline → List Descriptor
  | rest _ => []
  | header _ type behind => type :: behind.types

/-- The whole text, with some texts in the slots of the headers. -/
def text (o : Options) (slot : String → String) : Outline → List Char
  | rest text => text
  | header before type behind => before ++ (type.heading o slot).toList ++ behind.text o slot

/-- One text behind the other. -/
def append : Outline → Outline → Outline
  | rest text, rest text' => rest (text ++ text')
  | rest text, header before type behind => header (text ++ before) type behind
  | header before type behind, other => header before type (behind.append other)

theorem types_append (a b : Outline) : (a.append b).types = a.types ++ b.types := by
  fun_induction append a b with
  | case1 => rfl
  | case2 => rfl
  | case3 before type behind other ih => exact congrArg (type :: ·) ih

theorem text_append (o : Options) (slot : String → String) (a b : Outline) :
    (a.append b).text o slot = a.text o slot ++ b.text o slot := by
  fun_induction append a b with
  | case1 => rfl
  | case2 front before type behind => simp only [text, List.append_assoc]
  | case3 before type behind other ih => simp only [text, ih, List.append_assoc]

end Outline

/-! ## Drafts with headers -/

namespace Draft

variable {o : Options}

/-- A draft that writes the headers of some types, in order. What it writes around them does not
depend on what the slots hold. -/
def Outlined (o : Options) (types : List Descriptor) (draft : Draft) : Prop :=
  ∀ level, ∃ outline : Outline,
    outline.types = types ∧ ∀ slot, written slot level draft = outline.text o slot

theorem Outlined.append {xs ys : List Descriptor} {a b : Draft} (ha : Outlined o xs a)
    (hb : Outlined o ys b) : Outlined o (xs ++ ys) (a ++ b) := by
  intro level
  obtain ⟨first, rfl, hfirst⟩ := ha level
  obtain ⟨second, rfl, hsecond⟩ := hb (levelAfter level a)
  refine ⟨first.append second, first.types_append second, fun slot => ?_⟩
  rw [written_append, hfirst, hsecond, Outline.text_append]

theorem outlined_of_slots_eq_nil {a : Draft} (h : a.slots = []) : Outlined o [] a := fun level =>
  ⟨.rest (written (fun _ => "") level a), rfl, fun _ => written_congr (by simp [h]) level⟩

/-- A draft that writes one header. -/
theorem outlined_of_written {d : Descriptor} {a : Draft} (before behind : Nat → List Char)
    (h : ∀ slot level,
      written slot level a = before level ++ (d.heading o slot).toList ++ behind level) :
    Outlined o [d] a := fun level =>
  ⟨.header (before level) d (.rest (behind level)), rfl, fun slot => h slot level⟩

theorem outlined_flatMap {α : Type} {f : α → List Descriptor} {g : α → Draft} {xs : List α}
    (h : ∀ x ∈ xs, Outlined o (f x) (g x)) : Outlined o (xs.flatMap f) (xs.flatMap g) := by
  induction xs with
  | nil => exact outlined_of_slots_eq_nil rfl
  | cons x rest ih =>
      rw [List.flatMap_cons, List.flatMap_cons]
      exact (h x List.mem_cons_self).append (ih fun y hy => h y (List.mem_cons_of_mem _ hy))

end Draft

/-! ## The headers of a body -/

section

variable (o : Options)

/-- The line of an enumeration. -/
theorem Descriptor.outlined_enumDraft (modifier : String) {d : Descriptor}
    (henum : d.isEnum = true) : Draft.Outlined o [d] (d.enumDraft o modifier) := by
  have hline : Draft.Outlined o [d]
      [.addIndented (modifier ++ "const enum " ++ o.typeName d.name ++ " \x7b")] := by
    refine Draft.outlined_of_written (fun level => List.replicate level '\t' ++ modifier.toList)
      (fun _ => []) fun slot level => ?_
    rw [Descriptor.heading, if_pos henum]
    simp [Draft.Step.written]
  have hcomment : Draft.Outlined o [] [.comment d.summary] := Draft.outlined_of_slots_eq_nil rfl
  have hblock : Draft.Outlined o [] ([.newline, .indent] ++ d.members.flatMap
      (Member.constantDraft o) ++ [.dedent] ++ Draft.line "\x7d") := by
    refine Draft.outlined_of_slots_eq_nil ?_
    rw [Draft.slots_append, Draft.slots_append, Draft.slots_append, Descriptor.slots_constants]
    rfl
  have hall := (hcomment.append hline).append hblock
  simpa [Descriptor.enumDraft, Draft.line] using hall

/-- The start of an interface or class, its slot and the brace behind it. -/
theorem Descriptor.outlined_interfaceDraft (modifier : String) {d : Descriptor}
    (henum : d.isEnum = false) : Draft.Outlined o [d] (d.interfaceDraft o modifier) := by
  have hheader : Draft.Outlined o [d]
      ([.addIndented (modifier ++ Descriptor.keyword o ++ " " ++ o.typeName d.name ++ " ")]
        ++ d.slot ++ [.add "\x7b"]) := by
    refine Draft.outlined_of_written (fun level => List.replicate level '\t' ++ modifier.toList)
      (fun _ => []) fun slot level => ?_
    rw [Descriptor.heading, if_neg (by simp [henum]), Descriptor.slot]
    cases d.extendedBase? <;> simp [OnePass.header, Draft.Step.written]
  have hcomment : Draft.Outlined o [] [.comment d.summary] := Draft.outlined_of_slots_eq_nil rfl
  have hblock : Draft.Outlined o [] ([.newline, .indent] ++ membersDraft o d.members
      ++ [.dedent] ++ Draft.line "\x7d") := by
    refine Draft.outlined_of_slots_eq_nil ?_
    rw [Draft.slots_append, Draft.slots_append, Draft.slots_append, slots_membersDraft]
    rfl
  have hall := (hcomment.append hheader).append hblock
  simpa [Descriptor.interfaceDraft, Descriptor.headerDraft, Descriptor.blockDraft] using hall

theorem Descriptor.outlined_draft (modifier : String) (d : Descriptor) :
    Draft.Outlined o [d] (d.draft o modifier) := by
  rw [Descriptor.draft]
  cases henum : d.isEnum with
  | true => exact Descriptor.outlined_enumDraft o modifier henum
  | false => exact Descriptor.outlined_interfaceDraft o modifier henum

theorem Body.outlined_enclose (scope : String) {types : List Descriptor} {declarations : Draft}
    (h : Draft.Outlined o types declarations) :
    Draft.Outlined o types (Body.enclose o scope declarations) := by
  rw [Body.enclose]
  split
  · have hopening : Draft.Outlined o []
        (Draft.line ("declare module " ++ scope ++ " \x7b") ++ [.indent]) :=
      Draft.outlined_of_slots_eq_nil rfl
    have hclosing : Draft.Outlined o [] ([.dedent] ++ Draft.line "\x7d") :=
      Draft.outlined_of_slots_eq_nil rfl
    have hall := (hopening.append h).append hclosing
    simpa only [List.append_assoc, List.nil_append, List.append_nil] using hall
  · exact h

/-- **The headers of a body** are those of its types, in the order of declaration. -/
theorem Body.outlined_draft (types : List Descriptor) :
    Draft.Outlined o (Descriptor.renderOrder types) (Body.draft o types) := by
  refine Draft.outlined_flatMap fun group _ => Body.outlined_enclose o group.1 ?_
  have hdeclarations : Draft.Outlined o (group.2.flatMap fun d => [d])
      (group.2.flatMap (Descriptor.draft o (Body.modifier o group.1))) :=
    Draft.outlined_flatMap fun d _ => Descriptor.outlined_draft o _ d
  rwa [List.flatMap_singleton'] at hdeclarations

end

/-! ## The tokens of a body -/

theorem Descriptor.plain_base {d : Descriptor} (h : AllPlain d.texts) {base : String}
    (hbase : d.base = some base) : Plain base.toList :=
  (allPlain_append.mp h.tail.tail).1 base (by simp [hbase])

theorem Descriptor.heading_of_some (o : Options) (slot : String → String) {d : Descriptor}
    {base : String} (h : d.extendedBase? = some base) :
    d.heading o slot = OnePass.header o d (slot base) := by
  have henum : d.isEnum = false :=
    (OnePass.asksFor_eq_true_iff.mp (OnePass.extendedBase?_eq_some_iff.mp h).2).1
  rw [Descriptor.heading, if_neg (by simp [henum]), h]

/-- Nothing of a slot stands in the header of a type that extends no base. -/
theorem Descriptor.heading_of_none (o : Options) (slot slot' : String → String) {d : Descriptor}
    (h : d.extendedBase? = none) : d.heading o slot = d.heading o slot' := by
  rw [Descriptor.heading, Descriptor.heading, h]

section

variable (o : Options) (front before : List Char) {d : Descriptor} (behind : Outline)

/-- The header of a type that extends no base belongs to what stands around the slots. -/
theorem Outline.text_header_of_none (slot slot' : String → String) (h : d.extendedBase? = none) :
    front ++ (header before d behind).text o slot'
      = (front ++ before ++ (d.heading o slot).toList) ++ behind.text o slot' := by
  rw [text, d.heading_of_none o slot' slot h]
  simp only [List.append_assoc]

/-- In the header of a type that extends a base there is a blank in front of the slot and a brace
behind it. -/
theorem Outline.text_header_of_some (slot : String → String) {base : String}
    (h : d.extendedBase? = some base) :
    front ++ (header before d behind).text o slot
      = (front ++ before ++ (Descriptor.keyword o ++ " " ++ o.typeName d.name).toList)
        ++ ' ' :: ((slot base).toList ++ '\x7b' :: behind.text o slot) := by
  rw [text, d.heading_of_some o slot h]
  simp [OnePass.header]

end

/-- A token starts once in the token for a base. -/
theorem occurrences_tokenStart {base : String} (h : Plain base.toList) :
    Text.occurrences tokenStart.toList (tokenStart.toList ++ base.toList) = 1 := by
  have hrest : Plain ("\x7bExtendsPlaceholder_".toList ++ base.toList) :=
    Plain.append_left (by decide) h
  have hcons : tokenStart.toList ++ base.toList
      = '#' :: ("\x7bExtendsPlaceholder_".toList ++ base.toList) := by
    rw [tokenStart_eq, List.cons_append]
  have hstart : tokenStart.toList <+: '#' :: ("\x7bExtendsPlaceholder_".toList ++ base.toList) :=
    ⟨base.toList, hcons⟩
  rw [hcons, Text.occurrences, if_pos hstart, Text.occurrences_eq_zero_iff.mpr hrest]

/-- **How many tokens there are.** If no token starts when something else stands in the slots,
there is one for each type that extends a base. -/
theorem Outline.occurrences_token (o : Options) {slot : String → String} (outline : Outline)
    (hbases : ∀ d ∈ outline.types, ∀ base, d.extendedBase? = some base → Plain base.toList)
    (front : List Char) (hplain : Plain (front ++ outline.text o slot)) :
    Text.occurrences tokenStart.toList (front ++ outline.text o token)
      = (outline.types.filterMap Descriptor.extendedBase?).length := by
  induction outline generalizing front with
  | rest text => exact Text.occurrences_eq_zero_iff.mpr hplain
  | header before d behind ih =>
      obtain ⟨hd, hrest⟩ := List.forall_mem_cons.mp hbases
      cases hbase : d.extendedBase? with
      | none =>
          rw [Outline.text_header_of_none o front before behind slot slot hbase] at hplain
          rw [Outline.text_header_of_none o front before behind slot token hbase, types,
            List.filterMap_cons_none hbase]
          exact ih hrest _ hplain
      | some base =>
          rw [Outline.text_header_of_some o front before behind slot hbase] at hplain
          obtain ⟨hfront, hbehind⟩ := (plain_append_cons_iff (by decide)).mp hplain
          -- The brace in front of the other headers is a part of what a token starts with.
          have hothers := ih hrest ['\x7b'] (hbehind.mono (List.suffix_append _ _).isInfix)
          have htoken : (token base).toList ++ '\x7b' :: behind.text o token
              = (tokenStart.toList ++ base.toList)
                ++ tokenEnd :: (['\x7b'] ++ behind.text o token) := by
            simp [token_toList]
          rw [Outline.text_header_of_some o front before behind token hbase,
            Text.occurrences_append_cons (by decide) (by decide), htoken,
            Text.occurrences_append_cons (by decide) (by decide),
            Text.occurrences_eq_zero_iff.mpr hfront, occurrences_tokenStart (hd base hbase),
            hothers, types, List.filterMap_cons_some hbase, List.length_cons]
          omega

/-! ## The registry, the bases and the headers -/

namespace Body

/-- **The registry, the bases and the headers of a body.** The registry holds a clause for each
base that is taken down, in the same order: the order in which the bases occur for the first time
when the types are gone through in the order of declaration. These are the bases that are given
and not empty, of types that are no enumerations and do not ask to leave them out. The clause for
a base is the one that the first type asks for.

The text can be cut at the headers of all types, in the order of declaration. In the header of a
type that extends a base stands its token, directly in front of the brace. Nothing stands there in
the header of another type, and what is around the headers would be the same with anything else in
the place of the tokens. If no token starts in a text of the types, there are no more tokens. -/
theorem bases_in_step (o : Options) (types : List Descriptor) :
    (render o types).clauses.bases = (render o types).names.bases.toList ∧
      (render o types).names.bases.toList
        = distinctBy id ((Descriptor.renderOrder types).filterMap Descriptor.extendedBase?) ∧
      (∀ (d : Descriptor) (base : String), d.extendedBase? = some base ↔
        d.isEnum = false ∧ Summary.ignoresBase d.summary = false ∧ d.base = some base ∧
          base ≠ "") ∧
      (∀ base ∈ (render o types).names.bases.toList, ∃ first,
        (OnePass.askers base types).head? = some first ∧
          (render o types).clauses.get? base = some (first.extendsClause o base)) ∧
      (∃ outline : Outline, outline.types = Descriptor.renderOrder types ∧
        (render o types).text.toList = outline.text o token ∧
        ∀ slot, ((draft o types).text slot).toList = outline.text o slot) ∧
      ((∀ d ∈ types, d.TokenSafe) →
        Text.occurrences tokenStart.toList (render o types).text.toList
          = ((Descriptor.renderOrder types).filterMap Descriptor.extendedBase?).length) := by
  obtain ⟨outline, htypes, htext⟩ := outlined_draft o types 0
  have hdraft (slot : String → String) :
      ((draft o types).text slot).toList = outline.text o slot := by
    rw [Draft.toList_text, htext]
  refine ⟨inStep_render o types, rfl, fun d base => ?_, fun base hbase => ?_,
    ⟨outline, htypes, hdraft token, hdraft⟩, fun hsafe => ?_⟩
  · rw [OnePass.extendedBase?_eq_some_iff, OnePass.asksFor_eq_true_iff, and_comm]
    simp only [and_assoc]
  · obtain ⟨d, hd, hextends⟩ := Names.mem_bases_ofTypes.mp (OrderedSet.mem_def.mpr hbase)
    obtain ⟨hne, hasks⟩ := OnePass.extendedBase?_eq_some_iff.mp hextends
    obtain ⟨first, hfirst⟩ := OnePass.exists_first (Descriptor.mem_renderOrder.mpr hd) hasks
    refine ⟨first, by rw [OnePass.askers, List.head?_filter, hfirst], ?_⟩
    rw [get?_clauses_render, OnePass.firstExtending?_eq hne, hfirst, Option.map_some]
  · have hplain := plain_filled (o := o) [] hsafe
    rw [hdraft] at hplain
    show Text.occurrences _ ((draft o types).text token).toList = _
    rw [hdraft, ← htypes]
    refine outline.occurrences_token o (fun d hd base hbase => ?_) [] hplain
    have hmem : d ∈ types := Descriptor.mem_renderOrder.mp (htypes ▸ hd)
    exact Descriptor.plain_base (hsafe d hmem).plain (Descriptor.base_of_extendedBase? hbase)

/-- An enumeration, two types that extend types of one name, and a type that asks to leave its
base out. -/
def colorsAndLetters : List Descriptor :=
  (Descriptor.enumeration "Color").extending "Palette" none
    :: OnePass.letterAndInvoice
    ++ [((Descriptor.interface "Memo").extending "Entity" none).withSummary
      "TypeScriptDefinitionGenerator: IgnoreBaseType"]

/-- One base, which is taken down twice. -/
theorem bases_in_step_colorsAndLetters :
    (∀ d ∈ colorsAndLetters, d.TokenSafe) ∧
      "Document" ∈ (render .default colorsAndLetters).names.bases.toList ∧
      (render .default colorsAndLetters).clauses.bases = ["Document"] ∧
      (render .default colorsAndLetters).clauses.get? "Document"
        = some "extends Core.Document " ∧
      Text.occurrences tokenStart.toList (render .default colorsAndLetters).text.toList = 2 := by
  have hsafe : ∀ d ∈ colorsAndLetters, d.TokenSafe := by decide +kernel
  obtain ⟨hkeys, horder, -, hclause, -, hcount⟩ := bases_in_step .default colorsAndLetters
  have hbases : (render .default colorsAndLetters).names.bases.toList = ["Document"] :=
    horder.trans (by decide +kernel)
  have hmem : "Document" ∈ (render .default colorsAndLetters).names.bases.toList := by
    rw [hbases]
    exact List.mem_singleton.mpr rfl
  obtain ⟨first, hfirst, hgiven⟩ := hclause "Document" hmem
  have hletter : (OnePass.askers "Document" colorsAndLetters).head?
      = OnePass.letterAndInvoice.head? := rfl
  rw [hletter, OnePass.letterAndInvoice, List.head?_cons, Option.some.injEq] at hfirst
  refine ⟨hsafe, hmem, hkeys.trans hbases, ?_, (hcount hsafe).trans (by decide +kernel)⟩
  rw [hgiven, ← hfirst]
  decide +kernel

end Body

end Typings
