import Typings.Proofs.Body.Plain
import Typings.Proofs.Body.Slots
import Typings.Proofs.Descriptor.Grouping
import Typings.Proofs.Extends.Registration

/-!
# Writing a body in one pass

A body is written with tokens, and its extends clauses are put in place afterwards. This file
compares that with a renderer that writes each declaration once and for all: what stands in a
header is given to it by a function on descriptors, and it knows neither tokens nor slots.

`OnePass.clause` is the function under which the two agree. It looks at nothing but the
descriptors and the bases that are missing, so it also says what a header holds: nothing, or
the clause that the first type with the same base asks for.

## Main definitions

* `OnePass.text` — the body written in one pass.
* `OnePass.clause` — what stands in the header of a type.
* `Draft.Becomes` — a draft that is read as another one.

## Main results

* `OnePass.becomes_draft` — the draft of a body is read as the draft in one pass, if what stands in
  its slots is read as the clauses.
* `reconcile_render_eq_onePass` — the body with its clauses in place is the body written in one
  pass, and no token is left.
-/

namespace Typings

open Extends

namespace OnePass

/-! ## The renderer -/

/-- The declaration of a type, with a text in its header. -/
def declaration (o : Options) (clause : Descriptor → String) (modifier : String)
    (d : Descriptor) : Draft :=
  if d.isEnum then d.enumDraft o modifier
  else d.headerDraft o modifier ++ [.add (clause d)] ++ d.blockDraft o

/-- All declarations, namespace by namespace. -/
def draft (o : Options) (clause : Descriptor → String) (types : List Descriptor) : Draft :=
  (Descriptor.groups types).flatMap fun (scope, types) =>
    Body.enclose o scope (types.flatMap (declaration o clause (Body.modifier o scope)))

/-- The body written in one pass. Its draft has no slots. -/
def text (o : Options) (clause : Descriptor → String) (types : List Descriptor) : String :=
  (draft o clause types).text fun _ => ""

/-! ## What stands in a header -/

/-- Whether a type asks for a clause for a base: it is no enumeration, and its summary does not
say to leave the base out. -/
def asksFor (base : String) (d : Descriptor) : Bool :=
  !d.isEnum && !Summary.ignoresBase d.summary && d.base = some base

/-- What stands in the header of a type: nothing if the type has no base, or an empty one, or
one that is to be left out; nothing if its base is missing; and otherwise the clause that the
first type, in the order of declaration, asks for. -/
def clause (o : Options) (types : List Descriptor) (unresolved : List String)
    (d : Descriptor) : String :=
  match d.base with
  | none => ""
  | some base =>
    if base = "" ∨ Summary.ignoresBase d.summary ∨ base ∈ unresolved then ""
    else match (Descriptor.renderOrder types).find? (asksFor base) with
      | some first => first.extendsClause o base
      | none => ""

end OnePass

/-! ## Drafts that become other drafts -/

namespace Draft

section

variable (reads : List Char → List Char) (fill : String → String)

/-- With some texts in its slots, the first draft writes what is read as the second one, and
reading goes on behind it. Both leave a writer at the same level. -/
def Becomes (a b : Draft) : Prop :=
  ∀ level, levelAfter level a = levelAfter level b ∧ ∀ slot behind,
    reads (written fill level a ++ behind) = written slot level b ++ reads behind

/-- What a draft writes is read as it stands. -/
def Passes (a : Draft) : Prop :=
  ∀ slot level behind, reads (written slot level a ++ behind) = written slot level a ++ reads behind

end

variable {reads : List Char → List Char} {fill : String → String}

theorem Becomes.append {a b a' b' : Draft} (h : Becomes reads fill a b)
    (h' : Becomes reads fill a' b') : Becomes reads fill (a ++ a') (b ++ b') := by
  intro level
  obtain ⟨hlevel, htext⟩ := h level
  obtain ⟨hlevel', htext'⟩ := h' (levelAfter level a)
  constructor
  · rw [levelAfter_append, levelAfter_append, hlevel', hlevel]
  · intro slot behind
    rw [written_append, written_append, List.append_assoc, htext slot, htext' slot, hlevel,
      List.append_assoc]

theorem Becomes.flatMap {α : Type} {f g : α → Draft} {xs : List α}
    (h : ∀ x ∈ xs, Becomes reads fill (f x) (g x)) :
    Becomes reads fill (xs.flatMap f) (xs.flatMap g) := by
  induction xs with
  | nil => exact fun _ => ⟨rfl, fun _ _ => rfl⟩
  | cons x rest ih =>
      rw [List.flatMap_cons, List.flatMap_cons]
      exact (h x (by simp)).append (ih fun y hy => h y (by simp [hy]))

/-- A draft without slots that is read as it stands becomes itself. -/
theorem Passes.becomes {a : Draft} (h : a.Passes reads) (fill : String → String)
    (hslots : a.slots = []) : Becomes reads fill a a := by
  intro level
  refine ⟨rfl, fun slot behind => ?_⟩
  have hwritten : written fill level a = written slot level a :=
    written_congr (by simp [hslots]) level
  rw [hwritten, h slot level behind]

theorem Sealed.passes {a : Draft} (h : a.Sealed) (meaning : String → Option String) :
    a.Passes (Text.substitute (tokenRule meaning)) :=
  fun slot level behind => substitute_sealed meaning (h slot level) behind

end Draft

/-! ## Declarations -/

namespace OnePass

theorem extendedBase?_eq_some_iff {d : Descriptor} {base : String} :
    d.extendedBase? = some base ↔ base ≠ "" ∧ asksFor base d = true := by
  rw [Descriptor.extendedBase?, asksFor]
  cases hignored : d.isEnum || Summary.ignoresBase d.summary with
  | true =>
      cases henum : d.isEnum with
      | true => simp
      | false =>
          rw [henum, Bool.false_or] at hignored
          simp [hignored]
  | false =>
      obtain ⟨henum, hsummary⟩ := Bool.or_eq_false_iff.mp hignored
      simp [henum, hsummary, Option.filter_eq_some_iff, and_comm]

theorem firstExtending?_eq {base : String} (hne : base ≠ "") (types : List Descriptor) :
    Descriptor.firstExtending? types base
      = (Descriptor.renderOrder types).find? (asksFor base) := by
  rw [Descriptor.firstExtending?]
  congr 1
  funext d
  rw [Bool.eq_iff_iff, decide_eq_true_iff, extendedBase?_eq_some_iff]
  exact and_iff_right hne

theorem exists_first {types : List Descriptor} {d : Descriptor} (hd : d ∈ types) {base : String}
    (hasks : asksFor base d = true) : ∃ first, types.find? (asksFor base) = some first :=
  Option.isSome_iff_exists.mp (List.find?_isSome.mpr ⟨d, hd, hasks⟩)

/-- The meaning of the base of a type is what stands in its header. -/
theorem meaning_eq_clause (o : Options) {types : List Descriptor} (unresolved : List String)
    {d : Descriptor} (hd : d ∈ Descriptor.renderOrder types) {base : String}
    (hbase : d.extendedBase? = some base) :
    (Body.render o types).clauses.meaning unresolved base
      = some (clause o types unresolved d) := by
  obtain ⟨hne, hasks⟩ := extendedBase?_eq_some_iff.mp hbase
  have hgiven : d.base = some base ∧ Summary.ignoresBase d.summary = false := by
    simp only [asksFor, Bool.and_eq_true, Bool.not_eq_true', decide_eq_true_iff] at hasks
    exact ⟨hasks.2, hasks.1.2⟩
  -- The type itself is among those that are looked through.
  obtain ⟨first, hfirst⟩ := exists_first hd hasks
  rw [Registry.meaning, get?_clauses_render, firstExtending?_eq hne, hfirst, clause, hgiven.1]
  by_cases hmissing : base ∈ unresolved
  · simp [hmissing]
  · simp [hmissing, hne, hgiven.2, hfirst]

theorem clause_eq_empty (o : Options) (types : List Descriptor) (unresolved : List String)
    {d : Descriptor} (henum : d.isEnum = false) (hnone : d.extendedBase? = none) :
    clause o types unresolved d = "" := by
  rw [clause]
  cases hbase : d.base with
  | none => rfl
  | some base =>
      have hnot : ¬ (base ≠ "" ∧ asksFor base d = true) := by
        rw [← extendedBase?_eq_some_iff, hnone]
        simp
      refine if_pos ?_
      by_contra hall
      push Not at hall
      refine hnot ⟨hall.1, ?_⟩
      have hsummary : Summary.ignoresBase d.summary = false := by simpa using hall.2.1
      simp [asksFor, henum, hsummary, hbase]

end OnePass

/-- Descriptors whose texts cannot be taken for tokens: no token starts in a text, and the token
for the base ends where the name of the base ends. -/
structure Descriptor.TokenSafe (d : Descriptor) : Prop where
  /-- No token starts in a text of the type. -/
  plain : AllPlain d.texts
  /-- The name of the base does not end a token. -/
  closed : ∀ base ∈ d.base, tokenEnd ∉ base.toList

instance (d : Descriptor) : Decidable d.TokenSafe :=
  decidable_of_iff (AllPlain d.texts ∧ ∀ base ∈ d.base, tokenEnd ∉ base.toList)
    ⟨fun h => ⟨h.1, h.2⟩, fun h => ⟨h.1, h.2⟩⟩

/-- The parts of a type and of its namespace around the extends clause are read as they stand. -/
structure Descriptor.Passes (reads : List Char → List Char) (o : Options) (d : Descriptor) :
    Prop where
  opening : Draft.Passes reads (Draft.line ("declare module " ++ d.scope ++ " \x7b") ++ [.indent])
  enumeration : Draft.Passes reads (d.enumDraft o (Body.modifier o d.scope))
  header : Draft.Passes reads (d.headerDraft o (Body.modifier o d.scope))
  block : Draft.Passes reads (d.blockDraft o)
  closing : Draft.Passes reads ([.dedent] ++ Draft.line "\x7d")

theorem Descriptor.passes_id (o : Options) (d : Descriptor) : d.Passes id o :=
  ⟨fun _ _ _ => rfl, fun _ _ _ => rfl, fun _ _ _ => rfl, fun _ _ _ => rfl, fun _ _ _ => rfl⟩

theorem Descriptor.TokenSafe.passes {d : Descriptor} (h : d.TokenSafe) (o : Options)
    (meaning : String → Option String) : d.Passes (Text.substitute (tokenRule meaning)) o where
  opening := ((Body.sealed_moduleLine (d.plain_scope h.plain)).append
    Draft.sealed_indent).passes meaning
  enumeration := (d.sealed_enumDraft o (sealed_modifier o _) h.plain).passes meaning
  header := (d.sealed_headerDraft o (sealed_modifier o _) h.plain).passes meaning
  block := (d.sealed_blockDraft o h.plain).passes meaning
  closing := (Draft.sealed_dedent.append (Draft.sealed_line (by decide))).passes meaning

namespace OnePass

section Steps

variable {o : Options} {types : List Descriptor} {unresolved : List String}
  {reads : List Char → List Char} {fill : String → String} {d : Descriptor}

/-- What is read in the slot for the base of a type is what stands in its header. -/
def ReadsClause (o : Options) (types : List Descriptor) (unresolved : List String)
    (reads : List Char → List Char) (fill : String → String) (d : Descriptor) : Prop :=
  ∀ base, d.extendedBase? = some base → ∀ behind,
    reads ((fill base).toList ++ behind) = (clause o types unresolved d).toList ++ reads behind

theorem becomes_slot (henum : d.isEnum = false)
    (hclause : ReadsClause o types unresolved reads fill d) :
    Draft.Becomes reads fill d.slot [.add (clause o types unresolved d)] := by
  intro level
  rw [Descriptor.slot]
  cases hbase : d.extendedBase? with
  | none =>
      rw [clause_eq_empty o types unresolved henum hbase]
      exact ⟨rfl, fun _ _ => rfl⟩
  | some base =>
      refine ⟨rfl, fun slot behind => ?_⟩
      simpa [Draft.Step.written] using hclause base hbase behind

/-- A declaration becomes the declaration with its clause. -/
theorem becomes_declaration (hpasses : d.Passes reads o)
    (hclause : ReadsClause o types unresolved reads fill d) :
    Draft.Becomes reads fill (d.draft o (Body.modifier o d.scope))
      (declaration o (clause o types unresolved) (Body.modifier o d.scope) d) := by
  rw [Descriptor.draft, declaration]
  cases henum : d.isEnum with
  | true => exact hpasses.enumeration.becomes fill (Descriptor.slots_enumDraft o _ d)
  | false =>
      have hheader := hpasses.header.becomes fill (Descriptor.slots_headerDraft o _ d)
      have hblock := hpasses.block.becomes fill (Descriptor.slots_blockDraft o d)
      exact (hheader.append (becomes_slot henum hclause)).append hblock

theorem becomes_enclose (hpasses : d.Passes reads o) {a b : Draft}
    (h : Draft.Becomes reads fill a b) :
    Draft.Becomes reads fill (Body.enclose o d.scope a) (Body.enclose o d.scope b) := by
  rw [Body.enclose, Body.enclose]
  split
  · have hopening := hpasses.opening.becomes fill rfl
    have hclosing := hpasses.closing.becomes fill rfl
    have hall := (hopening.append h).append hclosing
    simpa only [List.append_assoc] using hall
  · exact h

/-- The draft of a body becomes the draft of the body in one pass. -/
theorem becomes_draft (hpasses : ∀ d ∈ types, d.Passes reads o)
    (hclause : ∀ d ∈ types, ReadsClause o types unresolved reads fill d) :
    Draft.Becomes reads fill (Body.draft o types)
      (draft o (clause o types unresolved) types) := by
  refine Draft.Becomes.flatMap fun ⟨scope, members⟩ hgroup => ?_
  obtain ⟨⟨witness, hwitness, rfl⟩, rfl⟩ := Descriptor.mem_groups.mp hgroup
  refine becomes_enclose (hpasses witness hwitness) ?_
  refine Draft.Becomes.flatMap fun d hd => ?_
  obtain ⟨hmem, hscope⟩ := Descriptor.mem_ofScope.mp hd
  rw [← hscope]
  exact becomes_declaration (hpasses d hmem) (hclause d hmem)

/-- The token for a base is replaced by the clause. -/
theorem readsClause_token (unresolved : List String) (hd : d ∈ types) (hsafe : d.TokenSafe) :
    ReadsClause o types unresolved
      (Text.substitute (tokenRule ((Body.render o types).clauses.meaning unresolved))) token d := by
  intro base hbase behind
  have hasks := (extendedBase?_eq_some_iff.mp hbase).2
  have hgiven : d.base = some base := by
    simp only [asksFor, Bool.and_eq_true, decide_eq_true_iff] at hasks
    exact hasks.2
  rw [substitute_token _ (hsafe.closed base hgiven), meaning_eq_clause o unresolved
    (Descriptor.mem_renderOrder.mpr hd) hbase, Option.getD_some]

theorem reconcile_render_eq_text (hsafe : ∀ d ∈ types, d.TokenSafe) :
    (Body.render o types).clauses.reconcile unresolved (Body.render o types).text
      = text o (clause o types unresolved) types := by
  have hbecomes := becomes_draft
    (fun d hd => (hsafe d hd).passes o ((Body.render o types).clauses.meaning unresolved))
    (fun d hd => readsClause_token unresolved hd (hsafe d hd))
  have h := (hbecomes 0).2 (fun _ => "") []
  rw [List.append_nil, Text.substitute_nil, List.append_nil] at h
  rw [Registry.reconcile, ← String.toList_inj, String.toList_ofList, text, Draft.toList_text, ← h]
  show Text.substitute _ ((Body.draft o types).text token).toList = _
  rw [Draft.toList_text]

end Steps

/-! ## No token is left -/

/-- A clause ends with a blank. -/
theorem sealed_extendsClause (o : Options) {d : Descriptor} (h : AllPlain d.texts) {base : String}
    (hbase : d.base = some base) : Sealed (d.extendsClause o base).toList := by
  have hopening : Sealed "extends ".toList := by decide
  obtain ⟨hbases, hrest⟩ := allPlain_append.mp h.tail.tail
  have hname : Plain (o.typeName base).toList := plain_typeName o (hbases base (by simp [hbase]))
  rw [Descriptor.extendsClause]
  split
  · rename_i scope hscope
    have hgiven : d.baseScope = some scope := (Option.filter_eq_some_iff.mp hscope).1
    have hplain : Plain scope.toList := (allPlain_append.mp hrest).1 scope (by simp [hgiven])
    have hqualifier : Sealed ("extends " ++ scope ++ ".").toList := by
      rw [String.toList_append, String.toList_append]
      exact (hopening.append_plain hplain).append_fixed (by decide) trivial
    rw [String.toList_append, String.toList_append (s := "extends " ++ scope ++ ".")]
    exact (hqualifier.append_plain hname).append_fixed (by decide) trivial
  · rw [String.toList_append, String.toList_append]
    exact (hopening.append_plain hname).append_fixed (by decide) trivial

theorem sealed_clause (o : Options) {types : List Descriptor} (unresolved : List String)
    (hplain : ∀ d ∈ types, AllPlain d.texts) (d : Descriptor) :
    Sealed (clause o types unresolved d).toList := by
  rw [clause]
  split
  · trivial
  · rename_i base hbase
    split
    · trivial
    · split
      · rename_i first hfirst
        have hmem := Descriptor.mem_renderOrder.mp (List.mem_of_find?_eq_some hfirst)
        have hasks := List.find?_some hfirst
        simp only [asksFor, Bool.and_eq_true, decide_eq_true_iff] at hasks
        exact sealed_extendsClause o (hplain first hmem) hasks.2
      · trivial

theorem sealed_draft (o : Options) {clause : Descriptor → String} {types : List Descriptor}
    (hplain : ∀ d ∈ types, AllPlain d.texts) (hclause : ∀ d, Sealed (clause d).toList) :
    Draft.Sealed (draft o clause types) := by
  refine Draft.sealed_flatMap fun ⟨scope, members⟩ hgroup => ?_
  obtain ⟨⟨witness, hwitness, rfl⟩, rfl⟩ := Descriptor.mem_groups.mp hgroup
  refine Body.sealed_enclose o (Descriptor.plain_scope (hplain witness hwitness)) ?_
  refine Draft.sealed_flatMap fun d hd => ?_
  have htexts := hplain d (Descriptor.mem_ofScope.mp hd).1
  have hm := Descriptor.sealed_modifier o witness.scope
  rw [declaration]
  split
  · exact Descriptor.sealed_enumDraft o hm htexts
  · have hadd : Draft.Sealed [.add (clause d)] := by
      intro slot level
      rw [Draft.written_cons, Draft.written_nil, List.append_nil]
      exact hclause d
    exact ((Descriptor.sealed_headerDraft o hm htexts).append hadd).append
      (Descriptor.sealed_blockDraft o htexts)

/-- **A body with its clauses in place is the body written in one pass.** Whatever bases are
missing, replacing the tokens gives the text of the renderer that writes each header directly:
with nothing in it, or with the clause of the first type that asks for one for the same base.
No token is left. -/
theorem reconcile_render_eq_onePass (o : Options) (types : List Descriptor)
    (unresolved : List String) (hsafe : ∀ d ∈ types, d.TokenSafe) :
    (Body.render o types).clauses.reconcile unresolved (Body.render o types).text
        = text o (clause o types unresolved) types ∧
      ¬ tokenStart.toList <:+: (text o (clause o types unresolved) types).toList := by
  refine ⟨reconcile_render_eq_text hsafe, ?_⟩
  have hplain : ∀ d ∈ types, AllPlain d.texts := fun d hd => (hsafe d hd).plain
  rw [text, Draft.toList_text]
  exact (sealed_draft o hplain (sealed_clause o unresolved hplain) _ 0).plain

/-- Two types that extend types of one name from two namespaces. -/
def letterAndInvoice : List Descriptor :=
  [((Descriptor.interface "Letter").inScope "Post").extending "Document" (some "Core"),
    ((Descriptor.interface "Invoice").inScope "Shop").extending "Document" (some "Mail")]

/-- Two headers in one text. -/
theorem reconcile_render_letterAndInvoice :
    (∀ d ∈ letterAndInvoice, d.TokenSafe) ∧
      (Body.render .default letterAndInvoice).clauses.reconcile []
          (Body.render .default letterAndInvoice).text
        = "export interface Letter extends Core.Document \x7b\r\n\x7d\r\n"
          ++ "export interface Invoice extends Core.Document \x7b\r\n\x7d\r\n" := by
  have hsafe : ∀ d ∈ letterAndInvoice, d.TokenSafe := by decide +kernel
  refine ⟨hsafe, ?_⟩
  rw [(reconcile_render_eq_onePass .default letterAndInvoice [] hsafe).1]
  decide +kernel

end OnePass

end Typings
