import Typings.Proofs.Body.Modules
import Typings.Proofs.Extends.Registration
import Typings.Proofs.Text.LineBreaks

/-!
# The line breaks of a body

All that a draft writes apart from its line breaks stands on one line: the given texts do, and
what is put around them is fixed. A summary is the exception, for it may hold line breaks of any
kind. It is taken apart into lines before it is written, and so it is written line by line like
everything else. Then all line breaks of a body are those that the writer ends its lines with.

The pass over the tokens takes nothing apart that belongs together. What it reads as a token may
come from a summary and may go over several lines, but it starts and ends with a brace, so each
line break is inside or outside of it.

## Main definitions

* `AllOneLine` — texts without line breaks.
* `Draft.Neat` — a draft whose texts stand on one line each.

## Main results

* `Draft.Neat.paired_written` — what such a draft writes.
* `Extends.paired_substitute` — the pass over the tokens.
* `Body.neat_draft`, `Body.paired_reconcile` — the body before and behind it.
-/

namespace Typings

open Text

/-! ## Given texts as they are written -/

/-- Texts without line breaks. -/
def AllOneLine (texts : List String) : Prop := ∀ text ∈ texts, OneLine text.toList

instance (texts : List String) : Decidable (AllOneLine texts) :=
  inferInstanceAs (Decidable (∀ text ∈ texts, OneLine text.toList))

theorem allOneLine_append {a b : List String} :
    AllOneLine (a ++ b) ↔ AllOneLine a ∧ AllOneLine b := List.forall_mem_append

theorem AllOneLine.head {text : String} {rest : List String} (h : AllOneLine (text :: rest)) :
    OneLine text.toList := h text (by simp)

theorem AllOneLine.tail {text : String} {rest : List String} (h : AllOneLine (text :: rest)) :
    AllOneLine rest := fun t ht => h t (by simp [ht])

theorem oneLine_spelled (small : Bool) {name : String} (h : OneLine name.toList) :
    OneLine (if small then camelCase name else name).toList :=
  ⟨notMem_spelled (by decide) (by decide) small h.1,
    notMem_spelled (by decide) (by decide) small h.2⟩

theorem oneLine_label {m : Member} (h : OneLine m.name.toList) : OneLine m.label.toList :=
  ⟨notMem_label (by decide) h.1, notMem_label (by decide) h.2⟩

theorem oneLine_clean {value : String} (h : OneLine value.toList) :
    OneLine (Initializer.clean value).toList :=
  ⟨notMem_clean (by decide) h.1, notMem_clean (by decide) h.2⟩

/-! ## Drafts -/

namespace Draft

/-- The text of a step stands on one line. The lines of a comment always do. -/
def Step.Neat : Step → Prop
  | .add text | .addIndented text | .slot text => OneLine text.toList
  | .newline | .indent | .dedent | .comment _ => True

/-- The texts of a draft stand on one line each. -/
def Neat (draft : Draft) : Prop := ∀ step ∈ draft, step.Neat

theorem neat_nil : Neat [] := by simp [Neat]

theorem neat_cons {step : Step} {rest : Draft} : Neat (step :: rest) ↔ step.Neat ∧ Neat rest :=
  List.forall_mem_cons

theorem neat_append {a b : Draft} : Neat (a ++ b) ↔ a.Neat ∧ b.Neat := List.forall_mem_append

theorem neat_flatMap {α : Type} {f : α → Draft} {xs : List α} (h : ∀ x ∈ xs, (f x).Neat) :
    Neat (xs.flatMap f) := List.forall_mem_flatMap.mpr h

theorem neat_line {text : String} (h : OneLine text.toList) : Neat (line text) :=
  neat_cons.mpr ⟨h, neat_cons.mpr ⟨trivial, neat_nil⟩⟩

theorem paired_lineChars (level : Nat) {text : String} (h : OneLine text.toList) :
    Paired (Writer.lineChars level text) := by
  have htabs : OneLine (List.replicate level '\t') := by
    constructor <;> simp [List.mem_replicate]
  exact htabs.paired.append (h.paired.append paired_newline)

/-- **What a neat draft writes** has only the line breaks of the writer. -/
theorem Neat.paired_written {slot : String → String} {draft : Draft} (h : draft.Neat)
    (hslot : ∀ base, OneLine base.toList → OneLine (slot base).toList) (level : Nat) :
    Paired (written slot level draft) := by
  induction draft generalizing level with
  | nil => exact paired_nil
  | cons step rest ih =>
      obtain ⟨hstep, hrest⟩ := neat_cons.mp h
      refine Paired.append ?_ (ih hrest _)
      cases step with
      | add text => exact OneLine.paired hstep
      | addIndented text =>
          have htabs : OneLine (List.replicate level '\t') := by
            constructor <;> simp [List.mem_replicate]
          exact htabs.paired.append (OneLine.paired hstep)
      | newline => exact paired_newline
      | indent => exact paired_nil
      | dedent => exact paired_nil
      | comment summary =>
          exact paired_flatMap fun line hline =>
            paired_lineChars level (Summary.oneLine_of_mem_comment hline)
      | slot base => exact (hslot base hstep).paired

end Draft

/-! ## Members -/

section Members

variable (o : Options)

open Draft

mutual

theorem ValueType.neat_draft :
    (type : ValueType) → AllOneLine type.undocumented.texts → (type.draft o).Neat
  | ⟨kind, referenceName⟩, h => by
      rw [ValueType.undocumented, ValueType.texts] at h
      rw [ValueType.draft]
      exact ValueKind.neat_draft _ kind h

theorem ValueKind.neat_draft (isReference : Bool) :
    (kind : ValueKind) → AllOneLine kind.undocumented.texts → (kind.draft o isReference).Neat
  | .known name, h => by
      have hname : OneLine name.toList := h.head
      rw [ValueKind.draft]
      refine neat_cons.mpr ⟨?_, neat_nil⟩
      cases isReference with
      | true => exact oneLine_spelled _ hname
      | false => exact hname
  | .array ⟨kind, referenceName⟩, h => by
      rw [ValueKind.undocumented, ValueType.undocumented, ValueKind.texts, ValueType.texts] at h
      have hbrackets : OneLine "[]".toList := by decide
      rw [ValueKind.draft]
      exact neat_append.mpr ⟨ValueKind.neat_draft _ kind h, neat_cons.mpr ⟨hbrackets, neat_nil⟩⟩
  | .dictionary text, h => by
      rw [ValueKind.draft]
      exact neat_cons.mpr ⟨h.head, neat_nil⟩
  | .shape members, h => by
      rw [ValueKind.undocumented, ValueKind.texts] at h
      have hopening : OneLine "\x7b".toList := by decide
      have hclosing : OneLine "\x7d".toList := by decide
      have hstart : Neat [.add "\x7b", .newline, .indent] :=
        neat_cons.mpr ⟨hopening, neat_cons.mpr ⟨trivial, neat_cons.mpr ⟨trivial, neat_nil⟩⟩⟩
      have hend : Neat [.dedent, .addIndented "\x7d"] :=
        neat_cons.mpr ⟨trivial, neat_cons.mpr ⟨hclosing, neat_nil⟩⟩
      rw [ValueKind.draft]
      exact neat_append.mpr ⟨neat_append.mpr ⟨hstart, neat_membersDraft members h⟩, hend⟩
  | .unknown, _ => by
      have hany : OneLine "any".toList := by decide
      rw [ValueKind.draft]
      exact neat_cons.mpr ⟨hany, neat_nil⟩

theorem Member.neat_draft :
    (m : Member) → AllOneLine m.undocumented.texts → (m.draft o).Neat
  | ⟨name, optional, summary, initializer, type⟩, h => by
      rw [Member.undocumented, Member.texts] at h
      obtain ⟨-, h'⟩ := allOneLine_append.mp h.tail
      obtain ⟨-, htype⟩ := allOneLine_append.mp h'
      have hlabel : OneLine (o.propertyName
          (Member.label ⟨name, optional, summary, initializer, type⟩) ++ ": ").toList := by
        have hcolon : OneLine ": ".toList := by decide
        exact OneLine.append (oneLine_spelled _ (oneLine_label h.head)) hcolon
      have hsemicolon : OneLine ";".toList := by decide
      rw [Member.draft, neat_append, neat_append]
      exact ⟨⟨neat_cons.mpr ⟨trivial, neat_cons.mpr ⟨hlabel, neat_nil⟩⟩,
        ValueType.neat_draft type htype⟩,
        neat_cons.mpr ⟨hsemicolon, neat_cons.mpr ⟨trivial, neat_nil⟩⟩⟩

/-- The texts of members stand on one line each, at any depth. -/
theorem neat_membersDraft :
    (members : List Member) → AllOneLine (membersTexts (membersUndocumented members)) →
      (membersDraft o members).Neat
  | [], _ => neat_nil
  | m :: rest, h => by
      rw [membersUndocumented, membersTexts] at h
      obtain ⟨hm, hrest⟩ := allOneLine_append.mp h
      rw [membersDraft]
      exact neat_append.mpr ⟨Member.neat_draft m hm, neat_membersDraft rest hrest⟩

end

theorem allOneLine_of_mem {members : List Member}
    (h : AllOneLine (membersTexts (membersUndocumented members))) {m : Member}
    (hm : m ∈ members) : AllOneLine m.undocumented.texts := fun text htext =>
  h text (Member.texts_subset (Member.undocumented_mem hm) htext)

theorem Member.neat_constantDraft {m : Member} (h : AllOneLine m.undocumented.texts) :
    (m.constantDraft o).Neat := by
  obtain ⟨name, optional, summary, initializer, type⟩ := m
  rw [Member.undocumented, Member.texts] at h
  obtain ⟨-, h'⟩ := allOneLine_append.mp h.tail
  obtain ⟨hinit, -⟩ := allOneLine_append.mp h'
  have hname : OneLine (o.constantName name).toList := oneLine_spelled _ h.head
  have hcomma : OneLine ",".toList := by decide
  have hequals : OneLine " = ".toList := by decide
  rw [Member.constantDraft]
  refine neat_cons.mpr ⟨trivial, neat_line ?_⟩
  cases initializer with
  | none => exact hname.append hcomma
  | some value =>
      have hvalue := oneLine_clean (hinit value (by simp))
      exact ((hname.append hequals).append hvalue).append hcomma

end Members

/-! ## Declarations -/

namespace Descriptor

open Draft

variable {o : Options} {d : Descriptor} {modifier : String}

theorem oneLine_base (h : AllOneLine d.undocumented.texts) {base : String}
    (hbase : d.base = some base) : OneLine base.toList := h base (mem_texts_of_base hbase)

theorem allOneLine_members (h : AllOneLine d.undocumented.texts) :
    AllOneLine (membersTexts (membersUndocumented d.members)) := fun text htext =>
  h text (d.membersTexts_subset htext)

theorem neat_slot (h : AllOneLine d.undocumented.texts) : d.slot.Neat := by
  rw [slot]
  split
  · rename_i base hbase
    exact neat_cons.mpr ⟨oneLine_base h (base_of_extendedBase? hbase), neat_nil⟩
  · exact neat_nil

theorem neat_closing : Neat (Draft.line "\x7d") := neat_line (by decide)

theorem neat_enumDraft (hmodifier : OneLine modifier.toList)
    (h : AllOneLine d.undocumented.texts) : (d.enumDraft o modifier).Neat := by
  have hheader : OneLine (modifier ++ "const enum " ++ o.typeName d.name ++ " \x7b").toList := by
    have hname : OneLine (o.typeName d.name).toList := oneLine_spelled _ h.head
    have hkeyword : OneLine "const enum ".toList := by decide
    have hbrace : OneLine " \x7b".toList := by decide
    exact ((hmodifier.append hkeyword).append hname).append hbrace
  have hconstants : Neat (d.members.flatMap (Member.constantDraft o)) :=
    neat_flatMap fun m hm =>
      Member.neat_constantDraft o (allOneLine_of_mem (allOneLine_members h) hm)
  simp only [enumDraft, neat_append]
  exact ⟨⟨⟨⟨⟨neat_cons.mpr ⟨trivial, neat_nil⟩, neat_line hheader⟩,
    neat_cons.mpr ⟨trivial, neat_nil⟩⟩, hconstants⟩, neat_cons.mpr ⟨trivial, neat_nil⟩⟩,
    neat_closing⟩

theorem neat_interfaceDraft (hmodifier : OneLine modifier.toList)
    (h : AllOneLine d.undocumented.texts) : (d.interfaceDraft o modifier).Neat := by
  have hheader :
      OneLine (modifier ++ keyword o ++ " " ++ o.typeName d.name ++ " ").toList := by
    have hname : OneLine (o.typeName d.name).toList := oneLine_spelled _ h.head
    have hkeyword : OneLine (keyword o).toList := by
      rw [keyword]
      split <;> decide
    have hblank : OneLine " ".toList := by decide
    exact (((hmodifier.append hkeyword).append hblank).append hname).append hblank
  have hbrace : OneLine "\x7b".toList := by decide
  have hmembers : (membersDraft o d.members).Neat := neat_membersDraft o _ (allOneLine_members h)
  have hblock : (d.blockDraft o).Neat := by
    simp only [blockDraft, neat_append]
    exact ⟨⟨⟨neat_cons.mpr ⟨hbrace, neat_cons.mpr ⟨trivial, neat_cons.mpr ⟨trivial, neat_nil⟩⟩⟩,
      hmembers⟩, neat_cons.mpr ⟨trivial, neat_nil⟩⟩, neat_closing⟩
  rw [interfaceDraft, neat_append, neat_append]
  exact ⟨⟨neat_cons.mpr ⟨trivial, neat_cons.mpr ⟨hheader, neat_nil⟩⟩, neat_slot h⟩, hblock⟩

theorem neat_draft (o : Options) (hmodifier : OneLine modifier.toList)
    (h : AllOneLine d.undocumented.texts) : (d.draft o modifier).Neat := by
  rw [draft]
  split
  · exact neat_enumDraft hmodifier h
  · exact neat_interfaceDraft hmodifier h

theorem oneLine_extendsClause (o : Options) (h : AllOneLine d.undocumented.texts) {base : String}
    (hbase : OneLine base.toList) : OneLine (d.extendsClause o base).toList := by
  have hname : OneLine (o.typeName base).toList := oneLine_spelled _ hbase
  have hextends : OneLine "extends ".toList := by decide
  have hdot : OneLine ".".toList := by decide
  have hblank : OneLine " ".toList := by decide
  rw [extendsClause]
  split
  · rename_i scope hscope
    have hgiven : OneLine scope.toList := by
      obtain ⟨-, h⟩ := allOneLine_append.mp h.tail.tail
      refine (allOneLine_append.mp h).1 scope ?_
      show scope ∈ d.baseScope.toList
      rw [(Option.filter_eq_some_iff.mp hscope).1]
      exact List.mem_singleton.mpr rfl
    exact (((hextends.append hgiven).append hdot).append hname).append hblank
  · exact (hextends.append hname).append hblank

end Descriptor

/-! ## The pass over the tokens -/

namespace Extends

theorem oneLine_token {base : String} (h : OneLine base.toList) : OneLine (token base).toList := by
  have hstart : OneLine tokenStart.toList := by decide
  have hend : OneLine [tokenEnd] := by decide
  rw [token_toList, oneLine_append, oneLine_append]
  exact ⟨hstart, h, hend⟩

/-- **The pass over the tokens** keeps line breaks paired, wherever tokens are read. -/
theorem paired_substitute {meaning : String → Option String}
    (hmeaning : ∀ base clause, meaning base = some clause → OneLine clause.toList)
    {pending : Bool} {text : List Char} (h : PairedFrom pending text) :
    PairedFrom pending (Text.substitute (tokenRule meaning) text) := by
  induction text using token_induction generalizing pending with
  | nil => exact h
  | taken base rest hend ih =>
      -- A token ends with a brace, so a line break is inside or outside of it.
      have hspelled : (token base).toList = (tokenStart.toList ++ base.toList) ++ [tokenEnd] := by
        rw [token_toList, List.append_assoc]
      rw [hspelled, List.append_assoc, List.singleton_append,
        pairedFrom_append_cons_iff (by decide) (by decide)] at h
      obtain ⟨hfront, hrest⟩ := h
      rw [substitute_token meaning hend]
      refine PairedFrom.append ?_ (ih hrest)
      cases hclause : meaning base with
      | none =>
          rw [Option.getD_none, hspelled]
          exact PairedFrom.append hfront (OneLine.paired (by decide))
      | some clause =>
          rw [Option.getD_some]
          have hpending : pending = false := by
            have hhead : tokenStart.toList = '#' :: "\x7bExtendsPlaceholder_".toList :=
              tokenStart_eq
            rw [hhead] at hfront
            exact ((pairedFrom_cons_of_inline (by decide) (by decide)).mp hfront).1
          rw [hpending]
          exact (hmeaning base clause hclause).paired
  | kept c rest hkept ih =>
      rw [substitute_kept meaning hkept]
      exact pairedFrom_cons.mpr ⟨(pairedFrom_cons.mp h).1, ih (pairedFrom_cons.mp h).2⟩

end Extends

/-! ## The body -/

namespace Body

open Draft

variable {o : Options} {types : List Descriptor}
  (h : ∀ d ∈ types, AllOneLine d.undocumented.texts)

include h

/-- **The texts of a body stand on one line each.** -/
theorem neat_draft : (draft o types).Neat := by
  refine neat_flatMap fun group hgroup => ?_
  obtain ⟨scope, members⟩ := group
  obtain ⟨⟨d, hd, rfl⟩, rfl⟩ := Descriptor.mem_groups.mp hgroup
  have hmodifier : OneLine (modifier o d.scope).toList := by
    rw [modifier]
    split
    · split <;> decide
    · decide
  have hdeclarations : Neat ((Descriptor.ofScope types d.scope).flatMap
      (Descriptor.draft o (modifier o d.scope))) :=
    neat_flatMap fun other hother =>
      Descriptor.neat_draft o hmodifier (h other (Descriptor.mem_ofScope.mp hother).1)
  show (scopeDraft o d.scope _).Neat
  rw [scopeDraft, enclose]
  split
  · have hheader : OneLine ("declare module " ++ d.scope ++ " \x7b").toList := by
      have hscope : OneLine d.scope.toList := (h d hd).tail.head
      have hdeclare : OneLine "declare module ".toList := by decide
      have hbrace : OneLine " \x7b".toList := by decide
      exact (hdeclare.append hscope).append hbrace
    simp only [neat_append]
    exact ⟨⟨⟨⟨neat_line hheader, neat_cons.mpr ⟨trivial, neat_nil⟩⟩, hdeclarations⟩,
      neat_cons.mpr ⟨trivial, neat_nil⟩⟩, Descriptor.neat_closing⟩
  · exact hdeclarations

/-- The clauses of a body stand on one line each. -/
theorem oneLine_meaning (unresolved : List String) {base clause : String}
    (hclause : (render o types).clauses.meaning unresolved base = some clause) :
    OneLine clause.toList := by
  rw [Extends.Registry.meaning, get?_clauses_render, Option.map_map] at hclause
  obtain ⟨d, hd, rfl⟩ := Option.map_eq_some_iff.mp hclause
  have hmem : d ∈ types := Descriptor.mem_renderOrder.mp (List.mem_of_find?_eq_some hd)
  have hbase : d.extendedBase? = some base := by simpa using List.find?_some hd
  simp only [Function.comp_apply]
  split
  · decide
  · exact Descriptor.oneLine_extendsClause o (h d hmem)
      (Descriptor.oneLine_base (h d hmem) (Descriptor.base_of_extendedBase? hbase))

/-- **A body with its clauses** has only the line breaks of the writer. -/
theorem paired_reconcile (unresolved : List String) :
    Paired ((render o types).clauses.reconcile unresolved (render o types).text).toList := by
  have htext : Paired (render o types).text.toList := by
    show Paired ((draft o types).text Extends.token).toList
    rw [Draft.toList_text]
    exact (neat_draft h).paired_written (fun _ => Extends.oneLine_token) 0
  rw [Extends.Registry.reconcile, String.toList_ofList]
  exact Extends.paired_substitute (fun _ _ => oneLine_meaning h unresolved) htext

end Body

end Typings
