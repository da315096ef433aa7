import Typings.Proofs.Body.Qualification
import Typings.Proofs.Layout

/-!
# What a header takes from the other types

Clauses are put in place only when the whole body has been written, so a header could hold what
becomes known behind it: the namespace in which its base is declared. It does not. The clause for
a base is worded by the first type that asks for it, from what that type itself says about the
base; the descriptor of the base is not looked at, wherever it stands. So a header names the
namespace in which its base is declared if and only if the first type that asks for the base
gives that namespace and lies in another one.

## Main definitions

* `OnePass.askers` — the types that ask for a base, in the order of declaration.

## Main results

* `header_infix_file` — each header stands in the file.
* `clause_eq_qualified_iff` — when a clause names a namespace.
* `generate_headers` — the headers of a file of module declarations.
* `declared_scope_not_named` — a header that does not name the namespace of its base.
-/

namespace Typings

namespace OnePass

/-- The types that ask for a clause for a base, in the order of declaration. -/
def askers (base : String) (types : List Descriptor) : List Descriptor :=
  (Descriptor.renderOrder types).filter (asksFor base)

section

variable {o : Options} {types : List Descriptor} {d : Descriptor} {base : String}

theorem mem_askers : d ∈ askers base types ↔ d ∈ types ∧ asksFor base d = true := by
  rw [askers, List.mem_filter, Descriptor.mem_renderOrder]

theorem asksFor_eq_true_iff :
    asksFor base d = true ↔
      d.isEnum = false ∧ Summary.ignoresBase d.summary = false ∧ d.base = some base := by
  simp only [asksFor, Bool.and_eq_true, Bool.not_eq_true', decide_eq_true_iff, and_assoc]

/-- The clause in the header of a type is the one that the first asker asks for. -/
theorem clause_eq_of_askers (o : Options) {first : Descriptor} (hasks : asksFor base d = true)
    (hne : base ≠ "") (hfirst : (askers base types).head? = some first) :
    clause o types [] d = first.extendsClause o base := by
  obtain ⟨-, hsummary, hbase⟩ := asksFor_eq_true_iff.mp hasks
  rw [askers, List.head?_filter] at hfirst
  simp [clause, hbase, hne, hsummary, hfirst]

/-! ## The wording of a clause -/

/-- A clause that names a namespace. -/
def qualified (o : Options) (scope base : String) : String :=
  "extends " ++ scope ++ "." ++ o.typeName base ++ " "

/-- A clause that names none. -/
def unqualified (o : Options) (base : String) : String := "extends " ++ o.typeName base ++ " "

theorem qualified_inj {scope scope' : String}
    (h : qualified o scope base = qualified o scope' base) : scope = scope' := by
  simpa [qualified, ← String.toList_inj] using h

/-- A clause with a namespace is longer than the one without. -/
theorem unqualified_ne_qualified (scope : String) :
    unqualified o base ≠ qualified o scope base := by
  intro h
  have hlength := congrArg (fun text => text.toList.length) h
  simp [unqualified, qualified] at hlength
  omega

/-- **When a clause names a namespace**: if it is the one that the type gives for its base, and
not the namespace of the type itself. -/
theorem clause_eq_qualified_iff {scope : String} (hscope : scope ≠ "") :
    d.extendsClause o base = qualified o scope base ↔
      d.baseScope = some scope ∧ d.scope ≠ scope := by
  rw [Descriptor.extendsClause]
  split
  · rename_i given hgiven
    obtain ⟨hgiven, hother⟩ := Option.filter_eq_some_iff.mp hgiven
    have hother : given ≠ d.scope := by
      rintro rfl
      simp at hother
    rw [hgiven, Option.some.injEq]
    constructor
    · intro h
      have hsame : given = scope := qualified_inj h
      rw [← hsame]
      exact ⟨rfl, hother.symm⟩
    · rintro ⟨rfl, -⟩
      rfl
  · rename_i hnone
    refine iff_of_false (unqualified_ne_qualified scope) ?_
    rintro ⟨hgiven, hother⟩
    rw [hgiven, Option.filter_eq_none_iff] at hnone
    simpa [hscope, Ne.symm hother] using hnone scope rfl

/-! ## Headers in the file -/

/-- The header of a type in a draft, with a modifier in front and a clause in it. -/
def headerSteps (o : Options) (modifier clause : String) (d : Descriptor) : Draft :=
  [.addIndented (modifier ++ Descriptor.keyword o ++ " " ++ o.typeName d.name ++ " "),
    .add clause, .add "\x7b"]

/-- The header of a type is a part of the draft in one pass. -/
theorem headerSteps_infix_draft (clause : Descriptor → String) (hd : d ∈ types)
    (henum : d.isEnum = false) :
    headerSteps o (Body.modifier o d.scope) (clause d) d <:+: draft o clause types := by
  have hdeclaration : headerSteps o (Body.modifier o d.scope) (clause d) d
      <:+: declaration o clause (Body.modifier o d.scope) d := by
    rw [declaration, henum, if_neg Bool.false_ne_true]
    exact ⟨[.comment d.summary], [.newline, .indent] ++ membersDraft o d.members ++ [.dedent]
      ++ Draft.line "\x7d", by simp [headerSteps, Descriptor.headerDraft, Descriptor.blockDraft]⟩
  have hscope := Draft.infix_flatMap (declaration o clause (Body.modifier o d.scope))
    (Descriptor.mem_ofScope.mpr ⟨hd, rfl⟩)
  have henclosed (declarations : Draft) :
      declarations <:+: Body.enclose o d.scope declarations := by
    rw [Body.enclose]
    split
    · exact ⟨Draft.line ("declare module " ++ d.scope ++ " \x7b") ++ [.indent],
        [.dedent] ++ Draft.line "\x7d", by simp⟩
    · exact List.infix_rfl
  have hgroup := Draft.infix_flatMap (fun group : String × List Descriptor =>
      Body.enclose o group.1 (group.2.flatMap (declaration o clause (Body.modifier o group.1))))
    (Descriptor.mem_groups.mpr ⟨⟨d, hd, rfl⟩, rfl⟩)
  exact hdeclaration.trans (hscope.trans ((henclosed _).trans hgroup))

theorem written_headerSteps (slot : String → String) (level : Nat) (modifier clause : String) :
    (header o d clause).toList
      <:+: Draft.written slot level (headerSteps o modifier clause d) := by
  refine ⟨List.replicate level '\t' ++ modifier.toList, [], ?_⟩
  simp [headerSteps, header, Draft.Step.written]

/-- **Each header stands in the file**, laid out as the options say. -/
theorem header_infix_file (clause : Descriptor → String) (source : Path) (hd : d ∈ types)
    (henum : d.isEnum = false) :
    o.layOut (header o d (clause d)).toList
      <:+: (moduleFile o source (text o clause types)).text.toList := by
  obtain ⟨level, hwritten⟩ := Draft.exists_written_infix (fun _ => "")
    (headerSteps_infix_draft (o := o) clause hd henum) 0
  have htext : (header o d (clause d)).toList <:+: (text o clause types).toList := by
    rw [text, Draft.toList_text]
    exact (written_headerSteps _ level _ _).trans hwritten
  have hhead : ∃ c ∈ (header o d (clause d)).toList.head?, c ≠ '\n' := by
    rw [header, Descriptor.keyword]
    split
    · exact ⟨'c', by simp, by decide⟩
    · exact ⟨'i', by simp, by decide⟩
  obtain ⟨c, hhead, hc⟩ := hhead
  have hlast : (header o d (clause d)).toList.getLast? = some '\x7b' := by
    rw [header, String.toList_append, List.getLast?_append]
    rfl
  rw [moduleFile, Options.toList_normalize, Writer.text_add, String.toList_append]
  refine Options.infix_layOut (List.infix_append_of_infix_right htext) ?_ ?_ ?_
  · exact fun hnil => by simp [hnil] at hhead
  · rw [hhead]
    simpa using hc
  · rw [hlast]
    decide

end

/-- **The headers of a file of module declarations.** In the header of a type that extends a base
stands the clause of the first type that asks for this base. It names the namespace in which the
base is declared if and only if the first type gives that namespace and lies in another one; it
names none if the first type gives none. Nothing but the types that ask for the base has a part
in it: any other list of types with the same askers gives the same header, wherever the base
stands there, and in whatever namespace. -/
theorem generate_headers (o : Options) (types : List Descriptor) (source : Path)
    (isFile : Path → Bool) (hmodule : o.declareModule = true)
    (hsafe : ∀ d ∈ types, d.TokenSafe) :
    ∃ file, generate o types source isFile = .ok file ∧
      ∀ d ∈ types, ∀ base, d.base = some base → base ≠ "" → d.isEnum = false →
        Summary.ignoresBase d.summary = false →
        ∃ first, (askers base types).head? = some first ∧
          o.layOut (header o d (first.extendsClause o base)).toList <:+: file.text.toList ∧
          (∀ declared ∈ types, declared.name = base → declared.scope ≠ "" →
            (first.extendsClause o base = qualified o declared.scope base ↔
              first.baseScope = some declared.scope ∧ first.scope ≠ declared.scope)) ∧
          (first.baseScope = none → first.extendsClause o base = unqualified o base) ∧
          ∀ types', (∀ d ∈ types', d.TokenSafe) → askers base types' = askers base types →
            ∃ file', generate o types' source isFile = .ok file' ∧
              o.layOut (header o d (first.extendsClause o base)).toList
                <:+: file'.text.toList := by
  refine ⟨_, generate_of_declareModule source isFile hmodule hsafe, ?_⟩
  intro d hd base hbase hne henum hsummary
  have hasks : asksFor base d = true := asksFor_eq_true_iff.mpr ⟨henum, hsummary, hbase⟩
  have hmem : d ∈ askers base types := mem_askers.mpr ⟨hd, hasks⟩
  obtain ⟨first, rest, hfirst⟩ := List.exists_cons_of_ne_nil (List.ne_nil_of_mem hmem)
  have hhead : (askers base types).head? = some first := by rw [hfirst, List.head?_cons]
  -- The header stands in the file of every list of types with these askers.
  have hheader (types' : List Descriptor) (hsame : askers base types' = askers base types) :
      o.layOut (header o d (first.extendsClause o base)).toList
        <:+: (moduleFile o source (text o (clause o types' []) types')).text.toList := by
    have hd' : d ∈ types' := (mem_askers.mp (hsame ▸ hmem)).1
    rw [← clause_eq_of_askers o hasks hne (hsame ▸ hhead)]
    exact header_infix_file (clause o types' []) source hd' henum
  refine ⟨first, hhead, hheader types rfl, ?_, ?_, ?_⟩
  · intro declared _ _ hscope
    exact clause_eq_qualified_iff hscope
  · intro hnone
    rw [Descriptor.extendsClause, hnone]
    rfl
  · intro types' hsafe' hsame
    exact ⟨_, generate_of_declareModule source isFile hmodule hsafe', hheader types' hsame⟩

/-- A type whose base lies in another namespace, and the base behind it. -/
def orderBeforeEntity : List Descriptor :=
  [((Descriptor.interface "Order").inScope "Shop").extending "Entity" none,
    (Descriptor.interface "Entity").inScope "Core"]

/-- A type that says where its base lies, in front of the two. -/
def letterBeforeOrder : List Descriptor :=
  ((Descriptor.interface "Letter").inScope "Post").extending "Entity" (some "Core")
    :: orderBeforeEntity

/-- The header of the second type names the namespace that the first type gives. -/
theorem generate_headers_letterBeforeOrder :
    (modules.declareModule = true ∧ ∀ d ∈ letterBeforeOrder, d.TokenSafe) ∧
      ∃ file, generate modules letterBeforeOrder ⟨"/src/Shop.cs"⟩ (fun _ => false) = .ok file ∧
        "interface Order extends Core.Entity \x7b".toList <:+: file.text.toList := by
  have hsafe : ∀ d ∈ letterBeforeOrder, d.TokenSafe := by decide +kernel
  refine ⟨⟨rfl, hsafe⟩, ?_⟩
  obtain ⟨file, hfile, hheaders⟩ := generate_headers modules letterBeforeOrder ⟨"/src/Shop.cs"⟩
    (fun _ => false) rfl hsafe
  obtain ⟨first, hfirst, hheader, -⟩ := hheaders
    (((Descriptor.interface "Order").inScope "Shop").extending "Entity" none)
    (by simp [letterBeforeOrder, orderBeforeEntity]) "Entity" rfl (by decide) rfl rfl
  have hgiven : (askers "Entity" letterBeforeOrder).head?
      = some (((Descriptor.interface "Letter").inScope "Post").extending "Entity"
        (some "Core")) := rfl
  rw [hgiven, Option.some.injEq] at hfirst
  subst hfirst
  refine ⟨file, hfile, ?_⟩
  convert hheader using 1
  decide +kernel

/-- **A header need not name the namespace in which its base is declared**, even where this is
the only type of that name in the file. -/
theorem declared_scope_not_named :
    ¬ ∀ (o : Options) (types : List Descriptor) (source : Path) (isFile : Path → Bool),
      o.declareModule = true → (∀ d ∈ types, d.TokenSafe) →
      ∀ d ∈ types, ∀ base, d.base = some base → base ≠ "" → d.isEnum = false →
        Summary.ignoresBase d.summary = false → d.baseScope = none →
        ∀ declared, types.filter (·.name = base) = [declared] → declared.scope ≠ "" →
          declared.scope ≠ d.scope →
          ∃ file, generate o types source isFile = .ok file ∧
            o.layOut (header o d (qualified o declared.scope base)).toList
              <:+: file.text.toList := by
  intro hall
  have hsafe : ∀ d ∈ orderBeforeEntity, d.TokenSafe := by decide +kernel
  obtain ⟨file, hfile, hheader⟩ := hall modules orderBeforeEntity ⟨"/src/Shop.cs"⟩
    (fun _ => false) rfl hsafe
    (((Descriptor.interface "Order").inScope "Shop").extending "Entity" none)
    (by simp [orderBeforeEntity]) "Entity" rfl (by decide) rfl rfl rfl
    ((Descriptor.interface "Entity").inScope "Core") rfl (by decide) (by decide)
  rw [generate_of_declareModule _ _ rfl hsafe, Except.ok.injEq] at hfile
  have hlines : headLines modules ⟨"/src/Shop.cs"⟩ .empty = banner := by
    simp [headLines, moduleDirective, modules, Options.default, ImportBlock.empty]
  rw [← hfile, moduleFile, Options.normalize_eq_self rfl rfl, hlines, Writer.text_add,
    String.toList_append, Writer.toList_text_addLines, text, Draft.toList_text] at hheader
  revert hheader
  decide +kernel

end OnePass

end Typings
