import Typings.Definitions
import Typings.Proofs.Body.OnePass

/-!
# Which namespace a clause names

An extends clause is worded for the type that asks for it: it names the namespace of the base
only where that is another one than the namespace of the type. But the clause for a base is
registered under the name of the base alone, and the first registration stays. So in a batch
where several types extend bases of one name, all their headers hold the clause of the first of
them, in the order of declaration.

In module declarations nothing is imported and no base is missing, so the rule determines the
whole file.

## Main results

* `not_qualified_for_each_type` — a header may name a namespace that is not the one its own type
  asks for.
* `generate_eq_moduleFile` — the file of module declarations, with the clause of the first type
  in each header.
-/

namespace Typings

theorem resolveImports_of_declareModule {o : Options} (h : o.declareModule = true)
    (types : List Descriptor) (names : Names) (source : Path) (isFile : Path → Bool) :
    resolveImports o types names source isFile = .ok .empty := by
  rw [resolveImports, if_pos h]
  rfl

/-- Raw texts have tabs and carriage returns already. -/
theorem Options.normalize_eq_self {o : Options} (hindent : o.indent = .tab)
    (hending : o.lineEnding = .crlf) (text : String) : o.normalize text = text := by
  rw [normalize, hindent, hending, LineEnding.apply, Indentation.apply, String.ofList_toList]

namespace OnePass

variable {o : Options} {types : List Descriptor}

/-- The file of module declarations around a body: nothing but the banner stands above it. -/
def moduleFile (o : Options) (source : Path) (body : String) : Definitions :=
  ⟨o.normalize ((Writer.empty.addLines (headLines o source .empty)).add body).text, []⟩

theorem generate_of_declareModule (source : Path) (isFile : Path → Bool)
    (hmodule : o.declareModule = true) (hsafe : ∀ d ∈ types, d.TokenSafe) :
    generate o types source isFile
      = .ok (moduleFile o source (text o (clause o types []) types)) := by
  rw [generate, resolveImports_of_declareModule hmodule]
  show Except.ok (moduleFile o source
    ((Body.render o types).clauses.reconcile [] (Body.render o types).text)) = _
  rw [reconcile_render_eq_text hsafe]

/-- The header of an interface or class, from its keyword to the brace, with a text where an
extends clause stands. -/
def header (o : Options) (d : Descriptor) (clause : String) : String :=
  Descriptor.keyword o ++ " " ++ o.typeName d.name ++ " " ++ clause ++ "\x7b"

/-- The default options, with module declarations and without layout. -/
def modules : Options :=
  { Options.default with declareModule := true, indent := .tab, lineEnding := .crlf }

/-- The second of the two types. -/
def invoice : Descriptor :=
  ((Descriptor.interface "Invoice").inScope "Shop").extending "Document" (some "Mail")

/-- The body for the two types in module declarations. -/
def letterAndInvoiceModules : String :=
  "declare module Post \x7b\r\n"
    ++ "\tinterface Letter extends Core.Document \x7b\r\n\t\x7d\r\n\x7d\r\n"
    ++ "declare module Shop \x7b\r\n"
    ++ "\tinterface Invoice extends Core.Document \x7b\r\n\t\x7d\r\n\x7d\r\n"

theorem text_letterAndInvoice :
    text modules (clause modules letterAndInvoice []) letterAndInvoice
      = letterAndInvoiceModules := by
  decide +kernel

/-- **A header need not hold the clause that its own type asks for.** The second of the two
types extends a base in the namespace `Mail`, but its header names `Core`. -/
theorem not_qualified_for_each_type :
    ¬ ∀ (o : Options) (types : List Descriptor) (source : Path) (isFile : Path → Bool),
      o.declareModule = true → (∀ d ∈ types, d.TokenSafe) →
      ∀ d ∈ types, ∀ base, d.base = some base → base ≠ "" → d.isEnum = false →
        Summary.ignoresBase d.summary = false →
        ∃ file, generate o types source isFile = .ok file ∧
          (header o d (d.extendsClause o base)).toList <:+: file.text.toList := by
  intro hall
  have hsafe : ∀ d ∈ letterAndInvoice, d.TokenSafe := by decide +kernel
  have hmem : invoice ∈ letterAndInvoice := List.mem_cons_of_mem _ (List.mem_singleton.mpr rfl)
  obtain ⟨file, hfile, hheader⟩ := hall modules letterAndInvoice ⟨"/src/Shop.cs"⟩
    (fun _ => false) rfl hsafe invoice hmem "Document" rfl (by decide) rfl rfl
  rw [generate_of_declareModule _ _ rfl hsafe, Except.ok.injEq] at hfile
  -- The clause that the type asks for holds a letter that the file does not hold.
  have hin : 'M' ∈ file.text.toList :=
    hheader.subset (by decide +kernel : 'M' ∈ (header modules invoice _).toList)
  have hbody : 'M' ∉ letterAndInvoiceModules.toList := by
    unfold letterAndInvoiceModules
    rw [String.toList_append, String.toList_append, String.toList_append]
    simp only [List.mem_append]
    decide +kernel
  have hbanner : ∀ line ∈ banner, 'M' ∉ line.toList := by
    simp [banner, rule, version]
  have hlines : headLines modules ⟨"/src/Shop.cs"⟩ .empty = banner := by
    simp [headLines, moduleDirective, modules, Options.default, ImportBlock.empty]
  rw [← hfile, text_letterAndInvoice, moduleFile, Options.normalize_eq_self rfl rfl, hlines,
    Writer.text_add, String.toList_append, Writer.toList_text_addLines,
    List.mem_append, List.mem_append, List.mem_flatMap] at hin
  rcases hin with (hnil | ⟨line, hline, hletter⟩) | hletter
  · exact absurd hnil (by decide)
  · rw [Writer.lineChars, List.mem_append, List.mem_append] at hletter
    rcases hletter with hindent | hletter | hbreak
    · exact absurd (List.eq_of_mem_replicate hindent) (by decide)
    · exact hbanner line hline hletter
    · exact absurd hbreak (by decide)
  · exact hbody hletter

/-- **The headers of a file of module declarations.** The file is the body in one pass below the
banner, and nothing is missing. In the header of each type that asks for a base stands the
clause that the first such type asks for: it names the namespace of the base if that is given
and another one than the namespace of the first type. -/
theorem generate_eq_moduleFile (o : Options) (types : List Descriptor) (source : Path)
    (isFile : Path → Bool) (hmodule : o.declareModule = true)
    (hsafe : ∀ d ∈ types, d.TokenSafe) :
    generate o types source isFile
        = .ok (moduleFile o source (text o (clause o types []) types)) ∧
      ∀ d ∈ types, ∀ base, d.base = some base → base ≠ "" → d.isEnum = false →
        Summary.ignoresBase d.summary = false →
        ∃ first, (Descriptor.renderOrder types).find? (asksFor base) = some first ∧
          (∀ scope, first.baseScope = some scope → scope ≠ "" → scope ≠ first.scope →
            clause o types [] d = "extends " ++ scope ++ "." ++ o.typeName base ++ " ") ∧
          ((∀ scope, first.baseScope = some scope → scope = "" ∨ scope = first.scope) →
            clause o types [] d = "extends " ++ o.typeName base ++ " ") := by
  refine ⟨generate_of_declareModule source isFile hmodule hsafe, ?_⟩
  intro d hd base hbase hne henum hsummary
  have hasks : asksFor base d = true := by simp [asksFor, henum, hsummary, hbase]
  obtain ⟨first, hfirst⟩ := exists_first (Descriptor.mem_renderOrder.mpr hd) hasks
  have hclause : clause o types [] d = first.extendsClause o base := by
    simp [clause, hbase, hne, hsummary, hfirst]
  refine ⟨first, hfirst, ?_, ?_⟩
  · intro scope hscope hfull hother
    rw [hclause, Descriptor.extendsClause, hscope, Option.filter_some]
    simp [hfull, hother]
  · intro hsame
    rw [hclause, Descriptor.extendsClause]
    cases hscope : first.baseScope with
    | none => rfl
    | some scope =>
        rw [Option.filter_some, if_neg]
        rcases hsame scope hscope with rfl | rfl <;> simp

theorem generate_letterAndInvoice :
    modules.declareModule = true ∧ (∀ d ∈ letterAndInvoice, d.TokenSafe) ∧
      generate modules letterAndInvoice ⟨"/src/Shop.cs"⟩ (fun _ => false)
        = .ok (moduleFile modules ⟨"/src/Shop.cs"⟩ letterAndInvoiceModules) := by
  have hsafe : ∀ d ∈ letterAndInvoice, d.TokenSafe := by decide +kernel
  refine ⟨rfl, hsafe, ?_⟩
  rw [← text_letterAndInvoice]
  exact (generate_eq_moduleFile modules letterAndInvoice ⟨"/src/Shop.cs"⟩ (fun _ => false) rfl
    hsafe).1

end OnePass

end Typings
