import Typings.Proofs.Import.Lines

/-!
# The line breaks of a finished file

Summaries are free text. They may hold a carriage return or a line feed in any arrangement, and
tabs. Everything else that a file is made of stands on one line. In the finished file none of the
line breaks of the summaries is left: each line ends as the options say, and there is no other
carriage return and no other line feed.

The raw text carries this. What stands above the body is written line by line, and so is the body
before its clauses are known. So all line breaks of the raw text are pairs of the two characters,
and the pass over the tokens keeps the pairs. In such a text the first replacement of the layout
finds every carriage return. The second one may write nothing for a tab, but a tab never stands
between the two characters of a pair.

## Main definitions

* `Options.Uniform` — a text with the line breaks and the indentation of the options.

## Main results

* `Options.uniform_layOut` — the layout of a text whose line breaks are pairs.
* `paired_rawText` — the raw text of a file.
* `uniform_of_generate` — the finished file.
-/

namespace Typings

open Text

/-- The line breaks of a text are those that the options ask for, and it holds no tab where the
options ask for blanks. -/
structure Options.Uniform (o : Options) (text : List Char) : Prop where
  /-- Where a line feed ends a line, there is no carriage return. -/
  no_return : o.lineEnding = .lf → '\r' ∉ text
  /-- Where both characters end a line, a line feed follows each carriage return. -/
  feed_behind : o.lineEnding = .crlf →
    ∀ before behind, text = before ++ '\r' :: behind → behind.head? = some '\n'
  /-- Where both characters end a line, a carriage return precedes each line feed. -/
  return_before : o.lineEnding = .crlf →
    ∀ before behind, text = before ++ '\n' :: behind → before.getLast? = some '\r'
  /-- Where blanks indent a line, be it none, there is no tab. -/
  no_tab : ∀ width, o.indent = .spaces width → '\t' ∉ text

namespace Options

/-- Blanks in place of tabs are no carriage return. -/
theorem notMem_indent {indent : Indentation} {text : List Char} (h : '\r' ∉ text) :
    '\r' ∉ indent.apply text := by
  cases indent with
  | tab => exact h
  | spaces width =>
      intro hm
      rcases mem_replace (by decide) hm with hblank | hown
      · exact absurd (List.eq_of_mem_replicate hblank) (by decide)
      · exact h hown

theorem paired_indent {indent : Indentation} {text : List Char} (h : Paired text) :
    Paired (indent.apply text) := by
  cases indent with
  | tab => exact h
  | spaces width => exact PairedFrom.replace_tab h

/-- **The layout of a text whose line breaks are pairs.** -/
theorem uniform_layOut (o : Options) {text : List Char} (h : Paired text) :
    o.Uniform (o.layOut text) := by
  have hpaired : o.lineEnding = .crlf → Paired (o.layOut text) := by
    intro hending
    rw [layOut, hending]
    exact paired_indent h
  refine ⟨fun hending => ?_, fun hending before behind hcut => ?_,
    fun hending before behind hcut => ?_, fun width hindent => ?_⟩
  · rw [layOut, hending]
    exact notMem_indent h.notMem_replace_newline
  · have hown := hpaired hending
    rw [hcut] at hown
    exact hown.head?_of_return
  · have hown := hpaired hending
    rw [hcut] at hown
    exact hown.getLast?_of_feed
  · rw [layOut, hindent]
    exact notMem_replace_tab width.toNat _

end Options

section

variable {o : Options} {types : List Descriptor} {source : Path} {isFile : Path → Bool}

/-- The lines above a body and the body behind them have only the line breaks of the writer. -/
theorem paired_rawText (h : MadeOfLines o types source) {imports : ImportBlock}
    (himports : resolveImports o types (Names.ofTypes o types) source isFile = .ok imports) :
    Paired (rawText o source (Body.render o types) imports).toList := by
  have hhead : Paired ((headLines o source imports).flatMap (Writer.lineChars 0)) :=
    paired_flatMap fun line hline =>
      Draft.paired_lineChars 0 (h.allOneLine_headLines himports line hline)
  have hlines : Paired (Writer.empty.addLines (headLines o source imports)).text.toList := by
    rw [Writer.toList_text_addLines]
    exact paired_nil.append hhead
  rw [rawText, Writer.text_add, String.toList_append]
  exact Paired.append hlines (Body.paired_reconcile h.allOneLine_texts imports.unresolvedBases)

/-- **The line breaks of a finished file** are all of the kind that the options say, whatever the
summaries hold, and there are no tabs where the options indent by blanks. Nothing but summaries
holds a line break. -/
theorem uniform_of_generate (h : MadeOfLines o types source) {definitions : Definitions}
    (hfile : generate o types source isFile = .ok definitions) :
    o.Uniform definitions.text.toList := by
  obtain ⟨imports, himports, rfl⟩ := exists_imports_of_generate hfile
  rw [Options.toList_normalize]
  exact o.uniform_layOut (paired_rawText h himports)

end

/-! ## An order with untidy summaries -/

/-- A type with line breaks of all kinds and with tabs in its documentation. Its base and the
type of its member are declared elsewhere. -/
def untidyOrder : List Descriptor :=
  [{ name := "Order"
     base := some "Entity"
     summary := some "An order,\r\rwith\n\rlines\t\r\nand\r\t\nblanks.\r"
     members := [{ (Member.ofType "Home" (.reference "Address")) with summary := some "\n\t\r" }]
     references := [⟨"/lib/Address.ts"⟩] }]

theorem uniform_untidyOrder :
    MadeOfLines { Options.default with indent := .spaces 0 } untidyOrder ⟨"/src/Order.cs"⟩ ∧
      (∃ definitions, generate { Options.default with indent := .spaces 0 } untidyOrder
          ⟨"/src/Order.cs"⟩ (fun _ => false) = .ok definitions ∧
        Options.Uniform { Options.default with indent := .spaces 0 } definitions.text.toList ∧
        '\r' ∉ definitions.text.toList ∧ '\t' ∉ definitions.text.toList) ∧
      ∃ definitions, generate { Options.default with lineEnding := .crlf } untidyOrder
          ⟨"/src/Order.cs"⟩ (fun _ => false) = .ok definitions ∧
        Options.Uniform { Options.default with lineEnding := .crlf } definitions.text.toList := by
  have hmade : ∀ o : Options, o.sourceExtension = "cs" → o.generatedSuffix = ".generated" →
      MadeOfLines o untidyOrder ⟨"/src/Order.cs"⟩ := fun o hextension hsuffix =>
    ⟨by decide +kernel, by decide +kernel, by rw [hextension]; decide,
      by rw [hsuffix]; decide⟩
  obtain ⟨tight, htight⟩ := exists_generate_eq_ok
    (o := { Options.default with indent := .spaces 0 }) rfl untidyOrder ⟨"/src/Order.cs"⟩
    fun _ => false
  obtain ⟨wide, hwide⟩ := exists_generate_eq_ok
    (o := { Options.default with lineEnding := .crlf }) rfl untidyOrder ⟨"/src/Order.cs"⟩
    fun _ => false
  have huniform := uniform_of_generate (hmade _ rfl rfl) htight
  exact ⟨hmade _ rfl rfl, ⟨tight, htight, huniform, huniform.no_return rfl, huniform.no_tab 0 rfl⟩,
    wide, hwide, uniform_of_generate (hmade _ rfl rfl) hwide⟩

end Typings
