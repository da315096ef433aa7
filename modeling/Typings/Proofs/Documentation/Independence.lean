import Typings.Proofs.Body.Bare
import Typings.Proofs.Body.Filled
import Typings.Proofs.Body.Qualification

/-!
# Documentation has no influence on declarations

Two lists of descriptors that differ in nothing but documentation, and of which each type makes
the same choice about its base, lead to the same search for imports. So there is a definition
file for both or for none of them. If no token starts in any text, the two files are also the
same once the comments are taken out, and each comment stands in its file as it was written.

The last part does not hold for every documentation. Tokens are replaced in the whole body,
comments included, and a token that starts in a comment may end in the header behind it. Then
the header keeps its token.

## Main definitions

* `Options.finishedComments` — the comments of a body as they stand in its file.
* `FinishedBody` — a file whose body has all its clauses in place.

## Main results

* `FinishedBody.without_comments` — a definition file without its comments.
* `generate_documentation` — the two files for two documentations of the same types.
* `header_keeps_token` — a documentation that takes away a clause.
-/

namespace Typings

open Extends

/-- The comments of the body for some descriptors, in order and as they stand in the finished
file. -/
def Options.finishedComments (o : Options) (types : List Descriptor) : List (List Char) :=
  (Draft.comments 0 (Body.draft o types)).map fun comment =>
    o.layOut (Writer.commentChars comment.1 comment.2)

/-- The text is the layout of some lines and of a body in which each slot holds what belongs
there: in each header stands the clause of its type, and no token is left. -/
structure FinishedBody (o : Options) (types : List Descriptor) (head : String)
    (unresolved : List String) (text : String) : Prop where
  laidOut : text
    = o.normalize (head ++ (Body.draft o types).text (Body.filling o types unresolved))
  resolved : ∀ d ∈ types, ∀ base, d.extendedBase? = some base →
    Body.filling o types unresolved base = OnePass.clause o types unresolved d
  noToken : ¬ tokenStart.toList
    <:+: ((Body.draft o types).text (Body.filling o types unresolved)).toList

section

variable {o : Options} {types : List Descriptor}

/-- The lines above the body. -/
def headText (o : Options) (source : Path) (imports : ImportBlock) : String :=
  (Writer.empty.addLines (headLines o source imports)).text

theorem generate_eq_bind_body (o : Options) (types : List Descriptor) (source : Path)
    (isFile : Path → Bool) :
    generate o types source isFile
      = (resolveImports o types (Names.ofTypes o types) source isFile).bind fun imports =>
        .ok ⟨o.normalize (headText o source imports
          ++ (Body.render o types).clauses.reconcile imports.unresolvedBases
            (Body.render o types).text), imports.warnings⟩ := rfl

/-- A definition file has the lines above its body from a finished search for imports. -/
theorem exists_imports_of_generate {source : Path} {isFile : Path → Bool}
    {definitions : Definitions} (h : generate o types source isFile = .ok definitions) :
    ∃ imports, resolveImports o types (Names.ofTypes o types) source isFile = .ok imports ∧
      definitions = ⟨o.normalize (headText o source imports
        ++ (Body.render o types).clauses.reconcile imports.unresolvedBases
          (Body.render o types).text), imports.warnings⟩ := by
  rw [generate_eq_bind_body] at h
  cases himports : resolveImports o types (Names.ofTypes o types) source isFile with
  | error what =>
      rw [himports] at h
      cases h
  | ok imports =>
      rw [himports] at h
      exact ⟨imports, rfl, (Except.ok.inj h).symm⟩

theorem finishedBody_of_tokenSafe (hsafe : ∀ d ∈ types, d.TokenSafe) (head : String)
    (unresolved : List String) :
    FinishedBody o types head unresolved
      (o.normalize (head ++ (Body.render o types).clauses.reconcile unresolved
        (Body.render o types).text)) where
  laidOut := by rw [Body.reconcile_render_eq_filled hsafe]
  resolved _ hd _ hbase := Body.filling_eq_clause hd hbase
  noToken := Body.plain_filled unresolved hsafe

theorem filling_bare (o : Options) (types : List Descriptor) (unresolved : List String) :
    Body.filling o (types.map Descriptor.bare) unresolved = Body.filling o types unresolved := by
  funext base
  rw [Body.filling, Body.filling, Body.clauses_bare]

/-- What is left of a file without its comments. -/
theorem FinishedBody.without_comments {source : Path} {imports : ImportBlock} {text : String}
    (h : FinishedBody o types (headText o source imports) imports.unresolvedBases text) :
    Text.Without (o.finishedComments types) text.toList
      (o.layOut ((headText o source imports).toList
        ++ Draft.written (Body.filling o (types.map Descriptor.bare) imports.unresolvedBases) 0
          (Draft.bare (Body.draft o (types.map Descriptor.bare))))) := by
  have hfront : (headText o source imports).toList.getLast? ≠ some '\r' := by
    rw [headText, Writer.toList_text_addLines]
    exact Draft.getLast?_lines 0 _
  rw [h.laidOut, Options.toList_normalize, String.toList_append, Draft.toList_text, filling_bare,
    Body.bare_draft_bare]
  exact Draft.without_comments o _ (Body.lined_draft o types) 0 _ fun _ => hfront

end

/-- **Two documentations of the same types.** The two lists differ in nothing but summaries, and
their types make the same choices. Then generating ends for both with the same thing missing, or
it gives two files with the same warnings. If no token starts in any text of the types, clauses
stand in all headers of both files, and the files are the same without their comments, each of
which stands in its file as it was written and laid out. -/
theorem generate_documentation (o : Options) {types types' : List Descriptor} (source : Path)
    (isFile : Path → Bool)
    (hcode : types.map Descriptor.undocumented = types'.map Descriptor.undocumented)
    (hchoice : types.map (Summary.ignoresBase ·.summary)
      = types'.map (Summary.ignoresBase ·.summary)) :
    (∃ what, generate o types source isFile = .error what ∧
        generate o types' source isFile = .error what) ∨
      ∃ file file', generate o types source isFile = .ok file ∧
        generate o types' source isFile = .ok file' ∧ file.warnings = file'.warnings ∧
        ((∀ d ∈ types, d.TokenSafe) → (∀ d ∈ types', d.TokenSafe) →
          ∃ head unresolved rest,
            FinishedBody o types head unresolved file.text ∧
            FinishedBody o types' head unresolved file'.text ∧
            Text.Without (o.finishedComments types) file.text.toList rest ∧
            Text.Without (o.finishedComments types') file'.text.toList rest) := by
  have hbare : types.map Descriptor.bare = types'.map Descriptor.bare :=
    Descriptor.map_bare_eq hcode hchoice
  -- Both searches for imports are the one for the bare types.
  have himports : resolveImports o types (Names.ofTypes o types) source isFile
      = resolveImports o types' (Names.ofTypes o types') source isFile := by
    rw [← resolveImports_bare, ← Names.ofTypes_bare, hbare, Names.ofTypes_bare,
      resolveImports_bare]
  rw [generate_eq_bind_body, generate_eq_bind_body, himports]
  cases resolveImports o types' (Names.ofTypes o types') source isFile with
  | error what => exact .inl ⟨what, rfl, rfl⟩
  | ok imports =>
      refine .inr ⟨_, _, rfl, rfl, rfl, fun hsafe hsafe' => ?_⟩
      have hfile := finishedBody_of_tokenSafe (o := o) hsafe (headText o source imports)
        imports.unresolvedBases
      have hfile' := finishedBody_of_tokenSafe (o := o) hsafe' (headText o source imports)
        imports.unresolvedBases
      refine ⟨headText o source imports, imports.unresolvedBases, _, hfile, hfile',
        hfile.without_comments, ?_⟩
      rw [hbare]
      exact hfile'.without_comments

/-! ## A token in a comment -/

/-- A type that extends another one, with documentation. -/
def documentedLetter (summary : String) : Descriptor :=
  ((Descriptor.interface "Letter").extending "Document" (some "Quill")).withSummary summary

/-- A letter that no line of the banner holds is not above the body, if nothing is imported. -/
theorem notMem_headText_of_notMem_banner {o : Options} {c : Char}
    (hdirective : o.amdModuleName = false) (hlayout : c ≠ '\t' ∧ c ∉ Text.newline.toList)
    (hbanner : ∀ line ∈ banner, c ∉ line.toList) (source : Path) :
    c ∉ (headText o source .empty).toList := by
  have hlines : headLines o source .empty = banner := by
    simp [headLines, moduleDirective, hdirective, ImportBlock.empty]
  rw [headText, Writer.toList_text_addLines, hlines, List.mem_append, not_or]
  refine ⟨by simp [Writer.empty], fun hmem => ?_⟩
  obtain ⟨line, hline, hc⟩ := List.mem_flatMap.mp hmem
  rw [Writer.lineChars, List.mem_append, List.mem_append] at hc
  rcases hc with htab | hc | hbreak
  · exact hlayout.1 (List.eq_of_mem_replicate htab)
  · exact hbanner line hline hc
  · exact hlayout.2 hbreak

/-- The file of module declarations for a documented type. -/
theorem generate_modules_documentedLetter (summary : String) :
    generate OnePass.modules [documentedLetter summary] ⟨"/src/Letter.cs"⟩ (fun _ => false)
      = .ok ⟨headText OnePass.modules ⟨"/src/Letter.cs"⟩ .empty
          ++ (Body.render OnePass.modules [documentedLetter summary]).clauses.reconcile []
            (Body.render OnePass.modules [documentedLetter summary]).text, []⟩ := by
  rw [generate_eq_bind_body, resolveImports_of_declareModule rfl]
  show Except.ok (Definitions.mk (OnePass.modules.normalize _) _) = _
  rw [Options.normalize_eq_self rfl rfl]
  rfl

theorem generate_documentedLetter :
    [documentedLetter "A letter."].map Descriptor.undocumented
        = [documentedLetter "A note."].map Descriptor.undocumented ∧
      [documentedLetter "A letter."].map (Summary.ignoresBase ·.summary)
        = [documentedLetter "A note."].map (Summary.ignoresBase ·.summary) ∧
      ((∀ d ∈ [documentedLetter "A letter."], d.TokenSafe) ∧
        ∀ d ∈ [documentedLetter "A note."], d.TokenSafe) ∧
      ∃ file file',
        generate OnePass.modules [documentedLetter "A letter."] ⟨"/src/Letter.cs"⟩ (fun _ => false)
          = .ok file ∧
        generate OnePass.modules [documentedLetter "A note."] ⟨"/src/Letter.cs"⟩ (fun _ => false)
          = .ok file' ∧
        ∃ rest, Text.Without (OnePass.modules.finishedComments [documentedLetter "A letter."])
            file.text.toList rest ∧
          Text.Without (OnePass.modules.finishedComments [documentedLetter "A note."])
            file'.text.toList rest := by
  have hcode : [documentedLetter "A letter."].map Descriptor.undocumented
      = [documentedLetter "A note."].map Descriptor.undocumented := rfl
  have hchoice : [documentedLetter "A letter."].map (Summary.ignoresBase ·.summary)
      = [documentedLetter "A note."].map (Summary.ignoresBase ·.summary) := by decide +kernel
  have hsafe : ∀ d ∈ [documentedLetter "A letter."], d.TokenSafe := by decide +kernel
  have hsafe' : ∀ d ∈ [documentedLetter "A note."], d.TokenSafe := by decide +kernel
  refine ⟨hcode, hchoice, ⟨hsafe, hsafe'⟩, ?_⟩
  rcases generate_documentation OnePass.modules ⟨"/src/Letter.cs"⟩ (fun _ => false) hcode
    hchoice with ⟨what, hwhat, -⟩ | ⟨file, file', hfile, hfile', -, hdocs⟩
  · rw [generate_modules_documentedLetter] at hwhat
    cases hwhat
  · obtain ⟨-, -, rest, -, -, hrest, hrest'⟩ := hdocs hsafe hsafe'
    exact ⟨file, file', hfile, hfile', rest, hrest, hrest'⟩

/-- **A documentation can take away a clause.** A token starts in the first documentation and
ends in the header, so the clause of the header is missing: without the comments the first file
is not the second one. -/
theorem header_keeps_token :
    ¬ ∀ (o : Options) (types types' : List Descriptor) (source : Path) (isFile : Path → Bool),
      types.map Descriptor.undocumented = types'.map Descriptor.undocumented →
      types.map (Summary.ignoresBase ·.summary) = types'.map (Summary.ignoresBase ·.summary) →
      (∀ d ∈ types, d.undocumented.TokenSafe) →
      ∀ file file', generate o types source isFile = .ok file →
        generate o types' source isFile = .ok file' →
        ∃ rest, Text.Without (o.finishedComments types) file.text.toList rest ∧
          Text.Without (o.finishedComments types') file'.text.toList rest := by
  intro hall
  obtain ⟨rest, hopen, hplain⟩ := hall OnePass.modules
    [documentedLetter "#\x7bExtendsPlaceholder_"] [documentedLetter ""] ⟨"/src/Letter.cs"⟩
    (fun _ => false) rfl (by decide +kernel) (by decide +kernel) _ _
    (generate_modules_documentedLetter _) (generate_modules_documentedLetter _)
  -- The second file has no comment, so what is left of it is all of it.
  have hnothing : OnePass.modules.finishedComments [documentedLetter ""] = [[]] := by
    decide +kernel
  have hrest := hplain.eq_of_empty fun part hpart => by
    rw [hnothing] at hpart
    exact List.mem_singleton.mp hpart
  -- In it stands the clause, with a letter that the first file does not hold.
  have hclause : 'Q' ∈ ((Body.render OnePass.modules [documentedLetter ""]).clauses.reconcile []
      (Body.render OnePass.modules [documentedLetter ""]).text).toList := by
    decide +kernel
  have hnone : 'Q' ∉ ((Body.render OnePass.modules
      [documentedLetter "#\x7bExtendsPlaceholder_"]).clauses.reconcile []
      (Body.render OnePass.modules [documentedLetter "#\x7bExtendsPlaceholder_"]).text).toList := by
    decide +kernel
  have hhead : 'Q' ∉ (headText OnePass.modules ⟨"/src/Letter.cs"⟩ .empty).toList :=
    notMem_headText_of_notMem_banner rfl (by decide) (by simp [banner, rule, version]) _
  have hin : 'Q' ∈ rest := by
    rw [hrest, String.toList_append]
    exact List.mem_append_right _ hclause
  have hout := hopen.sublist.subset hin
  rw [String.toList_append, List.mem_append] at hout
  exact hout.elim hhead hnone

end Typings
