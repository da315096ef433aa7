import Typings.Proofs.Body.Summaries
import Typings.Proofs.Documentation.Independence
import Typings.Proofs.Text.Occurrences

/-!
# Comments end where they should

The sequence that ends a comment is escaped when a comment is written, line by line. Behind that
the text goes through two more passes: tokens are replaced in it, and its line ends and tabs are
laid out. The first of them does not touch a text in which no token starts. The second one
replaces tabs by blanks, and with an indentation by no blanks at all tabs vanish, so a star and
a slash with nothing but tabs between them come together.

Where that is excluded, each comment of the finished file holds the sequence once, at its end.

## Main definitions

* `commentEnd`, `spreadEnd` — the sequence that ends a comment, and its two characters with
  tabs between them.
* `Options.ClosedComment` — a comment that ends where it should.

## Main results

* `Options.closedComment_commentChars` — the layout of one comment.
* `generate_closes_comments` — the comments of a definition file.
* `tab_closes_comment` — a summary that ends its comment early.
-/

namespace Typings

/-- The sequence that ends a comment. -/
def commentEnd : List Char := "*/".toList

/-- A star and a slash with tabs between them. -/
def spreadEnd (tabs : Nat) : List Char := '*' :: (List.replicate tabs '\t' ++ ['/'])

/-- A finished comment that ends where it should: the sequence that ends a comment stands in it
once, at the end of its last line. -/
structure Options.ClosedComment (o : Options) (text : List Char) : Prop where
  once : Text.occurrences commentEnd text = 1
  atEnd : ∃ before, text = before ++ (commentEnd ++ o.layOut Text.newline.toList)

/-! ## Lines of a comment -/

theorem mem_spreadEnd {tabs : Nat} {c : Char} (h : c ∈ spreadEnd tabs) :
    c = '*' ∨ c = '\t' ∨ c = '/' := by
  rcases List.mem_cons.mp h with rfl | h
  · exact Or.inl rfl
  · rcases List.mem_append.mp h with h | h
    · exact Or.inr (Or.inl (List.eq_of_mem_replicate h))
    · exact Or.inr (Or.inr (List.mem_singleton.mp h))

theorem notMem_spreadEnd (tabs : Nat) {c : Char} (h : c ≠ '*' ∧ c ≠ '\t' ∧ c ≠ '/') :
    c ∉ spreadEnd tabs := by
  intro hc
  rcases mem_spreadEnd hc with rfl | rfl | rfl <;> simp at h

/-- What holds no slash does not hold the two characters. -/
theorem not_infix_of_notMem_slash {tabs : Nat} {text : List Char} (h : '/' ∉ text) :
    ¬ spreadEnd tabs <:+: text := fun hi => h (hi.subset (by simp [spreadEnd]))

/-- In whole lines, the two characters stand in one of the lines. -/
theorem exists_line_of_infix {tabs level : Nat} {lines : List String} {behind : List Char}
    (h : spreadEnd tabs <:+: lines.flatMap (Writer.lineChars level) ++ behind) :
    (∃ line ∈ lines, spreadEnd tabs <:+: line.toList) ∨ spreadEnd tabs <:+: behind := by
  have hreturn : '\r' ∉ spreadEnd tabs := notMem_spreadEnd tabs (by decide)
  have hfeed : '\n' ∉ spreadEnd tabs := notMem_spreadEnd tabs (by decide)
  have hlevel : '*' ∉ List.replicate level '\t' := fun hm =>
    absurd (List.eq_of_mem_replicate hm) (by decide)
  induction lines with
  | nil => exact Or.inr h
  | cons line rest ih =>
      have hline : (line :: rest).flatMap (Writer.lineChars level) ++ behind
          = List.replicate level '\t' ++ (line.toList ++ '\r' :: ([] ++ '\n' ::
            (rest.flatMap (Writer.lineChars level) ++ behind))) := by
        simp [Writer.lineChars, Text.newline]
      rw [hline] at h
      have h := Text.infix_of_infix_append hlevel h
      rcases (Text.infix_append_cons_iff hreturn).mp h with hfirst | h
      · exact Or.inl ⟨line, by simp, hfirst⟩
      · rcases (Text.infix_append_cons_iff hfeed).mp h with hnil | hrest
        · exact absurd hnil (not_infix_of_notMem_slash (by simp))
        · rcases ih hrest with ⟨found, hfound, hi⟩ | hbehind
          · exact Or.inl ⟨found, by simp [hfound], hi⟩
          · exact Or.inr hbehind

/-- In a line of a comment the two characters stand apart, and only where they do so in the line
of the summary. -/
theorem infix_of_infix_commentLine {tabs : Nat} {line : List Char}
    (h : spreadEnd tabs <:+: (Summary.commentLine line).toList) :
    tabs ≠ 0 ∧ spreadEnd tabs <:+: line := by
  rw [Summary.commentLine, String.toList_ofList] at h
  have h := h.trans (Text.dropEndWhile_prefix _ _).isInfix
  have hblank : ' ' ∉ spreadEnd tabs := notMem_spreadEnd tabs (by decide)
  have hescaped : spreadEnd tabs <:+: Text.replace ['*', '/'] ['*', '\\', '/'] line := by
    rcases (Text.infix_append_cons_iff (a := [' ', '*']) hblank).mp h with hfront | hi
    · exact absurd hfront (not_infix_of_notMem_slash (by decide))
    · exact hi
  constructor
  · rintro rfl
    exact Text.not_infix_escaped (by decide) (by decide) line hescaped
  · exact Text.infix_of_infix_escaped (notMem_spreadEnd tabs (by decide)) hescaped

/-- In front of the last line of a comment the two characters stand apart, and only where they
do so in the summary. -/
theorem infix_of_infix_comment {tabs level : Nat} {summary : String}
    (h : spreadEnd tabs <:+: ("/**" :: (Text.lines summary.toList).map Summary.commentLine).flatMap
      (Writer.lineChars level) ++ List.replicate level '\t') :
    tabs ≠ 0 ∧ spreadEnd tabs <:+: summary.toList := by
  rcases exists_line_of_infix h with ⟨line, hline, hi⟩ | hlast
  · rcases List.mem_cons.mp hline with rfl | hline
    · have hstars : spreadEnd tabs <:+: "**".toList :=
        Text.infix_of_infix_append (a := ['/']) (by decide) hi
      exact absurd hstars (not_infix_of_notMem_slash (by decide))
    · obtain ⟨given, hgiven, rfl⟩ := List.mem_map.mp hline
      obtain ⟨hne, hi⟩ := infix_of_infix_commentLine hi
      exact ⟨hne, hi.trans (Text.infix_of_mem_lines hgiven)⟩
  · refine absurd hlast (not_infix_of_notMem_slash fun hm => ?_)
    exact absurd (List.eq_of_mem_replicate hm) (by decide)

/-! ## One comment in the finished file -/

namespace Options

variable {o : Options}

theorem occurrences_commentEnd_last (o : Options) :
    Text.occurrences commentEnd (commentEnd ++ o.layOut Text.newline.toList) = 1 := by
  rw [layOut_newline]
  cases o.lineEnding <;> decide

/-- **The comment for a summary ends once, at its end**, unless tabs vanish and a star and a
slash of the summary have nothing but tabs between them. -/
theorem closedComment_commentChars (level : Nat) {summary : String} (hne : summary ≠ "")
    (hspread : o.indent = .spaces 0 → ∀ tabs, ¬ spreadEnd (tabs + 1) <:+: summary.toList) :
    o.ClosedComment (o.layOut (Writer.commentChars level (some summary))) := by
  -- Everything in front of the blank in the last line.
  obtain ⟨front, hfront⟩ : ∃ front, front
      = ("/**" :: (Text.lines summary.toList).map Summary.commentLine).flatMap
        (Writer.lineChars level) ++ List.replicate level '\t' := ⟨_, rfl⟩
  have hchars : Writer.commentChars level (some summary)
      = front ++ ' ' :: (commentEnd ++ Text.newline.toList) := by
    rw [Writer.commentChars, Summary.comment, if_neg hne, List.flatMap_append, hfront]
    simp [Writer.lineChars, commentEnd]
  have hlayout : o.layOut (Writer.commentChars level (some summary))
      = o.layOut front ++ ' ' :: (commentEnd ++ o.layOut Text.newline.toList) := by
    rw [hchars, layOut_append fun _ => by simp, layOut_cons (by decide) (by decide)]
    show _ ++ ' ' :: o.layOut ('*' :: '/' :: Text.newline.toList) = _
    rw [layOut_cons (by decide) (by decide), layOut_cons (by decide) (by decide)]
    rfl
  have hnone : ¬ commentEnd <:+: o.layOut front := by
    by_cases hwidth : o.indent = .spaces 0
    · intro h
      obtain ⟨tabs, htabs⟩ := exists_infix_of_infix_layOut hwidth (by decide) h
      rw [hfront] at htabs
      obtain ⟨htabs0, hi⟩ := infix_of_infix_comment htabs
      obtain ⟨k, rfl⟩ := Nat.exists_eq_succ_of_ne_zero htabs0
      exact hspread hwidth k hi
    · refine not_infix_layOut hwidth (by decide) (by decide) fun h => ?_
      rw [hfront] at h
      have hspread0 : spreadEnd 0 <:+: _ := h
      exact (infix_of_infix_comment hspread0).1 rfl
  rw [hlayout]
  constructor
  · rw [Text.occurrences_append_cons (by decide) (by decide),
      Text.occurrences_eq_zero_iff.mpr hnone, occurrences_commentEnd_last]
  · exact ⟨o.layOut front ++ [' '], by simp⟩

end Options

/-! ## All comments of a file -/

/-- The comments of a body stand in the finished file one behind the other. -/
theorem exists_without_finishedComments {o : Options} {types : List Descriptor} {source : Path}
    {isFile : Path → Bool} {file : Definitions} (hsafe : ∀ d ∈ types, d.TokenSafe)
    (hfile : generate o types source isFile = .ok file) :
    ∃ rest, Text.Without (o.finishedComments types) file.text.toList rest := by
  obtain ⟨imports, -, rfl⟩ := exists_imports_of_generate hfile
  have hbody := finishedBody_of_tokenSafe (o := o) hsafe (headText o source imports)
    imports.unresolvedBases
  exact ⟨_, hbody.without_comments⟩

/-- **The comments of a definition file end where they should.** For each summary there is a
comment, the comments stand in the file one behind the other, and each of them that is not empty
ends once, at its end. No token starts in a text of the types, and where tabs vanish, no summary
has a star and a slash with nothing but tabs between them. -/
theorem generate_closes_comments {o : Options} {types : List Descriptor} {source : Path}
    {isFile : Path → Bool} {file : Definitions} (hsafe : ∀ d ∈ types, d.TokenSafe)
    (hspread : o.indent = .spaces 0 → ∀ d ∈ types, ∀ summary, some summary ∈ d.summaries →
      ∀ tabs, ¬ spreadEnd (tabs + 1) <:+: summary.toList)
    (hfile : generate o types source isFile = .ok file) :
    (∃ rest, Text.Without (o.finishedComments types) file.text.toList rest) ∧
      (Draft.comments 0 (Body.draft o types)).map (·.2)
        = (Descriptor.renderOrder types).flatMap Descriptor.summaries ∧
      ∀ level summary, (level, some summary) ∈ Draft.comments 0 (Body.draft o types) →
        summary ≠ "" →
        o.ClosedComment (o.layOut (Writer.commentChars level (some summary))) := by
  refine ⟨exists_without_finishedComments hsafe hfile, Body.comments_draft o types, ?_⟩
  intro level summary hcomment hne
  have hmem : some summary ∈ (Descriptor.renderOrder types).flatMap Descriptor.summaries := by
    rw [← Body.comments_draft o types]
    exact List.mem_map.mpr ⟨_, hcomment, rfl⟩
  obtain ⟨d, hd, hsummary⟩ := List.mem_flatMap.mp hmem
  refine Options.closedComment_commentChars level hne fun hwidth => ?_
  exact hspread hwidth d (Descriptor.mem_renderOrder.mp hd) summary hsummary

/-! ## A tab in a comment -/

/-- Module declarations without any indentation. -/
def unindented : Options := { OnePass.modules with indent := .spaces 0 }

/-- The file of module declarations for an interface with nothing but documentation. -/
theorem exists_generate_unindented (summary : String) :
    ∃ file, generate unindented [(Descriptor.interface "A").withSummary summary] ⟨"/src/A.cs"⟩
      (fun _ => false) = .ok file := by
  rw [generate_eq_bind_body, resolveImports_of_declareModule rfl]
  exact ⟨_, rfl⟩

theorem generate_closes_comments_unindented :
    (∀ d ∈ [(Descriptor.interface "A").withSummary "See */ above."], d.TokenSafe) ∧
      (unindented.indent = .spaces 0 →
        ∀ d ∈ [(Descriptor.interface "A").withSummary "See */ above."],
          ∀ summary, some summary ∈ d.summaries →
            ∀ tabs, ¬ spreadEnd (tabs + 1) <:+: summary.toList) ∧
      ∃ file, generate unindented [(Descriptor.interface "A").withSummary "See */ above."]
          ⟨"/src/A.cs"⟩ (fun _ => false) = .ok file ∧
        unindented.ClosedComment
          (unindented.layOut (Writer.commentChars 0 (some "See */ above."))) := by
  have hsafe : ∀ d ∈ [(Descriptor.interface "A").withSummary "See */ above."], d.TokenSafe := by
    decide +kernel
  have hspread : unindented.indent = .spaces 0 →
      ∀ d ∈ [(Descriptor.interface "A").withSummary "See */ above."],
        ∀ summary, some summary ∈ d.summaries →
          ∀ tabs, ¬ spreadEnd (tabs + 1) <:+: summary.toList := by
    intro _ d hd summary hsummary tabs h
    rw [List.mem_singleton.mp hd] at hsummary
    have hgiven : summary = "See */ above." :=
      Option.some.inj (List.mem_singleton.mp hsummary)
    rw [hgiven] at h
    exact absurd (h.subset (by simp [spreadEnd, List.replicate_succ])) (show '\t' ∉ _ by decide)
  obtain ⟨file, hfile⟩ := exists_generate_unindented "See */ above."
  obtain ⟨-, -, hclosed⟩ := generate_closes_comments hsafe hspread hfile
  exact ⟨hsafe, hspread, file, hfile, hclosed 0 _ (by decide +kernel) (by decide)⟩

/-- **A tab can end a comment.** The summary has a tab between a star and a slash, so nothing is
escaped in it; where tabs vanish, its comment holds the sequence that ends it twice. -/
theorem tab_closes_comment :
    ¬ ∀ (o : Options) (types : List Descriptor) (source : Path) (isFile : Path → Bool)
      (file : Definitions), (∀ d ∈ types, d.TokenSafe) →
      generate o types source isFile = .ok file →
      ∀ rest, Text.Without (o.finishedComments types) file.text.toList rest →
        ∀ part ∈ o.finishedComments types, part ≠ [] → Text.occurrences commentEnd part = 1 := by
  intro hall
  obtain ⟨file, hfile⟩ := exists_generate_unindented "*\t/ x"
  have hsafe : ∀ d ∈ [(Descriptor.interface "A").withSummary "*\t/ x"], d.TokenSafe := by
    decide +kernel
  obtain ⟨rest, hrest⟩ := exists_without_finishedComments hsafe hfile
  have honce := hall _ _ _ _ file hsafe hfile rest hrest
  have htwice : ¬ ∀ part ∈ unindented.finishedComments
      [(Descriptor.interface "A").withSummary "*\t/ x"],
      part ≠ [] → Text.occurrences commentEnd part = 1 := by
    decide +kernel
  exact htwice honce

end Typings
