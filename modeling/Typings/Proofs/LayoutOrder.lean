import Typings.Proofs.LineEndings
import Typings.Proofs.Text.Exchange

/-!
# The order of the two steps of a layout

A layout first gives the lines of a text their ends and then indents them. Blanks in place of a tab
neither complete a line break nor break one up, so the steps can also be done the other way round.
This stops to hold where an indentation by no blanks meets line ends of a single character: a tab
between a carriage return and a line feed vanishes, and the two become a line break that the first
step has not seen. If tabs vanish first, this line break is found.

So the order matters in texts that hold the three characters in this way, and in no others. A
definition file that is made of lines is not among them, since all its carriage returns stand in
front of a line feed.

## Main definitions

* `Options.normalizeTabsFirst` — the two steps in the other order.

## Main results

* `Options.normalize_tabsFirst_iff` — the texts for which the order does not matter.
* `layout_order_matters` — a text for which it does.
* `rawText_tabsFirst` — the layout of a definition file.
-/

namespace Typings

open Text

namespace Options

/-- A raw text with the indentation and then the line endings of the options. -/
def normalizeTabsFirst (o : Options) (text : String) : String :=
  String.ofList (o.lineEnding.apply (o.indent.apply text.toList))

variable {o : Options}

/-- Indenting by blanks writes a blank for each tab, or none at all. -/
theorem apply_spaces_exchange {width : UInt8} {text : List Char} :
    Indentation.apply (.spaces width) (LineEnding.apply .lf text)
        = LineEnding.apply .lf (Indentation.apply (.spaces width) text)
      ↔ (width = 0 → ¬ HoldsApart '\r' '\n' '\t' text) := by
  have hblank {c : Char} (hc : c ≠ ' ') : c ∉ List.replicate width.toNat ' ' := fun hm =>
    hc (List.eq_of_mem_replicate hm)
  have hnone : List.replicate width.toNat ' ' = [] ↔ width = 0 := by
    rw [List.replicate_eq_nil_iff, ← UInt8.toNat_inj]
    rfl
  rw [← hnone]
  exact replace_exchange_iff (by decide) (by decide) (by decide) (hblank (by decide))
    (hblank (by decide))

/-- Without a pair that has tabs between its two, the order does not matter. -/
theorem normalize_eq_tabsFirst {text : String}
    (h : o.lineEnding = .lf → o.indent = .spaces 0 → ¬ HoldsApart '\r' '\n' '\t' text.toList) :
    o.normalize text = o.normalizeTabsFirst text := by
  rw [normalize, normalizeTabsFirst]
  congr 1
  cases hending : o.lineEnding with
  | crlf => rfl
  | lf =>
      cases hindent : o.indent with
      | tab => rfl
      | spaces width =>
          refine apply_spaces_exchange.mpr fun hwidth => ?_
          exact h hending (by rw [hindent, hwidth])

/-- **The order of the two steps does not matter**, unless lines end with a line feed alone, tabs
vanish, and the text holds a carriage return and a line feed with tabs, and nothing else, between
them. In that case it does. -/
theorem normalize_tabsFirst_iff (o : Options) (text : String) :
    o.normalize text = o.normalizeTabsFirst text ↔
      ¬ (o.lineEnding = .lf ∧ o.indent = .spaces 0 ∧
        ∃ k, '\r' :: (List.replicate (k + 1) '\t' ++ ['\n']) <:+: text.toList) := by
  constructor
  · rintro hsame ⟨hending, hindent, happart⟩
    rw [normalize, normalizeTabsFirst, hending, hindent, String.ofList_inj] at hsame
    exact apply_spaces_exchange.mp hsame rfl happart
  · intro h
    exact normalize_eq_tabsFirst fun hending hindent happart => h ⟨hending, hindent, happart⟩

/-- **The order of the two steps can matter.** One text is left with a line break of two characters
or of one. -/
theorem layout_order_matters :
    ¬ ∀ (o : Options) (text : String), o.normalize text = o.normalizeTabsFirst text := by
  intro hall
  have hsame := hall { Options.default with indent := .spaces 0 } "\r\t\n"
  revert hsame
  decide +kernel

end Options

/-! ## Definition files -/

/-- Line breaks that are all pairs hold no pair apart. -/
theorem Text.Paired.not_holdsApart {text : List Char} (h : Paired text) :
    ¬ HoldsApart '\r' '\n' '\t' text := by
  rintro ⟨k, before, behind, rfl⟩
  rw [List.append_assoc] at h
  exact absurd h.head?_of_return (by simp [List.replicate_succ])

/-- **The layout of a definition file** does not depend on the order of the two steps. Nothing but
summaries holds a line break. -/
theorem rawText_tabsFirst {o : Options} {types : List Descriptor} {source : Path}
    {isFile : Path → Bool} (h : MadeOfLines o types source) {imports : ImportBlock}
    (himports : resolveImports o types (Names.ofTypes o types) source isFile = .ok imports) :
    o.normalize (rawText o source (Body.render o types) imports)
      = o.normalizeTabsFirst (rawText o source (Body.render o types) imports) :=
  Options.normalize_eq_tabsFirst fun _ _ => (paired_rawText h himports).not_holdsApart

end Typings
