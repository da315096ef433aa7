/-!
# Replacing parts of a text

A *rule* looks at the front of a text and says whether something there is to be
replaced: what it becomes, and how many characters it takes. `substitute` tries the
rule at every position, goes on behind each match, and never looks again at what it
has written. Replacing every occurrence of one text by another is the simplest use.

## Main definitions

* `Rule`, `substitute` — the rule and the single pass that applies it.
* `replace` — every non-overlapping occurrence of a pattern, from the left.
* `occursIn` — whether a pattern stands anywhere in a text.

## Main results

* `substitute_cons_of_none`, `substitute_of_some` — what one step does.
-/

namespace Typings.Text

/-! ## The pass -/

/-- What stands at the front of a text is replaced: the new text, and the number of
characters that it replaces. `none` keeps the first character. -/
abbrev Rule := List Char → Option (List Char × Nat)

/-- The pass, with the number of characters of the last match still to be skipped. -/
def substituteFrom (rule : Rule) : Nat → List Char → List Char
  | _, [] => []
  | skip + 1, _ :: rest => substituteFrom rule skip rest
  | 0, c :: rest =>
    match rule (c :: rest) with
    | some (written, taken) => written ++ substituteFrom rule (taken - 1) rest
    | none => c :: substituteFrom rule 0 rest

/-- Apply a rule wherever it matches, from left to right. A match that takes no
character counts as one that takes a single character. -/
def substitute (rule : Rule) (text : List Char) : List Char :=
  substituteFrom rule 0 text

theorem substituteFrom_eq (rule : Rule) (skip : Nat) (text : List Char) :
    substituteFrom rule skip text = substitute rule (text.drop skip) := by
  induction text generalizing skip with
  | nil => cases skip <;> simp [substitute, substituteFrom]
  | cons c rest ih =>
    cases skip with
    | zero => rfl
    | succ skip => simpa [substituteFrom] using ih skip

@[simp] theorem substitute_nil (rule : Rule) : substitute rule [] = [] := rfl

theorem substitute_cons_of_none {rule : Rule} {c : Char} {rest : List Char}
    (h : rule (c :: rest) = none) : substitute rule (c :: rest) = c :: substitute rule rest := by
  simp [substitute, substituteFrom, h]

theorem substitute_of_some {rule : Rule} {text written : List Char} {taken : Nat}
    (h : rule text = some (written, taken + 1)) (ne : text ≠ []) :
    substitute rule text = written ++ substitute rule (text.drop (taken + 1)) := by
  cases text with
  | nil => exact absurd rfl ne
  | cons c rest =>
    rw [substitute, substituteFrom, h]
    simp only [Nat.add_sub_cancel, List.drop_succ_cons]
    rw [substituteFrom_eq]

/-! ## Replacing and finding a pattern -/

/-- The rule that turns a pattern into another text. -/
def replaceRule (pattern replacement : List Char) : Rule := fun text =>
  if pattern.isPrefixOf text then some (replacement, pattern.length) else none

/-- Replace every occurrence of a non-empty pattern. Occurrences are taken from the
left and do not overlap. -/
def replace (pattern replacement text : List Char) : List Char :=
  substitute (replaceRule pattern replacement) text

@[simp] theorem replace_nil (pattern replacement : List Char) :
    replace pattern replacement [] = [] := rfl

/-- Whether a pattern stands somewhere in a text. -/
def occursIn (pattern : List Char) : List Char → Bool
  | [] => pattern.isEmpty
  | c :: rest => pattern.isPrefixOf (c :: rest) || occursIn pattern rest

end Typings.Text
