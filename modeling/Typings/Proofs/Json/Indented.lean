import Typings.Proofs.Json.RoundTrip

/-!
# Reading the indented layout

The indented layout differs from the compact one only by blanks that stand between two tokens: at
the start of each line, and behind each colon. Blanks are skipped, so both layouts of a value have
the same tokens, at every depth.

## Main results

* `scans_indentedAt` — the tokens of a value inside some brackets.
* `parse?_indented` — a value in the indented layout is read as itself.
-/

namespace Typings.Json

theorem indentedItems_eq_map (depth : Nat) (items : List Json) :
    indentedItems depth items = items.map (indentedAt depth) := by
  induction items with
  | nil => rfl
  | cons item rest ih => rw [indentedItems, ih, List.map_cons]

/-- A member as it is written inside some brackets. -/
def indentedMember (depth : Nat) (member : String × Json) : String :=
  quote member.1 ++ ": " ++ indentedAt depth member.2

theorem indentedMembers_eq_map (depth : Nat) (members : List (String × Json)) :
    indentedMembers depth members = members.map (indentedMember depth) := by
  induction members with
  | nil => rfl
  | cons member rest ih => rw [indentedMembers, ih, List.map_cons, indentedMember]

/-- A line starts with blanks only. -/
theorem isSpace_of_mem_lineStart (depth : Nat) :
    ∀ c ∈ (lineStart depth).toList, isSpace c = true := by
  intro c hc
  have hblank : c = '\n' ∨ c ∈ List.replicate (2 * depth) ' ' := by
    simpa [lineStart] using hc
  rcases hblank with rfl | hblank
  · rfl
  · rw [List.eq_of_mem_replicate hblank]
    rfl

/-- Pieces in brackets, each on a line of its own, if there are any. -/
theorem scans_bracketed {α : Type} {text : α → String} {read : α → List Token} {xs : List α}
    (hread : ∀ x ∈ xs, Scans (text x).toList (read x)) {opening closing : String} {c d : Char}
    {first last : Token} (hopening : opening.toList = [c]) (hclosing : closing.toList = [d])
    (hfirst : punctuation? c = some first) (hlast : punctuation? d = some last) (depth : Nat) :
    Scans (bracketed opening closing depth (xs.map text)).toList
      (first :: ([.comma].intercalate (xs.map read) ++ [last])) := by
  intro found rest _
  cases xs with
  | nil =>
      refine Eq.trans ?_ (scanFrom_enclosed hfirst hlast noBlanks noBlanks noBlanks hread)
      simp [bracketed, hopening, hclosing]
  | cons x others =>
      refine Eq.trans ?_ (scanFrom_enclosed hfirst hlast (isSpace_of_mem_lineStart (depth + 1))
        (isSpace_of_mem_lineStart (depth + 1)) (isSpace_of_mem_lineStart depth) hread)
      rw [bracketed, if_neg (by simp)]
      simp [String.toList_intercalate, hopening, hclosing, Function.comp_def]

mutual

/-- **A value is read as its tokens** at every depth. -/
theorem scans_indentedAt :
    (v : Json) → v.isSpelled = true → ∀ depth, Scans (indentedAt depth v).toList v.tokens
  | .array items, h, depth => by
      rw [isSpelled] at h
      rw [indentedAt, indentedItems_eq_map, tokens, itemsTokens_eq_map]
      exact scans_bracketed (scans_indentedItems items h (depth + 1)) rfl rfl rfl rfl depth
  | .object members, h, depth => by
      rw [isSpelled] at h
      rw [indentedAt, indentedMembers_eq_map, tokens, membersTokens_eq_map]
      exact scans_bracketed (scans_indentedMembers members h (depth + 1)) rfl rfl rfl rfl depth
  | .null, h, _ => scans_compact .null h
  | .bool value, h, _ => scans_compact (.bool value) h
  | .number literal, h, _ => scans_compact (.number literal) h
  | .string text, h, _ => scans_compact (.string text) h
  | .unreadable, h, _ => scans_compact .unreadable h

theorem scans_indentedItems :
    (items : List Json) → itemsSpelled items = true → ∀ depth,
      ∀ item ∈ items, Scans (indentedAt depth item).toList item.tokens
  | [], _, _ => by simp
  | item :: rest, h, depth => by
      rw [itemsSpelled, Bool.and_eq_true] at h
      exact List.forall_mem_cons.mpr
        ⟨scans_indentedAt item h.1 depth, scans_indentedItems rest h.2 depth⟩

theorem scans_indentedMembers :
    (members : List (String × Json)) → membersSpelled members = true → ∀ depth,
      ∀ member ∈ members, Scans (indentedMember depth member).toList (memberTokens member)
  | [], _, _ => by simp
  | (key, value) :: others, h, depth => by
      rw [membersSpelled, Bool.and_eq_true] at h
      refine List.forall_mem_cons.mpr ⟨?_, scans_indentedMembers others h.2 depth⟩
      intro found rest hrest
      have hchars : (indentedMember depth (key, value)).toList ++ rest
          = (quote key).toList ++ ':' :: ([' '] ++ ((indentedAt depth value).toList ++ rest)) := by
        simp [indentedMember]
      have hblank : ∀ c ∈ [' '], isSpace c = true := by simp [isSpace]
      rw [hchars, scanFrom_quote, scanFrom_punctuation rfl, scanFrom_blanks hblank,
        scans_indentedAt value h.1 depth _ _ hrest]
      simp [memberTokens]

end

/-- The tokens of the indented layout. -/
theorem tokens?_indented {v : Json} (h : v.isSpelled = true) :
    tokens? v.indented.toList = some v.tokens := (scans_indentedAt v h 0).tokens?_eq

/-- **A value in the indented layout is read as itself.** -/
theorem parse?_indented {v : Json} (h : v.isSpelled = true) : parse? v.indented = some v :=
  parse?_of_tokens h (tokens?_indented h)

end Typings.Json
