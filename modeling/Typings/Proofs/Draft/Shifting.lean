import Typings.Proofs.Draft.Comments
import Typings.Proofs.Text.Lines

/-!
# Drafts at another level

A draft does not say how deep it is indented. Written one level deeper it has one more tab in
front of each line, and nothing else changes, as long as the draft indents each line once: a
line starts with an indented text or in a comment, and no text holds a line break of its own.

Whether this is so is said of a draft together with the places where it starts and stops, at
the start of a line or inside one. Drafts that fit together there can be put one behind the
other.

## Main definitions

* `Text.indentLines` — a text with a tab in front of each line.
* `Draft.Shifts` — a draft that indents each of its lines once.

## Main results

* `Draft.Shifts.append`, `Draft.Shifts.indented` — how such drafts are put together.
* `Draft.Shifts.written_succ` — what is written one level deeper.
-/

namespace Typings

namespace Text

/-! ## A tab in front of each line -/

/-- A text with a tab in front of each of its lines. The first one has a tab if the text starts
at the start of a line. An empty line at the end has none. -/
def indentLines : Bool → List Char → List Char
  | _, [] => []
  | start, c :: rest => (if start then ['\t', c] else [c]) ++ indentLines (c = '\n') rest

theorem indentLines_append {text : List Char} (h : '\n' ∉ text) (behind : List Char) :
    indentLines false (text ++ behind) = text ++ indentLines false behind := by
  induction text with
  | nil => rfl
  | cons c rest ih =>
      have hc : c ≠ '\n' := fun e => h (by simp [e])
      have hrest : '\n' ∉ rest := fun hm => h (by simp [hm])
      rw [List.cons_append, indentLines, if_neg Bool.false_ne_true, decide_eq_false hc, ih hrest]
      rfl

/-- Inside a line that starts with some text. -/
theorem indentLines_start {text : List Char} (hne : text ≠ []) (h : '\n' ∉ text)
    (behind : List Char) :
    indentLines true (text ++ behind) = '\t' :: (text ++ indentLines false behind) := by
  obtain ⟨c, rest, rfl⟩ := List.exists_cons_of_ne_nil hne
  have hc : c ≠ '\n' := fun e => h (by simp [e])
  have hrest : '\n' ∉ rest := fun hm => h (by simp [hm])
  rw [List.cons_append, indentLines, if_pos rfl, decide_eq_false hc, indentLines_append hrest]
  rfl

theorem indentLines_newline (behind : List Char) :
    indentLines false (newline.toList ++ behind) = newline.toList ++ indentLines true behind := by
  have hbreak : newline.toList = ['\r', '\n'] := by decide
  rw [hbreak]
  rfl

/-- A whole line one level deeper. -/
theorem indentLines_lineChars {line : String} (h : '\n' ∉ line.toList) (level : Nat)
    (behind : List Char) :
    indentLines true (Writer.lineChars level line ++ behind)
      = Writer.lineChars (level + 1) line ++ indentLines true behind := by
  have hbreak : newline.toList = ['\r'] ++ ['\n'] := by decide
  -- The carriage return belongs to the line that it ends.
  have htext : '\n' ∉ List.replicate level '\t' ++ (line.toList ++ ['\r']) := by
    simp [h]
  have hsplit (level : Nat) : Writer.lineChars level line
      = (List.replicate level '\t' ++ (line.toList ++ ['\r'])) ++ ['\n'] := by
    rw [Writer.lineChars, hbreak]
    simp
  rw [hsplit, hsplit, List.append_assoc, indentLines_start (by simp) htext, List.replicate_succ]
  simp [indentLines]

/-! ## Lines of comments -/

theorem mem_replace {pattern written text : List Char} (hpat : pattern ≠ []) {c : Char}
    (h : c ∈ replace pattern written text) : c ∈ written ∨ c ∈ text := by
  induction text using replace_induction hpat with
  | nil => exact Or.inr h
  | taken rest ih =>
      rw [replace_append hpat, List.mem_append] at h
      rcases h with hwritten | hrest
      · exact Or.inl hwritten
      · exact (ih hrest).imp_right fun hm => List.mem_append_right _ hm
  | kept d rest hkept ih =>
      rw [replace_cons hkept, List.mem_cons] at h
      rcases h with rfl | hrest
      · exact Or.inr List.mem_cons_self
      · exact (ih hrest).imp_right fun hm => List.mem_cons_of_mem _ hm

end Text

/-- **The lines of a comment are lines**, whatever the summary holds. -/
theorem Summary.oneLine_of_mem_comment {summary : Option String} {line : String}
    (h : line ∈ comment summary) : Text.OneLine line.toList := by
  cases summary with
  | none => simp [comment] at h
  | some text =>
      rw [comment] at h
      split at h
      · simp at h
      · rcases List.mem_append.mp h with h | h
        · rcases List.mem_cons.mp h with rfl | h
          · decide
          · obtain ⟨given, hgiven, rfl⟩ := List.mem_map.mp h
            have hline : Text.OneLine given := Text.oneLine_of_mem_lines hgiven
            have hstar : Text.OneLine " * ".toList := by decide
            have hescape : Text.OneLine "*\\/".toList := by decide
            have hescaped : Text.OneLine (Text.replace "*/".toList "*\\/".toList given) :=
              ⟨fun hm => (Text.mem_replace (by decide) hm).elim hescape.1 hline.1,
                fun hm => (Text.mem_replace (by decide) hm).elim hescape.2 hline.2⟩
            rw [commentLine, String.toList_ofList]
            exact (Text.oneLine_append.mpr ⟨hstar, hescaped⟩).mono
              fun c hc => (Text.dropEndWhile_prefix _ _).subset hc
        · rw [List.mem_singleton.mp h]
          decide

namespace Draft

/-! ## Drafts that indent each line once -/

/-- A draft that indents each of its lines once: one level deeper it writes the same with a tab
in front of each line. It starts and stops at the start of a line or inside one, as the two
flags say, and leaves the level as it is. -/
def Shifts (slot : String → String) (start stop : Bool) (a : Draft) : Prop :=
  ∀ level, levelAfter level a = level ∧ ∀ behind,
    Text.indentLines start (written slot level a ++ behind)
      = written slot (level + 1) a ++ Text.indentLines stop behind

variable {slot : String → String} {start mid stop : Bool} {a b : Draft}

theorem Shifts.append (ha : a.Shifts slot start mid) (hb : b.Shifts slot mid stop) :
    (a ++ b).Shifts slot start stop := by
  intro level
  obtain ⟨hlevel, htext⟩ := ha level
  obtain ⟨hlevel', htext'⟩ := hb level
  constructor
  · rw [levelAfter_append, hlevel, hlevel']
  · intro behind
    rw [written_append, written_append, hlevel, (ha (level + 1)).1, List.append_assoc, htext,
      htext', List.append_assoc]

theorem shifts_nil : Shifts slot start start [] := fun _ => ⟨rfl, fun _ => rfl⟩

theorem shifts_flatMap {α : Type} {f : α → Draft} {xs : List α}
    (h : ∀ x ∈ xs, (f x).Shifts slot true true) : Shifts slot true true (xs.flatMap f) := by
  induction xs with
  | nil => exact shifts_nil
  | cons x rest ih =>
      rw [List.flatMap_cons]
      exact (h x (by simp)).append (ih fun y hy => h y (by simp [hy]))

theorem shifts_add {text : String} (h : '\n' ∉ text.toList) :
    Shifts slot false false [.add text] := by
  intro level
  refine ⟨rfl, fun behind => ?_⟩
  simpa [Step.written] using Text.indentLines_append h behind

theorem shifts_slot {base : String} (h : '\n' ∉ (slot base).toList) :
    Shifts slot false false [.slot base] := by
  intro level
  refine ⟨rfl, fun behind => ?_⟩
  simpa [Step.written] using Text.indentLines_append h behind

theorem shifts_addIndented {text : String} (hne : text ≠ "") (h : '\n' ∉ text.toList) :
    Shifts slot true false [.addIndented text] := by
  intro level
  refine ⟨rfl, fun behind => ?_⟩
  have hnonempty : List.replicate level '\t' ++ text.toList ≠ [] := by simp [hne]
  have htext : '\n' ∉ List.replicate level '\t' ++ text.toList := by simp [h]
  simpa [Step.written, List.replicate_succ] using Text.indentLines_start hnonempty htext behind

theorem shifts_newline : Shifts slot false true [.newline] := by
  intro level
  refine ⟨rfl, fun behind => ?_⟩
  simpa [Step.written] using Text.indentLines_newline behind

theorem shifts_line {text : String} (h : '\n' ∉ text.toList) :
    Shifts slot true true (line text) := by
  intro level
  refine ⟨rfl, fun behind => ?_⟩
  rw [written_line, written_line]
  exact Text.indentLines_lineChars h level behind

theorem shifts_comment (summary : Option String) : Shifts slot true true [.comment summary] := by
  intro level
  refine ⟨rfl, fun behind => ?_⟩
  have hlines : ∀ line ∈ Summary.comment summary, '\n' ∉ line.toList :=
    fun _ hline => (Summary.oneLine_of_mem_comment hline).2
  simp only [written_cons, written_nil, List.append_nil, Step.written]
  generalize Summary.comment summary = lines at hlines
  induction lines with
  | nil => rfl
  | cons line rest ih =>
      rw [List.flatMap_cons, List.flatMap_cons, List.append_assoc,
        Text.indentLines_lineChars (hlines line (by simp)), ih fun l hl => hlines l (by simp [hl]),
        List.append_assoc]

/-- Drafts that leave the level as it is write the same one behind the other as each alone. -/
theorem written_flatMap {α : Type} {f : α → Draft} {xs : List α} {level : Nat}
    (h : ∀ x ∈ xs, levelAfter level (f x) = level) :
    written slot level (xs.flatMap f) = xs.flatMap fun x => written slot level (f x) := by
  induction xs with
  | nil => rfl
  | cons x rest ih =>
      rw [List.flatMap_cons, List.flatMap_cons, written_append, h x (by simp),
        ih fun y hy => h y (by simp [hy])]

/-- What is indented inside a draft is indented once more. -/
theorem Shifts.indented (h : a.Shifts slot start stop) :
    ([.indent] ++ a ++ [.dedent] : Draft).Shifts slot start stop := by
  intro level
  obtain ⟨hlevel, htext⟩ := h (level + 1)
  have hwritten (level : Nat) :
      written slot level ([.indent] ++ a ++ [.dedent]) = written slot (level + 1) a := by
    rw [written_append, written_append]
    simp [Step.written, levelAfter, Step.levelAfter]
  constructor
  · rw [levelAfter_append, levelAfter_append]
    show levelAfter (levelAfter (level + 1) a) [.dedent] = level
    rw [hlevel]
    rfl
  · intro behind
    rw [hwritten, hwritten, htext]

/-- **One level deeper** there is one more tab in front of each line. -/
theorem Shifts.written_succ (h : a.Shifts slot start stop) (level : Nat) :
    written slot (level + 1) a = Text.indentLines start (written slot level a) := by
  have htext := (h level).2 []
  rw [List.append_nil, Text.indentLines, List.append_nil] at htext
  exact htext.symm

end Draft

end Typings
