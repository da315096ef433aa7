import Typings.Draft

/-!
# What a draft writes

A writer never takes back what it has written, so a draft is described by the characters that
it adds to a writer at some level of indentation, and by the level at which it leaves the
writer. Both are defined step by step; the two main statements say that they describe
`Draft.write`.

## Main results

* `toList_text_write`, `level_write` — the writer after a draft.
* `written_append` — a draft behind another one starts at the level that the first one leaves.
* `exists_written_infix` — a part of a draft writes a part of the text.
* `written_congr` — what the slots of a draft hold is all that it takes from outside.
-/

namespace Typings

/-- The characters of a whole line at a level. -/
def Writer.lineChars (level : Nat) (line : String) : List Char :=
  List.replicate level '\t' ++ (line.toList ++ Text.newline.toList)

theorem Writer.toList_text_addLine (w : Writer) (line : String) :
    (w.addLine line).text.toList = w.text.toList ++ lineChars w.level line := by
  simp [addLine, newline, tabs, lineChars]

theorem Writer.toList_text_addLines (w : Writer) (lines : List String) :
    (w.addLines lines).text.toList = w.text.toList ++ lines.flatMap (lineChars w.level) := by
  induction lines generalizing w with
  | nil => simp [addLines]
  | cons line rest ih =>
      have h := ih (w.addLine line)
      rw [level_addLine, toList_text_addLine] at h
      rw [List.flatMap_cons, ← List.append_assoc]
      exact h

namespace Draft

/-! ## One step -/

/-- The characters that a step adds at a level. -/
def Step.written (slot : String → String) (level : Nat) : Step → List Char
  | .add text => text.toList
  | .addIndented text => List.replicate level '\t' ++ text.toList
  | .newline => Text.newline.toList
  | .indent => []
  | .dedent => []
  | .comment summary => (Summary.comment summary).flatMap (Writer.lineChars level)
  | .slot base => (slot base).toList

/-- The level behind a step. -/
def Step.levelAfter (level : Nat) : Step → Nat
  | .indent => level + 1
  | .dedent => level - 1
  | _ => level

theorem Step.toList_text_write (slot : String → String) (w : Writer) (step : Step) :
    (step.write slot w).text.toList = w.text.toList ++ step.written slot w.level := by
  cases step with
  | add text => simp [Step.write, Step.written]
  | addIndented text => simp [Step.write, Step.written, Writer.tabs]
  | newline => simp [Step.write, Step.written, Writer.newline]
  | indent => simp [Step.write, Step.written]
  | dedent => simp [Step.write, Step.written]
  | comment summary => exact Writer.toList_text_addLines w (Summary.comment summary)
  | slot base => simp [Step.write, Step.written]

theorem Step.level_write (slot : String → String) (w : Writer) (step : Step) :
    (step.write slot w).level = step.levelAfter w.level := by
  cases step with
  | comment summary => exact Writer.level_addComment w summary
  | _ => rfl

/-! ## A whole draft -/

/-- The characters that a draft adds at a level. -/
def written (slot : String → String) : Nat → Draft → List Char
  | _, [] => []
  | level, step :: rest => step.written slot level ++ written slot (step.levelAfter level) rest

/-- The level behind a draft. -/
def levelAfter (level : Nat) (draft : Draft) : Nat := draft.foldl Step.levelAfter level

@[simp] theorem written_nil (slot : String → String) (level : Nat) : written slot level [] = [] := rfl

@[simp] theorem written_cons (slot : String → String) (level : Nat) (step : Step) (rest : Draft) :
    written slot level (step :: rest)
      = step.written slot level ++ written slot (step.levelAfter level) rest := rfl

theorem written_append (slot : String → String) (level : Nat) (a b : Draft) :
    written slot level (a ++ b) = written slot level a ++ written slot (levelAfter level a) b := by
  induction a generalizing level with
  | nil => rfl
  | cons step rest ih =>
      rw [List.cons_append, written_cons, written_cons, ih, List.append_assoc]
      rfl

theorem levelAfter_append (level : Nat) (a b : Draft) :
    levelAfter level (a ++ b) = levelAfter (levelAfter level a) b := List.foldl_append

/-- A draft adds its characters to what a writer holds. -/
theorem toList_text_write (slot : String → String) (w : Writer) (draft : Draft) :
    (draft.write slot w).text.toList = w.text.toList ++ written slot w.level draft := by
  induction draft generalizing w with
  | nil => simp
  | cons step rest ih =>
      rw [write_cons, ih, Step.toList_text_write, Step.level_write, written_cons,
        List.append_assoc]

theorem level_write (slot : String → String) (w : Writer) (draft : Draft) :
    (draft.write slot w).level = levelAfter w.level draft := by
  induction draft generalizing w with
  | nil => rfl
  | cons step rest ih =>
      rw [write_cons, ih, Step.level_write]
      rfl

theorem toList_text (slot : String → String) (draft : Draft) :
    (draft.text slot).toList = written slot 0 draft := by
  rw [text, toList_text_write]
  rfl

theorem infix_flatMap {α : Type} (f : α → Draft) {xs : List α} {x : α} (h : x ∈ xs) :
    f x <:+: xs.flatMap f := by
  obtain ⟨front, behind, rfl⟩ := List.append_of_mem h
  rw [List.flatMap_append, List.flatMap_cons, ← List.append_assoc]
  exact List.infix_append _ _ _

/-- A part of a draft writes a part of what the draft writes. -/
theorem exists_written_infix (slot : String → String) {part draft : Draft} (h : part <:+: draft)
    (level : Nat) : ∃ start, written slot start part <:+: written slot level draft := by
  obtain ⟨front, behind, rfl⟩ := h
  refine ⟨levelAfter level front, ?_⟩
  rw [written_append, written_append]
  exact List.infix_append _ _ _

/-! ## Slots -/

/-- The base that a slot is for. -/
def Step.slot? : Step → Option String
  | .slot base => some base
  | _ => none

/-- The bases that the slots of a draft are for, in order. -/
def slots (draft : Draft) : List String := draft.filterMap Step.slot?

@[simp] theorem slots_append (a b : Draft) : slots (a ++ b) = slots a ++ slots b :=
  List.filterMap_append

/-- What a draft writes depends only on what its own slots hold. -/
theorem written_congr {slot slot' : String → String} {draft : Draft}
    (h : ∀ base ∈ draft.slots, slot base = slot' base) (level : Nat) :
    written slot level draft = written slot' level draft := by
  induction draft generalizing level with
  | nil => rfl
  | cons step rest ih =>
      have hstep : step.written slot level = step.written slot' level := by
        cases step with
        | slot base =>
            have hbase : slot base = slot' base := h base (by simp [slots, Step.slot?])
            rw [Step.written, Step.written, hbase]
        | _ => rfl
      have hrest : ∀ base ∈ slots rest, slot base = slot' base := by
        intro base hbase
        refine h base ?_
        obtain ⟨s, hs, hslot⟩ := List.mem_filterMap.mp hbase
        exact List.mem_filterMap.mpr ⟨s, by simp [hs], hslot⟩
      rw [written_cons, written_cons, hstep, ih hrest]

/-! ## Lines -/

theorem written_line (slot : String → String) (level : Nat) (text : String) :
    written slot level (line text) = Writer.lineChars level text := by
  simp [line, Step.written, Step.levelAfter, Writer.lineChars]

end Draft

end Typings
