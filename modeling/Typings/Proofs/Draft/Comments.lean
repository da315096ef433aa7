import Typings.Proofs.Draft.Written
import Typings.Proofs.Layout

/-!
# The comments of a draft

A draft writes its comments between everything else. Where each comment starts a line of its
own, the comments can be taken out of what is written, and also out of its layout: what is left
is what the same draft writes when all its summaries are dropped.

## Main definitions

* `Text.Without` — a text, some parts of it, and what is left without them.
* `Draft.comments` — the comments of a draft, each with its level.
* `Draft.bare` — the draft with all summaries dropped.
* `Draft.Lined` — each comment of a draft starts a line.

## Main results

* `Draft.lined_append` — drafts one behind the other.
* `Draft.without_comments` — the layout of a draft without the layouts of its comments.
-/

namespace Typings

/-- A text without some parts of it. The parts stand in the text one behind the other. -/
inductive Text.Without : List (List Char) → List Char → List Char → Prop where
  /-- No part is taken out. -/
  | none (rest : List Char) : Without [] rest rest
  /-- What is in front of the first part stays, and the other parts are behind it. -/
  | part (before part : List Char) {parts : List (List Char)} {text rest : List Char}
      (h : Without parts text rest) :
      Without (part :: parts) (before ++ (part ++ text)) (before ++ rest)

/-- Nothing is added and the order stays. -/
theorem Text.Without.sublist {parts : List (List Char)} {text rest : List Char}
    (h : Text.Without parts text rest) : rest.Sublist text := by
  induction h with
  | none rest => exact List.Sublist.refl rest
  | part before part _ ih =>
      exact (ih.trans (List.sublist_append_right part _)).append_left before

/-- Without empty parts a text is what it was. -/
theorem Text.Without.eq_of_empty {parts : List (List Char)} {text rest : List Char}
    (h : Text.Without parts text rest) (hparts : ∀ part ∈ parts, part = []) : rest = text := by
  induction h with
  | none rest => rfl
  | part before part _ ih =>
      rw [ih fun other hother => hparts other (by simp [hother]), hparts part (by simp),
        List.nil_append]

/-- The characters of the block comment for a summary at a level. -/
def Writer.commentChars (level : Nat) (summary : Option String) : List Char :=
  (Summary.comment summary).flatMap (lineChars level)

namespace Draft

/-! ## Taking comments out of a draft -/

/-- The comments of a draft that starts at a level: the level and the summary of each. -/
def comments : Nat → Draft → List (Nat × Option String)
  | _, [] => []
  | level, .comment summary :: rest => (level, summary) :: comments level rest
  | level, step :: rest => comments (step.levelAfter level) rest

/-- A step without its summary. -/
def Step.bare : Step → Step
  | .comment _ => .comment none
  | step => step

/-- A draft without its summaries. -/
def bare (draft : Draft) : Draft := draft.map Step.bare

@[simp] theorem bare_append (a b : Draft) : bare (a ++ b) = bare a ++ bare b := List.map_append

@[simp] theorem bare_bare (a : Draft) : bare (bare a) = bare a := by
  rw [bare, bare, List.map_map]
  congr 1
  funext step
  cases step <;> rfl

theorem bare_flatMap {α : Type} (f : α → Draft) (xs : List α) :
    bare (xs.flatMap f) = xs.flatMap fun x => bare (f x) := List.map_flatMap

/-! ## Comments that start a line -/

/-- Whether a line starts behind a step. -/
def Step.startsLine (before : Bool) : Step → Bool
  | .newline => true
  | .indent | .dedent | .comment _ => before
  | .add _ | .addIndented _ | .slot _ => false

/-- Whether a line starts behind a draft. -/
def startsLine (before : Bool) (draft : Draft) : Bool := draft.foldl Step.startsLine before

/-- Each comment of a draft starts a line, given whether the draft itself does. -/
def Lined : Bool → Draft → Prop
  | _, [] => True
  | before, .comment _ :: rest => before = true ∧ Lined true rest
  | before, step :: rest => Lined (step.startsLine before) rest

theorem startsLine_append (before : Bool) (a b : Draft) :
    startsLine before (a ++ b) = startsLine (startsLine before a) b := List.foldl_append

theorem lined_append {before : Bool} {a b : Draft} (ha : a.Lined before)
    (hb : b.Lined (startsLine before a)) : (a ++ b).Lined before := by
  induction a generalizing before with
  | nil => exact hb
  | cons step rest ih =>
      cases step with
      | comment summary =>
          obtain ⟨rfl, hrest⟩ := ha
          exact ⟨rfl, ih hrest hb⟩
      | _ => exact ih ha hb

/-- Drafts that leave the start of a line where they find one can be put one behind the other. -/
theorem lined_flatMap {α : Type} {f : α → Draft} {xs : List α}
    (h : ∀ x ∈ xs, (f x).Lined true ∧ startsLine true (f x) = true) :
    Lined true (xs.flatMap f) ∧ startsLine true (xs.flatMap f) = true := by
  induction xs with
  | nil => exact ⟨trivial, rfl⟩
  | cons x rest ih =>
      obtain ⟨hx, hstart⟩ := h x (by simp)
      obtain ⟨hrest, hend⟩ := ih fun y hy => h y (by simp [hy])
      rw [List.flatMap_cons, startsLine_append, hstart]
      exact ⟨lined_append hx (by rwa [hstart]), hend⟩

/-! ## Taking comments out of the layout -/

/-- Whole lines do not end inside a line break. -/
theorem getLast?_lines (level : Nat) (lines : List String) :
    (lines.flatMap (Writer.lineChars level)).getLast? ≠ some '\r' := by
  induction lines with
  | nil => simp
  | cons line rest ih =>
      have hline : (Writer.lineChars level line).getLast? = some '\n' := by
        simp [Writer.lineChars, List.getLast?_append, Text.newline]
      rw [List.flatMap_cons, List.getLast?_append, hline]
      cases hrest : (rest.flatMap (Writer.lineChars level)).getLast? with
      | none => simp
      | some c => simpa [hrest] using ih

/-- **The layout of a draft without its comments.** What is left is the layout of the bare
draft. In front of the draft stands a text that does not end inside a line break if a line
starts there. -/
theorem without_comments (o : Options) (slot : String → String) {draft : Draft} {start : Bool}
    (hlined : draft.Lined start) (level : Nat) (front : List Char)
    (hfront : start = true → front.getLast? ≠ some '\r') :
    Text.Without
      ((comments level draft).map fun comment =>
        o.layOut (Writer.commentChars comment.1 comment.2))
      (o.layOut (front ++ written slot level draft))
      (o.layOut (front ++ written slot level draft.bare)) := by
  induction draft generalizing level front start with
  | nil => exact .none _
  | cons step rest ih =>
      -- A step that is no comment goes to the text in front.
      have hstep (hstart : step.startsLine start = true →
            (front ++ step.written slot level).getLast? ≠ some '\r')
          (hrest : Lined (step.startsLine start) rest) (hbare : step.bare = step)
          (hcomments : comments level (step :: rest) = comments (step.levelAfter level) rest) :
          Text.Without
            ((comments level (step :: rest)).map fun comment =>
              o.layOut (Writer.commentChars comment.1 comment.2))
            (o.layOut (front ++ written slot level (step :: rest)))
            (o.layOut (front ++ written slot level (bare (step :: rest)))) := by
        have h := ih hrest (step.levelAfter level) (front ++ step.written slot level) hstart
        have hcons : bare (step :: rest) = step :: bare rest := by
          rw [bare, List.map_cons, hbare, bare]
        rw [hcomments, hcons, written_cons, written_cons, ← List.append_assoc,
          ← List.append_assoc]
        exact h
      cases step with
      | comment summary =>
          obtain ⟨hstart, hrest⟩ := hlined
          have hlast := hfront hstart
          have h := ih hrest level [] (by simp)
          rw [List.nil_append, List.nil_append] at h
          have hcomment : o.layOut (front ++ written slot level (.comment summary :: rest))
              = o.layOut front ++ (o.layOut (Writer.commentChars level summary)
                ++ o.layOut (written slot level rest)) := by
            rw [written_cons, Options.layOut_append fun e => absurd e hlast]
            congr 1
            exact Options.layOut_append fun e => absurd e (getLast?_lines level _)
          have hbare : o.layOut (front ++ written slot level (bare (.comment summary :: rest)))
              = o.layOut front ++ o.layOut (written slot level (bare rest)) :=
            Options.layOut_append fun e => absurd e hlast
          rw [hcomment, hbare]
          exact .part _ _ h
      | newline =>
          refine hstep (fun _ => ?_) hlined rfl rfl
          simp [Step.written, Text.newline, List.getLast?_append]
      | indent => exact hstep (by simpa [Step.written, Step.startsLine] using hfront) hlined rfl rfl
      | dedent => exact hstep (by simpa [Step.written, Step.startsLine] using hfront) hlined rfl rfl
      | add text => exact hstep (fun e => absurd e (by simp [Step.startsLine])) hlined rfl rfl
      | addIndented text =>
          exact hstep (fun e => absurd e (by simp [Step.startsLine])) hlined rfl rfl
      | slot base => exact hstep (fun e => absurd e (by simp [Step.startsLine])) hlined rfl rfl

end Draft

end Typings
