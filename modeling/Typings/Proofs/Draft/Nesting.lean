import Mathlib.Data.List.TakeWhile
import Typings.Proofs.Body.Breaks
import Typings.Proofs.Draft.Balance
import Typings.Proofs.Text.Nesting

/-!
# Drafts that nest and indent

Two things go up and down while a draft is written: the level of the writer, and the number of
braces that are open. They are not the same all the time. Behind a brace that opens the line is
ended before the writer goes one level down, and the writer comes up again before the brace is
closed. But wherever a line has been ended and the writer has followed, they agree.

So a draft is described by where it starts and where it ends: at the start of a line or in a line,
and with one more brace open or not. Reading what it writes then leads from the one place to the
other at every level, and drafts are put together where the places fit.

## Main definitions

* `Draft.marked` — what a draft writes, with its comments marked.
* `Draft.Place` — where a draft can start and end.
* `Draft.Nests` — a draft that leads from a place to another one.

## Main results

* `Draft.Nests.append` — drafts are put together.
* `Draft.nests_opening`, `Draft.nests_closing` — the ends of a block.
* `Draft.Nests.nested` — what such a draft writes nests and indents.
* `Draft.Balanced.levelAfter_pos` — a balanced draft does not go above the highest level.
-/

namespace Typings

open Text

/-! ## The lines of a comment -/

theorem Text.dropEndWhile_ne_nil {α : Type} {p : α → Bool} {xs : List α} {x : α} (h : x ∈ xs)
    (hx : p x = false) : dropEndWhile p xs ≠ [] := by
  intro hnil
  rw [dropEndWhile, List.reverse_eq_nil_iff, List.dropWhile_eq_nil_iff] at hnil
  rw [hnil x (List.mem_reverse.mpr h)] at hx
  cases hx

/-- The lines of a comment start with a blank or with a slash. -/
theorem Summary.exists_first_of_mem_comment {summary : Option String} {line : String}
    (h : line ∈ comment summary) :
    ∃ c rest, line.toList = c :: rest ∧ (c = ' ' ∨ c = '/') := by
  cases summary with
  | none => simp [comment] at h
  | some text =>
      rw [comment] at h
      split at h
      · simp at h
      · rcases List.mem_append.mp h with h | h
        · rcases List.mem_cons.mp h with rfl | h
          · exact ⟨'/', _, rfl, Or.inr rfl⟩
          · obtain ⟨given, -, rfl⟩ := List.mem_map.mp h
            have hprefix := dropEndWhile_prefix isBlank
              (" * ".toList ++ Text.replace "*/".toList "*\\/".toList given)
            have hne : Text.dropEndWhile isBlank
                (" * ".toList ++ Text.replace "*/".toList "*\\/".toList given) ≠ [] :=
              dropEndWhile_ne_nil (x := '*') (by simp) (by decide)
            obtain ⟨c, rest, hline⟩ := List.exists_cons_of_ne_nil hne
            rw [hline] at hprefix
            have hc : c = ' ' := (List.cons_prefix_cons.mp hprefix).1
            exact ⟨c, rest, by rw [commentLine, String.toList_ofList, trimEnd, hline], Or.inl hc⟩
        · rw [List.mem_singleton.mp h]
          exact ⟨' ', _, rfl, Or.inl rfl⟩

namespace Draft

/-! ## Marked drafts -/

/-- Whether a step writes a comment. -/
def Step.isComment : Step → Bool
  | .comment _ => true
  | _ => false

/-- What a draft writes at a level, with its comments marked. -/
def marked (slot : String → String) : Nat → Draft → List (Char × Bool)
  | _, [] => []
  | level, step :: rest =>
    mark step.isComment (step.written slot level) ++ marked slot (step.levelAfter level) rest

theorem marked_append (slot : String → String) (level : Nat) (a b : Draft) :
    marked slot level (a ++ b) = marked slot level a ++ marked slot (levelAfter level a) b := by
  induction a generalizing level with
  | nil => rfl
  | cons step rest ih =>
      rw [List.cons_append, marked, marked, ih, List.append_assoc]
      rfl

/-- Marking changes nothing in what is written. -/
theorem map_fst_marked (slot : String → String) (level : Nat) (draft : Draft) :
    (marked slot level draft).map (·.1) = written slot level draft := by
  induction draft generalizing level with
  | nil => rfl
  | cons step rest ih =>
      have hmark (comment : Bool) (text : List Char) : (mark comment text).map (·.1) = text := by
        rw [mark, List.map_map]
        exact List.map_id text
      rw [marked, List.map_append, ih, hmark, written_cons]

/-! ## Places -/

/-- Where a draft can start and end, with some braces more open than around it. -/
inductive Place where
  /-- At the start of a line. -/
  | start (deeper : Nat)
  /-- In a line. -/
  | inside (deeper : Nat)

/-- The level at a place. -/
def Place.level (around : Nat) : Place → Nat
  | .start deeper | .inside deeper => around + deeper

/-- What has been read up to a place. -/
def Place.cursor (around : Nat) : Place → Cursor
  | .start deeper => .start ((around + deeper : Nat) : Int)
  | .inside deeper => .inside ((around + deeper : Nat) : Int) false

/-- Reading what a draft writes leads from a place to another one. -/
def Nests (slot : String → String) (a : Place) (draft : Draft) (b : Place) : Prop :=
  ∀ around, levelAfter (a.level around) draft = b.level around ∧
    (a.cursor around).read (marked slot (a.level around) draft) = some (b.cursor around)

variable {slot : String → String} {a b c : Place} {x y : Draft}

theorem nests_nil : Nests slot a [] a := fun _ => ⟨rfl, rfl⟩

/-- **Drafts are put together** where the places fit. -/
theorem Nests.append (hx : Nests slot a x b) (hy : Nests slot b y c) : Nests slot a (x ++ y) c := by
  intro around
  obtain ⟨hlevel, hread⟩ := hx around
  obtain ⟨hlevel', hread'⟩ := hy around
  constructor
  · rw [levelAfter_append, hlevel, hlevel']
  · rw [marked_append, Cursor.read_append, hread, hlevel]
    exact hread'

theorem nests_flatMap {α : Type} {f : α → Draft} {xs : List α}
    (h : ∀ x ∈ xs, Nests slot a (f x) a) : Nests slot a (xs.flatMap f) a := by
  induction xs with
  | nil => exact nests_nil
  | cons x rest ih =>
      rw [List.flatMap_cons]
      exact (h x List.mem_cons_self).append (ih fun y hy => h y (List.mem_cons_of_mem _ hy))

/-- Whole lines can stand in a block. -/
theorem Nests.deeper (h : Nests slot (.start 0) x (.start 0)) :
    Nests slot (.start 1) x (.start 1) :=
  fun around => h (around + 1)

/-! ## Steps -/

theorem read_mark_inside (around : Nat) {text : List Char} (hline : OneLine text)
    (hmatched : Matched text) :
    (Cursor.inside around false).read (mark false text) = some (Cursor.inside around false) := by
  have houtside : outside (mark false text) = text := outside_mark false text
  rw [Cursor.read_inside hline, houtside, hmatched.2, Int.add_zero]
  rw [houtside]
  exact hmatched.above (by omega)

theorem nests_add {text : String} (hline : OneLine text.toList) (hmatched : Matched text.toList) :
    Nests slot (.inside 0) [.add text] (.inside 0) := by
  refine fun around => ⟨rfl, ?_⟩
  show (Cursor.inside (around : Nat) false).read (mark false text.toList ++ []) = _
  rw [List.append_nil, read_mark_inside around hline hmatched]
  rfl

theorem nests_slot {base : String} (hline : OneLine (slot base).toList)
    (hmatched : Matched (slot base).toList) :
    Nests slot (.inside 0) [.slot base] (.inside 0) := nests_add hline hmatched

theorem nests_addIndented {text : String} (h : Inline text.toList) (hne : text ≠ "") :
    Nests slot (.start 0) [.addIndented text] (.inside 0) := by
  refine fun around => ⟨rfl, ?_⟩
  obtain ⟨c, rest, htext⟩ := List.exists_cons_of_ne_nil (mt String.toList_eq_nil_iff.mp hne)
  have htab : c ≠ '\t' := fun e => h.untabbed (by simp [htext, e])
  have hbrace : c ≠ '\x7d' := Matched.head_ne (htext ▸ h.matched)
  show (Cursor.start (around : Nat)).read
    (mark false (List.replicate around '\t' ++ text.toList) ++ []) = _
  rw [List.append_nil, htext, Cursor.read_tabs htab (by simp [hbrace]), ← htext,
    read_mark_inside around h.oneLine h.matched]
  rfl

theorem nests_newline : Nests slot (.inside 0) [.newline] (.start 0) := by
  refine fun around => ⟨rfl, ?_⟩
  show (Cursor.inside (around : Nat) false).read (mark false newline.toList ++ []) = _
  rw [List.append_nil, Cursor.read_newline false (by omega)]
  rfl

theorem nests_line {text : String} (h : Inline text.toList) (hne : text ≠ "") :
    Nests slot (.start 0) (line text) (.start 0) := (nests_addIndented h hne).append nests_newline

/-- A comment is made of whole lines, and braces in it do not count. -/
theorem nests_comment (summary : Option String) :
    Nests slot (.start 0) [.comment summary] (.start 0) := by
  refine fun around => ⟨rfl, ?_⟩
  show (Cursor.start (around : Nat)).read
    (mark true ((Summary.comment summary).flatMap (Writer.lineChars around)) ++ []) = _
  have hlines : ∀ lines : List String, (∀ line ∈ lines, line ∈ Summary.comment summary) →
      (Cursor.start (around : Nat)).read (mark true (lines.flatMap (Writer.lineChars around)))
        = some (Cursor.start (around : Nat)) := by
    intro lines hall
    induction lines with
    | nil => rfl
    | cons line rest ih =>
        have hline : OneLine line.toList := Summary.oneLine_of_mem_comment (hall line (by simp))
        obtain ⟨c, cs, htext, hc⟩ := Summary.exists_first_of_mem_comment (hall line (by simp))
        have htab : c ≠ '\t' := by rcases hc with rfl | rfl <;> decide
        have hbrace : c ≠ '\x7d' := by rcases hc with rfl | rfl <;> decide
        have houtside : outside (mark true line.toList) = [] := outside_mark true line.toList
        rw [List.flatMap_cons, mark_append, Cursor.read_append, Writer.lineChars, htext,
          List.cons_append, Cursor.read_tabs htab (by simp [hbrace]), ← List.cons_append, ← htext,
          mark_append, Cursor.read_append, Cursor.read_inside hline (by rw [houtside]; simp),
          houtside, depth_nil, Int.add_zero, Option.bind_some,
          Cursor.read_newline true (by omega), Option.bind_some]
        exact ih fun other hother => hall other (by simp [hother])
  rw [List.append_nil, hlines _ fun _ => id]
  rfl

/-! ## Blocks -/

/-- **A block opens**: the writer follows the brace when the line has been ended. -/
theorem nests_opening : Nests slot (.inside 0) [.add "\x7b", .newline, .indent] (.start 1) := by
  refine fun around => ⟨rfl, ?_⟩
  have hopen : outside (mark false "\x7b".toList) = ['\x7b'] := rfl
  have hdepth : depth ['\x7b'] = 1 := rfl
  show (Cursor.inside (around : Nat) false).read
    (mark false "\x7b".toList ++ (mark false newline.toList ++ [])) = _
  rw [List.append_nil, Cursor.read_append, Cursor.read_inside (by decide), hopen, hdepth,
    Option.bind_some, Cursor.read_newline false (by omega)]
  · rfl
  · rw [hopen, above_cons, above_nil, hdepth]
    omega

/-- **A block closes**: the writer comes up before the line with the brace. -/
theorem nests_closing : Nests slot (.start 1) [.dedent, .addIndented "\x7d"] (.inside 0) := by
  refine fun around => ⟨rfl, ?_⟩
  have hclose : outside (mark false ['\x7d']) = ['\x7d'] := rfl
  have hdepth : depth ['\x7d'] = -1 := rfl
  show (Cursor.start (around + 1 : Nat)).read
    (mark false [] ++ (mark false (List.replicate around '\t' ++ ['\x7d']) ++ [])) = _
  rw [List.append_nil, Cursor.read_append]
  show (Cursor.start (around + 1 : Nat)).read
    (mark false (List.replicate around '\t' ++ '\x7d' :: [])) = _
  rw [Cursor.read_tabs (by decide) (by simp), Cursor.read_inside (by decide), hclose, hdepth]
  · show some (Cursor.inside (((around + 1 : Nat) : Int) + -1) false)
      = some (Cursor.inside (around + 0 : Nat) false)
    congr 2
    omega
  · rw [hclose, above_cons, above_nil, hdepth]
    omega

/-- Some text at the start of a line can be written in two steps. -/
theorem nests_addIndented_append {text text' : String} :
    Nests slot a (.addIndented (text ++ text') :: x) b
      ↔ Nests slot a (.addIndented text :: .add text' :: x) b := by
  have hmarked (level : Nat) : marked slot level (.addIndented (text ++ text') :: x)
      = marked slot level (.addIndented text :: .add text' :: x) := by
    simp only [marked, Step.isComment, Step.written, Step.levelAfter, String.toList_append,
      mark_append, List.append_assoc]
  simp only [Nests, hmarked]
  rfl

/-- A line that opens a block. -/
theorem nests_openingLine {text : String} (h : Inline text.toList) (hne : text ≠ "") :
    Nests slot (.start 0) (line (text ++ "\x7b") ++ [.indent]) (.start 1) :=
  nests_addIndented_append.mpr ((nests_addIndented h hne).append nests_opening)

/-- A line that closes a block. -/
theorem nests_closingLine : Nests slot (.start 1) ([.dedent] ++ line "\x7d") (.start 0) :=
  nests_closing.append nests_newline

/-! ## Whole drafts -/

/-- **What is read as a whole nests and indents.** -/
theorem Nests.nested (h : Nests slot (.start 0) x (.start 0)) : Nested (marked slot 0 x) :=
  nested_of_read (h 0).2

theorem levelAfter_succ_le (level : Nat) (draft : Draft) :
    levelAfter (level + 1) draft ≤ levelAfter level draft + 1 := by
  have hmono : ∀ (draft : Draft) (l l' : Nat), l' ≤ l + 1 →
      levelAfter l' draft ≤ levelAfter l draft + 1 := by
    intro draft
    induction draft with
    | nil => exact fun _ _ h => h
    | cons step rest ih =>
        intro l l' h
        refine ih (step.levelAfter l) (step.levelAfter l') ?_
        cases step <;> simp only [Step.levelAfter] <;> omega
  exact hmono draft level (level + 1) (Nat.le_refl _)

/-- **A balanced draft does not go above the highest level**: at the highest level the writer is
never asked to come up. Otherwise it would end at the same level if it had started one level
deeper. -/
theorem Balanced.levelAfter_pos (h : x.Balanced) {front behind : Draft}
    (hx : x = front ++ .dedent :: behind) : 0 < levelAfter 0 front := by
  by_contra hzero
  have hfront : levelAfter 0 front = 0 := by omega
  have hdeeper : levelAfter 1 front ≤ 1 := by
    have hstep := levelAfter_succ_le 0 front
    rwa [hfront] at hstep
  have hdedent (level : Nat) : levelAfter level x
      = levelAfter (levelAfter level front - 1) behind := by
    rw [hx, levelAfter_append]
    rfl
  have hsame : levelAfter 1 x = levelAfter 0 x := by
    rw [hdedent, hdedent, hfront]
    congr 1
    omega
  rw [h 1, h 0] at hsame
  cases hsame

end Draft

end Typings
