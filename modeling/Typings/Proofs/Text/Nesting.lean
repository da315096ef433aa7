import Typings.Proofs.Text.Braces

/-!
# Texts that nest and indent

In a text some lines are comments. Outside of the comments braces open and close, and each line,
those of the comments included, should be indented by as many tabs as braces are open where it
starts, or by one less if the line itself starts with a brace that closes.

To see whether a text is like this, one character after the other is read. What is to be remembered
is how many braces are open, and of the line that is read whether it has begun, how many tabs it
has if there is nothing else on it yet, and whether it belongs to a comment. Reading stops at the
first character that is not right. A text that is put together from parts is read part by part.

## Main definitions

* `mark`, `outside` — a text with its comments marked, and what is outside of them.
* `Nested` — a text that nests and indents.
* `Cursor`, `read` — reading a text.

## Main results

* `read_append` — reading a text part by part.
* `read_tabs`, `read_inside`, `read_newline` — reading the parts of a line.
* `nested_of_read` — a text that can be read to its end nests and indents.
-/

namespace Typings.Text

/-! ## Marked texts -/

/-- A text, all of which belongs to a comment or none of it. -/
def mark (comment : Bool) (text : List Char) : List (Char × Bool) := text.map (·, comment)

theorem mark_append (comment : Bool) (a b : List Char) :
    mark comment (a ++ b) = mark comment a ++ mark comment b := List.map_append

/-- What is outside of comments. -/
def outside (text : List (Char × Bool)) : List Char := (text.filter (!·.2)).map (·.1)

@[simp] theorem outside_append (a b : List (Char × Bool)) :
    outside (a ++ b) = outside a ++ outside b := by
  rw [outside, List.filter_append, List.map_append]
  rfl

theorem outside_mark (comment : Bool) (text : List Char) :
    outside (mark comment text) = if comment then [] else text := by
  induction text with
  | nil => cases comment <;> rfl
  | cons c rest ih =>
      have hcons : outside (mark comment (c :: rest))
          = outside [(c, comment)] ++ outside (mark comment rest) := outside_append [_] _
      rw [hcons, ih]
      cases comment <;> rfl

/-- Whether a line starts behind a text. -/
def EndsLine (text : List (Char × Bool)) : Prop := ∀ c ∈ text.getLast?, c.1 = '\n'

/-- How many tabs a text starts with. -/
def tabs (text : List (Char × Bool)) : Nat := (text.takeWhile (·.1 = '\t')).length

/-- Whether a brace that closes is the first character of a text behind its tabs. -/
def startsClosing (text : List (Char × Bool)) : Bool :=
  (text.dropWhile (·.1 = '\t')).head?.any (·.1 = '\x7d')

/-- A text that nests and indents. -/
structure Nested (text : List (Char × Bool)) : Prop where
  /-- A line belongs to a comment as a whole, or it does not belong to one at all. -/
  lines : ∀ front c d behind, text = front ++ c :: d :: behind → c.1 ≠ '\n' → c.2 = d.2
  /-- No brace is closed that is not open. -/
  nonneg : ∀ front, front <+: text → 0 ≤ depth (outside front)
  /-- In the end no brace is open. -/
  closed : depth (outside text) = 0
  /-- Each line is indented by the braces that are open where it starts, or by one less if it
  starts with a brace that closes. -/
  indented : ∀ front behind, text = front ++ behind → EndsLine front →
    (tabs behind : Int) = depth (outside front) - if startsClosing behind then 1 else 0

/-! ## Reading -/

/-- What is to be remembered of a text that has been read. -/
structure Cursor where
  /-- How many braces are open. -/
  opened : Int
  /-- How many tabs the line has, if there is nothing else on it yet. -/
  indentation : Option Nat
  /-- Whether the line belongs to a comment, if it has begun. -/
  comment : Option Bool
  deriving DecidableEq

namespace Cursor

/-- At the start of a line. -/
def start (opened : Int) : Cursor := ⟨opened, some 0, none⟩

/-- In a line, behind its indentation. -/
def inside (opened : Int) (comment : Bool) : Cursor := ⟨opened, none, some comment⟩

/-- Whether a character can stand behind the tabs of a line. -/
def isIndented (r : Cursor) (c : Char) : Bool :=
  r.indentation.all fun n => (n : Int) = r.opened - if c = '\x7d' then 1 else 0

/-- Read a character. -/
def next (r : Cursor) (c : Char × Bool) : Option Cursor :=
  let opened := r.opened + depth (outside [c])
  if r.comment = some !c.2 then none
  else if c.1 = '\t' ∧ r.indentation ≠ none then
    some ⟨opened, r.indentation.map (· + 1), some c.2⟩
  else if r.isIndented c.1 ∧ 0 ≤ opened then
    some (if c.1 = '\n' then start opened else inside opened c.2)
  else none

/-- Read a text. -/
def read (r : Cursor) (text : List (Char × Bool)) : Option Cursor := text.foldlM next r

@[simp] theorem read_nil (r : Cursor) : r.read [] = some r := rfl

/-- **A text is read part by part.** -/
theorem read_append (r : Cursor) (a b : List (Char × Bool)) :
    r.read (a ++ b) = (r.read a).bind (·.read b) := List.foldlM_append

/-! ## The parts of a line -/

theorem next_tab (d : Int) (n : Nat) (comment : Bool) {begun : Option Bool}
    (h : begun ≠ some !comment) :
    next ⟨d, some n, begun⟩ ('\t', comment) = some ⟨d, some (n + 1), some comment⟩ := by
  have hdepth : d + depth (outside [('\t', comment)]) = d := by
    cases comment <;> simp [outside, depth]
  rw [next, if_neg h, if_pos ⟨rfl, by simp⟩, hdepth]
  rfl

/-- Behind the tabs of a line anything else is read as in the line, if the tabs are right. -/
theorem next_indented {d : Int} {n : Nat} {comment : Bool} {begun : Option Bool} {c : Char}
    (h : begun ≠ some !comment) (hc : c ≠ '\t')
    (hn : (n : Int) = d - if c = '\x7d' then 1 else 0) :
    next ⟨d, some n, begun⟩ (c, comment) = next (inside d comment) (c, comment) := by
  have hindented : isIndented ⟨d, some n, begun⟩ c = true := by simpa [isIndented] using hn
  have hinside : isIndented (inside d comment) c = true := rfl
  have hsame : (inside d comment).comment ≠ some !comment := by cases comment <;> simp [inside]
  simp only [next, h, hsame, hc, hindented, hinside, if_false, false_and, true_and]
  rfl

theorem next_inside {d : Int} {comment : Bool} {c : Char}
    (h : 0 ≤ d + depth (outside [(c, comment)])) :
    (inside d comment).next (c, comment)
      = some (if c = '\n' then start (d + depth (outside [(c, comment)]))
        else inside (d + depth (outside [(c, comment)])) comment) := by
  have hsame : (inside d comment).comment ≠ some !comment := by cases comment <;> simp [inside]
  rw [next, if_neg hsame, if_neg (fun e => e.2 rfl), if_pos ⟨rfl, h⟩]
  rfl

/-- **The tabs of a line**: behind them the line is read. -/
theorem read_tabs {d : Int} {n : Nat} {comment : Bool} {c : Char} {rest : List Char}
    (hc : c ≠ '\t') (hn : (n : Int) = d - if c = '\x7d' then 1 else 0) :
    (start d).read (mark comment (List.replicate n '\t' ++ c :: rest))
      = (inside d comment).read (mark comment (c :: rest)) := by
  -- Some of the tabs may already have been read.
  have hgeneral (k m : Nat) (begun : Option Bool) (h : begun ≠ some !comment) (hm : k + m = n) :
      read ⟨d, some k, begun⟩ (mark comment (List.replicate m '\t' ++ c :: rest))
        = (inside d comment).read (mark comment (c :: rest)) := by
    induction m generalizing k begun with
    | zero =>
        show (next ⟨d, some k, begun⟩ (c, comment)).bind _ = _
        rw [next_indented h hc (by rw [← hn, ← hm, Nat.add_zero])]
        rfl
    | succ m ih =>
        show (next ⟨d, some k, begun⟩ ('\t', comment)).bind _ = _
        rw [next_tab d k comment h]
        exact ih (k + 1) (some comment) (by simp) (by omega)
  exact hgeneral 0 n none (by simp) (by omega)

/-- **What stands in a line** behind its tabs. -/
theorem read_inside {d : Int} {comment : Bool} {text : List Char} (hline : OneLine text)
    (habove : Above d (outside (mark comment text))) :
    (inside d comment).read (mark comment text)
      = some (inside (d + depth (outside (mark comment text))) comment) := by
  induction text generalizing d with
  | nil => simp [mark, outside]
  | cons c rest ih =>
      have hcons : outside (mark comment (c :: rest))
          = outside [(c, comment)] ++ outside (mark comment rest) := outside_append [_] _
      obtain ⟨⟨-, hc⟩, hrest⟩ := oneLine_cons.mp hline
      rw [hcons, above_append] at habove
      have hdepth : 0 ≤ d + depth (outside [(c, comment)]) := by
        simpa using above_iff.mp habove.2 [] List.nil_prefix
      show ((inside d comment).next (c, comment)).bind _ = _
      rw [next_inside hdepth, if_neg hc, hcons, depth_append, ← Int.add_assoc]
      exact ih hrest habove.2

/-- **The end of a line.** -/
theorem read_newline {d : Int} (comment : Bool) (hd : 0 ≤ d) :
    (inside d comment).read (mark comment newline.toList) = some (start d) := by
  have hreturn : depth (outside [('\r', comment)]) = 0 := by cases comment <;> rfl
  have hfeed : depth (outside [('\n', comment)]) = 0 := by cases comment <;> rfl
  have hnext : (inside d comment).next ('\r', comment) = some (inside d comment) := by
    rw [next_inside (by omega), if_neg (by decide), hreturn, Int.add_zero]
  have hlast : (inside d comment).next ('\n', comment) = some (start d) := by
    rw [next_inside (by omega), if_pos rfl, hfeed, Int.add_zero]
  show ((inside d comment).next ('\r', comment)).bind
    (fun r => (r.next ('\n', comment)).bind fun r => some r) = _
  rw [hnext, Option.bind_some, hlast, Option.bind_some]

/-! ## What has been read -/

/-- What can be said of a character that has been read. -/
structure Follows (r : Cursor) (c : Char × Bool) (s : Cursor) : Prop where
  /-- It belongs to a comment if the line that it stands on does. -/
  comment : r.comment ≠ some !c.2
  /-- Braces outside of comments are counted. -/
  opened : s.opened = r.opened + depth (outside [c])
  /-- The count does not fall below zero. -/
  nonneg : 0 ≤ r.opened → 0 ≤ s.opened
  /-- Behind it the line goes on, or another one starts. -/
  line : if c.1 = '\n' then s = start s.opened else s.comment = some c.2
  /-- It is one more tab, or the tabs in front of it are right. -/
  indented : ∀ n, r.indentation = some n →
    if c.1 = '\t' then s.indentation = some (n + 1)
    else (n : Int) = r.opened - if c.1 = '\x7d' then 1 else 0

theorem follows_of_next {r s : Cursor} {c : Char × Bool} (h : r.next c = some s) :
    Follows r c s := by
  obtain ⟨char, comment⟩ := c
  rw [next] at h
  split at h
  · cases h
  rename_i hcomment
  split at h
  · rename_i htab
    obtain ⟨rfl, -⟩ : char = '\t' ∧ r.indentation ≠ none := htab
    have hdepth : depth (outside [('\t', comment)]) = 0 := by cases comment <;> rfl
    obtain rfl := Option.some.inj h
    refine ⟨hcomment, rfl, fun hr => ?_, rfl, fun n hn => ?_⟩
    · show 0 ≤ r.opened + depth (outside [('\t', comment)])
      omega
    · show r.indentation.map (· + 1) = some (n + 1)
      rw [hn]
      rfl
  · rename_i htab
    split at h
    · rename_i hgood
      have hindented : ∀ n, r.indentation = some n →
          char ≠ '\t' ∧ (n : Int) = r.opened - if char = '\x7d' then 1 else 0 := by
        intro n hn
        refine ⟨fun e => htab ⟨e, by simp [hn]⟩, ?_⟩
        simpa [isIndented, hn] using hgood.1
      obtain rfl := Option.some.inj h
      refine ⟨hcomment, ?_, fun _ => ?_, ?_, fun n hn => ?_⟩
      · split <;> rfl
      · split <;> exact hgood.2
      · split <;> rfl
      · rw [if_neg (hindented n hn).1]
        exact (hindented n hn).2
    · cases h

theorem exists_of_read_append {r s : Cursor} {a b : List (Char × Bool)}
    (h : r.read (a ++ b) = some s) : ∃ m, r.read a = some m ∧ m.read b = some s := by
  rw [read_append] at h
  exact Option.bind_eq_some_iff.mp h

theorem opened_of_read {r s : Cursor} {text : List (Char × Bool)} (h : r.read text = some s) :
    s.opened = r.opened + depth (outside text) ∧ (0 ≤ r.opened → 0 ≤ s.opened) := by
  induction text generalizing r with
  | nil =>
      obtain rfl := Option.some.inj h
      exact ⟨(Int.add_zero _).symm, id⟩
  | cons c rest ih =>
      obtain ⟨m, hm, hrest⟩ := Option.bind_eq_some_iff.mp h
      have hc : Follows r c m := follows_of_next hm
      have hcons : outside (c :: rest) = outside [c] ++ outside rest := outside_append [_] _
      obtain ⟨hopened, hnonneg⟩ := ih hrest
      refine ⟨?_, fun hr => hnonneg (hc.nonneg hr)⟩
      rw [hopened, hc.opened, hcons, depth_append, Int.add_assoc]

theorem eq_start_of_read {d : Int} {s : Cursor} {text : List (Char × Bool)}
    (h : (start d).read text = some s) (hends : EndsLine text) : s = start s.opened := by
  rcases List.eq_nil_or_concat text with rfl | ⟨front, c, rfl⟩
  · obtain rfl := Option.some.inj h
    rfl
  · rw [List.concat_eq_append] at h hends
    obtain ⟨m, -, hlast⟩ := exists_of_read_append h
    obtain ⟨s', hnext, hs⟩ := Option.bind_eq_some_iff.mp hlast
    obtain rfl := Option.some.inj hs
    have hline := (follows_of_next hnext).line
    rwa [if_pos (hends c (by simp))] at hline

/-- The tabs of a line, some of which may have been read before. -/
theorem tabs_of_read {d : Int} {n : Nat} {begun : Option Bool} {text : List (Char × Bool)}
    (h : read ⟨d, some n, begun⟩ text = some (start 0)) :
    (n + tabs text : Int) = d - if startsClosing text then 1 else 0 := by
  induction text generalizing d n begun with
  | nil =>
      obtain ⟨rfl, rfl⟩ : d = 0 ∧ n = 0 := by
        injection h with h
        injection h with hd hn
        exact ⟨hd, Option.some.inj hn⟩
      rfl
  | cons c rest ih =>
      obtain ⟨⟨d', n', begun'⟩, hm, hrest⟩ := Option.bind_eq_some_iff.mp h
      have hc := (follows_of_next hm).indented n rfl
      by_cases htab : c.1 = '\t'
      · rw [if_pos htab] at hc
        obtain rfl : n' = some (n + 1) := hc
        have hopened : d' = d := by
          have hsum : d' = d + depth (outside [c]) := (follows_of_next hm).opened
          have hzero : depth (outside [c]) = 0 := by
            obtain ⟨char, comment⟩ := c
            obtain rfl : char = '\t' := htab
            cases comment <;> rfl
          rw [hsum, hzero, Int.add_zero]
        have htabs : tabs (c :: rest) = tabs rest + 1 := by simp [tabs, htab]
        have hclosing : startsClosing (c :: rest) = startsClosing rest := by
          simp [startsClosing, htab]
        rw [htabs, hclosing, ← hopened, ← ih hrest]
        omega
      · rw [if_neg htab] at hc
        have htabs : tabs (c :: rest) = 0 := by simp [tabs, htab]
        have hclosing : startsClosing (c :: rest) = decide (c.1 = '\x7d') := by
          simp [startsClosing, htab]
        rw [htabs, hclosing]
        simpa using hc

end Cursor

open Cursor

/-- **A text that can be read to its end nests and indents.** -/
theorem nested_of_read {text : List (Char × Bool)}
    (h : (Cursor.start 0).read text = some (Cursor.start 0)) : Nested text where
  lines front c d behind htext hc := by
    rw [htext] at h
    obtain ⟨r, -, hcd⟩ := exists_of_read_append h
    obtain ⟨s, hs, hd⟩ := Option.bind_eq_some_iff.mp hcd
    obtain ⟨t, ht, -⟩ := Option.bind_eq_some_iff.mp hd
    have hline := (follows_of_next hs).line
    have hsame := (follows_of_next ht).comment
    rw [if_neg hc] at hline
    rw [hline] at hsame
    by_contra hne
    exact hsame (congrArg some (Bool.eq_not_of_ne hne))
  nonneg front hfront := by
    obtain ⟨behind, rfl⟩ := hfront
    obtain ⟨s, hs, -⟩ := exists_of_read_append h
    obtain ⟨hdepth, hnonneg⟩ := opened_of_read hs
    have hstart : (Cursor.start 0).opened = 0 := rfl
    have hzero := hnonneg (by omega)
    omega
  closed := by
    have hdepth := (opened_of_read h).1
    have hstart : (Cursor.start 0).opened = 0 := rfl
    omega
  indented front behind htext hends := by
    rw [htext] at h
    obtain ⟨s, hs, hbehind⟩ := exists_of_read_append h
    have hdepth : s.opened = depth (outside front) := by
      rw [(opened_of_read hs).1]
      exact Int.zero_add _
    rw [eq_start_of_read hs hends, hdepth] at hbehind
    have htabs := tabs_of_read hbehind
    omega

end Typings.Text
