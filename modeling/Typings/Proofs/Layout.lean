import Typings.Definitions
import Typings.Proofs.Text.Replacement

/-!
# Laying out a text part by part

The layout of a file is two replacements over the whole of its raw text. A tab is replaced by
itself, wherever it stands. A line break consists of two characters, so it may lie across the
place where two parts of a text meet. Where it does not, the parts can be laid out one by one.

## Main definitions

* `Options.layOut` — the layout of some characters.

## Main results

* `Options.layOut_append`, `Options.infix_layOut` — the layout of the parts of a text.
* `Options.not_infix_layOut` — what the layout cannot bring about as long as tabs do not vanish.
* `Options.exists_infix_of_infix_layOut` — what it comes from where they do.
-/

namespace Typings

namespace Text

theorem replace_singleton (c : Char) (written text : List Char) :
    replace [c] written text = text.flatMap fun x => if x = c then written else [x] := by
  induction text with
  | nil => rfl
  | cons x rest ih =>
      rw [List.flatMap_cons, ← ih]
      by_cases hx : x = c
      · rw [if_pos hx, hx]
        exact replace_append (List.cons_ne_nil c []) rest
      · rw [if_neg hx, List.singleton_append]
        exact replace_cons fun hp => hx (List.cons_prefix_cons.mp hp).1.symm

theorem replace_singleton_append (c : Char) (written a b : List Char) :
    replace [c] written (a ++ b) = replace [c] written a ++ replace [c] written b := by
  simp only [replace_singleton, List.flatMap_append]

/-- Where a replacement starts with a character that it does not write, the text starts with that
character behind a run of what is replaced. The run is empty unless nothing is written for it. -/
theorem exists_prefix_of_prefix_replaced {y t : Char} {written text : List Char}
    (hy : y ∉ written) (h : [y] <+: replace [t] written text) :
    ∃ k, List.replicate k t ++ [y] <+: text ∧ (written ≠ [] → k = 0) := by
  induction text with
  | nil => simp at h
  | cons c rest ih =>
      rw [replace_singleton, List.flatMap_cons, ← replace_singleton] at h
      by_cases hc : c = t
      · rw [if_pos hc] at h
        cases written with
        | nil =>
            obtain ⟨k, hk, -⟩ := ih h
            refine ⟨k + 1, ?_, fun hne => absurd rfl hne⟩
            rw [List.replicate_succ, hc]
            exact List.cons_prefix_cons.mpr ⟨rfl, hk⟩
        | cons w others =>
            exact absurd (List.cons_prefix_cons.mp h).1 (List.ne_of_not_mem_cons hy)
      · rw [if_neg hc] at h
        refine ⟨0, ?_, fun _ => rfl⟩
        rw [(List.cons_prefix_cons.mp h).1]
        exact List.cons_prefix_cons.mpr ⟨rfl, List.nil_prefix⟩

/-- Where a character vanishes, a pair comes together from its two and a run of that character
between them. -/
theorem exists_infix_of_infix_dropped {x y t : Char} {text : List Char}
    (h : [x, y] <:+: replace [t] [] text) :
    ∃ k, x :: (List.replicate k t ++ [y]) <:+: text := by
  induction text with
  | nil => simp [List.infix_nil] at h
  | cons c rest ih =>
      rw [replace_singleton, List.flatMap_cons, ← replace_singleton] at h
      by_cases hc : c = t
      · rw [if_pos hc, List.nil_append] at h
        obtain ⟨k, hk⟩ := ih h
        exact ⟨k, List.infix_cons hk⟩
      · rw [if_neg hc] at h
        rcases List.infix_cons_iff.mp h with hp | hi
        · obtain ⟨rfl, hy⟩ := List.cons_prefix_cons.mp hp
          obtain ⟨k, hk, -⟩ := exists_prefix_of_prefix_replaced List.not_mem_nil hy
          exact ⟨k, (List.cons_prefix_cons.mpr ⟨rfl, hk⟩).isInfix⟩
        · obtain ⟨k, hk⟩ := ih hi
          exact ⟨k, List.infix_cons hk⟩

/-- A pattern of two characters is replaced part by part if it does not lie across the place
where the parts meet. -/
theorem replace_pair_append {x y : Char} (written : List Char) {a b : List Char}
    (h : a.getLast? = some x → b.head? ≠ some y) :
    replace [x, y] written (a ++ b) = replace [x, y] written a ++ replace [x, y] written b := by
  induction a using replace_induction (List.cons_ne_nil x [y]) with
  | nil => rfl
  | taken rest ih =>
      have hlast : rest.getLast? = some x → b.head? ≠ some y := by
        intro hrest
        refine h ?_
        rw [List.getLast?_append, hrest, Option.some_or]
      rw [List.append_assoc, replace_append (List.cons_ne_nil x [y]),
        replace_append (List.cons_ne_nil x [y]), ih hlast, List.append_assoc]
  | kept c rest hkept ih =>
      have hstill : ¬ [x, y] <+: c :: (rest ++ b) := by
        intro hp
        obtain ⟨rfl, hy⟩ := List.cons_prefix_cons.mp hp
        cases rest with
        | nil =>
            -- The second character of the pattern would be the first one of the other part.
            obtain ⟨behind, hbehind⟩ := hy
            refine h rfl ?_
            rw [← List.nil_append b, ← hbehind]
            rfl
        | cons d rest =>
            refine hkept (List.cons_prefix_cons.mpr ⟨rfl, ?_⟩)
            exact List.cons_prefix_cons.mpr ⟨(List.cons_prefix_cons.mp hy).1, List.nil_prefix⟩
      have hlast : rest.getLast? = some x → b.head? ≠ some y := by
        intro hrest
        refine h ?_
        rw [List.getLast?_cons, hrest]
        rfl
      rw [List.cons_append, replace_cons hstill, replace_cons hkept, ih hlast, List.cons_append]

end Text

namespace Options

variable {o : Options}

/-- Some characters with the line endings and the indentation of the options. -/
def layOut (o : Options) (text : List Char) : List Char :=
  o.indent.apply (o.lineEnding.apply text)

theorem toList_normalize (o : Options) (text : String) :
    (o.normalize text).toList = o.layOut text.toList := String.toList_ofList

theorem layOut_append {a b : List Char} (h : a.getLast? = some '\r' → b.head? ≠ some '\n') :
    o.layOut (a ++ b) = o.layOut a ++ o.layOut b := by
  have hending : o.lineEnding.apply (a ++ b) = o.lineEnding.apply a ++ o.lineEnding.apply b := by
    cases o.lineEnding with
    | crlf => rfl
    | lf => exact Text.replace_pair_append ['\n'] h
  rw [layOut, hending, layOut, layOut]
  cases o.indent with
  | tab => rfl
  | spaces width => exact Text.replace_singleton_append '\t' _ _ _

/-- A part of a text is laid out as a part of the layout, unless a line break lies across one of
its ends. -/
theorem infix_layOut {part text : List Char} (h : part <:+: text) (hne : part ≠ [])
    (hhead : part.head? ≠ some '\n') (hlast : part.getLast? ≠ some '\r') :
    o.layOut part <:+: o.layOut text := by
  obtain ⟨front, behind, rfl⟩ := h
  have hmeet : (part ++ behind).head? ≠ some '\n' := by
    obtain ⟨c, rest, rfl⟩ := List.exists_cons_of_ne_nil hne
    exact hhead
  rw [List.append_assoc, layOut_append fun _ => hmeet, layOut_append fun e => absurd e hlast,
    ← List.append_assoc]
  exact List.infix_append _ _ _

/-- A character that is neither a tab nor a part of a line break stays. -/
theorem layOut_cons {c : Char} (htab : c ≠ '\t') (hreturn : c ≠ '\r') (rest : List Char) :
    o.layOut (c :: rest) = c :: o.layOut rest := by
  have hstart : ¬ Text.newline.toList <+: c :: rest := fun hp =>
    hreturn (List.cons_prefix_cons.mp hp).1.symm
  have hending : o.lineEnding.apply (c :: rest) = c :: o.lineEnding.apply rest := by
    cases o.lineEnding with
    | crlf => rfl
    | lf => exact Text.replace_cons hstart
  rw [layOut, hending, layOut]
  cases o.indent with
  | tab => rfl
  | spaces width =>
      exact Text.replace_cons fun hp => htab (List.cons_prefix_cons.mp hp).1.symm

/-- The end of a line as the options have it. -/
theorem layOut_newline (o : Options) :
    o.layOut Text.newline.toList
      = match o.lineEnding with
        | .crlf => ['\r', '\n']
        | .lf => ['\n'] := by
  rw [layOut]
  cases o.lineEnding <;> cases o.indent <;> simp [LineEnding.apply, Indentation.apply] <;> rfl

/-- Neither the line breaks of a layout nor the blanks in place of tabs complete a pattern that
holds none of them. Only where tabs vanish, what stands around a tab may come together. -/
theorem not_infix_layOut {pattern text : List Char} (hwidth : o.indent ≠ .spaces 0)
    (hbreak : '\n' ∉ pattern) (hblank : ' ' ∉ pattern) (h : ¬ pattern <:+: text) :
    ¬ pattern <:+: o.layOut text := by
  have hending : ¬ pattern <:+: o.lineEnding.apply text := by
    cases o.lineEnding with
    | crlf => exact h
    | lf => exact Text.not_infix_replace (by decide) (by decide) (by simpa using hbreak) h
  rw [layOut]
  cases hindent : o.indent with
  | tab => exact hending
  | spaces width =>
      have hne : width.toNat ≠ 0 := by
        intro hzero
        have hwidth' : width = 0 := UInt8.toNat_inj.mp hzero
        exact hwidth (by rw [hindent, hwidth'])
      refine Text.not_infix_replace (List.cons_ne_nil _ _) ?_ ?_ hending
      · rw [Ne, List.replicate_eq_nil_iff]
        exact hne
      · intro c hc
        rw [List.eq_of_mem_replicate hc]
        exact hblank

/-- Where tabs vanish, a pair comes together from its two and some tabs between them. -/
theorem exists_infix_of_infix_layOut {x y : Char} {text : List Char}
    (hwidth : o.indent = .spaces 0) (hbreak : '\n' ∉ [x, y]) (h : [x, y] <:+: o.layOut text) :
    ∃ k, x :: (List.replicate k '\t' ++ [y]) <:+: text := by
  rw [layOut, hwidth] at h
  obtain ⟨k, hk⟩ := Text.exists_infix_of_infix_dropped h
  refine ⟨k, ?_⟩
  cases hending : o.lineEnding with
  | crlf => rwa [hending] at hk
  | lf =>
      rw [hending] at hk
      by_contra hnone
      refine Text.not_infix_replace (by decide) (by decide) ?_ hnone hk
      intro c hc
      rw [List.mem_singleton.mp hc]
      simpa using hbreak

end Options

end Typings
