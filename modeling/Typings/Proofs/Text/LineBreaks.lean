import Typings.Proofs.Layout

/-!
# Line breaks in a text

The raw text of a file breaks its lines by a carriage return and a line feed, and so must every
part that is written into it. Whether a text does so is read off from left to right, and all that
is to be remembered is whether the last character was a carriage return. So it can be said of a
text in two parts, part by part, also where the cut lies inside a line break.

Two replacements make the finished text of the raw one. In a text with paired line breaks, the
first one takes away every carriage return; the second one leaves line breaks alone.

## Main definitions

* `OneLine` — a text without line breaks.
* `PairedFrom`, `Paired` — a text whose line breaks all consist of a carriage return and a line
  feed.

## Main results

* `pairedFrom_append_cons_iff` — cutting a text beside a character that breaks no line.
* `Paired.head?_of_return`, `Paired.getLast?_of_feed` — what stands beside the two characters.
* `Paired.notMem_replace_newline` — no carriage return is left behind.
* `PairedFrom.replace_tab`, `notMem_replace_tab` — tabs become blanks.
-/

namespace Typings.Text

/-! ## Texts without line breaks -/

/-- A text without line breaks. -/
def OneLine (text : List Char) : Prop := '\r' ∉ text ∧ '\n' ∉ text

instance (text : List Char) : Decidable (OneLine text) := inferInstanceAs (Decidable (_ ∧ _))

theorem OneLine.mono {text part : List Char} (h : OneLine text) (hpart : ∀ c ∈ part, c ∈ text) :
    OneLine part := ⟨fun hm => h.1 (hpart _ hm), fun hm => h.2 (hpart _ hm)⟩

theorem oneLine_append {a b : List Char} : OneLine (a ++ b) ↔ OneLine a ∧ OneLine b := by
  simp only [OneLine, List.mem_append, not_or]
  exact ⟨fun h => ⟨⟨h.1.1, h.2.1⟩, h.1.2, h.2.2⟩, fun h => ⟨⟨h.1.1, h.2.1⟩, h.1.2, h.2.2⟩⟩

theorem OneLine.append {a b : String} (ha : OneLine a.toList) (hb : OneLine b.toList) :
    OneLine (a ++ b).toList := by
  rw [String.toList_append]
  exact oneLine_append.mpr ⟨ha, hb⟩

theorem oneLine_cons {c : Char} {rest : List Char} :
    OneLine (c :: rest) ↔ (c ≠ '\r' ∧ c ≠ '\n') ∧ OneLine rest := by
  simp only [OneLine, List.mem_cons, not_or]
  exact ⟨fun h => ⟨⟨Ne.symm h.1.1, Ne.symm h.2.1⟩, h.1.2, h.2.2⟩,
    fun h => ⟨⟨Ne.symm h.1.1, h.2.1⟩, Ne.symm h.1.2, h.2.2⟩⟩

/-! ## Texts with paired line breaks -/

/-- A text whose line breaks all consist of a carriage return and a line feed, behind a character
of which it is said whether it is a carriage return. -/
inductive PairedFrom : Bool → List Char → Prop where
  | nil : PairedFrom false []
  | cons (c : Char) {rest : List Char} :
    PairedFrom (decide (c = '\r')) rest → PairedFrom (decide (c = '\n')) (c :: rest)

/-- A text whose line breaks all consist of a carriage return and a line feed. -/
def Paired (text : List Char) : Prop := PairedFrom false text

theorem pairedFrom_nil {pending : Bool} : PairedFrom pending [] ↔ pending = false :=
  ⟨fun h => by cases h; rfl, fun h => h ▸ .nil⟩

theorem pairedFrom_cons {pending : Bool} {c : Char} {rest : List Char} :
    PairedFrom pending (c :: rest)
      ↔ decide (c = '\n') = pending ∧ PairedFrom (decide (c = '\r')) rest :=
  ⟨fun h => by cases h with | cons _ hrest => exact ⟨rfl, hrest⟩, fun h => h.1 ▸ .cons c h.2⟩

theorem paired_nil : Paired [] := .nil

theorem paired_newline : Paired newline.toList := .cons '\r' (.cons '\n' .nil)

theorem pairedFrom_cons_of_inline {c : Char} (hreturn : c ≠ '\r') (hfeed : c ≠ '\n')
    {pending : Bool} {rest : List Char} :
    PairedFrom pending (c :: rest) ↔ pending = false ∧ Paired rest := by
  rw [pairedFrom_cons, decide_eq_false hreturn, decide_eq_false hfeed, eq_comm]
  exact Iff.rfl

theorem OneLine.paired {text : List Char} (h : OneLine text) : Paired text := by
  induction text with
  | nil => exact paired_nil
  | cons c rest ih =>
      obtain ⟨⟨hreturn, hfeed⟩, hrest⟩ := oneLine_cons.mp h
      exact (pairedFrom_cons_of_inline hreturn hfeed).mpr ⟨rfl, ih hrest⟩

theorem PairedFrom.append {pending : Bool} {a b : List Char} (ha : PairedFrom pending a)
    (hb : Paired b) : PairedFrom pending (a ++ b) := by
  induction ha with
  | nil => exact hb
  | cons c _ ih => exact .cons c ih

theorem Paired.append {a b : List Char} (ha : Paired a) (hb : Paired b) : Paired (a ++ b) :=
  PairedFrom.append ha hb

theorem paired_flatMap {α : Type} {f : α → List Char} {xs : List α} (h : ∀ x ∈ xs, Paired (f x)) :
    Paired (xs.flatMap f) := by
  induction xs with
  | nil => exact paired_nil
  | cons x rest ih =>
      obtain ⟨hx, hrest⟩ := List.forall_mem_cons.mp h
      rw [List.flatMap_cons]
      exact hx.append (ih hrest)

/-- **A character that breaks no line** stands between two texts of this kind. -/
theorem pairedFrom_append_cons_iff {c : Char} (hreturn : c ≠ '\r') (hfeed : c ≠ '\n')
    {pending : Bool} {a b : List Char} :
    PairedFrom pending (a ++ c :: b) ↔ PairedFrom pending a ∧ Paired b := by
  induction a generalizing pending with
  | nil => rw [List.nil_append, pairedFrom_cons_of_inline hreturn hfeed, pairedFrom_nil]
  | cons d rest ih => rw [List.cons_append, pairedFrom_cons, pairedFrom_cons, ih, and_assoc]

/-- Behind a part of a text it is known whether the last character is a carriage return. -/
theorem PairedFrom.behind {pending : Bool} {a b : List Char} (h : PairedFrom pending (a ++ b)) :
    PairedFrom (if a = [] then pending else decide (a.getLast? = some '\r')) b := by
  induction a generalizing pending with
  | nil => exact h
  | cons c rest ih =>
      have hrest := ih (pairedFrom_cons.mp h).2
      rw [if_neg (List.cons_ne_nil c rest)]
      cases rest with
      | nil => simpa using hrest
      | cons d others =>
          rw [if_neg (List.cons_ne_nil d others)] at hrest
          rw [List.getLast?_cons_cons]
          exact hrest

/-- A carriage return is followed by a line feed. -/
theorem Paired.head?_of_return {before behind : List Char}
    (h : Paired (before ++ '\r' :: behind)) : behind.head? = some '\n' := by
  obtain ⟨-, hbehind⟩ := pairedFrom_cons.mp (PairedFrom.behind h)
  rw [decide_eq_true rfl] at hbehind
  cases behind with
  | nil => exact absurd (pairedFrom_nil.mp hbehind) (by decide)
  | cons c rest => rw [List.head?_cons, of_decide_eq_true (pairedFrom_cons.mp hbehind).1]

/-- A line feed stands behind a carriage return. -/
theorem Paired.getLast?_of_feed {before behind : List Char}
    (h : Paired (before ++ '\n' :: behind)) : before.getLast? = some '\r' := by
  obtain ⟨hbefore, -⟩ := pairedFrom_cons.mp (PairedFrom.behind h)
  rw [decide_eq_true rfl] at hbefore
  split at hbefore
  · cases hbefore
  · exact of_decide_eq_true hbefore.symm

/-! ## Replacements -/

/-- **No carriage return is left behind** where each line break becomes a line feed. -/
theorem Paired.notMem_replace_newline {text : List Char} (h : Paired text) :
    '\r' ∉ replace newline.toList ['\n'] text := by
  have hnewline : newline.toList = ['\r', '\n'] := by decide
  have hne : newline.toList ≠ [] := by decide
  induction text using replace_induction hne with
  | nil => simp
  | taken rest ih =>
      rw [replace_append hne, List.mem_append, not_or]
      refine ⟨by decide, ih ?_⟩
      rw [hnewline, List.cons_append, List.cons_append] at h
      exact (pairedFrom_cons.mp (pairedFrom_cons.mp h).2).2
  | kept c rest hkept ih =>
      have hreturn : c ≠ '\r' := by
        rintro rfl
        have hstart : Paired ([] ++ '\r' :: rest) := h
        have hhead := hstart.head?_of_return
        obtain ⟨behind, rfl⟩ : ∃ behind, rest = '\n' :: behind := by
          cases rest with
          | nil => cases hhead
          | cons d behind => exact ⟨behind, by rw [Option.some.inj hhead]⟩
        exact hkept (by rw [hnewline]; exact ⟨behind, rfl⟩)
      obtain ⟨-, hrest⟩ := pairedFrom_cons.mp h
      rw [decide_eq_false hreturn] at hrest
      rw [replace_cons hkept, List.mem_cons, not_or]
      exact ⟨hreturn.symm, ih hrest⟩

/-- Blanks in place of tabs break no line. -/
theorem PairedFrom.replace_tab {width : Nat} {pending : Bool} {text : List Char}
    (h : PairedFrom pending text) :
    PairedFrom pending (replace ['\t'] (List.replicate width ' ') text) := by
  have hblanks : OneLine (List.replicate width ' ') := by
    constructor <;> simp [List.mem_replicate]
  rw [replace_singleton]
  induction text generalizing pending with
  | nil => exact h
  | cons c rest ih =>
      rw [List.flatMap_cons]
      by_cases htab : c = '\t'
      · rw [htab] at h
        obtain ⟨rfl, hrest⟩ := (pairedFrom_cons_of_inline (by decide) (by decide)).mp h
        rw [if_pos htab]
        exact PairedFrom.append hblanks.paired (ih hrest)
      · rw [if_neg htab]
        exact pairedFrom_cons.mpr ⟨(pairedFrom_cons.mp h).1, ih (pairedFrom_cons.mp h).2⟩

theorem notMem_replace_tab (width : Nat) (text : List Char) :
    '\t' ∉ replace ['\t'] (List.replicate width ' ') text := by
  rw [replace_singleton, List.mem_flatMap]
  rintro ⟨c, -, hc⟩
  split at hc
  · simp [List.mem_replicate] at hc
  · rename_i htab
    exact htab (List.mem_singleton.mp hc).symm

end Typings.Text
