import Mathlib.Data.List.Basic
import Typings.Path.Basic
import Typings.Proofs.Text.Containment

/-!
# The steps of a path

What a path means is read off its pieces. Pieces come together when paths are joined, so the
meaning of a joined path follows from the meanings of its parts. This file says so for the
steps of a path, that is for all of its components but the start, and from that what it means
to take the last component of an absolute path away or to put another name in its place.

## Main definitions

* `Path.steps` — the components of a path behind its start.
* `Path.IsName`, `Component.IsStep` — what can be a component behind the start.
* `Path.directory` — the directory of a file.

## Main results

* `steps_join` — joining paths.
* `parent?_of_isAbsolute`, `steps_directory` — the path without its last component.
* `steps_withFileName` — another name in place of the last component.
-/

namespace Typings.Path

/-! ## Pieces -/

theorem notMem_of_mem_splitOn {sep : Char} {text piece : List Char}
    (h : piece ∈ text.splitOn sep) : sep ∉ piece := by
  induction text generalizing piece with
  | nil =>
      rw [List.splitOn_nil, List.mem_singleton] at h
      rw [h]
      exact List.not_mem_nil
  | cons c rest ih =>
      rw [List.splitOn_cons_eq_if_modifyHead] at h
      by_cases hc : c = sep
      · rw [if_pos (by simpa using hc)] at h
        rcases List.mem_cons.mp h with rfl | h
        · exact List.not_mem_nil
        · exact ih h
      · rw [if_neg (by simpa using hc)] at h
        cases hrest : rest.splitOn sep with
        | nil => exact absurd hrest (List.splitOn_ne_nil sep rest)
        | cons first others =>
            rw [hrest, List.modifyHead_cons] at h
            rcases List.mem_cons.mp h with rfl | h
            · have hfirst : sep ∉ first := ih (by simp [hrest])
              exact fun hm => (List.mem_cons.mp hm).elim (fun e => hc e.symm) hfirst
            · exact ih (by simp [hrest, h])

theorem notMem_of_mem_segments {p : Path} {piece : String} (h : piece ∈ p.segments) :
    '/' ∉ piece.toList := by
  obtain ⟨chars, hchars, rfl⟩ := List.mem_map.mp h
  rw [String.toList_ofList]
  exact notMem_of_mem_splitOn hchars

/-- The characters of a text are characters of all that it is put together to. -/
theorem subset_intercalate {separator text : String} {texts : List String} (h : text ∈ texts) :
    text.toList ⊆ (separator.intercalate texts).toList := by
  induction texts with
  | nil => cases h
  | cons first rest ih =>
      cases rest with
      | nil =>
          rw [List.mem_singleton.mp h]
          exact List.Subset.refl _
      | cons next others =>
          rw [String.intercalate_cons_cons, String.toList_append, String.toList_append]
          rcases List.mem_cons.mp h with rfl | h
          · exact List.Subset.trans (List.subset_append_left _ _) (List.subset_append_left _ _)
          · exact List.subset_append_of_subset_right _ (ih h)

theorem subset_text_of_mem_segments {p : Path} {piece : String} (h : piece ∈ p.segments) :
    piece.toList ⊆ p.text.toList := by
  rw [← intercalate_segments p]
  exact subset_intercalate h

theorem segments_append (a b : String) :
    segments ⟨a ++ "/" ++ b⟩ = segments ⟨a⟩ ++ segments ⟨b⟩ := by
  have htext : (a ++ "/" ++ b).toList = a.toList ++ '/' :: b.toList := by simp
  rw [segments, htext, List.splitOn_append_cons_self, List.map_append]
  rfl

theorem segments_of_notMem {text : String} (h : '/' ∉ text.toList) : segments ⟨text⟩ = [text] := by
  rw [segments, List.splitOn_eq_singleton h]
  simp

/-! ## Steps -/

/-- What can be the name of a component. -/
structure IsName (name : String) : Prop where
  /-- It holds no separator. -/
  whole : '/' ∉ name.toList
  /-- It means something. -/
  meant : isIdle name = false
  /-- It is no step up. -/
  proper : name ≠ ".."

/-- A text without separators is a name if it holds anything but dots. -/
theorem isName_of_mem {name : String} {c : Char} (hmem : c ∈ name.toList) (hc : c ≠ '.')
    (hwhole : '/' ∉ name.toList) : IsName name where
  whole := hwhole
  meant := by
    rw [isIdle, Bool.or_eq_false_iff, decide_eq_false_iff_not, decide_eq_false_iff_not]
    constructor
    · rintro rfl
      simp at hmem
    · rintro rfl
      simp [hc] at hmem
  proper := by
    rintro rfl
    simp [hc] at hmem

/-- What can be a component behind the start of a path: a step up or a name. -/
def Component.IsStep : Component → Prop
  | .parent => True
  | .name text => IsName text
  | _ => False

/-- The components of a path behind its start. -/
def steps (p : Path) : List Component := p.segments.filterMap pieceComponent?

theorem pieceComponent?_of_isName {name : String} (h : IsName name) :
    pieceComponent? name = some (.name name) := by
  rw [pieceComponent?, h.meant, if_neg Bool.false_ne_true, if_neg h.proper]

/-- A piece stands for a step. -/
theorem isStep_of_pieceComponent? {piece : String} {c : Component} (hpiece : '/' ∉ piece.toList)
    (h : pieceComponent? piece = some c) : c.IsStep := by
  rw [pieceComponent?] at h
  split at h
  · cases h
  · rename_i hidle
    split at h
    · cases h
      trivial
    · rename_i hup
      cases h
      exact ⟨hpiece, by simpa using hidle, hup⟩

theorem isStep_of_mem_steps {p : Path} {c : Component} (h : c ∈ p.steps) : c.IsStep := by
  obtain ⟨piece, hpiece, hc⟩ := List.mem_filterMap.mp h
  exact isStep_of_pieceComponent? (notMem_of_mem_segments hpiece) hc

/-- A step that is no step up is a name. -/
theorem exists_name_of_isStep {c : Component} (h : c.IsStep) (hup : c ≠ .parent) :
    ∃ name, c = .name name := by
  cases c with
  | root => exact h.elim
  | current => exact h.elim
  | parent => exact absurd rfl hup
  | name text => exact ⟨text, rfl⟩

/-- A step is spelled as the piece that it stands for. -/
theorem text_of_pieceComponent? {piece : String} {c : Component}
    (h : pieceComponent? piece = some c) : c.text = piece := by
  rw [pieceComponent?] at h
  split at h
  · cases h
  · split at h
    · rename_i hparent
      cases h
      exact hparent.symm
    · cases h
      rfl

/-- A step of a path is spelled in the path. -/
theorem text_subset_of_mem_steps {p : Path} {c : Component} (h : c ∈ p.steps) :
    c.text.toList ⊆ p.text.toList := by
  obtain ⟨piece, hpiece, hc⟩ := List.mem_filterMap.mp h
  rw [text_of_pieceComponent? hc]
  exact subset_text_of_mem_segments hpiece

theorem steps_append (a b : String) : steps ⟨a ++ "/" ++ b⟩ = steps ⟨a⟩ ++ steps ⟨b⟩ := by
  rw [steps, segments_append, List.filterMap_append]
  rfl

/-- A step is the only step of its own spelling. -/
theorem steps_of_isStep {c : Component} (h : c.IsStep) : steps ⟨c.text⟩ = [c] := by
  cases c with
  | root => exact h.elim
  | current => exact h.elim
  | parent => decide +kernel
  | name text =>
      show steps ⟨text⟩ = _
      rw [steps, segments_of_notMem h.whole, List.filterMap_cons_some (pieceComponent?_of_isName h)]
      rfl

theorem isAbsolute_of_notMem {name : String} (hwhole : '/' ∉ name.toList) :
    isAbsolute ⟨name⟩ = false := by
  rw [isAbsolute, beq_eq_false_iff_ne]
  exact fun hhead => hwhole (List.mem_of_mem_head? hhead)

theorem notMem_text_of_isStep {c : Component} (h : c.IsStep) : '/' ∉ c.text.toList := by
  cases c with
  | root => exact h.elim
  | current => exact h.elim
  | parent => decide
  | name text => exact h.whole

theorem isAbsolute_of_isStep {c : Component} (h : c.IsStep) : isAbsolute ⟨c.text⟩ = false :=
  isAbsolute_of_notMem (notMem_text_of_isStep h)

/-! ## Joined paths -/

theorem steps_join {p q : Path} (hq : q.isAbsolute = false) :
    (p.join q).steps = p.steps ++ q.steps := by
  rw [join, hq, if_neg Bool.false_ne_true]
  split
  · rename_i hend
    rw [Bool.or_eq_true, decide_eq_true_eq, beq_iff_eq] at hend
    rcases hend with hempty | hslash
    · have hp : p = ⟨""⟩ := congrArg Path.mk hempty
      rw [hp]
      show steps ⟨"" ++ q.text⟩ = _
      rw [String.empty_append]
      rfl
    · -- The separator is there already.
      obtain ⟨front, hfront⟩ : ∃ front, p.text.toList = front ++ ['/'] :=
        (List.getLast?_eq_some_iff).mp hslash
      have hp : p.text = String.ofList front ++ "/" := by
        rw [← String.toList_inj, hfront]
        simp
      have hnothing : steps ⟨""⟩ = [] := by decide +kernel
      have hleft : p.steps = steps ⟨String.ofList front⟩ := by
        have h := steps_append (String.ofList front) ""
        rw [String.append_empty, ← hp, hnothing, List.append_nil] at h
        exact h
      rw [hp, hleft, steps_append]
  · exact steps_append p.text q.text

theorem isAbsolute_join {p q : Path} (hp : p.isAbsolute = true) : (p.join q).isAbsolute = true := by
  rw [join]
  split
  · assumption
  · rw [isAbsolute, beq_iff_eq] at hp
    split <;> simp [isAbsolute, hp]

/-- The pieces of an absolute path: nothing in front of the first separator, and what is behind
it. -/
theorem exists_split_of_isAbsolute {p : Path} (h : p.isAbsolute = true) :
    ∃ pieces, p.segments = "" :: pieces ∧ p.split = (.root, pieces) := by
  obtain ⟨rest, hrest⟩ : ∃ rest, p.text.toList = '/' :: rest := by
    rw [isAbsolute, beq_iff_eq] at h
    exact ⟨_, List.eq_cons_of_mem_head? h⟩
  have hsegments : p.segments = "" :: (rest.splitOn '/').map String.ofList := by
    rw [segments, hrest, List.splitOn_cons_eq_if_modifyHead]
    simp
  have hne : (rest.splitOn '/').map String.ofList ≠ [] := by
    simp [List.splitOn_ne_nil]
  refine ⟨_, hsegments, ?_⟩
  rw [split, hsegments]
  exact if_neg hne

/-- An absolute path means the root and its steps. -/
theorem components_of_isAbsolute {p : Path} (h : p.isAbsolute = true) :
    p.components = .root :: p.steps := by
  obtain ⟨pieces, hsegments, hsplit⟩ := exists_split_of_isAbsolute h
  have hidle : pieceComponent? "" = none := by decide
  rw [components, hsplit, steps, hsegments, List.filterMap_cons_none hidle]
  rfl

/-! ## Without the last component -/

/-- Idle pieces at the end mean nothing. -/
theorem filterMap_dropEndWhile (pieces : List String) :
    (Text.dropEndWhile isIdle pieces).filterMap pieceComponent?
      = pieces.filterMap pieceComponent? := by
  induction pieces using List.reverseRecOn with
  | nil => rfl
  | append_singleton pieces piece ih =>
      rw [Text.dropEndWhile_append_singleton]
      split
      · rename_i hidle
        have hnone : pieceComponent? piece = none := by rw [pieceComponent?, if_pos hidle]
        rw [ih, List.filterMap_append, List.filterMap_cons_none hnone]
        exact (List.append_nil _).symm
      · rfl

/-- What is left without idle pieces at the end does not end with one. -/
theorem isIdle_of_dropEndWhile {pieces front : List String} {piece : String}
    (h : Text.dropEndWhile isIdle pieces = front ++ [piece]) : isIdle piece = false := by
  induction pieces using List.reverseRecOn with
  | nil => simp at h
  | append_singleton pieces last ih =>
      rw [Text.dropEndWhile_append_singleton] at h
      split at h
      · exact ih h
      · rename_i hidle
        obtain ⟨-, hlast⟩ := List.append_inj' h rfl
        rw [← List.singleton_inj.mp hlast]
        simpa using hidle

/-- Pieces that are put together are the pieces of the spelling. -/
theorem segments_intercalate {pieces : List String} (hne : pieces ≠ [])
    (h : ∀ piece ∈ pieces, '/' ∉ piece.toList) : segments ⟨"/".intercalate pieces⟩ = pieces := by
  have hparts : ∀ part ∈ pieces.map String.toList, '/' ∉ part := by
    intro part hpart
    obtain ⟨piece, hpiece, rfl⟩ := List.mem_map.mp hpart
    exact h piece hpiece
  have htext : ("/".intercalate pieces).toList = ['/'].intercalate (pieces.map String.toList) :=
    String.toList_intercalate
  rw [segments, htext, List.splitOn_intercalate '/' hparts (by simpa using hne), List.map_map]
  exact List.map_id'' (fun _ => String.ofList_toList) pieces

theorem steps_intercalate {pieces : List String} (h : ∀ piece ∈ pieces, '/' ∉ piece.toList) :
    steps ⟨"/".intercalate pieces⟩ = pieces.filterMap pieceComponent? := by
  by_cases hne : pieces = []
  · subst hne
    decide +kernel
  · rw [steps, segments_intercalate hne h]

/-- A piece that is not idle stands for a component. -/
theorem exists_pieceComponent? {piece : String} (h : isIdle piece = false) :
    ∃ c, pieceComponent? piece = some c := by
  rw [pieceComponent?, h, if_neg Bool.false_ne_true]
  split
  · exact ⟨_, rfl⟩
  · exact ⟨_, rfl⟩

/-- The last piece that means something is taken away, and what is idle in front of it. -/
theorem parent?_of_dropEndWhile {p : Path} {anchor : Anchor} {pieces front : List String}
    {piece : String} (hsplit : p.split = (anchor, pieces))
    (h : Text.dropEndWhile isIdle pieces = front ++ [piece]) :
    p.parent? = some (assemble anchor (Text.dropEndWhile isIdle front)) := by
  have hne : front ++ [piece] ≠ [] := by simp
  rw [parent?, hsplit]
  simp only [h]
  cases hcons : front ++ [piece] with
  | nil => exact absurd hcons hne
  | cons first others =>
      rw [← hcons, List.dropLast_concat]

/-- What is left of some pieces is a start of them. -/
theorem dropEndWhile_prefix_of_eq {pieces front : List String} {piece : String}
    (h : Text.dropEndWhile isIdle pieces = front ++ [piece]) :
    Text.dropEndWhile isIdle front <+: pieces := by
  have hall : front ++ [piece] <+: pieces := h ▸ Text.dropEndWhile_prefix _ _
  exact (Text.dropEndWhile_prefix _ _).trans ((List.prefix_append _ _).trans hall)

/-- The path without its last component. Only a path to the root has none. -/
theorem parent?_of_isAbsolute {p : Path} (h : p.isAbsolute = true) :
    (p.steps = [] ∧ p.parent? = none) ∨
      ∃ q, p.parent? = some q ∧ q.isAbsolute = true ∧ p.steps ≠ [] ∧
        q.steps = p.steps.dropLast := by
  obtain ⟨pieces, hsegments, hsplit⟩ := exists_split_of_isAbsolute h
  have hsteps : p.steps = (Text.dropEndWhile isIdle pieces).filterMap pieceComponent? := by
    rw [filterMap_dropEndWhile, steps, hsegments, List.filterMap_cons_none (by decide)]
  rcases List.eq_nil_or_concat (Text.dropEndWhile isIdle pieces) with hnil | ⟨front, piece, hkept⟩
  · left
    rw [hsteps, hnil]
    simp [parent?, hsplit, hnil]
  · right
    rw [List.concat_eq_append] at hkept
    -- The last piece that is left stands for the last step.
    obtain ⟨c, hc⟩ := exists_pieceComponent? (isIdle_of_dropEndWhile hkept)
    have hsteps : p.steps = front.filterMap pieceComponent? ++ [c] := by
      rw [hsteps, hkept, List.filterMap_append, List.filterMap_cons_some hc, List.filterMap_nil]
    have hwhole : ∀ piece ∈ Text.dropEndWhile isIdle front, '/' ∉ piece.toList := by
      intro other hother
      have hpieces : other ∈ pieces := (dropEndWhile_prefix_of_eq hkept).subset hother
      exact notMem_of_mem_segments (p := p) (by simp [hsegments, hpieces])
    refine ⟨_, parent?_of_dropEndWhile hsplit hkept, ?_, by simp [hsteps], ?_⟩
    · simp [assemble, isAbsolute]
    · have htext : assemble .root (Text.dropEndWhile isIdle front)
          = ⟨"" ++ "/" ++ "/".intercalate (Text.dropEndWhile isIdle front)⟩ := by
        rw [String.empty_append]
        rfl
      rw [htext, steps_append, steps_intercalate hwhole, filterMap_dropEndWhile, hsteps,
        List.dropLast_concat]
      rfl

/-- The directory of a file. A path to the root is its own directory. -/
def directory (p : Path) : Path := p.parent?.getD p

theorem isAbsolute_directory {p : Path} (h : p.isAbsolute = true) :
    p.directory.isAbsolute = true := by
  rw [directory]
  rcases parent?_of_isAbsolute h with ⟨-, hnone⟩ | ⟨q, hq, habsolute, -, -⟩
  · rw [hnone]
    exact h
  · rw [hq]
    exact habsolute

theorem steps_directory {p : Path} (h : p.isAbsolute = true) :
    p.directory.steps = p.steps.dropLast := by
  rw [directory]
  rcases parent?_of_isAbsolute h with ⟨hnil, hnone⟩ | ⟨q, hq, -, -, hsteps⟩
  · rw [hnone, hnil]
    exact hnil
  · rw [hq]
    exact hsteps

/-! ## Another name -/

theorem fileName?_of_isAbsolute {p : Path} (h : p.isAbsolute = true) :
    p.fileName? = match p.steps.getLast? with
      | some (.name text) => some text
      | _ => none := by
  rw [fileName?, components_of_isAbsolute h, List.getLast?_cons]
  cases p.steps.getLast? <;> rfl

/-- The file name of an absolute path is its last step. -/
theorem getLast?_steps_of_fileName? {p : Path} (h : p.isAbsolute = true) {name : String}
    (hname : p.fileName? = some name) : p.steps.getLast? = some (.name name) := by
  rw [fileName?_of_isAbsolute h] at hname
  split at hname
  · rename_i hlast
    rw [hlast, Option.some.inj hname]
  · cases hname

/-- Another name comes in place of the last one. -/
theorem steps_withFileName {p : Path} (h : p.isAbsolute = true)
    (hlast : p.steps.getLast? ≠ some .parent) {name : String} (hname : IsName name) :
    (p.withFileName name).isAbsolute = true ∧
      (p.withFileName name).steps = p.steps.dropLast ++ [.name name] := by
  have hstep : Component.IsStep (.name name) := hname
  have hrelative : isAbsolute ⟨name⟩ = false := isAbsolute_of_isStep (c := .name name) hstep
  have hown : steps ⟨name⟩ = [.name name] := steps_of_isStep (c := .name name) hstep
  rcases parent?_of_isAbsolute h with ⟨hnil, hnone⟩ | ⟨q, hq, habsolute, hne, hsteps⟩
  · have hfile : p.fileName? = none := by
      rw [fileName?_of_isAbsolute h, hnil]
      rfl
    rw [withFileName, hfile]
    refine ⟨isAbsolute_join h, ?_⟩
    rw [steps_join hrelative, hown, hnil]
    rfl
  · obtain ⟨old, hold⟩ : ∃ old, p.fileName? = some old := by
      obtain ⟨c, hc⟩ := Option.ne_none_iff_exists'.mp (mt List.getLast?_eq_none_iff.mp hne)
      have hmem : c ∈ p.steps := List.mem_of_getLast? hc
      obtain ⟨text, rfl⟩ := exists_name_of_isStep (isStep_of_mem_steps hmem) fun hup =>
        hlast (by rw [hc, hup])
      rw [fileName?_of_isAbsolute h, hc]
      exact ⟨text, rfl⟩
    rw [withFileName, hold, hq]
    refine ⟨isAbsolute_join habsolute, ?_⟩
    rw [steps_join hrelative, hown, hsteps]

end Typings.Path
