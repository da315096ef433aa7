import Typings.Proofs.Path.Resolution

/-!
# A name behind a path

A path to a file is a path to its directory with a name behind it. This holds wherever the path
starts, at the root, at a leading `.` or anywhere else, since the start of a path is spelled in
its first piece and a name only adds a piece at the end. So the directory and the name of a file
can be read off its components, and the path from the directory to the file is the name.

## Main results

* `components_eq_append_steps` — the start of a path and its steps.
* `components_join_name` — a name behind a path.
* `exists_parent?_of_fileName?` — a file is a name behind its directory.
* `components_withFileName` — another name behind the same directory.
* `relative_of_components` — the path from a directory to a file in it.
-/

namespace Typings.Path

/-! ## The start of a path -/

/-- The first piece of a path. -/
theorem head?_segments (p : Path) :
    (p.text = "" ∧ p.segments = [""]) ∨
      (p.isAbsolute = true ∧ p.segments.head? = some "") ∨
      (p.isAbsolute = false ∧ ∃ first rest, p.segments = first :: rest ∧ first ≠ "") := by
  cases htext : p.text.toList with
  | nil =>
      left
      refine ⟨by simpa using htext, ?_⟩
      rw [segments, htext]
      rfl
  | cons c rest =>
      right
      by_cases hc : c = '/'
      · left
        have habsolute : p.isAbsolute = true := by simp [isAbsolute, htext, hc]
        obtain ⟨pieces, hsegments, -⟩ := exists_split_of_isAbsolute habsolute
        exact ⟨habsolute, by rw [hsegments, List.head?_cons]⟩
      · right
        refine ⟨by simp [isAbsolute, htext, hc], ?_⟩
        obtain ⟨first, others, hpieces⟩ := List.exists_cons_of_ne_nil (List.splitOn_ne_nil '/' rest)
        refine ⟨String.ofList (c :: first), others.map String.ofList, ?_, ?_⟩
        · rw [segments, htext, List.splitOn_cons_eq_if_modifyHead, if_neg (by simpa using hc),
            hpieces, List.modifyHead_cons, List.map_cons]
        · simp [← String.toList_inj]

/-- A path whose first piece is not empty does not start at the root. -/
theorem anchor_of_segments {p : Path} {first : String} {rest : List String}
    (h : p.segments = first :: rest) (hne : first ≠ "") :
    p.split.1 = if first = "." then .current else .relative := by
  rw [split, h]
  split
  · rename_i heq
    cases heq
    exact absurd rfl hne
  · rename_i heq
    cases heq
    rfl
  · rename_i hdot
    refine (if_neg ?_).symm
    rintro rfl
    exact hdot rest rfl

/-- Where a path starts is spelled in its first piece. -/
theorem anchor_eq (p : Path) :
    p.split.1 = if p.isAbsolute then .root
      else if p.segments.head? = some "." then .current else .relative := by
  rcases head?_segments p with ⟨hempty, hsegments⟩ | ⟨habsolute, -⟩ | ⟨hrelative, first, rest,
    hsegments, hne⟩
  · have habsolute : p.isAbsolute = false := by rw [isAbsolute, hempty]; rfl
    rw [split, hsegments, habsolute]
    rfl
  · obtain ⟨pieces, -, hsplit⟩ := exists_split_of_isAbsolute habsolute
    rw [hsplit, if_pos habsolute]
  · rw [anchor_of_segments hsegments hne, hrelative, if_neg Bool.false_ne_true, hsegments]
    simp

/-- The pieces behind the start are pieces of the path and stand for its steps. Where nothing
is spelled at the start, the first of them cannot be taken for a start. -/
theorem split_spec {p : Path} {anchor : Anchor} {pieces : List String}
    (hsplit : p.split = (anchor, pieces)) :
    (∀ piece ∈ pieces, '/' ∉ piece.toList) ∧ pieces.filterMap pieceComponent? = p.steps ∧
      (anchor = .relative → ∀ first ∈ pieces.head?, isIdle first = false) := by
  have hidle : pieceComponent? "" = none := by decide
  have hdot : pieceComponent? "." = none := by decide
  have hwhole : ∀ piece ∈ p.segments, '/' ∉ piece.toList := fun _ => notMem_of_mem_segments
  rw [split] at hsplit
  rw [steps]
  split at hsplit
  · rename_i rest hsegments
    rw [hsegments] at hwhole
    rw [hsegments, List.filterMap_cons_none hidle]
    split at hsplit
    · rename_i hnil
      cases hsplit
      rw [hnil]
      exact ⟨by simp, rfl, by simp⟩
    · cases hsplit
      exact ⟨fun piece hpiece => hwhole piece (by simp [hpiece]), rfl,
        fun hstart => by cases hstart⟩
  · rename_i rest hsegments
    cases hsplit
    rw [hsegments] at hwhole
    rw [hsegments, List.filterMap_cons_none hdot]
    exact ⟨fun piece hpiece => hwhole piece (by simp [hpiece]), rfl, fun hstart => by cases hstart⟩
  · rename_i hempty hcurrent
    cases hsplit
    refine ⟨hwhole, rfl, ?_⟩
    rintro - first hfirst
    have hsegments := List.eq_cons_of_mem_head? hfirst
    rw [isIdle, Bool.or_eq_false_iff, decide_eq_false_iff_not, decide_eq_false_iff_not]
    constructor
    · rintro rfl
      exact hempty _ hsegments
    · rintro rfl
      exact hcurrent _ hsegments

/-- A path means its start and the steps behind it. -/
theorem components_eq_append_steps (p : Path) :
    p.components = p.split.1.components ++ p.steps := by
  obtain ⟨-, hpieces, -⟩ := split_spec (p := p) rfl
  rw [← hpieces]
  rfl

/-! ## A name at the end -/

/-- A path keeps its first piece when it goes on. -/
theorem head?_segments_join {p q : Path} (hp : p.text ≠ "") (hq : q.isAbsolute = false) :
    (p.join q).segments.head? = p.segments.head? := by
  have hkept (a b : String) : (segments ⟨a ++ "/" ++ b⟩).head? = (segments ⟨a⟩).head? := by
    have hne : segments ⟨a⟩ ≠ [] := by simp [segments, List.splitOn_ne_nil]
    rw [segments_append, List.head?_append_of_ne_nil _ hne]
  rw [join, hq, if_neg Bool.false_ne_true]
  split
  · rename_i hend
    -- The separator is there already, and nothing stands behind it.
    have hslash : p.text.toList.getLast? = some '/' := by simpa [hp] using hend
    obtain ⟨front, hfront⟩ := List.getLast?_eq_some_iff.mp hslash
    have htext : p.text = String.ofList front ++ "/" := by
      rw [← String.toList_inj, hfront]
      simp
    have hown := hkept (String.ofList front) ""
    rw [String.append_empty, ← htext] at hown
    rw [htext, hkept]
    exact hown.symm
  · exact hkept p.text q.text

theorem join_empty {q : Path} (hq : q.isAbsolute = false) : join ⟨""⟩ q = q := by
  rw [join, hq, if_neg Bool.false_ne_true, if_pos (by decide), String.empty_append]

/-- Going on does not change whether a path starts at the root. -/
theorem isAbsolute_join_eq {p q : Path} (hq : q.isAbsolute = false) :
    (p.join q).isAbsolute = p.isAbsolute := by
  by_cases hp : p.text = ""
  · have hempty : p = ⟨""⟩ := congrArg Path.mk hp
    rw [hempty, join_empty hq, hq]
    rfl
  · have hne : p.text.toList ≠ [] := by simpa using hp
    obtain ⟨c, rest, hcons⟩ := List.exists_cons_of_ne_nil hne
    rw [join, hq, if_neg Bool.false_ne_true]
    split <;> simp [isAbsolute, hcons]

theorem anchor_join {p q : Path} (hp : p.text ≠ "") (hq : q.isAbsolute = false) :
    (p.join q).split.1 = p.split.1 := by
  rw [anchor_eq, anchor_eq, isAbsolute_join_eq hq, head?_segments_join hp hq]

theorem anchor_of_isName {name : String} (h : IsName name) : (split ⟨name⟩).1 = .relative := by
  have hmeant := h.meant
  rw [isIdle, Bool.or_eq_false_iff, decide_eq_false_iff_not, decide_eq_false_iff_not] at hmeant
  rw [anchor_of_segments (segments_of_notMem h.whole) hmeant.1, if_neg hmeant.2]

/-- A piece behind a path is one more piece, in place of the empty one behind a separator. -/
theorem exists_segments_join {p : Path} {name : String} (hp : p.text ≠ "")
    (hwhole : '/' ∉ name.toList) :
    ∃ front, (p.join ⟨name⟩).segments = front ++ [name] ∧
      (p.segments = front ∨ p.segments = front ++ [""]) := by
  have hown : segments ⟨name⟩ = [name] := segments_of_notMem hwhole
  rw [join, isAbsolute_of_notMem hwhole, if_neg Bool.false_ne_true]
  split
  · rename_i hend
    have hslash : p.text.toList.getLast? = some '/' := by simpa [hp] using hend
    obtain ⟨front, hfront⟩ := List.getLast?_eq_some_iff.mp hslash
    have htext : p.text = String.ofList front ++ "/" := by
      rw [← String.toList_inj, hfront]
      simp
    refine ⟨segments ⟨String.ofList front⟩, ?_, Or.inr ?_⟩
    · rw [htext, segments_append, hown]
    · have hempty : segments ⟨""⟩ = [""] := segments_of_notMem (by simp)
      have happend := segments_append (String.ofList front) ""
      rw [String.append_empty, ← htext, hempty] at happend
      exact happend
  · exact ⟨p.segments, by rw [segments_append, hown], Or.inl rfl⟩

theorem getLast?_segments_join (p : Path) {name : String} (hwhole : '/' ∉ name.toList) :
    (p.join ⟨name⟩).segments.getLast? = some name := by
  by_cases hp : p.text = ""
  · have hjoin : p.join ⟨name⟩ = ⟨name⟩ := by
      rw [show p = ⟨""⟩ from congrArg Path.mk hp, join_empty (isAbsolute_of_notMem hwhole)]
    rw [hjoin, segments_of_notMem hwhole]
    rfl
  · obtain ⟨front, hjoin, -⟩ := exists_segments_join hp hwhole
    rw [hjoin, List.getLast?_concat]

/-- **A name behind a path** is one more component. -/
theorem components_join_name (p : Path) {name : String} (h : IsName name) :
    (p.join ⟨name⟩).components = p.components ++ [.name name] := by
  have hstep : Component.IsStep (.name name) := h
  have hrelative : isAbsolute ⟨name⟩ = false := isAbsolute_of_isStep (c := .name name) hstep
  have hown : steps ⟨name⟩ = [.name name] := steps_of_isStep (c := .name name) hstep
  by_cases hempty : p.text = ""
  · have hp : p = ⟨""⟩ := congrArg Path.mk hempty
    have hnothing : components ⟨""⟩ = [] := by decide +kernel
    rw [hp, join_empty hrelative, hnothing, components_eq_append_steps, anchor_of_isName h, hown]
    rfl
  · rw [components_eq_append_steps, anchor_join hempty hrelative, steps_join hrelative, hown,
      ← List.append_assoc, ← components_eq_append_steps]

/-! ## The directory of a file -/

/-- Pieces behind a start mean the same there, if the first one cannot be taken for a start. -/
theorem components_assemble {anchor : Anchor} {pieces : List String}
    (hwhole : ∀ piece ∈ pieces, '/' ∉ piece.toList)
    (hfirst : anchor = .relative → ∀ first ∈ pieces.head?, isIdle first = false) :
    (assemble anchor pieces).components
      = anchor.components ++ pieces.filterMap pieceComponent? := by
  cases anchor with
  | root =>
      have htext : assemble .root pieces = ⟨"" ++ "/" ++ "/".intercalate pieces⟩ := by
        rw [String.empty_append]
        rfl
      have hnothing : steps ⟨""⟩ = [] := by decide +kernel
      have habsolute : (assemble .root pieces).isAbsolute = true := by
        simp [assemble, isAbsolute]
      rw [components_of_isAbsolute habsolute, htext, steps_append, hnothing,
        steps_intercalate hwhole]
      rfl
  | current =>
      have hwhole' : ∀ piece ∈ "." :: pieces, '/' ∉ piece.toList :=
        List.forall_mem_cons.mpr ⟨by decide, hwhole⟩
      have hdot : pieceComponent? "." = none := by decide
      rw [assemble, components_eq_append_steps,
        anchor_of_segments (segments_intercalate (List.cons_ne_nil _ _) hwhole') (by decide),
        steps_intercalate hwhole', List.filterMap_cons_none hdot]
      rfl
  | relative =>
      cases pieces with
      | nil => decide +kernel
      | cons first rest =>
          have hmeant := hfirst rfl first rfl
          rw [isIdle, Bool.or_eq_false_iff, decide_eq_false_iff_not, decide_eq_false_iff_not]
            at hmeant
          rw [assemble, components_eq_append_steps,
            anchor_of_segments (segments_intercalate (List.cons_ne_nil _ _) hwhole) hmeant.1,
            if_neg hmeant.2, steps_intercalate hwhole]

/-- **A file is a name behind its directory.** -/
theorem exists_parent?_of_fileName? {p : Path} {name : String} (h : p.fileName? = some name) :
    ∃ dir, p.parent? = some dir ∧ p.components = dir.components ++ [.name name] := by
  have hlast := getLast?_steps_of_fileName?_eq h
  have hstart := components_eq_append_steps p
  cases hsplit : p.split with
  | mk anchor pieces =>
      obtain ⟨hwhole, hpieces, hfirst⟩ := split_spec hsplit
      rw [← filterMap_dropEndWhile] at hpieces
      rw [hsplit] at hstart
      rcases List.eq_nil_or_concat (Text.dropEndWhile isIdle pieces) with hnil | ⟨front, piece,
        hkept⟩
      · rw [← hpieces, hnil] at hlast
        cases hlast
      · rw [List.concat_eq_append] at hkept
        -- The last piece that is left stands for the name.
        obtain ⟨c, hc⟩ := exists_pieceComponent? (isIdle_of_dropEndWhile hkept)
        have hsteps : p.steps = front.filterMap pieceComponent? ++ [c] := by
          rw [← hpieces, hkept, List.filterMap_append, List.filterMap_cons_some hc,
            List.filterMap_nil]
        have hname : c = .name name := by
          rw [hsteps, List.getLast?_concat] at hlast
          exact Option.some.inj hlast
        have hfront := dropEndWhile_prefix_of_eq hkept
        refine ⟨_, parent?_of_dropEndWhile hsplit hkept, ?_⟩
        rw [hstart, hsteps, hname, components_assemble, filterMap_dropEndWhile, List.append_assoc]
        · exact fun other hother => hwhole other (hfront.subset hother)
        · intro hrelative first hhead
          rw [List.eq_cons_of_mem_head? hhead] at hfront
          obtain ⟨behind, hbehind⟩ := hfront
          exact hfirst hrelative first (by rw [← hbehind]; rfl)

/-- The steps to the directory above are steps to the path. -/
theorem mem_steps_of_parent? {p q : Path} (h : p.parent? = some q) {c : Component}
    (hc : c ∈ q.steps) : c ∈ p.steps := by
  cases hsplit : p.split with
  | mk anchor pieces =>
      obtain ⟨hwhole, hpieces, hfirst⟩ := split_spec hsplit
      rw [← filterMap_dropEndWhile] at hpieces
      rcases List.eq_nil_or_concat (Text.dropEndWhile isIdle pieces) with hnil | ⟨front, piece,
        hkept⟩
      · rw [parent?, hsplit] at h
        simp only [hnil] at h
        split at h
        · cases h
          simp [steps, segments, pieceComponent?, isIdle] at hc
        · cases h
      · rw [List.concat_eq_append] at hkept
        rw [parent?_of_dropEndWhile hsplit hkept] at h
        cases h
        have hfront := dropEndWhile_prefix_of_eq hkept
        have hown : c ∈ (assemble anchor (Text.dropEndWhile isIdle front)).components := by
          rw [components_eq_append_steps]
          exact List.mem_append_right _ hc
        rw [components_assemble (fun other hother => hwhole other (hfront.subset hother)) fun
          hrelative first hhead => ?_, filterMap_dropEndWhile] at hown
        · rcases List.mem_append.mp hown with hstart | hstep
          · -- No step is a start.
            have hstep := isStep_of_mem_steps hc
            cases anchor with
            | root | current =>
                rw [List.mem_singleton.mp hstart] at hstep
                exact hstep.elim
            | relative => exact absurd hstart List.not_mem_nil
          · rw [← hpieces, hkept, List.filterMap_append]
            exact List.mem_append_left _ hstep
        · rw [List.eq_cons_of_mem_head? hhead] at hfront
          obtain ⟨behind, hbehind⟩ := hfront
          exact hfirst hrelative first (by rw [← hbehind]; rfl)

theorem parent_mem_steps {p : Path} (h : ".." ∈ p.segments) : .parent ∈ p.steps := by
  rw [steps, List.mem_filterMap]
  exact ⟨"..", h, by decide⟩

theorem fileName?_of_components {p : Path} {front : List Component} {name : String}
    (h : p.components = front ++ [.name name]) : p.fileName? = some name := by
  rw [fileName?, h, List.getLast?_concat]

/-- **Another name behind the same directory.** -/
theorem components_withFileName {p : Path} {front : List Component} {old name : String}
    (h : p.components = front ++ [.name old]) (hname : IsName name) :
    (p.withFileName name).components = front ++ [.name name] := by
  have hold := fileName?_of_components h
  obtain ⟨dir, hdir, hcomponents⟩ := exists_parent?_of_fileName? hold
  have hfront : front = dir.components := List.append_cancel_right (h.symm.trans hcomponents)
  rw [withFileName, hold, hdir, hfront]
  exact components_join_name dir hname

/-! ## From a directory to a file in it -/

/-- The path from a directory to a file in it is the name of the file. -/
theorem relative_of_components {p q : Path} {name : String} (h : IsName name)
    (hq : q.components = p.components ++ [.name name]) : p.relative q = ⟨name⟩ := by
  have hstep : Component.IsStep (.name name) := h
  have hne : name ≠ "" := text_ne_empty_of_isStep hstep
  have hwalk : walk p q = [.name name] := by
    have hlandmarks : q.landmarks = p.landmarks ++ [.name name] := by
      rw [landmarks, landmarks, hq, List.filter_append]
      rfl
    have hcommon := dropCommon_append p.landmarks [] [.name name]
    rw [List.append_nil] at hcommon
    rw [walk, hlandmarks, hcommon]
    rfl
  have hpath : ofComponents (walk p q) = ⟨name⟩ := by
    rw [hwalk]
    exact join_empty (isAbsolute_of_isStep hstep)
  rw [relative, hpath, if_neg hne]

end Typings.Path
