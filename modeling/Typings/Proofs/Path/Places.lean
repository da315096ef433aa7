import Typings.Proofs.Path.Walk

/-!
# Paths of one place

Two paths with the same components name one place. They start alike, and they are spelled with
the same pieces but for those that mean nothing: the empty pieces of repeated and trailing
separators, and inner `.` pieces.

What is read off a place must not depend on how it is spelled. For the last component of a path
this is so by definition. The directory of a file and the walk to it are made from the spelling,
with another name put in place of the last one, but a walk looks at components only.

## Main results

* `components_eq_iff` — two spellings of one place.
* `landmarks_join`, `landmarks_withFileName` — what a walk sees of the paths that are built.
* `fileName?_congr`, `relative_withFileName_congr` — what depends on the place only.
-/

namespace Typings.Path

variable {p q : Path}

/-! ## Spellings -/

/-- A path is spelled with its steps and with idle pieces. -/
theorem map_text_steps (p : Path) :
    p.steps.map Component.text = p.segments.filter (!isIdle ·) := by
  rw [steps_eq_filterMap, List.map_filterMap]
  have hspelled : ∀ piece ∈ p.segments.filter (!isIdle ·),
      (pieceComponent? piece).map Component.text = some piece := by
    intro piece hpiece
    obtain ⟨c, hc⟩ := exists_pieceComponent? (by simpa using (List.mem_filter.mp hpiece).2)
    rw [hc, Option.map_some, text_of_pieceComponent? hc]
  rw [List.filterMap_congr hspelled, List.filterMap_some]

theorem Anchor.components_injective : Function.Injective Anchor.components := by
  intro a b h
  cases a <;> cases b <;> first | rfl | cases h

/-- No step can be taken for the start of a path. -/
theorem anchor_steps_inj {anchor anchor' : Anchor}
    (h : anchor.components ++ p.steps = anchor'.components ++ q.steps) :
    anchor = anchor' ∧ p.steps = q.steps := by
  have hfilter (a : Anchor) (r : Path) :
      (a.components ++ r.steps).filter (fun c => c ≠ .root ∧ c ≠ .current) = r.steps := by
    have hstart : a.components.filter (fun c => c ≠ .root ∧ c ≠ .current) = [] := by
      cases a <;> rfl
    rw [List.filter_append, hstart, List.nil_append, List.filter_eq_self]
    intro c hc
    have hstep := isStep_of_mem_steps hc
    cases c with
    | root | current => exact hstep.elim
    | parent | name => rfl
  have hsteps : p.steps = q.steps := by rw [← hfilter anchor p, h, hfilter]
  rw [hsteps] at h
  exact ⟨Anchor.components_injective (List.append_cancel_right h), hsteps⟩

/-- **Two spellings of one place** start alike, and differ in pieces that mean nothing. -/
theorem components_eq_iff :
    p.components = q.components ↔
      p.split.1 = q.split.1 ∧ p.segments.filter (!isIdle ·) = q.segments.filter (!isIdle ·) := by
  rw [components_eq_append_steps, components_eq_append_steps q]
  constructor
  · intro h
    obtain ⟨hstart, hsteps⟩ := anchor_steps_inj h
    rw [← map_text_steps, ← map_text_steps, hsteps]
    exact ⟨hstart, rfl⟩
  · rintro ⟨hstart, hpieces⟩
    rw [hstart, steps_eq_filterMap, hpieces, ← steps_eq_filterMap]

/-! ## Paths that are built -/

/-- What a walk sees of a path that goes on. -/
theorem landmarks_join (hq : q.isAbsolute = false) :
    (p.join q).landmarks = p.landmarks ++ q.steps := by
  rw [landmarks_eq, landmarks_eq p, isAbsolute_join_eq hq, steps_join hq, List.append_assoc]

/-- **What a walk sees of a path with another file name**: nothing of the old one, if there is
one, and what the new one means. -/
theorem landmarks_withFileName (p : Path) {name : String} (hwhole : '/' ∉ name.toList) :
    (p.withFileName name).landmarks
      = (if p.fileName?.isSome then p.components.dropLast else p.components).filter (· ≠ .current)
        ++ steps ⟨name⟩ := by
  have hrelative := isAbsolute_of_notMem hwhole
  rw [withFileName]
  cases hname : p.fileName? with
  | none => exact landmarks_join hrelative
  | some old =>
      obtain ⟨dir, hdir, hcomponents⟩ := exists_parent?_of_fileName? hname
      rw [hdir, hcomponents, Option.isSome_some, if_pos rfl, List.dropLast_concat]
      exact landmarks_join hrelative

/-! ## What depends on the place only -/

theorem fileName?_congr (h : p.components = q.components) : p.fileName? = q.fileName? := by
  rw [fileName?, fileName?, h]

/-- **The walk to a file under another name** leads from a directory to a place, however this
place is spelled. -/
theorem relative_withFileName_congr (h : p.components = q.components) (dir : Path) {name : String}
    (hwhole : '/' ∉ name.toList) :
    dir.relative (p.withFileName name) = dir.relative (q.withFileName name) := by
  refine relative_congr rfl ?_
  rw [landmarks_withFileName p hwhole, landmarks_withFileName q hwhole, fileName?_congr h, h]

end Typings.Path
