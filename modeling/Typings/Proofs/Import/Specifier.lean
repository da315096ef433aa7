import Typings.Proofs.Import.Destination
import Typings.Proofs.Path.Walk

/-!
# How a specifier is spelled

A specifier is the path along the walk from a directory to a module, and `./` is put in front of
it unless it starts with a dot. Read from the directory it always leads to the module. But it is
meant to say itself that it is to be read from there, by `./` or `../` at its front, and to end
with the name of the module. Both fail for some pairs of places, and only for these: a dot at the
front may belong to the name of a hidden file or directory below the directory, and where the
module has the place of the directory, or of one above it, the walk holds no name at all.

## Main definitions

* `IsRelativeSpecifier` — a specifier that starts with `./` or `../`.
* `IsBarePlace` — a place to which the specifier does not start so.

## Main results

* `isRelativeSpecifier_iff` — such a specifier by its pieces.
* `Path.isRelative_dotted_relative`, `Path.getLast?_segments_dotted_relative` — how the path along
  a walk starts and ends.
* `Options.moduleSpecifier_spelling` — how a specifier starts and ends, and where it leads.
* `Options.moduleSpecifier_misspelled` — a hidden directory, and a module with the place of a
  directory.
-/

namespace Typings

open Typings.Path

/-! ## The front of a text -/

/-- A specifier that starts with `./` or `../`. -/
def IsRelativeSpecifier (specifier : String) : Prop :=
  "./".toList <+: specifier.toList ∨ "../".toList <+: specifier.toList

instance (specifier : String) : Decidable (IsRelativeSpecifier specifier) :=
  inferInstanceAs (Decidable (_ ∨ _))

/-- What stands in front of the first separator is the first piece. -/
theorem prefix_iff_segments (first : String) (hfirst : '/' ∉ first.toList) (p : Path) :
    (first ++ "/").toList <+: p.text.toList
      ↔ 1 < p.segments.length ∧ p.segments.head? = some first := by
  constructor
  · rintro ⟨behind, hbehind⟩
    have hp : p = ⟨first ++ "/" ++ String.ofList behind⟩ := by
      refine congrArg Path.mk ?_
      rw [← String.toList_inj, ← hbehind]
      simp
    rw [hp, segments_append, segments_of_notMem hfirst]
    simp [segments, List.length_pos_iff, List.splitOn_ne_nil]
  · rintro ⟨hmore, hhead⟩
    obtain ⟨rest, hsegments⟩ : ∃ rest, p.segments = first :: rest :=
      ⟨_, List.eq_cons_of_mem_head? hhead⟩
    rw [hsegments, List.length_cons, Nat.lt_add_left_iff_pos, List.length_pos_iff] at hmore
    obtain ⟨next, rest, rfl⟩ := List.exists_cons_of_ne_nil hmore
    have htext := intercalate_segments p
    rw [hsegments, String.intercalate_cons_cons] at htext
    have hchars : p.text.toList
        = (first ++ "/").toList ++ ("/".intercalate (next :: rest)).toList := by
      rw [← htext]
      exact String.toList_append
    exact ⟨_, hchars.symm⟩

theorem isRelativeSpecifier_iff (p : Path) :
    IsRelativeSpecifier p.text ↔ 1 < p.segments.length ∧
      (p.segments.head? = some "." ∨ p.segments.head? = some "..") := by
  have hdot := prefix_iff_segments "." (by decide) p
  have hup := prefix_iff_segments ".." (by decide) p
  rw [and_or_left, ← hdot, ← hup]
  rfl

/-! ## Places that hide the walk -/

/-- The places for which the path from a directory starts with neither `./` nor `../`: the directory
itself, the one above it, and all below it that is reached through a name with a dot in front. -/
def IsBarePlace (directory place : List Component) : Prop :=
  place = directory ∨ (∃ c, directory = place ++ [c]) ∨
    ∃ name rest, place = directory ++ .name name :: rest ∧ name.toList.head? = some '.'

/-- Only a place above or below the directory is bare. -/
theorem not_isBarePlace_of_apart {directory place : List Component}
    (habove : ¬ place <+: directory) (hbelow : ¬ directory <+: place) :
    ¬ IsBarePlace directory place := by
  rintro (rfl | ⟨c, rfl⟩ | ⟨name, rest, rfl, -⟩)
  · exact habove List.prefix_rfl
  · exact habove (List.prefix_append _ _)
  · exact hbelow (List.prefix_append _ _)

theorem isBarePlace_above_iff (place : List Component) (up : List Component) :
    IsBarePlace (place ++ up) place ↔ up.length ≤ 1 := by
  constructor
  · rintro (h | ⟨c, h⟩ | ⟨name, rest, h, -⟩)
    · have hlen := congrArg List.length h
      rw [List.length_append] at hlen
      omega
    · rw [List.append_cancel_left h]
      exact Nat.le_refl 1
    · have hlen := congrArg List.length h
      rw [List.length_append, List.length_append, List.length_cons] at hlen
      omega
  · intro h
    cases up with
    | nil => exact Or.inl (List.append_nil place).symm
    | cons c rest =>
        cases rest with
        | nil => exact Or.inr (Or.inl ⟨c, rfl⟩)
        | cons d rest =>
            rw [List.length_cons, List.length_cons] at h
            omega

theorem isBarePlace_below_iff (directory rest : List Component) (name : String) :
    IsBarePlace directory (directory ++ .name name :: rest) ↔ name.toList.head? = some '.' := by
  constructor
  · rintro (h | ⟨c, h⟩ | ⟨name', rest', h, hhead⟩)
    · have hlen := congrArg List.length h
      rw [List.length_append, List.length_cons] at hlen
      omega
    · have hlen := congrArg List.length h
      rw [List.length_append, List.length_append, List.length_cons] at hlen
      omega
    · have hsame := List.append_cancel_left h
      rw [List.cons.injEq, Component.name.injEq] at hsame
      rw [hsame.1]
      exact hhead
  · intro h
    exact Or.inr (Or.inr ⟨name, rest, rfl, h⟩)

/-! ## The path along a walk, with a dot in front -/

namespace Path

section

variable {p q : Path}

theorem getLast?_segments_dotted (p : Path) :
    p.dotted.segments.getLast? = p.segments.getLast? := by
  rw [dotted]
  split
  · rfl
  · obtain ⟨first, rest, hsegments⟩ : ∃ first rest, p.segments = first :: rest :=
      List.exists_cons_of_ne_nil (by simp [segments, List.splitOn_ne_nil])
    rw [segments_dot, hsegments, List.getLast?_cons_cons]

/-- The pieces of the path along a walk, with a dot in front. -/
theorem segments_dotted_relative (hstart : p.isAbsolute = q.isAbsolute) {c : Component}
    {rest : List Component} (hwalk : walk p q = c :: rest) :
    (p.relative q).dotted.segments = if c.text.toList.head? = some '.'
      then c.text :: rest.map Component.text else "." :: c.text :: rest.map Component.text := by
  have hne : walk p q ≠ [] := by simp [hwalk]
  have hsteps : ∀ step ∈ c :: rest, step.IsStep := fun step hstep =>
    isStep_of_mem_walk hstart (hwalk ▸ hstep)
  have hsegments := segments_relative hstart hne
  rw [hwalk] at hsegments
  rw [dotted, head?_text_relative hwalk hsteps]
  split
  · exact hsegments
  · rw [segments_dot, hsegments]
    rfl

theorem segments_dotted_relative_nil (hstart : p.isAbsolute = q.isAbsolute)
    (hwalk : walk p q = []) : (p.relative q).dotted.segments = ["."] := by
  rw [relative_eq hstart, if_pos hwalk]
  decide +kernel

/-- How the path along a walk without steps up in its target starts. -/
theorem isRelative_dotted_relative (hstart : p.isAbsolute = q.isAbsolute)
    (hup : .parent ∉ q.landmarks) :
    IsRelativeSpecifier (p.relative q).dotted.text ↔ ¬ IsBarePlace p.landmarks q.landmarks := by
  rcases walk_cases p q with ⟨up, hplace, hwalk⟩ | ⟨c, rest, hplace, hwalk⟩ |
    ⟨habove, hbelow, rest, hne, -, hwalk⟩
  · -- Straight up: one step up or none leaves no room for a separator.
    rw [hplace, isBarePlace_above_iff]
    cases up with
    | nil =>
        rw [isRelativeSpecifier_iff, segments_dotted_relative_nil hstart hwalk]
        simp
    | cons c up =>
        rw [List.map_cons] at hwalk
        have hsegments := segments_dotted_relative hstart hwalk
        rw [if_pos (by rfl)] at hsegments
        cases up with
        | nil =>
            rw [isRelativeSpecifier_iff, hsegments]
            simp
        | cons d up =>
            rw [isRelativeSpecifier_iff, hsegments]
            simp [Component.text]
  · -- Straight down: what counts is the first name.
    have hc : c ∈ walk p q := by simp [hwalk]
    obtain ⟨name, rfl⟩ := exists_name_of_isStep (isStep_of_mem_walk hstart hc) (by
      rintro rfl
      exact hup (by simp [hplace]))
    have hname : IsName name := isStep_of_mem_walk hstart hc
    have hsegments := segments_dotted_relative hstart hwalk
    rw [hplace, isBarePlace_below_iff]
    by_cases hdot : (Component.name name).text.toList.head? = some '.'
    · rw [if_pos hdot] at hsegments
      have hcurrent : name ≠ "." := by
        rintro rfl
        exact absurd hname.meant (by decide)
      refine iff_of_false ?_ (not_not_intro hdot)
      rw [isRelativeSpecifier_iff, hsegments]
      simp [Component.text, hcurrent, hname.proper]
    · rw [if_neg hdot] at hsegments
      refine iff_of_true ?_ hdot
      rw [isRelativeSpecifier_iff, hsegments]
      simp
  · -- Up and down again.
    have hsegments := segments_dotted_relative hstart hwalk
    rw [if_pos (by rfl)] at hsegments
    refine iff_of_true ?_ (not_isBarePlace_of_apart habove hbelow)
    rw [isRelativeSpecifier_iff, hsegments]
    simp [Component.text, List.length_pos_iff, hne]

/-- The path along a walk ends with the name of its target, unless the walk only goes up. -/
theorem getLast?_segments_dotted_relative (hstart : p.isAbsolute = q.isAbsolute) {name : String}
    (hname : IsName name) (hlast : q.landmarks.getLast? = some (.name name)) :
    (p.relative q).dotted.segments.getLast? = some name ↔ ¬ q.landmarks <+: p.landmarks := by
  have hdown : (walk p q).getLast? = q.landmarks.getLast? →
      (p.relative q).dotted.segments.getLast? = some name := by
    intro hsame
    have hne : walk p q ≠ [] := by
      rw [← List.getLast?_isSome, hsame, hlast]
      rfl
    rw [getLast?_segments_dotted, segments_relative hstart hne, List.getLast?_map, hsame, hlast]
    rfl
  rcases walk_cases p q with ⟨up, hplace, hwalk⟩ | ⟨c, rest, hplace, hwalk⟩ |
    ⟨habove, -, rest, hne, hrest, hwalk⟩
  · refine iff_of_false ?_ (not_not_intro ⟨up, hplace.symm⟩)
    rw [getLast?_segments_dotted]
    by_cases hup : up = []
    · have hdot : segments ⟨"."⟩ = ["."] := by decide +kernel
      rw [hup, List.map_nil] at hwalk
      rw [relative_eq hstart, if_pos hwalk, hdot]
      intro hidle
      have hmeant := hname.meant
      rw [← Option.some.inj hidle] at hmeant
      exact absurd hmeant (by decide)
    · have hne : walk p q ≠ [] := by
        rw [hwalk]
        exact mt List.map_eq_nil_iff.mp hup
      rw [segments_relative hstart hne, hwalk, List.map_map, List.getLast?_map,
        List.getLast?_eq_some_getLast hup]
      exact fun hparent => hname.proper (Option.some.inj hparent).symm
  · refine iff_of_true (hdown ?_) fun hprefix => ?_
    · rw [hwalk, hplace, List.getLast?_append_of_ne_nil _ (List.cons_ne_nil c rest)]
    · have hlen := hprefix.length_le
      rw [hplace, List.length_append, List.length_cons] at hlen
      omega
  · refine iff_of_true (hdown ?_) habove
    rw [hwalk, ← hrest]
    obtain ⟨d, rest, rfl⟩ := List.exists_cons_of_ne_nil hne
    exact List.getLast?_cons_cons

/-- A path that is put behind an absolute one without steps up leads to where it leads from
there. -/
theorem resolve_join (hp : p.isAbsolute = true) (hup : .parent ∉ p.components)
    (hq : q.isAbsolute = false) (place : List Component) :
    (p.join q).resolve place = q.resolve p.components := by
  rw [components_of_isAbsolute hp] at hup
  have hnames : ∀ c ∈ p.steps, ∃ text, c = .name text := by
    intro c hc
    refine exists_name_of_isStep (isStep_of_mem_steps hc) ?_
    rintro rfl
    exact hup (List.mem_cons_of_mem _ hc)
  rw [resolve_eq_foldl_steps hq, resolve, components_of_isAbsolute (isAbsolute_join hp),
    steps_join hq, components_of_isAbsolute hp, List.foldl_cons, List.foldl_append]
  exact congrArg (q.steps.foldl follow) (foldl_follow_down hnames [.root])

end

end Path

/-! ## Specifiers -/

namespace Options

variable (o : Options) {target : Path}

/-- The name of a file without the extension of a module is a name, unless it is made of dots
only. -/
theorem isName_moduleStem (hname : target.fileName? ≠ none)
    (hstem : o.moduleStem target ≠ "." ∧ o.moduleStem target ≠ "..") :
    IsName (o.moduleStem target) := by
  obtain ⟨name, hfile⟩ := Option.ne_none_iff_exists'.mp hname
  have hlast := getLast?_steps_of_fileName?_eq hfile
  have hown : IsName name := isStep_of_mem_steps (List.mem_of_getLast? hlast)
  rw [moduleStem, hfile, Option.getD_some] at hstem ⊢
  obtain ⟨hfront, hne⟩ := stripExtension_spec o.sourceExtension name
  refine ⟨fun hslash => hown.whole (hfront.subset hslash), ?_, hstem.2⟩
  have hempty : name ≠ "" := by
    rintro rfl
    exact absurd hown.meant (by decide)
  rw [isIdle, Bool.or_eq_false_iff, decide_eq_false_iff_not, decide_eq_false_iff_not]
  exact ⟨hne hempty, hstem.1⟩

/-- The target of a specifier: the place of the module, with its name at the end. -/
theorem clear_withFileName_moduleStem (htarget : target.Clear) (hname : target.fileName? ≠ none)
    (hstem : o.moduleStem target ≠ "." ∧ o.moduleStem target ≠ "..") :
    (target.withFileName (o.moduleStem target)).Clear ∧
      (target.withFileName (o.moduleStem target)).landmarks = o.modulePlace target ∧
      (o.modulePlace target).getLast? = some (.name (o.moduleStem target)) := by
  obtain ⟨name, hfile⟩ := Option.ne_none_iff_exists'.mp hname
  have hown := o.isName_moduleStem hname hstem
  have hstemeq : o.moduleStem target = stripExtension o.sourceExtension name := by
    rw [moduleStem, hfile, Option.getD_some]
  obtain ⟨habsolute, hsteps, hplace⟩ :=
    o.steps_withFileName_moduleStem htarget.absolute hfile (hstemeq ▸ hown)
  have hlast := List.mem_of_getLast? (getLast?_steps_of_fileName?_eq hfile)
  refine ⟨⟨habsolute, fun c hc => ?_⟩, (landmarks_of_isAbsolute habsolute).trans hplace, ?_⟩
  · rw [hsteps] at hc
    rcases List.mem_append.mp hc with hc | hc
    · exact htarget.names c (List.mem_of_mem_dropLast hc)
    · refine ⟨_, List.mem_singleton.mp hc, fun hslash => htarget.notMem_of_mem_steps hlast ?_⟩
      exact (stripExtension_spec o.sourceExtension name).1.subset hslash
  · rw [← hplace, components_of_isAbsolute habsolute, hsteps, ← List.cons_append,
      List.getLast?_concat, hstemeq]

/-- **How a specifier is spelled.** It leads from a directory to the place of the module, ends
with the name of the module unless the directory has that place or lies below it, and starts with
`./` or `../` unless the place of the module is bare. -/
theorem moduleSpecifier_spelling {fromDir : Path} (hfrom : fromDir.isAbsolute = true)
    (htarget : target.isAbsolute = true) (hup : .parent ∉ target.components)
    (hslash : '\\' ∉ target.text.toList) (hname : target.fileName? ≠ none)
    (hstem : o.moduleStem target ≠ "." ∧ o.moduleStem target ≠ "..") :
    (.parent ∉ fromDir.components →
        (fromDir.join ⟨o.moduleSpecifier fromDir target⟩).resolve [] = o.modulePlace target) ∧
      ((segments ⟨o.moduleSpecifier fromDir target⟩).getLast? = some (o.moduleStem target)
        ↔ ¬ o.modulePlace target <+: fromDir.components) ∧
      (IsRelativeSpecifier (o.moduleSpecifier fromDir target)
        ↔ ¬ IsBarePlace fromDir.components (o.modulePlace target)) := by
  obtain ⟨hclear, hplace, hlast⟩ :=
    o.clear_withFileName_moduleStem (clear_of_notMem htarget hup hslash) hname hstem
  have hown := o.isName_moduleStem hname hstem
  have hspecifier := o.moduleSpecifier_eq_dotted (notMem_text_relative hfrom hclear)
  have htext : o.moduleSpecifier fromDir target
      = (fromDir.relative (target.withFileName (o.moduleStem target))).dotted.text := by
    rw [← hspecifier]
  have hstart := hfrom.trans hclear.absolute.symm
  rw [← hplace] at hlast ⊢
  rw [hspecifier, htext, ← landmarks_of_isAbsolute hfrom]
  refine ⟨fun hnames => ?_, getLast?_segments_dotted_relative hstart hown hlast,
    isRelative_dotted_relative hstart hclear.notMem_landmarks⟩
  rw [landmarks_of_isAbsolute hfrom] at hnames
  rw [resolve_join hfrom hnames (isAbsolute_dotted _), resolve_dotted_relative hfrom hclear,
    landmarks_of_isAbsolute hclear.absolute]

/-- A hidden directory beside the directory is no obstacle. -/
theorem moduleSpecifier_spelling_aside :
    (isAbsolute ⟨"/src/Models"⟩ = true ∧ isAbsolute ⟨"/src/.hidden/Money.ts"⟩ = true ∧
        .parent ∉ components ⟨"/src/.hidden/Money.ts"⟩ ∧
        '\\' ∉ "/src/.hidden/Money.ts".toList ∧ fileName? ⟨"/src/.hidden/Money.ts"⟩ ≠ none ∧
        moduleStem .default ⟨"/src/.hidden/Money.ts"⟩ = "Money") ∧
      resolve [] (join ⟨"/src/Models"⟩
          ⟨moduleSpecifier .default ⟨"/src/Models"⟩ ⟨"/src/.hidden/Money.ts"⟩⟩)
        = [.root, .name "src", .name ".hidden", .name "Money"] ∧
      (segments ⟨moduleSpecifier .default ⟨"/src/Models"⟩ ⟨"/src/.hidden/Money.ts"⟩⟩).getLast?
        = some "Money" ∧
      IsRelativeSpecifier (moduleSpecifier .default ⟨"/src/Models"⟩ ⟨"/src/.hidden/Money.ts"⟩) := by
  have hfrom : isAbsolute ⟨"/src/Models"⟩ = true := by decide
  have htarget : isAbsolute ⟨"/src/.hidden/Money.ts"⟩ = true := by decide
  have hup : .parent ∉ components ⟨"/src/.hidden/Money.ts"⟩ := by decide +kernel
  have hslash : '\\' ∉ "/src/.hidden/Money.ts".toList := by decide
  have hname : fileName? ⟨"/src/.hidden/Money.ts"⟩ ≠ none := by decide +kernel
  have hstem : moduleStem .default ⟨"/src/.hidden/Money.ts"⟩ = "Money" := by decide +kernel
  have hown : modulePlace .default ⟨"/src/.hidden/Money.ts"⟩
      = [.root, .name "src", .name ".hidden", .name "Money"] := by
    decide +kernel
  have hdirectory : components ⟨"/src/Models"⟩ = [.root, .name "src", .name "Models"] := by
    decide +kernel
  obtain ⟨hplace, hlast, hrelative⟩ := moduleSpecifier_spelling .default hfrom htarget hup hslash
    hname (by rw [hstem]; decide)
  rw [hown, hdirectory] at hplace hlast hrelative
  rw [hstem] at hlast
  exact ⟨⟨hfrom, htarget, hup, hslash, hname, hstem⟩, hplace (by decide), hlast.mpr (by decide),
    hrelative.mpr (not_isBarePlace_of_apart (by decide) (by decide))⟩

/-- A hidden directory below the directory gives a specifier that names a package, and a module
with the place of a directory above it one without the name of the module. -/
theorem moduleSpecifier_misspelled :
    (moduleSpecifier .default ⟨"/src"⟩ ⟨"/src/.hidden/Order.ts"⟩ = ".hidden/Order" ∧
        ¬ IsRelativeSpecifier ".hidden/Order") ∧
      moduleSpecifier .default ⟨"/src/Order/Lines"⟩ ⟨"/src/Order.ts"⟩ = ".." ∧
      ¬ IsRelativeSpecifier ".." ∧
      (segments ⟨".."⟩).getLast? ≠ some (moduleStem .default ⟨"/src/Order.ts"⟩) := by
  decide +kernel

end Options

end Typings
