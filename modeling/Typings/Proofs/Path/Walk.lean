import Typings.Proofs.Path.Names

/-!
# The walk between two paths

From a directory to a target one walks up as long as the two differ, and then down. Written as a
path, the walk has exactly its steps as components, whatever the names on it. Put behind the
directory it leads to the target, in the sense that both are left with the same components when
each name with a step up behind it is cancelled. This needs both paths to start alike, and no
step up in what the directory does not share with the target: the walk would have to go up again
from there, to a name that is not spelled.

No list of components that leads from one path without steps up to another one is shorter. Each
component changes how far the place is from the target by one step at most, where the distance
is what the place and the target do not share.

## Main definitions

* `Path.cancel` — components after names with steps up behind them have been cancelled.
* `Path.common` — what two paths share.
* `Path.SpelledAlike` — paths whose spellings differ in idle pieces only.

## Main results

* `segments_ofComponents`, `components_relative` — the walk as a path.
* `cancel_walk` — the walk leads to its target.
* `length_le_of_foldl_retrace` — the distance to a target and the length of a way there.
* `relative_shortest` — the path from one path to another one.
-/

namespace Typings.Path

/-! ## The walk as a path -/

/-- The pieces of a path along some steps are the steps. -/
theorem segments_ofComponents {cs : List Component} (hne : cs ≠ []) (h : ∀ c ∈ cs, c.IsStep) :
    (ofComponents cs).segments = cs.map Component.text := by
  induction cs using List.reverseRecOn with
  | nil => exact absurd rfl hne
  | append_singleton cs c ih =>
      have hc : c.IsStep := h c (by simp)
      have hjoin : ofComponents (cs ++ [c]) = (ofComponents cs).join ⟨c.text⟩ := by
        rw [ofComponents, List.foldl_append]
        rfl
      have hwhole := notMem_text_of_isStep hc
      rw [hjoin]
      by_cases hcs : cs = []
      · rw [hcs]
        show (join ⟨""⟩ ⟨c.text⟩).segments = _
        rw [join_empty (isAbsolute_of_isStep hc), segments_of_notMem hwhole]
        rfl
      · have hown := ih hcs fun other hother => h other (by simp [hother])
        have hmeant : "" ∉ cs.map Component.text := by
          intro hmem
          obtain ⟨other, hother, hempty⟩ := List.mem_map.mp hmem
          exact text_ne_empty_of_isStep (h other (by simp [hother])) hempty
        have htext : (ofComponents cs).text ≠ "" := by
          intro hempty
          have hpath : ofComponents cs = ⟨""⟩ := congrArg Path.mk hempty
          have hpieces : segments ⟨""⟩ = [""] := by decide +kernel
          rw [← hown, hpath, hpieces] at hmeant
          exact hmeant (List.mem_singleton_self _)
        obtain ⟨front, hfront, hsame | hslash⟩ := exists_segments_join htext hwhole
        · rw [hfront, ← hsame, hown, List.map_append]
          rfl
        · rw [← hown, hslash] at hmeant
          exact absurd (by simp) hmeant

theorem isIdle_text_of_isStep {c : Component} (h : c.IsStep) : isIdle c.text = false := by
  cases c with
  | root => exact h.elim
  | current => exact h.elim
  | parent => decide
  | name text => exact h.meant

/-- A path along some steps means these steps. -/
theorem components_ofComponents {cs : List Component} (h : ∀ c ∈ cs, c.IsStep) :
    (ofComponents cs).components = cs := by
  cases cs with
  | nil => decide +kernel
  | cons c rest =>
      have hsegments := segments_ofComponents (List.cons_ne_nil c rest) h
      have hsteps : (ofComponents (c :: rest)).steps = c :: rest :=
        (steps_alongComponents h ⟨""⟩).trans (by rfl)
      have hmeant := isIdle_text_of_isStep (h c (by simp))
      rw [isIdle, Bool.or_eq_false_iff, decide_eq_false_iff_not, decide_eq_false_iff_not] at hmeant
      rw [components_eq_append_steps, hsteps, anchor_of_segments hsegments hmeant.1,
        if_neg hmeant.2]
      rfl

section

variable {p q : Path}

/-- The path between two paths with the same start is the walk between them, or `.`. -/
theorem relative_eq (hstart : p.isAbsolute = q.isAbsolute) :
    p.relative q = if walk p q = [] then ⟨"."⟩ else ofComponents (walk p q) := by
  rw [relative]
  by_cases hwalk : walk p q = []
  · rw [hwalk]
    rfl
  · rw [if_neg hwalk]
    refine if_neg fun hempty => hwalk ?_
    have hpath : ofComponents (walk p q) = ⟨""⟩ := congrArg Path.mk hempty
    have hown := components_ofComponents fun c hc => isStep_of_mem_walk hstart hc
    rw [← hown, hpath]
    decide +kernel

theorem components_relative (hstart : p.isAbsolute = q.isAbsolute) (hwalk : walk p q ≠ []) :
    (p.relative q).components = walk p q := by
  rw [relative_eq hstart, if_neg hwalk]
  exact components_ofComponents fun c hc => isStep_of_mem_walk hstart hc

/-- The path between two paths with the same start means the walk between them. -/
theorem landmarks_relative (hstart : p.isAbsolute = q.isAbsolute) :
    (p.relative q).landmarks = walk p q := by
  by_cases hwalk : walk p q = []
  · rw [relative_eq hstart, if_pos hwalk, hwalk]
    decide +kernel
  · rw [landmarks, components_relative hstart hwalk]
    refine List.filter_eq_self.mpr fun c hc => ?_
    have hstep := isStep_of_mem_walk hstart hc
    cases c with
    | current => exact hstep.elim
    | _ => rfl

theorem segments_relative (hstart : p.isAbsolute = q.isAbsolute) (hwalk : walk p q ≠ []) :
    (p.relative q).segments = (walk p q).map Component.text := by
  rw [relative_eq hstart, if_neg hwalk]
  exact segments_ofComponents hwalk fun c hc => isStep_of_mem_walk hstart hc

theorem relative_eq_dot_iff (hstart : p.isAbsolute = q.isAbsolute) :
    p.relative q = ⟨"."⟩ ↔ walk p q = [] := by
  constructor
  · intro hdot
    rw [← landmarks_relative hstart, hdot]
    decide +kernel
  · intro hwalk
    rw [relative_eq hstart, if_pos hwalk]

end

/-! ## Cancelling -/

/-- One more component behind others. A step up takes a name in front of it away. -/
def retrace (place : List Component) : Component → List Component
  | .parent =>
    match place.getLast? with
    | some (.name _) => place.dropLast
    | _ => place ++ [.parent]
  | step => place ++ [step]

/-- Components after each name with a step up behind it has been cancelled. -/
def cancel (cs : List Component) : List Component := cs.foldl retrace []

theorem retrace_name_parent (place : List Component) (text : String) :
    retrace (retrace place (.name text)) .parent = place := by
  show retrace (place ++ [.name text]) .parent = place
  simp only [retrace, List.getLast?_concat, List.dropLast_concat]

/-- A pair that cancels may be left out. -/
theorem cancel_pair (front behind : List Component) (text : String) :
    cancel (front ++ .name text :: .parent :: behind) = cancel (front ++ behind) := by
  rw [cancel, cancel, List.foldl_append, List.foldl_append, List.foldl_cons, List.foldl_cons,
    retrace_name_parent]

/-- Names with as many steps up behind them cancel. -/
theorem cancel_names_up (front behind : List Component) {names : List Component}
    (h : ∀ c ∈ names, ∃ text, c = .name text) :
    cancel (front ++ (names ++ (names.map (fun _ => .parent) ++ behind)))
      = cancel (front ++ behind) := by
  induction names using List.reverseRecOn generalizing behind with
  | nil => rfl
  | append_singleton names c ih =>
      obtain ⟨text, rfl⟩ := h c (by simp)
      have hmap : (names ++ [Component.name text]).map (fun _ => Component.parent)
          = .parent :: names.map fun _ => .parent := by
        rw [List.map_append, List.map_const', List.map_singleton, ← List.replicate_succ']
        rfl
      have hsplit : front ++ (names ++ [Component.name text]
            ++ ((names ++ [Component.name text]).map (fun _ => Component.parent) ++ behind))
          = (front ++ names) ++ .name text :: .parent
            :: (names.map (fun _ => Component.parent) ++ behind) := by
        rw [hmap]
        simp
      rw [hsplit, cancel_pair, List.append_assoc,
        ih behind fun other hother => h other (by simp [hother])]

/-- Without steps up nothing cancels. -/
theorem foldl_retrace_of_notMem {cs : List Component} (h : .parent ∉ cs)
    (place : List Component) : cs.foldl retrace place = place ++ cs := by
  induction cs generalizing place with
  | nil => exact (List.append_nil place).symm
  | cons c rest ih =>
      have hstep : retrace place c = place ++ [c] := by
        cases c with
        | parent => exact absurd (List.mem_cons_self ..) h
        | _ => rfl
      rw [List.foldl_cons, hstep, ih fun hm => h (List.mem_cons_of_mem c hm), List.append_assoc]
      rfl

/-! ## Where the walk leads -/

/-- What two paths share, a leading `.` aside. -/
def common (p q : Path) : List Component := shared p.landmarks q.landmarks

/-- A start of two lists is a start of what they share. -/
theorem prefix_shared {α : Type} [DecidableEq α] {start as bs : List α} (ha : start <+: as)
    (hb : start <+: bs) : start <+: shared as bs := by
  obtain ⟨as, rfl⟩ := ha
  obtain ⟨bs, rfl⟩ := hb
  rw [shared_append]
  exact List.prefix_append _ _

theorem shared_prefix {α : Type} [DecidableEq α] (as bs : List α) :
    shared as bs <+: as ∧ shared as bs <+: bs := by
  obtain ⟨ha, hb⟩ := eq_shared_append as bs
  exact ⟨⟨_, ha.symm⟩, ⟨_, hb.symm⟩⟩

theorem shared_self {α : Type} [DecidableEq α] (as : List α) : shared as as = as := by
  have h := shared_append as [] []
  rw [List.append_nil] at h
  exact h.trans (List.append_nil as)

/-- A walk goes up to what both paths share, and down. -/
theorem walk_eq (p q : Path) :
    ∃ up down, p.landmarks = p.common q ++ up ∧ q.landmarks = p.common q ++ down ∧
      walk p q = up.map (fun _ => .parent) ++ down := by
  obtain ⟨hup, hdown⟩ := eq_shared_append p.landmarks q.landmarks
  exact ⟨_, _, hup, hdown, rfl⟩

theorem length_walk (p q : Path) :
    (walk p q).length + 2 * (p.common q).length = p.landmarks.length + q.landmarks.length := by
  obtain ⟨up, down, hup, hdown, hwalk⟩ := walk_eq p q
  rw [hwalk, hup, hdown]
  simp only [List.length_append, List.length_map]
  generalize (p.common q).length = n
  omega

section

variable {p q : Path}

/-- Paths with the same start share it. -/
theorem common_eq (hstart : p.isAbsolute = q.isAbsolute) :
    p.common q = (if p.isAbsolute then [.root] else []) ++ shared p.steps q.steps := by
  rw [common, landmarks_eq, landmarks_eq q, ← hstart, shared_append]

/-- **The walk leads to its target**, if it goes up along names only. -/
theorem cancel_walk (hstart : p.isAbsolute = q.isAbsolute)
    (hup : .parent ∉ p.landmarks.drop (p.common q).length) :
    cancel (p.landmarks ++ walk p q) = cancel q.landmarks := by
  obtain ⟨up, down, hfrom, hto, hwalk⟩ := walk_eq p q
  have hdrop : p.landmarks.drop (p.common q).length = up := by
    conv_lhs => rw [hfrom]
    exact List.drop_left
  have hsteps : p.steps = shared p.steps q.steps ++ up := by
    have hown := hfrom
    rw [common_eq hstart, landmarks_eq, List.append_assoc] at hown
    exact List.append_cancel_left hown
  have hnames : ∀ c ∈ up, ∃ text, c = .name text := by
    intro c hc
    have hstep : c.IsStep :=
      isStep_of_mem_steps (p := p) (by rw [hsteps]; exact List.mem_append_right _ hc)
    refine exists_name_of_isStep hstep ?_
    rintro rfl
    exact hup (hdrop ▸ hc)
  rw [hwalk, hfrom, hto, List.append_assoc, cancel_names_up _ _ hnames]

end

/-- Two places lie one above the other, or neither does. -/
theorem walk_cases (p q : Path) :
    (∃ up, p.landmarks = q.landmarks ++ up ∧ walk p q = up.map fun _ => .parent) ∨
      (∃ c rest, q.landmarks = p.landmarks ++ c :: rest ∧ walk p q = c :: rest) ∨
      (¬ q.landmarks <+: p.landmarks ∧ ¬ p.landmarks <+: q.landmarks ∧
        ∃ rest, rest ≠ [] ∧ rest.getLast? = q.landmarks.getLast? ∧
          walk p q = .parent :: rest) := by
  obtain ⟨up, down, hup, hdown, hwalk⟩ := walk_eq p q
  cases down with
  | nil =>
      left
      rw [List.append_nil] at hdown hwalk
      exact ⟨up, by rw [hdown]; exact hup, hwalk⟩
  | cons d down =>
      right
      cases up with
      | nil =>
          left
          rw [List.append_nil] at hup
          exact ⟨d, down, by rw [hup]; exact hdown, hwalk⟩
      | cons c up =>
          right
          have hlenUp := congrArg List.length hup
          have hlenDown := congrArg List.length hdown
          rw [List.length_append, List.length_cons] at hlenUp hlenDown
          refine ⟨fun hprefix => ?_, fun hprefix => ?_,
            up.map (fun _ => Component.parent) ++ d :: down, by simp, ?_, hwalk⟩
          · have hlen : q.landmarks.length ≤ (p.common q).length :=
              (prefix_shared hprefix List.prefix_rfl).length_le
            omega
          · have hlen : p.landmarks.length ≤ (p.common q).length :=
              (prefix_shared List.prefix_rfl hprefix).length_le
            omega
          · rw [hdown, List.getLast?_append_of_ne_nil _ (List.cons_ne_nil d down),
              List.getLast?_append_of_ne_nil _ (List.cons_ne_nil d down)]

/-! ## How long a way must be -/

/-- One component more behind a place: the place and the target share one component more at
most. -/
theorem length_shared_concat (place target : List Component) (c : Component) :
    (shared (place ++ [c]) target).length ≤ (shared place target).length + 1 := by
  obtain ⟨hplace, htarget⟩ := shared_prefix (place ++ [c]) target
  rcases List.prefix_concat_iff.mp hplace with hall | hpart
  · have hfront : place <+: target := by
      rw [hall] at htarget
      exact (List.prefix_append place [c]).trans htarget
    have hlen := (prefix_shared List.prefix_rfl hfront).length_le
    rw [hall, List.length_append, List.length_singleton]
    omega
  · have hlen := (prefix_shared hpart htarget).length_le
    omega

theorem length_shared_dropLast (place target : List Component) :
    (shared place.dropLast target).length ≤ (shared place target).length := by
  obtain ⟨hplace, htarget⟩ := shared_prefix place.dropLast target
  exact (prefix_shared (hplace.trans (List.dropLast_prefix place)) htarget).length_le

/-- No component brings a place nearer to a target by more than one step. -/
theorem length_le_of_retrace (place target : List Component) (c : Component) :
    place.length + 2 * (shared (retrace place c) target).length
      ≤ (retrace place c).length + 1 + 2 * (shared place target).length := by
  have hbehind := length_shared_concat place target c
  have hback := length_shared_dropLast place target
  rw [retrace.eq_def]
  split
  · split
    · rw [List.length_dropLast]
      omega
    · rw [List.length_append, List.length_singleton]
      omega
  · rw [List.length_append, List.length_singleton]
    omega

/-- A way to a target is at least as long as what the place and the target do not share. -/
theorem length_le_of_foldl_retrace {way place target : List Component}
    (h : way.foldl retrace place = target) :
    place.length + target.length ≤ way.length + 2 * (shared place target).length := by
  induction way generalizing place with
  | nil =>
      have hplace : place = target := h
      rw [hplace, shared_self, List.length_nil]
      omega
  | cons c rest ih =>
      have hrest := ih h
      have hstep := length_le_of_retrace place target c
      rw [List.length_cons]
      omega

/-! ## Spellings -/

/-- Two spellings that start alike and differ in idle pieces only. -/
structure SpelledAlike (p q : Path) : Prop where
  /-- Both start at the root, or neither does. -/
  start : p.isAbsolute = q.isAbsolute
  /-- The pieces that mean something are the same. -/
  pieces : p.segments.filter (!isIdle ·) = q.segments.filter (!isIdle ·)

instance (p q : Path) : Decidable (p.SpelledAlike q) :=
  decidable_of_iff (p.isAbsolute = q.isAbsolute ∧
      p.segments.filter (!isIdle ·) = q.segments.filter (!isIdle ·))
    ⟨fun h => ⟨h.1, h.2⟩, fun h => ⟨h.1, h.2⟩⟩

/-- Idle pieces mean nothing. -/
theorem steps_eq_filterMap (p : Path) :
    p.steps = (p.segments.filter (!isIdle ·)).filterMap pieceComponent? := by
  rw [steps, List.filterMap_filter]
  refine List.filterMap_congr fun piece _ => ?_
  cases hidle : isIdle piece with
  | true => rw [pieceComponent?, if_pos hidle]; rfl
  | false => rfl

theorem SpelledAlike.landmarks_eq {p q : Path} (h : p.SpelledAlike q) :
    p.landmarks = q.landmarks := by
  rw [Path.landmarks_eq, Path.landmarks_eq q, h.start, steps_eq_filterMap, h.pieces,
    ← steps_eq_filterMap]

theorem relative_congr {p q p' q' : Path} (hp : p'.landmarks = p.landmarks)
    (hq : q'.landmarks = q.landmarks) : p'.relative q' = p.relative q := by
  rw [relative, relative, walk, walk, hp, hq]

/-! ## The path between two paths -/

/-- **The path from one path to another one** leads there and is shortest. Both start alike, and
what the first does not share with the second holds no step up. Then the path put behind the first
and the second are left with the same components when all pairs are cancelled. It has as many
components as both paths do not share, where a single `.` stands for none, and if neither path
holds a step up, nothing shorter leads there. It depends on components only, not on idle pieces of
the spellings. -/
theorem relative_shortest {p q : Path} (hstart : p.isAbsolute = q.isAbsolute)
    (hup : .parent ∉ p.landmarks.drop (p.common q).length) :
    cancel (p.landmarks ++ (p.relative q).landmarks) = cancel q.landmarks ∧
      (p.relative q).landmarks.length + 2 * (p.common q).length
        = p.landmarks.length + q.landmarks.length ∧
      (p.relative q = ⟨"."⟩ ↔
        p.landmarks.length + q.landmarks.length = 2 * (p.common q).length) ∧
      (p.relative q ≠ ⟨"."⟩ → (p.relative q).components = (p.relative q).landmarks) ∧
      (.parent ∉ p.landmarks → .parent ∉ q.landmarks →
        ∀ way, cancel (p.landmarks ++ way) = q.landmarks →
          (p.relative q).landmarks.length ≤ way.length) ∧
      (∀ p' q' : Path, p'.landmarks = p.landmarks → q'.landmarks = q.landmarks →
        p'.relative q' = p.relative q) ∧
      ∀ p' q' : Path, p'.SpelledAlike p → q'.SpelledAlike q → p'.relative q' = p.relative q := by
  have hlength := length_walk p q
  have hdot : p.relative q = ⟨"."⟩ ↔
      p.landmarks.length + q.landmarks.length = 2 * (p.common q).length := by
    rw [relative_eq_dot_iff hstart, ← List.length_eq_zero_iff]
    omega
  rw [landmarks_relative hstart]
  refine ⟨cancel_walk hstart hup, hlength, hdot, fun hne => ?_, fun hp hq way hway => ?_,
    fun p' q' => relative_congr, fun p' q' hp hq => ?_⟩
  · exact components_relative hstart fun hwalk => hne ((relative_eq_dot_iff hstart).mpr hwalk)
  · rw [cancel, List.foldl_append, foldl_retrace_of_notMem hp, List.nil_append] at hway
    have hway' := length_le_of_foldl_retrace hway
    rw [common] at hlength
    omega
  · exact relative_congr hp.landmarks_eq hq.landmarks_eq

/-- A target that is reached by a step up of its own, and idle pieces in the directory. -/
theorem relative_shortest_upward :
    (isAbsolute ⟨"./src//Models/."⟩ = isAbsolute ⟨"src/../Shared/Money"⟩ ∧
      .parent ∉ (landmarks ⟨"./src//Models/."⟩).drop
        (common ⟨"./src//Models/."⟩ ⟨"src/../Shared/Money"⟩).length) ∧
      relative ⟨"./src//Models/."⟩ ⟨"src/../Shared/Money"⟩ = ⟨"../../Shared/Money"⟩ ∧
      cancel (landmarks ⟨"./src//Models/."⟩ ++ landmarks ⟨"../../Shared/Money"⟩)
        = [.name "Shared", .name "Money"] ∧
      (landmarks ⟨"../../Shared/Money"⟩).length = 4 ∧
      relative ⟨"src/Models/"⟩ ⟨"./src/..//Shared/./Money"⟩ = ⟨"../../Shared/Money"⟩ := by
  have hstart : isAbsolute ⟨"./src//Models/."⟩ = isAbsolute ⟨"src/../Shared/Money"⟩ := by
    decide +kernel
  have hup : .parent ∉ (landmarks ⟨"./src//Models/."⟩).drop
      (common ⟨"./src//Models/."⟩ ⟨"src/../Shared/Money"⟩).length := by
    decide +kernel
  obtain ⟨hcancel, hlength, -, -, -, -, halike⟩ := relative_shortest hstart hup
  have hpath : relative ⟨"./src//Models/."⟩ ⟨"src/../Shared/Money"⟩ = ⟨"../../Shared/Money"⟩ := by
    decide +kernel
  have hsame := halike ⟨"src/Models/"⟩ ⟨"./src/..//Shared/./Money"⟩ (by decide +kernel)
    (by decide +kernel)
  have hshared : (common ⟨"./src//Models/."⟩ ⟨"src/../Shared/Money"⟩).length = 1 := by
    decide +kernel
  have hsizes : (landmarks ⟨"./src//Models/."⟩).length = 2 ∧
      (landmarks ⟨"src/../Shared/Money"⟩).length = 4 := by
    decide +kernel
  rw [hpath] at hcancel hlength hsame
  refine ⟨⟨hstart, hup⟩, hpath, hcancel.trans (by decide +kernel), ?_, hsame⟩
  omega

end Typings.Path
