import Typings.Path.Relative
import Typings.Proofs.Path.Steps

/-!
# Following a path

A path that starts with a step leads somewhere only when it is read from a directory. Reading it
there, step by step and without a look at any file system, is `resolve`. The walk from one
absolute path to another one, read from the first, leads to the second; this is what makes it a
walk between them.

A step up in the second path could not be told from a step of the walk, so none may stand there.

## Main definitions

* `Path.resolve` — the place that a path leads to from a directory.
* `Path.shared` — the longest start that two lists share.
* `Path.IsDotted` — a path that starts with `.` or `..`.
* `Path.Straight`, `Path.Clear` — a path from the root along plain names, or along names without
  backslashes.

## Main results

* `resolve_eq_foldl_steps` — only the steps of a path count that does not start at the root.
* `walk_of_start` — a walk goes up to what both paths share, and down.
* `foldl_follow_walk` — the walk leads to its end.
* `resolve_dotted_relative`, `resolve_dotted_relative_empty` — the path along the walk does, from
  a directory and from the root.
-/

namespace Typings.Path

/-! ## Resolving -/

/-- One component up. Nothing is above the root. -/
def ascend : List Component → List Component
  | [.root] => [.root]
  | place => place.dropLast

/-- The place behind one component, read at a place. -/
def follow (place : List Component) : Component → List Component
  | .root => [.root]
  | .current => place
  | .parent => ascend place
  | .name text => place ++ [.name text]

/-- The place that a path leads to, read at a place. -/
def resolve (place : List Component) (p : Path) : List Component :=
  p.components.foldl follow place

/-- A path that does not start at the root means its steps, or the same behind a leading `.`. -/
theorem components_of_relative {p : Path} (h : p.isAbsolute = false) :
    p.components = p.steps ∨ p.components = .current :: p.steps := by
  have hidle : pieceComponent? "" = none := by decide
  have hdot : pieceComponent? "." = none := by decide
  rw [components, split, steps]
  split
  · rename_i anchor pieces hsplit
    split at hsplit
    · rename_i rest hsegments
      split at hsplit
      · rename_i hnil
        cases hsplit
        left
        rw [hsegments, hnil, List.filterMap_cons_none hidle]
        rfl
      · -- A path with an empty first piece and others behind it starts at the root.
        rename_i hne
        have htext := intercalate_segments p
        obtain ⟨first, others, rfl⟩ := List.exists_cons_of_ne_nil hne
        rw [hsegments] at htext
        have habsolute : p.isAbsolute = true := by
          rw [isAbsolute, ← htext]
          simp [String.intercalate_cons_cons]
        rw [habsolute] at h
        cases h
    · rename_i rest hsegments
      cases hsplit
      right
      rw [hsegments, List.filterMap_cons_none hdot]
      rfl
    · cases hsplit
      left
      rfl

/-- A path whose last step is a name ends with that name, wherever the path starts. -/
theorem fileName?_of_getLast?_steps {p : Path} {name : String}
    (h : p.steps.getLast? = some (.name name)) : p.fileName? = some name := by
  have hlast : p.components.getLast? = some (.name name) := by
    cases habsolute : p.isAbsolute with
    | true => rw [components_of_isAbsolute habsolute, List.getLast?_cons, h, Option.getD_some]
    | false =>
        rcases components_of_relative habsolute with hsteps | hsteps
        · rw [hsteps, h]
        · rw [hsteps, List.getLast?_cons, h, Option.getD_some]
  rw [fileName?, hlast]

/-- A path that ends with a name has it as its last step. -/
theorem getLast?_steps_of_fileName?_eq {p : Path} {name : String} (h : p.fileName? = some name) :
    p.steps.getLast? = some (.name name) := by
  have hlast : p.components.getLast? = some (.name name) := by
    rw [fileName?] at h
    split at h
    · rename_i hlast
      rw [hlast, Option.some.inj h]
    · cases h
  cases habsolute : p.isAbsolute with
  | true => exact getLast?_steps_of_fileName? habsolute h
  | false =>
      rcases components_of_relative habsolute with hsteps | hsteps
      · rwa [hsteps] at hlast
      · rw [hsteps, List.getLast?_cons] at hlast
        cases hown : p.steps.getLast? with
        | none =>
            rw [hown] at hlast
            cases hlast
        | some c =>
            rw [hown] at hlast
            exact hlast

theorem resolve_eq_foldl_steps {p : Path} (h : p.isAbsolute = false) (place : List Component) :
    p.resolve place = p.steps.foldl follow place := by
  rw [resolve]
  rcases components_of_relative h with hsteps | hsteps
  · rw [hsteps]
  · rw [hsteps]
    rfl

/-! ## Paths along components -/

/-- Go on from a path along some components. -/
def alongComponents (p : Path) (cs : List Component) : Path :=
  cs.foldl (fun p c => p.join ⟨c.text⟩) p

theorem steps_alongComponents {cs : List Component} (h : ∀ c ∈ cs, c.IsStep) (p : Path) :
    (p.alongComponents cs).steps = p.steps ++ cs := by
  induction cs generalizing p with
  | nil => exact (List.append_nil _).symm
  | cons c rest ih =>
      have hc : c.IsStep := h c (by simp)
      show ((p.join ⟨c.text⟩).alongComponents rest).steps = _
      rw [ih (fun other hother => h other (by simp [hother])),
        steps_join (isAbsolute_of_isStep hc), steps_of_isStep hc, List.append_assoc]
      rfl

/-- What stands in front of a path does not change when the path goes on. -/
theorem head?_text_join {p q : Path} (hp : p.text ≠ "") (hq : q.isAbsolute = false) :
    (p.join q).text.toList.head? = p.text.toList.head? ∧ (p.join q).text ≠ "" := by
  have hne : p.text.toList ≠ [] := by simpa using hp
  obtain ⟨c, rest, hcons⟩ := List.exists_cons_of_ne_nil hne
  have htext : (p.join q).text.toList.head? = some c := by
    rw [join, hq, if_neg Bool.false_ne_true]
    split <;> simp [hcons]
  refine ⟨by rw [htext, hcons]; rfl, fun hempty => ?_⟩
  rw [hempty] at htext
  cases htext

theorem head?_text_alongComponents {cs : List Component} (h : ∀ c ∈ cs, c.IsStep) {p : Path}
    (hp : p.text ≠ "") : (p.alongComponents cs).text.toList.head? = p.text.toList.head? := by
  induction cs generalizing p with
  | nil => rfl
  | cons c rest ih =>
      have hc : c.IsStep := h c (by simp)
      obtain ⟨hhead, hne⟩ := head?_text_join hp (isAbsolute_of_isStep hc)
      show ((p.join ⟨c.text⟩).alongComponents rest).text.toList.head? = _
      rw [ih (fun other hother => h other (by simp [hother])) hne, hhead]

/-- A character that is no separator stands in a joined path only if it stands in its parts. -/
theorem notMem_text_join {p q : Path} {c : Char} (hc : c ≠ '/') (hp : c ∉ p.text.toList)
    (hq : c ∉ q.text.toList) : c ∉ (p.join q).text.toList := by
  rw [join]
  split
  · exact hq
  · split <;> simp [hp, hq, hc]

theorem notMem_text_alongComponents {cs : List Component} {c : Char} (hc : c ≠ '/')
    (h : ∀ step ∈ cs, c ∉ step.text.toList) {p : Path} (hp : c ∉ p.text.toList) :
    c ∉ (p.alongComponents cs).text.toList := by
  induction cs generalizing p with
  | nil => exact hp
  | cons step rest ih =>
      refine ih (fun other hother => h other (by simp [hother])) ?_
      exact notMem_text_join hc hp (h step (by simp))

/-! ## Walks -/

section

variable {α : Type} [DecidableEq α]

/-- The longest start that two lists share. -/
def shared : List α → List α → List α
  | a :: as, b :: bs => if a = b then a :: shared as bs else []
  | _, _ => []

/-- Two lists are the start that they share and what is left of them. -/
theorem eq_shared_append (as bs : List α) :
    as = shared as bs ++ (dropCommon as bs).1 ∧ bs = shared as bs ++ (dropCommon as bs).2 := by
  induction as generalizing bs with
  | nil => simp [shared, dropCommon]
  | cons a as ih =>
      cases bs with
      | nil => simp [shared, dropCommon]
      | cons b bs =>
          rw [dropCommon, shared]
          by_cases hab : a = b
          · obtain ⟨has, hbs⟩ := ih bs
            rw [if_pos hab, if_pos hab, List.cons_append, List.cons_append, ← has, ← hbs, hab]
            exact ⟨rfl, rfl⟩
          · rw [if_neg hab, if_neg hab]
            exact ⟨rfl, rfl⟩

theorem shared_append (front as bs : List α) :
    shared (front ++ as) (front ++ bs) = front ++ shared as bs := by
  induction front with
  | nil => rfl
  | cons a front ih => rw [List.cons_append, List.cons_append, shared, if_pos rfl, ih]; rfl

theorem dropCommon_append (front as bs : List α) :
    dropCommon (front ++ as) (front ++ bs) = dropCommon as bs := by
  induction front with
  | nil => rfl
  | cons a front ih => rw [List.cons_append, List.cons_append, dropCommon, if_pos rfl, ih]

end

/-- What matters to a walk is whether a path starts at the root, and its steps. -/
theorem landmarks_eq (p : Path) :
    p.landmarks = (if p.isAbsolute then [.root] else []) ++ p.steps := by
  have hsteps : p.steps.filter (· ≠ .current) = p.steps := by
    refine List.filter_eq_self.mpr fun c hc => ?_
    have hstep := isStep_of_mem_steps hc
    cases c with
    | current => exact hstep.elim
    | _ => rfl
  rw [landmarks]
  cases habsolute : p.isAbsolute with
  | true =>
      rw [components_of_isAbsolute habsolute, List.filter_cons_of_pos (by decide), hsteps]
      rfl
  | false =>
      rcases components_of_relative habsolute with hcomponents | hcomponents
      · rw [hcomponents, hsteps]
        rfl
      · rw [hcomponents, List.filter_cons_of_neg (by decide), hsteps]
        rfl

theorem landmarks_of_isAbsolute {p : Path} (h : p.isAbsolute = true) :
    p.landmarks = p.components := by
  rw [landmarks_eq, components_of_isAbsolute h, h]
  rfl

/-- Between paths with the same start: up from the steps that they do not share, and down. -/
theorem walk_of_start {p q : Path} (h : p.isAbsolute = q.isAbsolute) :
    ∃ up down, p.steps = shared p.steps q.steps ++ up ∧ q.steps = shared p.steps q.steps ++ down ∧
      walk p q = up.map (fun _ => .parent) ++ down := by
  obtain ⟨hup, hdown⟩ := eq_shared_append p.steps q.steps
  refine ⟨_, _, hup, hdown, ?_⟩
  rw [walk, landmarks_eq, landmarks_eq q, h, dropCommon_append]

/-- The names behind a place are left one by one. -/
theorem foldl_follow_up (place up : List Component) (h : place ≠ []) :
    (up.map fun _ => Component.parent).foldl follow (place ++ up) = place := by
  induction up using List.reverseRecOn with
  | nil => exact List.append_nil place
  | append_singleton up c ih =>
      have hstep : follow (place ++ (up ++ [c])) .parent = place ++ up := by
        rw [← List.append_assoc]
        show ascend (place ++ up ++ [c]) = _
        rw [ascend.eq_def]
        split
        · rename_i heq
          have hlen := congrArg List.length heq
          have hpos := List.length_pos_iff.mpr h
          simp at hlen
          omega
        · exact List.dropLast_concat
      have hmap : (up ++ [c]).map (fun _ => Component.parent)
          = .parent :: up.map fun _ => .parent := by
        rw [List.map_append, List.map_const', List.map_singleton, ← List.replicate_succ']
        rfl
      rw [hmap, List.foldl_cons, hstep, ih]

theorem foldl_follow_down {down : List Component} (h : ∀ c ∈ down, ∃ text, c = .name text)
    (place : List Component) : down.foldl follow place = place ++ down := by
  induction down generalizing place with
  | nil => exact (List.append_nil place).symm
  | cons c rest ih =>
      obtain ⟨text, rfl⟩ := h c (by simp)
      rw [List.foldl_cons, ih (fun other hother => h other (by simp [hother])), follow,
        List.append_assoc]
      rfl

/-- **A walk leads to its end**, if the end is reached along names only. -/
theorem foldl_follow_walk {p q : Path} (hp : p.isAbsolute = true) (hq : q.isAbsolute = true)
    (hnames : ∀ c ∈ q.steps, ∃ text, c = .name text) :
    (walk p q).foldl follow p.components = q.components := by
  obtain ⟨up, down, hup, hdown, hwalk⟩ := walk_of_start (hp.trans hq.symm)
  have hnames' : ∀ c ∈ down, ∃ text, c = .name text :=
    fun c hc => hnames c (by rw [hdown]; exact List.mem_append_right _ hc)
  generalize shared p.steps q.steps = common at hup hdown
  rw [hwalk, components_of_isAbsolute hp, components_of_isAbsolute hq, hup, hdown,
    List.foldl_append, ← List.cons_append, ← List.cons_append,
    foldl_follow_up _ up (List.cons_ne_nil _ _), foldl_follow_down hnames']

/-- A walk goes up, or along its target. -/
theorem mem_walk {p q : Path} {c : Component} (h : c ∈ walk p q) :
    c = .parent ∨ c ∈ q.components := by
  rcases List.mem_append.mp h with hup | hdown
  · obtain ⟨-, -, rfl⟩ := List.mem_map.mp hup
    exact Or.inl rfl
  · have hmem : c ∈ q.landmarks := by
      rw [(eq_shared_append p.landmarks q.landmarks).2]
      exact List.mem_append_right _ hdown
    exact Or.inr (List.mem_of_mem_filter hmem)

/-- Between paths with the same start no walk goes over the root. -/
theorem mem_walk_of_start {p q : Path} (hstart : p.isAbsolute = q.isAbsolute) {c : Component}
    (h : c ∈ walk p q) : c = .parent ∨ c ∈ q.steps := by
  obtain ⟨up, down, -, hdown, hwalk⟩ := walk_of_start hstart
  rw [hwalk, List.mem_append] at h
  rcases h with hup | hdown'
  · obtain ⟨-, -, rfl⟩ := List.mem_map.mp hup
    exact Or.inl rfl
  · exact Or.inr (by rw [hdown]; exact List.mem_append_right _ hdown')

theorem isStep_of_mem_walk {p q : Path} (hstart : p.isAbsolute = q.isAbsolute) {c : Component}
    (h : c ∈ walk p q) : c.IsStep := by
  rcases mem_walk_of_start hstart h with rfl | hc
  · trivial
  · exact isStep_of_mem_steps hc

theorem steps_relative (p q : Path) : (p.relative q).steps = (ofComponents (walk p q)).steps := by
  rw [relative]
  split
  · rename_i hempty
    have hpath : ofComponents (walk p q) = ⟨""⟩ := congrArg Path.mk hempty
    rw [hpath]
    decide +kernel
  · rfl

theorem text_ne_empty_of_isStep {c : Component} (h : c.IsStep) : c.text ≠ "" := by
  cases c with
  | root => exact h.elim
  | current => exact h.elim
  | parent => decide
  | name text =>
      intro hempty
      have hmeant := h.meant
      have hidle : text = "" := hempty
      rw [hidle] at hmeant
      exact absurd hmeant (by decide)

/-- The path along a walk starts with the first step. -/
theorem head?_text_relative {p q : Path} {c : Component} {rest : List Component}
    (hwalk : walk p q = c :: rest) (h : ∀ step ∈ c :: rest, step.IsStep) :
    (p.relative q).text.toList.head? = c.text.toList.head? := by
  have hc : c.IsStep := h c (by simp)
  have hstart : join ⟨""⟩ ⟨c.text⟩ = ⟨c.text⟩ := by
    rw [join, isAbsolute_of_isStep hc, if_neg Bool.false_ne_true]
    exact congrArg Path.mk String.empty_append
  have hpath : ofComponents (walk p q) = alongComponents ⟨c.text⟩ rest := by
    rw [hwalk]
    show alongComponents (join ⟨""⟩ ⟨c.text⟩) rest = _
    rw [hstart]
  have hrest : ∀ step ∈ rest, step.IsStep := fun step hstep => h step (by simp [hstep])
  have hhead := head?_text_alongComponents (p := ⟨c.text⟩) hrest (text_ne_empty_of_isStep hc)
  rw [relative, hpath]
  split
  · rename_i hempty
    rw [hempty] at hhead
    have hnil : c.text.toList = [] := List.head?_eq_none_iff.mp hhead.symm
    exact absurd (by simpa using hnil) (text_ne_empty_of_isStep hc)
  · exact hhead

/-! ## Plain names -/

/-- Whether a component is the root or a plain name, that is one that does not start with a dot
and holds no backslash. -/
def Component.isPlain : Component → Bool
  | .root => true
  | .name text => decide (text.toList.head? ≠ some '.') && decide ('\\' ∉ text.toList)
  | _ => false

/-- A path from the root along plain names. -/
structure Straight (p : Path) : Prop where
  absolute : p.isAbsolute = true
  plain : ∀ c ∈ p.components, c.isPlain = true

instance (p : Path) : Decidable p.Straight :=
  decidable_of_iff (p.isAbsolute = true ∧ ∀ c ∈ p.components, c.isPlain = true)
    ⟨fun h => ⟨h.1, h.2⟩, fun h => ⟨h.1, h.2⟩⟩

theorem Straight.name_of_mem_steps {p : Path} (h : p.Straight) {c : Component} (hc : c ∈ p.steps) :
    ∃ text, c = .name text ∧ text.toList.head? ≠ some '.' ∧ '\\' ∉ text.toList := by
  have hplain := h.plain c (by rw [components_of_isAbsolute h.absolute]; simp [hc])
  have hstep := isStep_of_mem_steps hc
  cases c with
  | root => exact hstep.elim
  | current => exact hstep.elim
  | parent => cases hplain
  | name text =>
      rw [Component.isPlain, Bool.and_eq_true, decide_eq_true_eq, decide_eq_true_eq] at hplain
      exact ⟨text, rfl, hplain.1, hplain.2⟩

theorem Straight.getLast?_ne_parent {p : Path} (h : p.Straight) :
    p.steps.getLast? ≠ some .parent := by
  intro hlast
  obtain ⟨text, htext, -⟩ := h.name_of_mem_steps (List.mem_of_getLast? hlast)
  cases htext

/-- A path from the root along names without backslashes. -/
structure Clear (p : Path) : Prop where
  absolute : p.isAbsolute = true
  names : ∀ c ∈ p.steps, ∃ text, c = .name text ∧ '\\' ∉ text.toList

theorem Straight.clear {p : Path} (h : p.Straight) : p.Clear where
  absolute := h.absolute
  names := fun c hc => by
    obtain ⟨text, htext, -, hslash⟩ := h.name_of_mem_steps hc
    exact ⟨text, htext, hslash⟩

theorem Clear.name_of_mem_steps {p : Path} (h : p.Clear) {c : Component} (hc : c ∈ p.steps) :
    ∃ text, c = .name text := by
  obtain ⟨text, htext, -⟩ := h.names c hc
  exact ⟨text, htext⟩

theorem Clear.notMem_of_mem_steps {p : Path} (h : p.Clear) {c : Component} (hc : c ∈ p.steps) :
    '\\' ∉ c.text.toList := by
  obtain ⟨text, rfl, hslash⟩ := h.names c hc
  exact hslash

/-- An absolute path without steps up and backslashes. -/
theorem clear_of_notMem {p : Path} (h : p.isAbsolute = true) (hup : .parent ∉ p.components)
    (hslash : '\\' ∉ p.text.toList) : p.Clear where
  absolute := h
  names := fun c hc => by
    have hmem : c ∈ p.components := by
      rw [components_of_isAbsolute h]
      exact List.mem_cons_of_mem _ hc
    obtain ⟨text, rfl⟩ := exists_name_of_isStep (isStep_of_mem_steps hc) fun hparent =>
      hup (hparent ▸ hmem)
    exact ⟨text, rfl, fun hm => hslash (text_subset_of_mem_steps hc hm)⟩

theorem Clear.notMem_landmarks {p : Path} (h : p.Clear) : .parent ∉ p.landmarks := by
  rw [landmarks_of_isAbsolute h.absolute, components_of_isAbsolute h.absolute]
  intro hparent
  rcases List.mem_cons.mp hparent with hroot | hstep
  · cases hroot
  · obtain ⟨text, htext⟩ := h.name_of_mem_steps hstep
    cases htext

/-! ## Paths that start with a dot -/

/-- A path that starts with `.` or `..`: it says itself that it is to be read from a
directory. -/
def IsDotted (p : Path) : Prop :=
  p.components.head? = some .current ∨ p.components.head? = some .parent

/-- A path with `./` in front, unless it starts with a dot already. -/
def dotted (p : Path) : Path :=
  if p.text.toList.head? = some '.' then p else ⟨"./" ++ p.text⟩

theorem segments_dot (text : String) : segments ⟨"./" ++ text⟩ = "." :: segments ⟨text⟩ := by
  have hdot : segments ⟨"."⟩ = ["."] := by decide +kernel
  have h := segments_append "." text
  rw [hdot] at h
  exact h

theorem components_dot (text : String) :
    components ⟨"./" ++ text⟩ = .current :: steps ⟨text⟩ := by
  rw [components, split, segments_dot]
  rfl

theorem isAbsolute_dotted (p : Path) : p.dotted.isAbsolute = false := by
  rw [dotted]
  split
  · rename_i hhead
    rw [isAbsolute, hhead]
    decide
  · rw [isAbsolute, String.toList_append]
    rfl

theorem steps_dotted (p : Path) : p.dotted.steps = p.steps := by
  rw [dotted]
  split
  · rfl
  · rw [steps, segments_dot]
    exact List.filterMap_cons_none (by decide)

theorem resolve_dotted (p : Path) (place : List Component) :
    p.dotted.resolve place = p.steps.foldl follow place := by
  rw [resolve_eq_foldl_steps (isAbsolute_dotted p), steps_dotted]

/-- The path along a walk, with a dot in front, starts with `.` or `..`. Its first name on the
way down must not look like a dot. -/
theorem isDotted_dotted_relative {p q : Path} (hp : p.isAbsolute = true) (hq : q.Straight) :
    (p.relative q).dotted.IsDotted := by
  have hsteps : ∀ c ∈ walk p q, c.IsStep :=
    fun c hc => isStep_of_mem_walk (hp.trans hq.absolute.symm) hc
  rw [dotted]
  split
  · rename_i hhead
    have hrelative : (p.relative q).isAbsolute = false := by
      rw [isAbsolute, hhead]
      decide
    cases hwalk : walk p q with
    | nil =>
        have hdot : p.relative q = ⟨"."⟩ := by
          rw [relative, hwalk]
          rfl
        rw [hdot]
        exact Or.inl (by decide +kernel)
    | cons c rest =>
        rw [hwalk] at hsteps
        have hc : c.IsStep := hsteps c (by simp)
        have hown : (p.relative q).steps = c :: rest := by
          rw [steps_relative, hwalk]
          exact (steps_alongComponents hsteps ⟨""⟩).trans (by rfl)
        -- A name at the front would give the path its own first character.
        have hup : c = .parent := by
          rcases mem_walk_of_start (hp.trans hq.absolute.symm) (c := c) (by simp [hwalk]) with
            hup | hdown
          · exact hup
          · exfalso
            obtain ⟨text, rfl, hdot, -⟩ := hq.name_of_mem_steps hdown
            rw [head?_text_relative hwalk hsteps] at hhead
            exact hdot hhead
        rcases components_of_relative hrelative with hcomponents | hcomponents
        · exact Or.inr (by rw [hcomponents, hown, hup]; rfl)
        · exact Or.inl (by rw [hcomponents]; rfl)
  · exact Or.inl (by rw [components_dot]; rfl)

/-! ## The path along a walk -/

section

variable {p q : Path}

theorem notMem_text_relative (hp : p.isAbsolute = true) (hq : q.Clear) :
    '\\' ∉ (p.relative q).text.toList := by
  have hpath : '\\' ∉ (ofComponents (walk p q)).text.toList := by
    refine notMem_text_alongComponents (by decide) (fun c hc => ?_) (p := ⟨""⟩) (by decide)
    rcases mem_walk_of_start (hp.trans hq.absolute.symm) hc with rfl | hstep
    · decide
    · exact hq.notMem_of_mem_steps hstep
  rw [relative]
  split
  · decide
  · exact hpath

/-- **The path along a walk leads to its end**, read from where the walk starts. -/
theorem resolve_dotted_relative (hp : p.isAbsolute = true) (hq : q.Clear) :
    (p.relative q).dotted.resolve p.components = q.components := by
  have hwalk : ∀ c ∈ walk p q, c.IsStep :=
    fun c hc => isStep_of_mem_walk (hp.trans hq.absolute.symm) hc
  have hsteps : (p.relative q).steps = walk p q := by
    rw [steps_relative]
    exact (steps_alongComponents hwalk ⟨""⟩).trans (by rfl)
  rw [resolve_dotted, hsteps, foldl_follow_walk hp hq.absolute fun c => hq.name_of_mem_steps]

/-! The source file `/` has no directory of its own. The walk then has the root as its first
step, and the path along it starts with a separator, before the dot is put in front. -/

theorem relative_empty (hq : q.isAbsolute = true) :
    relative ⟨""⟩ q = alongComponents ⟨"/"⟩ q.steps := by
  have hsteps : ∀ c ∈ q.steps, c.IsStep := fun c hc => isStep_of_mem_steps hc
  have hwalk : walk ⟨""⟩ q = .root :: q.steps := by
    have hempty : landmarks ⟨""⟩ = [] := by decide +kernel
    rw [walk, landmarks_eq q, hq, hempty]
    rfl
  have hpath : ofComponents (walk ⟨""⟩ q) = alongComponents ⟨"/"⟩ q.steps := by
    have hstart : join ⟨""⟩ ⟨"/"⟩ = ⟨"/"⟩ := by decide +kernel
    rw [hwalk]
    show alongComponents (join ⟨""⟩ ⟨"/"⟩) q.steps = _
    rw [hstart]
  have hhead := head?_text_alongComponents (p := ⟨"/"⟩) hsteps (by decide)
  rw [relative, hpath, if_neg]
  intro hempty
  rw [hempty] at hhead
  exact absurd hhead (by decide)

theorem notMem_text_relative_empty (hq : q.Clear) :
    '\\' ∉ (relative ⟨""⟩ q).text.toList := by
  rw [relative_empty hq.absolute]
  exact notMem_text_alongComponents (by decide) (fun c hc => hq.notMem_of_mem_steps hc)
    (p := ⟨"/"⟩) (by decide)

theorem resolve_dotted_relative_empty (hq : q.Clear) :
    (relative ⟨""⟩ q).dotted.resolve [.root] = q.components := by
  have hsteps : (relative ⟨""⟩ q).steps = q.steps := by
    rw [relative_empty hq.absolute, steps_alongComponents fun c hc => isStep_of_mem_steps hc]
    exact congrArg (· ++ q.steps) (by decide +kernel : steps ⟨"/"⟩ = [])
  rw [resolve_dotted, hsteps, foldl_follow_down fun c => hq.name_of_mem_steps,
    components_of_isAbsolute hq.absolute]
  rfl

theorem isDotted_dotted_relative_empty (hq : q.isAbsolute = true) :
    (relative ⟨""⟩ q).dotted.IsDotted := by
  have hhead : (relative ⟨""⟩ q).text.toList.head? = some '/' := by
    rw [relative_empty hq, head?_text_alongComponents (fun c hc => isStep_of_mem_steps hc)
      (by decide)]
    decide
  rw [dotted, hhead, if_neg (by decide)]
  exact Or.inl (by rw [components_dot]; rfl)

end

end Typings.Path
