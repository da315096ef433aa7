import Mathlib.Data.List.Induction
import Typings.Import.Resolve

/-!
# What the search for imports comes to

The search for imports carries a block and a list of available names through two loops and a
final look at what is left. Under the policy that nothing may be missing it can end at each of
these places. This file says what it comes to, in order, as a list of findings that does not
depend on the policy: each finding is an import or something missing. The policy then acts on
the finished list. It either tells all of the findings in the block, or answers with the first
missing one.

Each step of the search is matched with its part of the list, and a run of steps with the parts
one after the other (`Search.settle_append`).

## Main definitions

* `Finding`, `ImportBlock.ofFindings` — a finding, and the block that tells some of them.
* `referenceImports`, `baseFindings`, `nameFindings`, `findings` — what the search comes to.
* `Search.settle` — a state of the search, later by some findings, or the first missing one.

## Main results

* `foldl_visitReference`, `foldlM_visitBase`, `finish_eq_settle` — the parts of the search.
* `resolveImports_eq_settle` — the whole search, and its two policies in `resolveImports_warn`
  and `resolveImports_fail`.
-/

namespace Typings

/-! ## Findings -/

/-- Something that the search for imports comes to. -/
inductive Finding where
  /-- An import. -/
  | found (what : Import)
  /-- Something missing. -/
  | missing (what : Missing)
  deriving DecidableEq, Repr

/-- The base that is missing, if it is one. -/
def Missing.base? : Missing → Option String
  | .baseClass base _ => some base
  | .imports _ => none

namespace Finding

/-- The line that tells about a finding. -/
def line : Finding → String
  | .found what => what.line
  | .missing what => what.line

/-- The import that was found. -/
def import? : Finding → Option Import
  | .found what => some what
  | .missing _ => none

/-- What is missing. -/
def missing? : Finding → Option Missing
  | .found _ => none
  | .missing what => some what

/-- The imports among some findings. -/
def imports (fs : List Finding) : List Import := fs.filterMap import?

/-- The symbols that some findings import. -/
def symbols (fs : List Finding) : List String := (imports fs).map Import.symbol

/-- What is missing according to some findings. -/
def absences (fs : List Finding) : List Missing := fs.filterMap missing?

@[simp] theorem imports_nil : imports [] = [] := rfl

@[simp] theorem imports_found (what : Import) (fs : List Finding) :
    imports (.found what :: fs) = what :: imports fs := rfl

@[simp] theorem imports_missing (what : Missing) (fs : List Finding) :
    imports (.missing what :: fs) = imports fs := rfl

@[simp] theorem symbols_nil : symbols [] = [] := rfl

@[simp] theorem symbols_found (what : Import) (fs : List Finding) :
    symbols (.found what :: fs) = what.symbol :: symbols fs := rfl

@[simp] theorem symbols_missing (what : Missing) (fs : List Finding) :
    symbols (.missing what :: fs) = symbols fs := rfl

@[simp] theorem absences_nil : absences [] = [] := rfl

@[simp] theorem absences_found (what : Import) (fs : List Finding) :
    absences (.found what :: fs) = absences fs := rfl

@[simp] theorem absences_missing (what : Missing) (fs : List Finding) :
    absences (.missing what :: fs) = what :: absences fs := rfl

@[simp] theorem imports_append (fs gs : List Finding) :
    imports (fs ++ gs) = imports fs ++ imports gs := List.filterMap_append

@[simp] theorem symbols_append (fs gs : List Finding) :
    symbols (fs ++ gs) = symbols fs ++ symbols gs := by
  rw [symbols, imports_append, List.map_append, symbols, symbols]

@[simp] theorem absences_append (fs gs : List Finding) :
    absences (fs ++ gs) = absences fs ++ absences gs := List.filterMap_append

@[simp] theorem imports_map_found (is : List Import) : imports (is.map found) = is := by
  induction is with
  | nil => rfl
  | cons i rest ih => exact congrArg (i :: ·) ih

@[simp] theorem symbols_map_found (is : List Import) :
    symbols (is.map found) = is.map Import.symbol := by
  rw [symbols, imports_map_found]

@[simp] theorem absences_map_found (is : List Import) : absences (is.map found) = [] := by
  induction is with
  | nil => rfl
  | cons i rest ih => exact ih

end Finding

open Finding

/-! ## Telling findings -/

/-- Tell some findings in a block. -/
def ImportBlock.tell (block : ImportBlock) (fs : List Finding) : ImportBlock where
  lines := block.lines ++ fs.map Finding.line
  unresolvedBases := block.unresolvedBases ++ (absences fs).filterMap Missing.base?
  warnings := block.warnings ++ absences fs

/-- The block that tells some findings. -/
def ImportBlock.ofFindings (fs : List Finding) : ImportBlock where
  lines := fs.map Finding.line
  unresolvedBases := (absences fs).filterMap Missing.base?
  warnings := absences fs

@[simp] theorem ImportBlock.tell_nil (block : ImportBlock) : block.tell [] = block := by
  simp [tell]

namespace Search

/-- The search when it has come to some more findings. -/
def after (s : Search) (fs : List Finding) : Search := ⟨s.block.tell fs, s.available ++ symbols fs⟩

@[simp] theorem after_nil (s : Search) : s.after [] = s := by
  simp [after]

theorem after_append (s : Search) (fs gs : List Finding) :
    s.after (fs ++ gs) = (s.after fs).after gs := by
  simp [after, ImportBlock.tell]

theorem after_found (s : Search) (what : Import) : s.after [.found what] = s.take what := by
  simp [after, take, ImportBlock.tell, ImportBlock.addImport, Finding.line]

/-- Under a policy for what is missing, the search when it has come to some more findings, or
the first thing that may not be missing. -/
def settle (policy : MissingPolicy) (s : Search) (fs : List Finding) : Except Missing Search :=
  match policy, (absences fs).head? with
  | .fail, some what => .error what
  | _, _ => .ok (s.after fs)

theorem settle_warn (s : Search) (fs : List Finding) : s.settle .warn fs = .ok (s.after fs) := by
  cases h : (absences fs).head? <;> simp [settle]

theorem settle_of_absences_eq_nil (policy : MissingPolicy) (s : Search) {fs : List Finding}
    (h : absences fs = []) : s.settle policy fs = .ok (s.after fs) := by
  cases policy <;> simp [settle, h]

theorem settle_fail_of_cons (s : Search) {fs : List Finding} {what : Missing} {rest : List Missing}
    (h : absences fs = what :: rest) : s.settle .fail fs = .error what := by
  simp [settle, h]

/-- **One run after another.** A run that comes to some findings, and a run that goes on from
there to some more, come to all of them together. -/
theorem settle_append {policy : MissingPolicy} {s : Search} {fs gs : List Finding}
    (run : Search → Except Missing Search)
    (h : run (s.after fs) = (s.after fs).settle policy gs) :
    (s.settle policy fs).bind run = s.settle policy (fs ++ gs) := by
  cases policy with
  | warn =>
      rw [settle_warn, Except.bind, h, settle_warn, settle_warn, after_append]
  | fail =>
      cases habsent : absences fs with
      | nil =>
          rw [settle_of_absences_eq_nil .fail s habsent, Except.bind, h]
          simp [settle, habsent, after_append]
      | cons what rest =>
          have hall : absences (fs ++ gs) = what :: (rest ++ absences gs) := by simp [habsent]
          rw [settle_fail_of_cons s habsent, settle_fail_of_cons s hall, Except.bind]

theorem settle_found (policy : MissingPolicy) (s : Search) (what : Import) :
    s.settle policy [.found what] = .ok (s.take what) := by
  rw [settle_of_absences_eq_nil policy s rfl, after_found]

theorem settle_missing_base (policy : MissingPolicy) (s : Search) (base : String)
    (expected : Path) :
    s.settle policy [.missing (.baseClass base expected)]
      = (s.block.report policy (.baseClass base expected)).map
        fun block => { s with block := block.dropBase base } := by
  cases policy with
  | fail => rfl
  | warn =>
      rw [settle_warn, ImportBlock.report, Except.map]
      simp [after, ImportBlock.tell, ImportBlock.dropBase, Finding.line, Missing.base?]

theorem settle_missing_names (policy : MissingPolicy) (s : Search) (absent : List String) :
    (s.settle policy [.missing (.imports absent)]).map (·.block)
      = s.block.report policy (.imports absent) := by
  cases policy with
  | fail => rfl
  | warn =>
      rw [settle_warn, ImportBlock.report, Except.map]
      simp [after, ImportBlock.tell, Finding.line, Missing.base?]

end Search

/-! ## What there is to find -/

section

variable (o : Options) (names : Names) (source : Path) (isFile : Path → Bool)

/-- The imports of some files that stand for needed names, each name once. -/
def referenceImports (files : List Path) : List Import :=
  distinctBy Import.symbol
    ((files.map (referenceImport o source)).filter (·.symbol ∈ neededNames names))

/-- What the search comes to at some bases, when some names are available. -/
def baseFindings : List String → List String → List Finding
  | _, [] => []
  | available, base :: rest =>
    if o.typeName base ∈ available then baseFindings available rest
    else if isFile (expectedBaseSource o source base) then
      .found (baseImport o base) :: baseFindings (available ++ [o.typeName base]) rest
    else
      .missing (.baseClass base (expectedBaseSource o source base))
        :: baseFindings available rest

/-- The needed names that are not available. -/
def absentNames (available : List String) : List String :=
  (neededNames names).filter (· ∉ available)

/-- What the search comes to at its end, when some names are available. -/
def nameFindings (available : List String) : List Finding :=
  if absentNames names available = [] then []
  else [.missing (.imports (absentNames names available))]

/-- What the search comes to at the files and the bases. -/
def visitFindings (types : List Descriptor) : List Finding :=
  let atFiles := referenceImports o names source (referencedFiles types)
  atFiles.map .found
    ++ baseFindings o source isFile (names.declared.toList ++ atFiles.map Import.symbol)
      names.bases.toList

/-- All that the search comes to, in order. Where modules are declared there is no search. -/
def findings (types : List Descriptor) : List Finding :=
  if o.declareModule then []
  else
    let visited := visitFindings o names source isFile types
    visited ++ nameFindings names (names.declared.toList ++ symbols visited)

end

/-! ## The search comes to its findings -/

section Run

variable {o : Options} {names : Names} {source : Path} {isFile : Path → Bool}

theorem mem_neededNames {name : String} :
    name ∈ neededNames names ↔ name ∈ names.referenced ∧ name ∉ names.declared := by
  rw [neededNames, List.mem_filter, decide_eq_true_iff]
  rfl

theorem referenceImports_concat (files : List Path) (file : Path) :
    referenceImports o names source (files ++ [file])
      = referenceImports o names source files ++
        if (referenceImport o source file).symbol ∈ neededNames names ∧
            (referenceImport o source file).symbol
              ∉ (referenceImports o names source files).map Import.symbol
        then [referenceImport o source file] else [] := by
  rw [referenceImports, List.map_append, List.filter_append, List.map_singleton]
  by_cases hneeded : (referenceImport o source file).symbol ∈ neededNames names
  · rw [List.filter_cons_of_pos (by simpa using hneeded), List.filter_nil, distinctBy_concat]
    congr 1
    rw [referenceImports]
    by_cases hseen : (referenceImport o source file).symbol
        ∈ ((files.map (referenceImport o source)).filter
          (·.symbol ∈ neededNames names)).map Import.symbol
    · rw [if_pos hseen, if_neg fun h => h.2 (mem_distinctBy_key.2 hseen)]
    · rw [if_neg hseen, if_pos ⟨hneeded, fun h => hseen (mem_distinctBy_key.1 h)⟩]
  · rw [List.filter_cons_of_neg (by simpa using hneeded), List.filter_nil, List.append_nil,
      if_neg fun h => hneeded h.1, List.append_nil, referenceImports]

/-- The search at the files. Only declared names are available before it, and a needed name is
not declared, so a name is available when an earlier file stands for it. -/
theorem foldl_visitReference (files : List Path) :
    files.foldl (Search.visitReference o names source) (.start names)
      = (Search.start names).after ((referenceImports o names source files).map .found) := by
  induction files using List.reverseRecOn with
  | nil => simp [referenceImports]
  | append_singleton files file ih =>
      rw [List.foldl_append, ih, List.foldl_cons, List.foldl_nil, referenceImports_concat]
      have hiff : (referenceImport o source file).symbol ∈ neededNames names →
          ((referenceImport o source file).symbol
            ∉ ((Search.start names).after ((referenceImports o names source files).map .found)).available
          ↔ (referenceImport o source file).symbol
            ∉ (referenceImports o names source files).map Import.symbol) := by
        intro hneeded
        rw [Search.after, symbols_map_found, List.mem_append, not_or]
        exact and_iff_right (mem_neededNames.mp hneeded).2
      rw [Search.visitReference]
      by_cases hnew : (referenceImport o source file).symbol ∈ neededNames names ∧
          (referenceImport o source file).symbol
            ∉ (referenceImports o names source files).map Import.symbol
      · rw [if_pos ⟨hnew.1, (hiff hnew.1).mpr hnew.2⟩, if_pos hnew, List.map_append,
          Search.after_append, List.map_singleton, Search.after_found]
      · rw [if_neg fun h => hnew ⟨h.1, (hiff h.1).mp h.2⟩, if_neg hnew, List.append_nil]

theorem visitBase_eq_settle (s : Search) (base : String) :
    s.visitBase o source isFile base
      = s.settle o.missingReferences (baseFindings o source isFile s.available [base]) := by
  rw [Search.visitBase, baseFindings]
  split
  · exact (congrArg _ s.after_nil.symm).trans
      (Search.settle_of_absences_eq_nil o.missingReferences s rfl).symm
  · split
    · exact (Search.settle_found o.missingReferences s (baseImport o base)).symm
    · exact (Search.settle_missing_base o.missingReferences s base _).symm

theorem baseFindings_cons (available : List String) (base : String) (rest : List String) :
    baseFindings o source isFile available (base :: rest)
      = baseFindings o source isFile available [base]
        ++ baseFindings o source isFile
          (available ++ symbols (baseFindings o source isFile available [base])) rest := by
  rw [baseFindings, baseFindings]
  split
  · simp [baseFindings]
  · split <;> simp [baseFindings, baseImport]

/-- The search at the bases. -/
theorem foldlM_visitBase (s : Search) (bases : List String) :
    bases.foldlM (Search.visitBase o source isFile) s
      = s.settle o.missingReferences (baseFindings o source isFile s.available bases) := by
  induction bases generalizing s with
  | nil =>
      rw [List.foldlM_nil, baseFindings, Search.settle_of_absences_eq_nil _ _ rfl, Search.after_nil]
      rfl
  | cons base rest ih =>
      rw [List.foldlM_cons, visitBase_eq_settle, baseFindings_cons s.available base rest]
      exact Search.settle_append (rest.foldlM (Search.visitBase o source isFile)) (ih _)

/-- The search at its end. -/
theorem finish_eq_settle (s : Search) :
    s.finish o names
      = (s.settle o.missingReferences (nameFindings names s.available)).map (·.block) := by
  rw [Search.finish, nameFindings, absentNames]
  cases (neededNames names).filter (· ∉ s.available) with
  | nil =>
      rw [if_pos rfl, Search.settle_of_absences_eq_nil _ _ rfl, Search.after_nil]
      rfl
  | cons name rest =>
      rw [if_neg (List.cons_ne_nil _ _), Search.settle_missing_names]

/-- The search at the files and the bases. -/
theorem visit_eq_settle (types : List Descriptor) :
    names.bases.toList.foldlM (Search.visitBase o source isFile)
        ((referencedFiles types).foldl (Search.visitReference o names source) (.start names))
      = (Search.start names).settle o.missingReferences
          (visitFindings o names source isFile types) := by
  rw [foldl_visitReference, foldlM_visitBase, visitFindings,
    ← Search.settle_append (fun later => later.settle _ _) rfl,
    Search.settle_of_absences_eq_nil _ _ (absences_map_found _), Search.after, symbols_map_found]
  rfl

/-- **The search for imports comes to its findings.** Its block tells all of them, unless the
policy makes the first missing one the answer. -/
theorem resolveImports_eq_settle (types : List Descriptor) :
    resolveImports o types names source isFile
      = ((Search.start names).settle o.missingReferences
          (findings o names source isFile types)).map (·.block) := by
  rw [resolveImports, findings]
  split
  · rw [Search.settle_of_absences_eq_nil _ _ rfl, Search.after_nil]
    rfl
  · have hend : ((Search.start names).settle o.missingReferences
          (visitFindings o names source isFile types)).bind
            (fun later => later.settle o.missingReferences (nameFindings names later.available))
        = (Search.start names).settle o.missingReferences
            (visitFindings o names source isFile types ++ nameFindings names
              (names.declared.toList ++ symbols (visitFindings o names source isFile types))) :=
      Search.settle_append _ rfl
    show (names.bases.toList.foldlM (Search.visitBase o source isFile)
        ((referencedFiles types).foldl (Search.visitReference o names source) (.start names))).bind
          (Search.finish o names)
      = Except.map _ ((Search.start names).settle o.missingReferences (_ ++ _))
    rw [visit_eq_settle, ← hend]
    cases (Search.start names).settle o.missingReferences
        (visitFindings o names source isFile types) with
    | error what => rfl
    | ok later => exact finish_eq_settle later

/-- Searches that come to the same are the same, whatever types and files they look at. -/
theorem resolveImports_of_findings_eq {types types' : List Descriptor} {isFile' : Path → Bool}
    (h : findings o names source isFile types = findings o names source isFile' types') :
    resolveImports o types names source isFile = resolveImports o types' names source isFile' := by
  rw [resolveImports_eq_settle, resolveImports_eq_settle, h]

/-- Where something may be missing, the search ends with a block that tells all findings. -/
theorem resolveImports_warn (hwarn : o.missingReferences = .warn) (types : List Descriptor) :
    resolveImports o types names source isFile
      = .ok (.ofFindings (findings o names source isFile types)) := by
  rw [resolveImports_eq_settle, hwarn, Search.settle_warn]
  rfl

/-- Where nothing may be missing, the search ends with the first missing thing, if there is
one. -/
theorem resolveImports_fail (hfail : o.missingReferences = .fail) (types : List Descriptor) :
    resolveImports o types names source isFile
      = match absences (findings o names source isFile types) with
        | [] => .ok (.ofFindings (findings o names source isFile types))
        | what :: _ => .error what := by
  rw [resolveImports_eq_settle, hfail]
  cases h : absences (findings o names source isFile types) with
  | nil =>
      rw [Search.settle_of_absences_eq_nil _ _ h]
      rfl
  | cons what rest =>
      rw [Search.settle_fail_of_cons _ h]
      rfl

end Run

end Typings
