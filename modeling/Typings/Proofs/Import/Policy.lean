import Typings.Definitions
import Typings.Proofs.Import.Settings

/-!
# The policy for what is missing

Under the policy that only warns, a definition file is always written, and what is missing is
told in it. Under the policy that fails, the same search ends at the first thing that is
missing. So the second run is determined by the first one: it gives the same file if there is
nothing missing in it, and the first thing that is missing otherwise.

The findings of a search do not depend on the policy, and neither does the body, so the two runs
are compared on one list.

## Main results

* `resolveImports_policy` — the two searches for imports.
* `generate_policy` — the two definition files, and the two searches for any names.
-/

namespace Typings

/-- The answer under the policy that fails, given what is missing in the answer under the
policy that warns. -/
def Missing.firstOr {α : Type} (answer : α) : List Missing → Except Missing α
  | [] => .ok answer
  | what :: _ => .error what

theorem Missing.firstOr_bind {α β : Type} (answer : α) (absences : List Missing) (f : α → β) :
    (firstOr answer absences).bind (fun a => .ok (f a)) = firstOr (f answer) absences := by
  cases absences <;> rfl

section

variable (o : Options) (types : List Descriptor) (names : Names) (source : Path)
  (isFile : Path → Bool)

/-- What the search for imports comes to does not depend on the policy. -/
theorem findings_policy (policy : MissingPolicy) :
    findings { o with missingReferences := policy } names source isFile types
      = findings o names source isFile types := by
  have halike : Options.SearchAlike { o with missingReferences := policy } o :=
    ⟨rfl, rfl, rfl, rfl⟩
  exact findings_congr halike names source isFile types

/-- The search that warns ends with a block. The search that fails ends with the same block if
nothing is missing in it, and with the first missing thing otherwise. -/
theorem resolveImports_policy :
    ∃ block, resolveImports { o with missingReferences := .warn } types names source isFile
        = .ok block ∧
      resolveImports { o with missingReferences := .fail } types names source isFile
        = Missing.firstOr block block.warnings := by
  refine ⟨.ofFindings (findings o names source isFile types), ?_, ?_⟩
  · rw [resolveImports_warn rfl, findings_policy]
  · rw [resolveImports_fail rfl, findings_policy]
    rfl

/-- The body and the layout of a file do not depend on the policy: the file follows from what
the search for imports answers. -/
theorem generate_eq_bind (policy : MissingPolicy) :
    generate { o with missingReferences := policy } types source isFile
      = (resolveImports { o with missingReferences := policy } types (Body.render o types).names
          source isFile).bind fun imports =>
        .ok ⟨o.normalize (rawText o source (Body.render o types) imports), imports.warnings⟩ := by
  have halike : Options.WriteAlike { o with missingReferences := policy } o :=
    ⟨⟨rfl, rfl, rfl⟩, rfl, rfl⟩
  rw [generate, Body.render_congr halike]
  rfl

/-- **Failing is warning, cut off at the first warning.** The run that warns always gives a file.
The run that fails gives the same file if nothing is missing in it, and otherwise the first
thing that is missing in it. The searches for imports are related in the same way, whatever
names they are given. -/
theorem generate_policy :
    (∃ file, generate { o with missingReferences := .warn } types source isFile = .ok file ∧
        generate { o with missingReferences := .fail } types source isFile
          = Missing.firstOr file file.warnings) ∧
      ∀ names : Names, ∃ block,
        resolveImports { o with missingReferences := .warn } types names source isFile
          = .ok block ∧
        resolveImports { o with missingReferences := .fail } types names source isFile
          = Missing.firstOr block block.warnings := by
  refine ⟨?_, fun names => resolveImports_policy o types names source isFile⟩
  obtain ⟨block, hwarn, hfail⟩ :=
    resolveImports_policy o types (Body.render o types).names source isFile
  refine ⟨⟨o.normalize (rawText o source (Body.render o types) block), block.warnings⟩, ?_, ?_⟩
  · rw [generate_eq_bind, hwarn]
    rfl
  · rw [generate_eq_bind, hfail, Missing.firstOr_bind]

end

end Typings
