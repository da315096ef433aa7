import Typings.Proofs.Body.OnePass

/-!
# The slots of a body are filled

Replacing the tokens of a body is the same as writing its draft with the clauses in its slots.
This ties the finished text to the draft from which the raw text is written, so that what holds
of the other steps of a draft can be carried over to the finished text.

## Main definitions

* `Body.filling` — what stands in the slot for a base at the end.

## Main results

* `Body.reconcile_render_eq_filled` — the body with its clauses in place.
* `Body.filling_eq_clause` — what stands in the header of a type.
-/

namespace Typings

open Extends

namespace Body

/-- What stands in the slot for a base at the end: nothing if the base is missing, and else the
clause that is registered for it. -/
def filling (o : Options) (types : List Descriptor) (unresolved : List String) (base : String) :
    String :=
  ((render o types).clauses.meaning unresolved base).getD (token base)

section

variable {o : Options} {types : List Descriptor} {unresolved : List String}

/-- In the header of a type stands its own clause. -/
theorem filling_eq_clause {d : Descriptor} (hd : d ∈ types) {base : String}
    (hbase : d.extendedBase? = some base) :
    filling o types unresolved base = OnePass.clause o types unresolved d := by
  rw [filling, OnePass.meaning_eq_clause o unresolved (Descriptor.mem_renderOrder.mpr hd) hbase,
    Option.getD_some]

/-- With the clauses in its slots, the draft of a body writes what the draft in one pass writes. -/
theorem written_draft_filling (o : Options) (types : List Descriptor) (unresolved : List String)
    (slot : String → String) (level : Nat) :
    Draft.written (filling o types unresolved) level (draft o types)
      = Draft.written slot level (OnePass.draft o (OnePass.clause o types unresolved) types) := by
  have hbecomes : Draft.Becomes id (filling o types unresolved) (draft o types)
      (OnePass.draft o (OnePass.clause o types unresolved) types) := by
    refine OnePass.becomes_draft (fun d _ => d.passes_id o) fun d hd base hbase behind => ?_
    rw [filling_eq_clause hd hbase]
    rfl
  have h := (hbecomes level).2 slot []
  rwa [id_eq, id_eq, List.append_nil, List.append_nil] at h

/-- **The body with its clauses in place is its draft with the clauses in its slots.** -/
theorem reconcile_render_eq_filled (hsafe : ∀ d ∈ types, d.TokenSafe) :
    (render o types).clauses.reconcile unresolved (render o types).text
      = (draft o types).text (filling o types unresolved) := by
  rw [OnePass.reconcile_render_eq_text hsafe, OnePass.text, ← String.toList_inj,
    Draft.toList_text, Draft.toList_text]
  exact (written_draft_filling o types unresolved _ 0).symm

/-- No token is left when all slots are filled. -/
theorem plain_filled (unresolved : List String) (hsafe : ∀ d ∈ types, d.TokenSafe) :
    Plain ((draft o types).text (filling o types unresolved)).toList := by
  have hplain : ∀ d ∈ types, AllPlain d.texts := fun d hd => (hsafe d hd).plain
  rw [Draft.toList_text, written_draft_filling o types unresolved (fun _ => "")]
  exact (OnePass.sealed_draft o hplain (OnePass.sealed_clause o unresolved hplain) _ 0).plain

end

end Body

end Typings
