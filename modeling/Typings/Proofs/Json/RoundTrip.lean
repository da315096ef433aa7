import Typings.Json.Reader
import Typings.Proofs.Json.Tokens

/-!
# Reading a written value

The reader puts a value into the innermost bracket as soon as its last token is read, and it
does not matter to the value what that bracket holds. So the tokens of a value take the reader
from any stack of brackets to where the value has been put into the innermost one, and a value
that is written in the compact layout is read as itself.

## Main definitions

* `Json.Reads` — what the reader makes of the tokens of a value, inside any brackets.

## Main results

* `reads_of_isSpelled` — the reader behind the tokens of a value.
* `parse?_of_tokens` — a text that is made of the tokens of a value.
* `parse?_compact` — a written value is read as itself.
-/

namespace Typings.Json

/-! ## Running the reader -/

/-- The reader behind some tokens. -/
def Reader.run (r : Reader) (tokens : List Token) : Option Reader := tokens.foldlM Reader.step r

theorem run_step (r : Reader) (token : Token) (rest : List Token) :
    r.run (token :: rest) = (r.step token).bind (Reader.run · rest) := List.foldlM_cons

theorem run_cons {r r' : Reader} {token : Token} (h : r.step token = some r')
    (rest : List Token) : r.run (token :: rest) = r'.run rest := by
  rw [run_step, h, Option.bind_some]

/-- A value may stand next, perhaps instead of the end of an array. -/
def Expected.TakesValue : Expected → Prop
  | .value | .valueOrEnd => True
  | _ => False

/-- A key may stand next, perhaps instead of the end of an object. -/
def Expected.TakesKey : Expected → Prop
  | .key | .keyOrEnd => True
  | _ => False

variable {frames : List Frame} {e : Expected} {rest : List Token}

/-- Where a value may stand, a token starts one unless it closes an array. -/
theorem step_of_takesValue (he : e.TakesValue) {token : Token} (h : token ≠ .closeArray) :
    Reader.step ⟨frames, e⟩ token = Reader.start frames token := by
  cases e with
  | value => rfl
  | valueOrEnd => cases token <;> first | rfl | exact absurd rfl h
  | _ => exact he.elim

theorem step_of_takesKey (he : e.TakesKey) (key : Option String) :
    Reader.step ⟨frames, e⟩ (.string key) = some ⟨frames, .colon key⟩ := by
  cases e with
  | key => rfl
  | keyOrEnd => rfl
  | _ => exact he.elim

/-- A comma is followed by the next item. -/
theorem run_comma_array (taken : List Json) (rest : List Token) :
    Reader.run ⟨.array taken :: frames, .next⟩ (.comma :: rest)
      = Reader.run ⟨.array taken :: frames, .value⟩ rest := run_cons rfl rest

/-- A comma is followed by the next key. -/
theorem run_comma_object (taken : List (Option String × Json)) (rest : List Token) :
    Reader.run ⟨.object taken :: frames, .next⟩ (.comma :: rest)
      = Reader.run ⟨.object taken :: frames, .key⟩ rest := run_cons rfl rest

/-- A colon is followed by the value for the key in front. -/
theorem run_colon (taken : List (Option String × Json)) (key : Option String)
    (rest : List Token) :
    Reader.run ⟨.object taken :: frames, .colon key⟩ (.colon :: rest)
      = Reader.run ⟨.member taken key :: frames, .value⟩ rest := run_cons rfl rest

/-- The first token of a value. -/
theorem run_start (he : e.TakesValue) {token : Token} (h : token ≠ .closeArray)
    (rest : List Token) :
    Reader.run ⟨frames, e⟩ (token :: rest)
      = (Reader.start frames token).bind (Reader.run · rest) := by
  rw [run_step, step_of_takesValue he h]

/-! ## The parts of an array or object -/

/-- The tokens of a value take the reader to where the value has been put into the innermost
bracket. -/
def Reads (v : Json) : Prop :=
  ∀ (frames : List Frame) (e : Expected) (rest : List Token), e.TakesValue →
    Reader.run ⟨frames, e⟩ (v.tokens ++ rest) = (Reader.complete v frames).bind (Reader.run · rest)

/-- Items with commas between them are put into their array one by one. -/
theorem run_items {items : List Json} (hne : items ≠ []) (hread : ∀ item ∈ items, item.Reads)
    (he : e.TakesValue) (taken : List Json) :
    Reader.run ⟨.array taken :: frames, e⟩ ([.comma].intercalate (items.map tokens) ++ rest)
      = Reader.run ⟨.array (items.reverse ++ taken) :: frames, .next⟩ rest := by
  induction items generalizing taken e with
  | nil => exact absurd rfl hne
  | cons item others ih =>
      have hitem := hread item (by simp)
      cases others with
      | nil =>
          rw [List.map_singleton, List.intercalate_singleton, hitem _ _ _ he]
          rfl
      | cons next others =>
          have hothers := ih (e := .value) (by simp) (fun y hy => hread y (by simp [hy])) trivial
            (item :: taken)
          rw [List.map_cons, List.map_cons, List.intercalate_cons_cons, List.append_assoc,
            List.append_assoc, hitem _ _ _ he, List.singleton_append, List.reverse_cons,
            List.append_assoc]
          exact (run_comma_array _ _).trans hothers

/-- A key, its colon and its value. -/
theorem run_member {member : String × Json} (hread : member.2.Reads) (he : e.TakesKey)
    (taken : List (Option String × Json)) :
    Reader.run ⟨.object taken :: frames, e⟩ (memberTokens member ++ rest)
      = Reader.run ⟨.object ((some member.1, member.2) :: taken) :: frames, .next⟩ rest := by
  have hkey : Reader.run ⟨.object taken :: frames, e⟩ (memberTokens member ++ rest) = _ :=
    run_cons (step_of_takesKey he (some member.1)) (.colon :: (member.2.tokens ++ rest))
  have hvalue := hread (.member taken (some member.1) :: frames) .value rest trivial
  exact hkey.trans ((run_colon _ _ _).trans hvalue)

/-- Members with commas between them are put into their object one by one. -/
theorem run_members {members : List (String × Json)} (hne : members ≠ [])
    (hread : ∀ member ∈ members, member.2.Reads) (he : e.TakesKey)
    (taken : List (Option String × Json)) :
    Reader.run ⟨.object taken :: frames, e⟩
        ([.comma].intercalate (members.map memberTokens) ++ rest)
      = Reader.run
        ⟨.object ((members.map fun member => (some member.1, member.2)).reverse ++ taken) :: frames,
          .next⟩ rest := by
  induction members generalizing taken e with
  | nil => exact absurd rfl hne
  | cons member others ih =>
      have hmember := hread member (by simp)
      cases others with
      | nil =>
          rw [List.map_singleton, List.intercalate_singleton, run_member hmember he]
          rfl
      | cons next others =>
          have hothers := ih (e := .key) (by simp) (fun y hy => hread y (by simp [hy])) trivial
            ((some member.1, member.2) :: taken)
          rw [List.map_cons, List.map_cons, List.intercalate_cons_cons, List.append_assoc,
            List.append_assoc, run_member hmember he, List.singleton_append, List.map_cons,
            List.reverse_cons, List.append_assoc]
          exact (run_comma_object _ _).trans hothers

theorem mapM_keys (members : List (String × Json)) :
    (members.map fun member => (some member.1, member.2)).mapM
      (fun (key, value) => key.map (·, value)) = some members := by
  induction members with
  | nil => rfl
  | cons member rest ih =>
      rw [List.map_cons, List.mapM_cons, ih]
      rfl

/-- An object whose keys are texts is read as the object that it is. -/
theorem ofMembers_map (members : List (String × Json)) :
    ofMembers (members.map fun member => (some member.1, member.2)) = .object members := by
  rw [ofMembers, mapM_keys]

/-! ## Values -/

mutual

/-- **Every value with a spelling** is read from its tokens. -/
theorem reads_of_isSpelled : (v : Json) → v.isSpelled = true → v.Reads
  | .null, _, frames, e, rest, he => by
      rw [tokens]
      exact run_start he (by simp) rest
  | .bool value, _, frames, e, rest, he => by
      rw [tokens]
      exact run_start he (by simp) rest
  | .number literal, _, frames, e, rest, he => by
      rw [tokens]
      exact run_start he (by simp) rest
  | .string text, _, frames, e, rest, he => by
      rw [tokens]
      exact run_start he (by simp) rest
  | .array items, h, frames, e, rest, he => by
      rw [isSpelled] at h
      rw [tokens, itemsTokens_eq_map, List.cons_append, run_start he (by simp)]
      show Reader.run ⟨.array [] :: frames, .valueOrEnd⟩ _ = _
      rw [List.append_assoc]
      cases items with
      | nil => exact run_step _ _ rest
      | cons item others =>
          rw [run_items (e := .valueOrEnd) (by simp) (reads_items (item :: others) h) trivial,
            List.append_nil, List.singleton_append, run_step]
          show (Reader.complete (.array (item :: others).reverse.reverse) frames).bind _ = _
          rw [List.reverse_reverse]
  | .object members, h, frames, e, rest, he => by
      rw [isSpelled] at h
      rw [tokens, membersTokens_eq_map, List.cons_append, run_start he (by simp)]
      show Reader.run ⟨.object [] :: frames, .keyOrEnd⟩ _ = _
      rw [List.append_assoc]
      cases members with
      | nil => exact run_step _ _ rest
      | cons member others =>
          rw [run_members (e := .keyOrEnd) (by simp) (reads_members (member :: others) h) trivial,
            List.append_nil, List.singleton_append, run_step]
          show (Reader.complete (ofMembers (List.reverse (List.reverse _))) frames).bind _ = _
          rw [List.reverse_reverse, ofMembers_map]
  | .unreadable, h, _, _, _, _ => by cases h

theorem reads_items :
    (items : List Json) → itemsSpelled items = true → ∀ item ∈ items, item.Reads
  | [], _ => by simp
  | item :: rest, h => by
      rw [itemsSpelled, Bool.and_eq_true] at h
      exact List.forall_mem_cons.mpr ⟨reads_of_isSpelled item h.1, reads_items rest h.2⟩

theorem reads_members :
    (members : List (String × Json)) → membersSpelled members = true →
      ∀ member ∈ members, member.2.Reads
  | [], _ => by simp
  | (key, value) :: others, h => by
      rw [membersSpelled, Bool.and_eq_true] at h
      exact List.forall_mem_cons.mpr ⟨reads_of_isSpelled value h.1, reads_members others h.2⟩

end

/-- A text is read as a value if its tokens are those of the value. -/
theorem parse?_of_tokens {text : String} {v : Json} (h : v.isSpelled = true)
    (htext : tokens? text.toList = some v.tokens) : parse? text = some v := by
  have hrun : Reader.run ⟨[], .value⟩ v.tokens = some ⟨[], .nothing v⟩ := by
    have htokens := reads_of_isSpelled v h [] .value [] trivial
    rw [List.append_nil] at htokens
    exact htokens
  have hread : ofTokens? v.tokens = some v := by
    show (Reader.run ⟨[], .value⟩ v.tokens).bind _ = _
    rw [hrun]
    rfl
  rw [parse?, htext]
  exact hread

/-- **A written value is read as itself.** -/
theorem parse?_compact {v : Json} (h : v.isSpelled = true) : parse? v.compact = some v :=
  parse?_of_tokens h (tokens?_compact h)

end Typings.Json
