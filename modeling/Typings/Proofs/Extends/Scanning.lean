import Typings.Proofs.Extends.Token

/-!
# A body cut at its tokens

Reconciling goes through a body once, from left to right. What it does can be said without this
pass: each body can be cut into texts in which no token starts, tokens between them, and at the
end perhaps the start of a token that nothing ends. Reconciling keeps the texts and the end, and
puts something in place of each token, all at once: what is put there is never looked at again,
even if it is a token itself.

No token starts across a cut, since the first character of a token does not stand again in the
start of one.

## Main definitions

* `Segment`, `Scan` — a body cut at its tokens.
* `Scan.spell` — the body again, with a text in place of each token.

## Main results

* `substitute_plain` — the pass keeps a plain text in front of a token.
* `exists_scan` — each body can be cut.
* `reconcile_spell` — what reconciling makes of a body.
-/

namespace Typings.Extends

/-! ## Cutting -/

/-- A token, and the text in front of it. -/
structure Segment where
  /-- The text in front of the token. -/
  before : String
  /-- The base that the token names. -/
  base : String
  /-- No token starts in the text. -/
  plain : Plain before.toList
  /-- The token does not end inside the name. -/
  whole : tokenEnd ∉ base.toList

/-- A body cut at its tokens. -/
structure Scan where
  /-- The tokens, each with the text in front of it. -/
  segments : List Segment
  /-- The text behind the last token. -/
  last : String
  /-- What starts like a token and has no end. -/
  tail : String
  /-- No token starts in the text behind the last token. -/
  plain : Plain last.toList
  /-- Nothing ends the tail. -/
  unended : tail = "" ∨ ∃ behind, tail = tokenStart ++ behind ∧ tokenEnd ∉ behind.toList

namespace Scan

/-- The characters of some segments, with a text in place of each token. -/
def segmentChars (written : String → String) (segments : List Segment) : List Char :=
  segments.flatMap fun s => s.before.toList ++ (written s.base).toList

/-- The body, with a text in place of each token. -/
def spell (s : Scan) (written : String → String) : String :=
  String.ofList (segmentChars written s.segments ++ (s.last.toList ++ s.tail.toList))

theorem segmentChars_cons (written : String → String) (s : Segment) (rest : List Segment) :
    segmentChars written (s :: rest)
      = s.before.toList ++ ((written s.base).toList ++ segmentChars written rest) := by
  rw [segmentChars, List.flatMap_cons, List.append_assoc]
  rfl

end Scan

/-! ## The pass over the parts of a body -/

/-- In a plain text in front of a token, or at the end, no token starts that goes on behind it. -/
theorem not_prefix_of_plain {c : Char} {rest behind : List Char} (h : Plain (c :: rest))
    (hbehind : behind = [] ∨ behind.head? = some '#') :
    ¬ tokenStart.toList <+: c :: rest ++ behind := by
  intro hstart
  rcases List.prefix_or_prefix_of_prefix hstart (List.prefix_append (c :: rest) behind) with
    hp | ⟨more, hmore⟩
  · exact h hp.isInfix
  · rw [← hmore, List.prefix_append_right_inj] at hstart
    cases more with
    | nil =>
        rw [List.append_nil] at hmore
        exact h (hmore ▸ List.infix_rfl)
    | cons x more =>
        -- The start of a token would have to go on with its own first character.
        have hx : x = '#' := by
          obtain ⟨others, hothers⟩ := hstart
          rcases hbehind with hnil | hhead
          · rw [hnil] at hothers
            cases hothers
          · rw [← hothers] at hhead
            exact Option.some.inj hhead
        rw [tokenStart_eq, List.cons_append, List.cons.injEq] at hmore
        have hmem : '#' ∈ "\x7bExtendsPlaceholder_".toList := by
          rw [← hmore.2, hx]
          exact List.mem_append_right _ (List.mem_cons_self ..)
        exact absurd hmem (by decide)

/-- The pass keeps a plain text in front of a token, or at the end. -/
theorem substitute_plain (meaning : String → Option String) {a behind : List Char} (ha : Plain a)
    (hbehind : behind = [] ∨ behind.head? = some '#') :
    Text.substitute (tokenRule meaning) (a ++ behind)
      = a ++ Text.substitute (tokenRule meaning) behind := by
  induction a with
  | nil => rfl
  | cons c rest ih =>
      have hstart : tokenAt? (c :: (rest ++ behind)) = none :=
        tokenAt?_of_not_prefix (not_prefix_of_plain ha hbehind)
      have hrest : Plain rest := ha.mono (List.suffix_cons c rest).isInfix
      rw [List.cons_append, substitute_kept meaning hstart, ih hrest, List.cons_append]

/-- The pass keeps a text in which no token can end. -/
theorem substitute_unended (meaning : String → Option String) {text : List Char}
    (h : tokenEnd ∉ text) : Text.substitute (tokenRule meaning) text = text := by
  induction text with
  | nil => rfl
  | cons c rest ih =>
      have hstart : tokenAt? (c :: rest) = none := by
        rw [Option.eq_none_iff_forall_ne_some]
        intro base hbase
        obtain ⟨-, behind, hbehind⟩ := exists_token_of_tokenAt? hbase
        rw [hbehind, token_toList] at h
        simp at h
      have hrest : tokenEnd ∉ rest := fun hm => h (List.mem_cons_of_mem c hm)
      rw [substitute_kept meaning hstart, ih hrest]

theorem head?_token (base : String) (behind : List Char) :
    ((token base).toList ++ behind).head? = some '#' := by
  rw [token_toList, tokenStart_eq]
  rfl

/-- The pass keeps the end of a body. -/
theorem substitute_end (meaning : String → Option String) (s : Scan) :
    Text.substitute (tokenRule meaning) (s.last.toList ++ s.tail.toList)
      = s.last.toList ++ s.tail.toList := by
  rcases s.unended with hnil | ⟨behind, hbehind, hend⟩
  · rw [substitute_plain meaning s.plain (Or.inl (by rw [hnil]; rfl)), hnil]
    rfl
  · have htail : s.tail.toList = tokenStart.toList ++ behind.toList := by
      rw [hbehind, String.toList_append]
    have hopen : tokenEnd ∉ s.tail.toList := by
      rw [htail, List.mem_append, not_or]
      exact ⟨by decide, hend⟩
    have hhead : s.tail.toList.head? = some '#' := by
      rw [htail, tokenStart_eq]
      rfl
    rw [substitute_plain meaning s.plain (Or.inr hhead), substitute_unended meaning hopen]

/-- The pass replaces the token of each segment. -/
theorem substitute_segmentChars (meaning : String → Option String) (segments : List Segment)
    (s : Scan) :
    Text.substitute (tokenRule meaning)
        (Scan.segmentChars token segments ++ (s.last.toList ++ s.tail.toList))
      = Scan.segmentChars (fun base => (meaning base).getD (token base)) segments
        ++ (s.last.toList ++ s.tail.toList) := by
  induction segments with
  | nil => exact substitute_end meaning s
  | cons segment rest ih =>
      rw [Scan.segmentChars_cons, Scan.segmentChars_cons, List.append_assoc, List.append_assoc,
        substitute_plain meaning segment.plain (Or.inr (head?_token ..)),
        substitute_token meaning segment.whole, ih, List.append_assoc, List.append_assoc]

/-! ## Each body can be cut -/

/-- What is in front of the first place where a token starts is plain. -/
theorem exists_first_start {text : List Char} (h : ¬ Plain text) :
    ∃ before behind, text = before ++ (tokenStart.toList ++ behind) ∧ Plain before := by
  induction text with
  | nil => exact absurd plain_nil h
  | cons c rest ih =>
      by_cases hstart : tokenStart.toList <+: c :: rest
      · obtain ⟨behind, hbehind⟩ := hstart
        exact ⟨[], behind, hbehind.symm, plain_nil⟩
      · have hrest : ¬ Plain rest := by
          intro hplain
          refine h fun hinfix => ?_
          rcases List.infix_cons_iff.mp hinfix with hp | hi
          · exact hstart hp
          · exact hplain hi
        obtain ⟨before, behind, rfl, hbefore⟩ := ih hrest
        refine ⟨c :: before, behind, rfl, fun hinfix => ?_⟩
        rcases List.infix_cons_iff.mp hinfix with hp | hi
        · exact hstart (hp.trans (List.prefix_append (c :: before) _))
        · exact hbefore hi

/-- Each text can be cut at its tokens. -/
theorem exists_segmentChars (text : List Char) :
    ∃ s : Scan, text = Scan.segmentChars token s.segments ++ (s.last.toList ++ s.tail.toList) := by
  induction hn : text.length using Nat.strongRecOn generalizing text with
  | ind n ih =>
      by_cases hplain : Plain text
      · refine ⟨⟨[], String.ofList text, "", by rwa [String.toList_ofList], Or.inl rfl⟩, ?_⟩
        simp [Scan.segmentChars]
      · obtain ⟨before, behind, rfl, hbefore⟩ := exists_first_start hplain
        have hbefore' : Plain (String.ofList before).toList := by rwa [String.toList_ofList]
        cases hsplit : Text.splitFirst tokenEnd behind with
        | none =>
            have hopen : tokenEnd ∉ (String.ofList behind).toList := by
              rw [String.toList_ofList]
              exact Text.splitFirst_eq_none_iff.mp hsplit
            refine ⟨⟨[], String.ofList before, tokenStart ++ String.ofList behind, hbefore',
              Or.inr ⟨_, rfl, hopen⟩⟩, ?_⟩
            simp [Scan.segmentChars]
        | some parts =>
            obtain ⟨base, rest⟩ := parts
            have hbehind := Text.append_of_splitFirst hsplit
            have hwhole : tokenEnd ∉ (String.ofList base).toList := by
              rw [String.toList_ofList]
              exact Text.not_mem_of_splitFirst hsplit
            have hlen : rest.length < n := by
              rw [← hn, hbehind]
              simp only [List.length_append, List.length_cons]
              omega
            obtain ⟨s, hs⟩ := ih rest.length hlen rest rfl
            refine ⟨{ s with
              segments := ⟨String.ofList before, String.ofList base, hbefore', hwhole⟩
                :: s.segments }, ?_⟩
            rw [Scan.segmentChars_cons, token_toList, hbehind, hs]
            simp

theorem exists_scan (body : String) : ∃ s : Scan, s.spell token = body := by
  obtain ⟨s, hs⟩ := exists_segmentChars body.toList
  exact ⟨s, by rw [Scan.spell, ← hs, String.ofList_toList]⟩

/-! ## Reconciling -/

/-- **Reconciling replaces all tokens at once.** Each body can be cut at its tokens, and however
it is cut: the token for a base that has a clause becomes this clause, or nothing if the base has
not been found, and all else stays. -/
theorem reconcile_spell :
    (∀ body : String, ∃ s : Scan, s.spell token = body) ∧
      ∀ (r : Registry) (unresolved : List String) (s : Scan),
        r.reconcile unresolved (s.spell token) = s.spell fun base =>
          match r.get? base with
          | some clause => if base ∈ unresolved then "" else clause
          | none => token base := by
  refine ⟨exists_scan, fun r unresolved s => ?_⟩
  have hmeaning : (fun base => ((r.meaning unresolved) base).getD (token base))
      = fun base => match r.get? base with
        | some clause => if base ∈ unresolved then "" else clause
        | none => token base := by
    funext base
    rw [Registry.meaning]
    cases r.get? base <;> rfl
  rw [Registry.reconcile, Scan.spell, String.toList_ofList, substitute_segmentChars, hmeaning]
  rfl

-- A clause that is a token, and the start of a token that swallows the next one.
example : (Registry.empty.registerAll [("A", token "B"), ("B", "extends B ")]).reconcile []
    (token "A" ++ tokenStart ++ token "B") = token "B" ++ tokenStart ++ token "B" := by
  decide +kernel

end Typings.Extends
