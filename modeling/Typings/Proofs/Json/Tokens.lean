import Mathlib.Data.List.TakeWhile
import Typings.Json.Printer
import Typings.Json.Token

/-!
# The tokens of a written value

A value that is written without blanks is read back token by token. A string and a bracket end
by themselves; a word or a number ends where something else stands behind it, and in the compact
layout that is a comma, a closing bracket or the end of the text.

## Main definitions

* `Json.isSpelled` — values that have a spelling: numbers are literals, and nothing is
  unreadable.
* `Json.tokens` — the tokens of a value.
* `scanFrom` — the tokens of a text behind some others.
* `Scans` — a text that is read as some tokens, whatever stands behind it.

## Main results

* `isDelimiter_of_number` — the characters of a number.
* `scanFrom_quote`, `scanFrom_word` — strings and words.
* `tokens?_compact` — the tokens of the compact layout.
-/

namespace Typings.Json

/-! ## Values and their tokens -/

mutual

/-- Whether a value has a spelling. -/
def isSpelled : Json → Bool
  | .number literal => (Number.parse? literal.toList).isSome
  | .array items => itemsSpelled items
  | .object members => membersSpelled members
  | .unreadable => false
  | _ => true

/-- Whether each item has a spelling. -/
def itemsSpelled : List Json → Bool
  | [] => true
  | item :: rest => item.isSpelled && itemsSpelled rest

/-- Whether the value of each member has a spelling. -/
def membersSpelled : List (String × Json) → Bool
  | [] => true
  | (_, value) :: rest => value.isSpelled && membersSpelled rest

end

theorem isSpelled_array_iff {items : List Json} :
    (array items).isSpelled = true ↔ ∀ item ∈ items, item.isSpelled = true := by
  rw [isSpelled]
  induction items with
  | nil => simp [itemsSpelled]
  | cons item rest ih => rw [itemsSpelled, Bool.and_eq_true, ih, List.forall_mem_cons]

theorem isSpelled_object_iff {members : List (String × Json)} :
    (object members).isSpelled = true ↔
      ∀ key value, (key, value) ∈ members → value.isSpelled = true := by
  rw [isSpelled]
  induction members with
  | nil => simp [membersSpelled]
  | cons member rest ih =>
      obtain ⟨key, value⟩ := member
      rw [membersSpelled, Bool.and_eq_true, ih]
      grind

mutual

/-- The tokens of a value. What is unreadable has none. -/
def tokens : Json → List Token
  | .null => [.scalar .null]
  | .bool value => [.scalar (.bool value)]
  | .number literal => [.scalar (.number literal)]
  | .string text => [.string (some text)]
  | .array items => .openArray :: ([.comma].intercalate (itemsTokens items) ++ [.closeArray])
  | .object members =>
    .openObject :: ([.comma].intercalate (membersTokens members) ++ [.closeObject])
  | .unreadable => []

/-- The tokens of each item. -/
def itemsTokens : List Json → List (List Token)
  | [] => []
  | item :: rest => item.tokens :: itemsTokens rest

/-- The tokens of each member. -/
def membersTokens : List (String × Json) → List (List Token)
  | [] => []
  | (key, value) :: rest =>
    (.string (some key) :: .colon :: value.tokens) :: membersTokens rest

end

/-! ## The characters of a number -/

/-- Whether a character ends a word. -/
def isDelimiter (c : Char) : Bool := isSpace c || c = '"' || (punctuation? c).isSome

/-- The characters that numbers are made of. -/
def isNumeric (c : Char) : Bool :=
  c.isDigit || c = '-' || c = '+' || c = '.' || c = 'e' || c = 'E'

theorem isDelimiter_of_isNumeric {c : Char} (h : isNumeric c = true) : isDelimiter c = false := by
  have hne (d : Char) (hd : isNumeric d = false) : c ≠ d := by
    rintro rfl
    rw [h] at hd
    cases hd
  have hspace : isSpace c = false := by
    rw [isSpace]
    simp [hne ' ' (by decide), hne '\t' (by decide), hne '\n' (by decide), hne '\r' (by decide)]
  have hpunctuation : punctuation? c = none := by
    rw [punctuation?, if_neg (hne _ (by decide)), if_neg (hne _ (by decide)),
      if_neg (hne _ (by decide)), if_neg (hne _ (by decide)), if_neg (hne _ (by decide)),
      if_neg (hne _ (by decide))]
  rw [isDelimiter, hspace, hpunctuation]
  simp [hne '"' (by decide)]

theorem isNumeric_of_isDigit {c : Char} (h : c.isDigit = true) : isNumeric c = true := by
  rw [isNumeric, h]
  rfl

/-- An exponent is its letter, perhaps a sign, and digits. -/
theorem isNumeric_of_exponent? {text : List Char} {n : Int} (h : Number.exponent? text = some n) :
    ∀ c ∈ text, isNumeric c = true := by
  have hdigits {digits : List Char} (hsome : Number.exponentDigits? digits ≠ none) :
      ∀ c ∈ digits, isNumeric c = true := by
    obtain ⟨k, hk⟩ := Option.ne_none_iff_exists'.mp hsome
    rw [Number.exponentDigits?, Option.ite_none_right_eq_some] at hk
    exact fun c hc => isNumeric_of_isDigit (List.all_eq_true.mp hk.1.2 c hc)
  rw [Number.exponent?.eq_def] at h
  split at h
  · simp
  · rename_i letter rest
    split at h
    · rename_i hletter
      have hfirst : isNumeric letter = true := by
        rcases hletter with rfl | rfl <;> decide
      refine List.forall_mem_cons.mpr ⟨hfirst, ?_⟩
      split at h
      · exact List.forall_mem_cons.mpr ⟨by decide, hdigits fun hnone => by simp [hnone] at h⟩
      · exact List.forall_mem_cons.mpr ⟨by decide, hdigits fun hnone => by simp [hnone] at h⟩
      · exact hdigits fun hnone => by simp [hnone] at h
    · cases h

theorem isNumeric_of_takeDigits {text digits behind : List Char}
    (h : Number.takeDigits text = (digits, behind)) (hbehind : ∀ c ∈ behind, isNumeric c = true) :
    ∀ c ∈ text, isNumeric c = true := by
  obtain ⟨-, hrest⟩ := Prod.mk.inj h
  intro c hc
  rw [← List.takeWhile_append_dropWhile (p := Char.isDigit) (l := text), List.mem_append] at hc
  rcases hc with hc | hc
  · exact isNumeric_of_isDigit (List.mem_takeWhile_imp hc)
  · exact hbehind c (hrest ▸ hc)

/-- A fraction is a point and digits. -/
theorem isNumeric_of_fraction? {text digits behind : List Char}
    (h : Number.fraction? text = some (digits, behind))
    (hbehind : ∀ c ∈ behind, isNumeric c = true) : ∀ c ∈ text, isNumeric c = true := by
  rw [Number.fraction?.eq_def] at h
  split at h
  · split at h
    rename_i rest _ found behind' hdigits
    split at h
    · cases h
    · cases h
      exact List.forall_mem_cons.mpr ⟨by decide, isNumeric_of_takeDigits hdigits hbehind⟩
  · cases h
    exact hbehind

theorem isNumeric_of_unsigned? {negative : Bool} {text : List Char} {d : Number.Decimal}
    (h : Number.unsigned? negative text = some d) : ∀ c ∈ text, isNumeric c = true := by
  rw [Number.unsigned?] at h
  split at h
  rename_i whole behind hdigits
  split at h
  · cases h
  · obtain ⟨⟨digits, rest⟩, hfraction, h⟩ := Option.bind_eq_some_iff.mp h
    obtain ⟨n, hexponent, -⟩ := Option.bind_eq_some_iff.mp h
    exact isNumeric_of_takeDigits hdigits
      (isNumeric_of_fraction? hfraction (isNumeric_of_exponent? hexponent))

/-- A number is made of digits, signs, a point and the letter of an exponent. -/
theorem isNumeric_of_parse? {text : List Char} {d : Number.Decimal}
    (h : Number.parse? text = some d) : ∀ c ∈ text, isNumeric c = true := by
  rw [Number.parse?.eq_def] at h
  split at h
  · exact List.forall_mem_cons.mpr ⟨by decide, isNumeric_of_unsigned? h⟩
  · exact isNumeric_of_unsigned? h

/-! ## Scanning on -/

/-- The tokens of a text behind some others, which are kept last first. -/
def scanFrom (found : List Token) (text : List Char) : Option (List Token) :=
  (text.foldlM Scanner.step ⟨.between, found⟩).bind Scanner.finish

theorem tokens?_eq (text : List Char) : tokens? text = scanFrom [] text := rfl

variable {found : List Token} {rest : List Char}

theorem scanFrom_nil : scanFrom found [] = some found.reverse := rfl

/-- A character of its own. -/
theorem scanFrom_punctuation {c : Char} {token : Token} (h : punctuation? c = some token) :
    scanFrom found (c :: rest) = scanFrom (token :: found) rest := by
  have hne (d : Char) (hd : punctuation? d = none) : c ≠ d := by
    rintro rfl
    rw [h] at hd
    cases hd
  have hspace : isSpace c = false := by
    rw [isSpace]
    simp [hne ' ' rfl, hne '\t' rfl, hne '\n' rfl, hne '\r' rfl]
  have hstep : Scanner.step ⟨.between, found⟩ c = some ⟨.between, token :: found⟩ := by
    simp [Scanner.step, Scanner.start, hspace, hne '"' rfl, h]
  rw [scanFrom, List.foldlM_cons, hstep]
  rfl

theorem noBlanks : ∀ c ∈ ([] : List Char), isSpace c = true := by simp

/-- Blanks between two tokens. -/
theorem scanFrom_blanks {blanks : List Char} (h : ∀ c ∈ blanks, isSpace c = true) :
    scanFrom found (blanks ++ rest) = scanFrom found rest := by
  induction blanks with
  | nil => rfl
  | cons c blanks ih =>
      obtain ⟨hc, hblanks⟩ := List.forall_mem_cons.mp h
      have hstep : Scanner.step ⟨.between, found⟩ c = some ⟨.between, found⟩ := by
        simp [Scanner.step, Scanner.start, hc]
      rw [List.cons_append, scanFrom, List.foldlM_cons, hstep]
      exact ih hblanks

/-! ## Words -/

/-- Where a word may end. -/
def Ends (rest : List Char) : Prop := ∀ c ∈ rest.head?, isDelimiter c = true

/-- The rest of a word. -/
theorem scan_word {word : List Char} (hword : ∀ c ∈ word, isDelimiter c = false)
    (taken : List Char) :
    (word ++ rest).foldlM Scanner.step ⟨.word taken, found⟩
      = rest.foldlM Scanner.step ⟨.word (word.reverse ++ taken), found⟩ := by
  induction word generalizing taken with
  | nil => rfl
  | cons c word ih =>
      have hc : isDelimiter c = false := hword c (by simp)
      have hstep : Scanner.step ⟨.word taken, found⟩ c = some ⟨.word (c :: taken), found⟩ := by
        rw [isDelimiter] at hc
        simp [Scanner.step, hc]
      rw [List.cons_append, List.foldlM_cons, hstep, List.reverse_cons, List.append_assoc]
      exact ih (fun d hd => hword d (by simp [hd])) (c :: taken)

/-- A word ends in front of a delimiter or with the text. -/
theorem scanFrom_word {word : List Char} {token : Token} (hne : word ≠ [])
    (hword : ∀ c ∈ word, isDelimiter c = false) (htoken : wordToken? word = some token)
    (hrest : Ends rest) : scanFrom found (word ++ rest) = scanFrom (token :: found) rest := by
  obtain ⟨first, others, rfl⟩ := List.exists_cons_of_ne_nil hne
  have hfirst : isDelimiter first = false := hword first (by simp)
  have hstart : Scanner.step ⟨.between, found⟩ first = some ⟨.word [first], found⟩ := by
    rw [isDelimiter, Bool.or_eq_false_iff, Bool.or_eq_false_iff, decide_eq_false_iff_not,
      Option.isSome_eq_false_iff, Option.isNone_iff_eq_none] at hfirst
    obtain ⟨⟨hspace, hquote⟩, hpunctuation⟩ := hfirst
    simp [Scanner.step, Scanner.start, hspace, hquote, hpunctuation]
  have hothers : ∀ c ∈ others, isDelimiter c = false := fun c hc => hword c (by simp [hc])
  have hwhole : (others.reverse ++ [first]).reverse = first :: others := by simp
  rw [scanFrom, List.cons_append, List.foldlM_cons, hstart]
  show ((others ++ rest).foldlM Scanner.step ⟨.word [first], found⟩).bind _ = _
  rw [scan_word hothers]
  cases rest with
  | nil =>
      show (wordToken? (others.reverse ++ [first]).reverse).map _ = _
      rw [hwhole, htoken]
      rfl
  | cons c rest =>
      have hc : isDelimiter c = true := hrest c rfl
      rw [isDelimiter] at hc
      have hstep : Scanner.step ⟨.word (others.reverse ++ [first]), found⟩ c
          = Scanner.step ⟨.between, token :: found⟩ c := by
        simp only [Scanner.step, hc, if_true, hwhole, htoken]
        rfl
      rw [List.foldlM_cons, hstep, scanFrom, List.foldlM_cons]

/-! ## Strings -/

/-- A character that is neither a quote nor a backslash. -/
theorem scan_plain {c : Char} (hquote : c ≠ '"') (hbackslash : c ≠ '\\') (taken rest : List Char) :
    (c :: rest).foldlM Scanner.step ⟨.string taken false, found⟩
      = rest.foldlM Scanner.step ⟨.string (c :: taken) false, found⟩ := by
  have hstep : Scanner.step ⟨.string taken false, found⟩ c
      = some ⟨.string (c :: taken) false, found⟩ := by
    simp [Scanner.step, hquote, hbackslash]
  rw [List.foldlM_cons, hstep]
  rfl

/-- A backslash and the character behind it. -/
theorem scan_escape (letter : Char) (taken rest : List Char) :
    ('\\' :: letter :: rest).foldlM Scanner.step ⟨.string taken false, found⟩
      = rest.foldlM Scanner.step ⟨.string (letter :: '\\' :: taken) false, found⟩ := rfl

theorem hexDigit_ne : ∀ n < 16, Literal.hexDigit n ≠ '"' ∧ Literal.hexDigit n ≠ '\\' := by
  decide

/-- A character as it stands between quotes keeps the machine inside the string. -/
theorem scan_encodeChar (c : Char) (taken : List Char) :
    (Literal.encodeChar c ++ rest).foldlM Scanner.step ⟨.string taken false, found⟩
      = rest.foldlM Scanner.step
        ⟨.string ((Literal.encodeChar c).reverse ++ taken) false, found⟩ := by
  unfold Literal.encodeChar
  split
  · exact scan_escape _ taken rest
  · rename_i hshort
    split
    · rename_i hcontrol
      obtain ⟨hquote, hbackslash⟩ := hexDigit_ne (c.toNat / 16) (by omega)
      obtain ⟨hquote', hbackslash'⟩ := hexDigit_ne (c.toNat % 16) (by omega)
      simp only [List.cons_append, List.nil_append]
      rw [scan_escape, scan_plain (by decide) (by decide), scan_plain (by decide) (by decide),
        scan_plain hquote hbackslash, scan_plain hquote' hbackslash']
      simp
    · have hc : c ≠ '"' ∧ c ≠ '\\' := by
        constructor <;> rintro rfl <;> cases hshort
      exact scan_plain hc.1 hc.2 taken rest

theorem scan_encode (text : List Char) (taken : List Char) :
    (Literal.encode text ++ rest).foldlM Scanner.step ⟨.string taken false, found⟩
      = rest.foldlM Scanner.step
        ⟨.string ((Literal.encode text).reverse ++ taken) false, found⟩ := by
  induction text generalizing taken with
  | nil => rfl
  | cons c text ih =>
      have hencode : Literal.encode (c :: text) = Literal.encodeChar c ++ Literal.encode text :=
        List.flatMap_cons
      rw [hencode, List.append_assoc, scan_encodeChar, ih, List.reverse_append, List.append_assoc]

/-- A string ends with its quote. -/
theorem scanFrom_quote (text : String) :
    scanFrom found ((quote text).toList ++ rest)
      = scanFrom (.string (some text) :: found) rest := by
  have hchars : (quote text).toList ++ rest
      = '"' :: (Literal.encode text.toList ++ '"' :: rest) := by
    simp [quote]
  have hopen : Scanner.step ⟨.between, found⟩ '"' = some ⟨.string [] false, found⟩ := rfl
  have htoken : stringToken? (Literal.encode text.toList) = some (.string (some text)) := by
    rw [stringToken?, Literal.pieces?_encode, Option.map_some, Literal.join?_chars,
      Option.map_some, String.ofList_toList]
  have hclose : Scanner.step ⟨.string ((Literal.encode text.toList).reverse ++ []) false, found⟩ '"'
      = some ⟨.between, .string (some text) :: found⟩ := by
    rw [List.append_nil]
    simp only [Scanner.step, if_true, List.reverse_reverse, htoken]
    rfl
  rw [hchars, scanFrom, List.foldlM_cons, hopen]
  show ((Literal.encode text.toList ++ '"' :: rest).foldlM Scanner.step
    ⟨.string [] false, found⟩).bind _ = _
  rw [scan_encode, List.foldlM_cons, hclose]
  rfl

/-! ## Values -/

theorem ends_cons {c : Char} (h : isDelimiter c = true) : Ends (c :: rest) := by
  rintro d hd
  rw [List.head?_cons, Option.mem_some_iff] at hd
  rwa [← hd]

theorem ends_comma : Ends (',' :: rest) := ends_cons (by decide)

theorem ends_blanks {blanks : List Char} (h : ∀ c ∈ blanks, isSpace c = true)
    (hrest : Ends rest) : Ends (blanks ++ rest) := by
  cases blanks with
  | nil => exact hrest
  | cons c blanks =>
      refine ends_cons ?_
      rw [isDelimiter, h c (by simp)]
      rfl

/-- A word without an end in it. -/
theorem isDelimiter_of_any_eq_false {word : List Char} (h : word.any isDelimiter = false) :
    ∀ c ∈ word, isDelimiter c = false := fun c hc =>
  Bool.eq_false_iff.mpr (List.any_eq_false.mp h c hc)

/-- The words that are no numbers. -/
theorem scanFrom_null (hrest : Ends rest) :
    scanFrom found ("null".toList ++ rest) = scanFrom (.scalar .null :: found) rest :=
  scanFrom_word (by decide) (isDelimiter_of_any_eq_false (by decide)) (if_pos rfl) hrest

theorem scanFrom_boolText (value : Bool) (hrest : Ends rest) :
    scanFrom found ((boolText value).toList ++ rest)
      = scanFrom (.scalar (.bool value) :: found) rest := by
  cases value with
  | true =>
      have htoken : wordToken? "true".toList = some (.scalar (.bool true)) := by
        rw [wordToken?, if_neg (by decide), if_pos rfl]
      exact scanFrom_word (by decide) (isDelimiter_of_any_eq_false (by decide)) htoken hrest
  | false =>
      have htoken : wordToken? "false".toList = some (.scalar (.bool false)) := by
        rw [wordToken?, if_neg (by decide), if_neg (by decide), if_pos rfl]
      exact scanFrom_word (by decide) (isDelimiter_of_any_eq_false (by decide)) htoken hrest

theorem scanFrom_number {literal : String} (h : (Number.parse? literal.toList).isSome = true)
    (hrest : Ends rest) :
    scanFrom found (literal.toList ++ rest)
      = scanFrom (.scalar (.number literal) :: found) rest := by
  obtain ⟨d, hd⟩ := Option.isSome_iff_exists.mp h
  have hne (word : List Char) (hword : Number.parse? word = none) : literal.toList ≠ word := by
    rintro rfl
    rw [hword] at hd
    cases hd
  have htoken : wordToken? literal.toList = some (.scalar (.number literal)) := by
    rw [wordToken?, if_neg (hne _ (by rfl)), if_neg (hne _ (by rfl)), if_neg (hne _ (by rfl)), hd,
      Option.map_some, String.ofList_toList]
  exact scanFrom_word (hne [] (by rfl))
    (fun c hc => isDelimiter_of_isNumeric (isNumeric_of_parse? hd c hc)) htoken hrest

/-- A text is read as some tokens, whatever is written behind it, if a word would end there. -/
def Scans (text : List Char) (tokens : List Token) : Prop :=
  ∀ (found : List Token) (rest : List Char), Ends rest →
    scanFrom found (text ++ rest) = scanFrom (tokens.reverse ++ found) rest

section Parts

variable {α : Type} {text : α → List Char} {read : α → List Token} {xs : List α}

/-- Parts with commas between them, and with blanks behind each comma. -/
theorem scanFrom_intercalate {blanks : List Char} (hblanks : ∀ c ∈ blanks, isSpace c = true)
    (hread : ∀ x ∈ xs, Scans (text x) (read x)) (found : List Token) (hrest : Ends rest) :
    scanFrom found ((',' :: blanks).intercalate (xs.map text) ++ rest)
      = scanFrom (([.comma].intercalate (xs.map read)).reverse ++ found) rest := by
  induction xs generalizing found with
  | nil => rfl
  | cons x others ih =>
      have hx := hread x (by simp)
      have hothers := ih fun y hy => hread y (by simp [hy])
      cases others with
      | nil =>
          rw [List.map_singleton, List.map_singleton, List.intercalate_singleton,
            List.intercalate_singleton]
          exact hx found rest hrest
      | cons y others =>
          rw [List.map_cons, List.map_cons] at hothers
          rw [List.map_cons, List.map_cons, List.map_cons, List.map_cons,
            List.intercalate_cons_cons, List.intercalate_cons_cons, List.append_assoc,
            List.append_assoc, List.cons_append, hx found _ ends_comma,
            scanFrom_punctuation rfl, scanFrom_blanks hblanks, hothers]
          simp

/-- Parts in brackets, perhaps with blanks behind the first bracket, behind each comma and in front
of the last bracket. -/
theorem scanFrom_enclosed {opening closing : Char} {first last : Token}
    (hopening : punctuation? opening = some first) (hclosing : punctuation? closing = some last)
    {front between back : List Char} (hfront : ∀ c ∈ front, isSpace c = true)
    (hbetween : ∀ c ∈ between, isSpace c = true) (hback : ∀ c ∈ back, isSpace c = true)
    (hread : ∀ x ∈ xs, Scans (text x) (read x)) :
    scanFrom found (opening :: (front ++ ((',' :: between).intercalate (xs.map text)
        ++ (back ++ closing :: rest))))
      = scanFrom ((first :: ([.comma].intercalate (xs.map read) ++ [last])).reverse ++ found)
        rest := by
  have hends : Ends (back ++ closing :: rest) := by
    refine ends_blanks hback (ends_cons ?_)
    rw [isDelimiter, hclosing]
    simp
  rw [scanFrom_punctuation hopening, scanFrom_blanks hfront,
    scanFrom_intercalate hbetween hread _ hends, scanFrom_blanks hback,
    scanFrom_punctuation hclosing]
  simp

end Parts

theorem compactItems_eq_map (items : List Json) : compactItems items = items.map compact := by
  induction items with
  | nil => rfl
  | cons item rest ih => rw [compactItems, ih, List.map_cons]

theorem itemsTokens_eq_map (items : List Json) : itemsTokens items = items.map tokens := by
  induction items with
  | nil => rfl
  | cons item rest ih => rw [itemsTokens, ih, List.map_cons]

/-- A member as it is written. -/
def compactMember (member : String × Json) : String :=
  quote member.1 ++ ":" ++ compact member.2

/-- The tokens of a member. -/
def memberTokens (member : String × Json) : List Token :=
  .string (some member.1) :: .colon :: member.2.tokens

theorem compactMembers_eq_map (members : List (String × Json)) :
    compactMembers members = members.map compactMember := by
  induction members with
  | nil => rfl
  | cons member rest ih => rw [compactMembers, ih, List.map_cons, compactMember]

theorem membersTokens_eq_map (members : List (String × Json)) :
    membersTokens members = members.map memberTokens := by
  induction members with
  | nil => rfl
  | cons member rest ih => rw [membersTokens, ih, List.map_cons, memberTokens]

mutual

/-- **A value is read as its tokens.** -/
theorem scans_compact :
    (v : Json) → v.isSpelled = true → Scans v.compact.toList v.tokens
  | .null, _, _, _, hrest => by
      rw [compact]
      exact scanFrom_null hrest
  | .bool value, _, _, _, hrest => by
      rw [compact]
      exact scanFrom_boolText value hrest
  | .number literal, h, _, _, hrest => by
      rw [isSpelled] at h
      rw [compact]
      exact scanFrom_number h hrest
  | .string text, _, _, _, _ => by
      rw [compact]
      exact scanFrom_quote text
  | .array items, h, found, rest, _ => by
      rw [isSpelled] at h
      have hitems : scanFrom found ('[' :: ([','].intercalate _ ++ ']' :: rest)) = _ :=
        scanFrom_enclosed rfl rfl noBlanks noBlanks noBlanks (scans_items items h)
      rw [compact, compactItems_eq_map, tokens, itemsTokens_eq_map, ← hitems]
      simp [String.toList_intercalate, Function.comp_def]
  | .object members, h, found, rest, _ => by
      rw [isSpelled] at h
      have hmembers : scanFrom found ('\x7b' :: ([','].intercalate _ ++ '\x7d' :: rest)) = _ :=
        scanFrom_enclosed rfl rfl noBlanks noBlanks noBlanks (scans_members members h)
      rw [compact, compactMembers_eq_map, tokens, membersTokens_eq_map, ← hmembers]
      simp [String.toList_intercalate, Function.comp_def]
  | .unreadable, h, _, _, _ => by cases h

theorem scans_items :
    (items : List Json) → itemsSpelled items = true →
      ∀ item ∈ items, Scans item.compact.toList item.tokens
  | [], _ => by simp
  | item :: rest, h => by
      rw [itemsSpelled, Bool.and_eq_true] at h
      exact List.forall_mem_cons.mpr ⟨scans_compact item h.1, scans_items rest h.2⟩

theorem scans_members :
    (members : List (String × Json)) → membersSpelled members = true →
      ∀ member ∈ members, Scans (compactMember member).toList (memberTokens member)
  | [], _ => by simp
  | (key, value) :: others, h => by
      rw [membersSpelled, Bool.and_eq_true] at h
      refine List.forall_mem_cons.mpr ⟨?_, scans_members others h.2⟩
      intro found rest hrest
      have hchars : (compactMember (key, value)).toList ++ rest
          = (quote key).toList ++ ':' :: (value.compact.toList ++ rest) := by
        simp [compactMember]
      rw [hchars, scanFrom_quote, scanFrom_punctuation rfl, scans_compact value h.1 _ _ hrest]
      simp [memberTokens]

end

/-- A whole text has the tokens that it is read as. -/
theorem Scans.tokens?_eq {text : List Char} {tokens : List Token} (h : Scans text tokens) :
    tokens? text = some tokens := by
  have hscan := h [] [] (by simp [Ends])
  rwa [List.append_nil, List.append_nil, scanFrom_nil, List.reverse_reverse] at hscan

/-- **The tokens of the compact layout.** -/
theorem tokens?_compact {v : Json} (h : v.isSpelled = true) :
    tokens? v.compact.toList = some v.tokens := (scans_compact v h).tokens?_eq

end Typings.Json
