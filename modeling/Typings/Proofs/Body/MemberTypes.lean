import Typings.Proofs.Body.Composition
import Typings.Proofs.Body.Renderer
import Typings.Proofs.Body.Slots

/-!
# How the types of members are written

The type of a member is a leaf in arrays: any number of arrays, none at all included, around a type
that is no array. Each of these nodes may have a name of its own. When the type is written, the
question whether a node is reached by reference is asked anew at some of the arrays and handed on
at others, and dictionaries answer it in their own way. In the end there is one rule, which knows
nothing of this.

The leaf is written first, and behind it a pair of brackets for each array. A known type is spelled
as it is declared if any of the nodes has a name, and as it is given if none has. A dictionary is
written as it is given. An inline type is a block of its members at the level at which the leaf
stands, each member with its type by the same rule. No name outside of an inline type has a say in
it.

## Main definitions

* `Leaf`, `Chain` — a leaf, and a leaf in arrays.
* `Chain.ofType` — every type as a leaf in arrays.
* `ValueType.chars` — what is written for a type at a level.
* `Leaf.chars` — what stands for a leaf, given what stands for the types of members.

## Main results

* `Chain.type_ofType`, `Chain.ofType_type` — a type is a leaf in arrays in exactly one way.
* `Chain.draft_type` — the steps that write a leaf in arrays.
* `Chain.chars_type` — the rule.
* `ValueType.eq_chars_of_rule` — nothing else follows the rule.
* `Chain.write_type` — types of members are written by the rule.
-/

namespace Typings

open Draft

/-! ## Leaves in arrays -/

/-- A kind that is no array. -/
inductive Leaf where
  /-- A type with a name. -/
  | known (name : String)
  /-- A dictionary, written as it is given. -/
  | dictionary (text : String)
  /-- An object type without a name, given by its members. -/
  | shape (members : List Member)
  /-- A type about which nothing is known. -/
  | unknown

/-- The kind of a leaf. -/
def Leaf.kind : Leaf → ValueKind
  | .known name => .known name
  | .dictionary text => .dictionary text
  | .shape members => .shape members
  | .unknown => .unknown

/-- A leaf in arrays. -/
structure Chain where
  /-- The arrays from the outside in, each with the name that it may have. -/
  arrays : List (Option String)
  /-- The leaf. -/
  leaf : Leaf
  /-- The name that the leaf may have. -/
  leafName : Option String

namespace Chain

/-- The type that a leaf in arrays is. -/
def type (c : Chain) : ValueType :=
  c.arrays.foldr (fun name item => ⟨.array item, name⟩) ⟨c.leaf.kind, c.leafName⟩

/-- Whether any of the nodes has a name. -/
def isNamed (c : Chain) : Bool := c.arrays.any Option.isSome || c.leafName.isSome

/-- One more array around a leaf in arrays. -/
def inArray (c : Chain) (name : Option String) : Chain := { c with arrays := name :: c.arrays }

theorem inArray_mk (arrays : List (Option String)) (leaf : Leaf) (leafName name : Option String) :
    inArray ⟨arrays, leaf, leafName⟩ name = ⟨name :: arrays, leaf, leafName⟩ := rfl

theorem type_inArray (c : Chain) (name : Option String) :
    (c.inArray name).type = ⟨.array c.type, name⟩ := rfl

theorem isNamed_inArray (c : Chain) (name : Option String) :
    (c.inArray name).isNamed = (name.isSome || c.isNamed) := by
  simp only [isNamed, inArray, List.any_cons, Bool.or_assoc]

/-- Every type as a leaf in arrays. -/
def ofType : ValueType → Chain
  | ⟨.array item, name⟩ => (ofType item).inArray name
  | ⟨.known given, name⟩ => ⟨[], .known given, name⟩
  | ⟨.dictionary text, name⟩ => ⟨[], .dictionary text, name⟩
  | ⟨.shape members, name⟩ => ⟨[], .shape members, name⟩
  | ⟨.unknown, name⟩ => ⟨[], .unknown, name⟩

theorem type_ofType (type : ValueType) : (ofType type).type = type := by
  fun_induction ofType type with
  | case1 item name ih => rw [type_inArray, ih]
  | case2 | case3 | case4 | case5 => rfl

/-- **A type is a leaf in arrays in exactly one way.** -/
theorem ofType_type (c : Chain) : ofType c.type = c := by
  obtain ⟨arrays, leaf, leafName⟩ := c
  induction arrays with
  | nil => cases leaf <;> rfl
  | cons name rest ih =>
      show ofType (inArray ⟨rest, leaf, leafName⟩ name).type = inArray ⟨rest, leaf, leafName⟩ name
      rw [type_inArray, ofType, ih]

end Chain

/-! ## The steps -/

/-- What ends the reach of a reference is written alike with and without one. -/
theorem Leaf.draft_dictionary (o : Options) {leaf : Leaf} (h : leaf.kind.isDictionary = true)
    (b b' : Bool) : leaf.kind.draft o b = leaf.kind.draft o b' := by
  cases leaf with
  | dictionary text => simp only [kind, ValueKind.draft]
  | known | shape | unknown => simp [kind, ValueKind.isDictionary] at h

namespace Chain

theorem isDictionary_type (c : Chain) : c.type.isDictionary = c.leaf.kind.isDictionary := by
  obtain ⟨arrays, leaf, leafName⟩ := c
  induction arrays with
  | nil =>
      show ValueType.isDictionary ⟨leaf.kind, leafName⟩ = _
      rw [ValueType.isDictionary]
  | cons name rest ih =>
      show ValueType.isDictionary (inArray ⟨rest, leaf, leafName⟩ name).type = _
      rw [type_inArray, ValueType.isDictionary, ValueKind.isDictionary]
      exact ih

/-- Whether a type is reached by reference, if what is around it is or is not. -/
def reached (type : ValueType) (outside : Bool) : Bool :=
  if type.referenceName.isSome then type.kind.refers type.referenceName else outside

theorem reached_eq {type : ValueType} (h : type.isDictionary = false) (outside : Bool) :
    reached type outside = (outside || type.referenceName.isSome) := by
  obtain ⟨kind, referenceName⟩ := type
  rw [ValueType.isDictionary] at h
  show (if referenceName.isSome then kind.refers referenceName else outside)
    = (outside || referenceName.isSome)
  rw [ValueKind.refers, h]
  cases referenceName <;> simp

/-- **The steps that write a leaf in arrays**, if what is around it is or is not reached by
reference: the steps for the leaf, and a pair of brackets for each array. -/
theorem draft_kind_type (o : Options) (c : Chain) (outside : Bool) :
    c.type.kind.draft o (reached c.type outside)
      = c.leaf.kind.draft o (outside || c.isNamed)
        ++ List.replicate c.arrays.length (.add "[]") := by
  obtain ⟨arrays, leaf, leafName⟩ := c
  induction arrays generalizing outside with
  | nil =>
      show leaf.kind.draft o (reached ⟨leaf.kind, leafName⟩ outside)
        = leaf.kind.draft o (outside || leafName.isSome) ++ []
      rw [List.append_nil]
      cases h : leaf.kind.isDictionary with
      | true => exact leaf.draft_dictionary o h _ _
      | false => rw [reached_eq (by rw [ValueType.isDictionary, h])]
  | cons name rest ih =>
      have hdraft (b : Bool) : (inArray ⟨rest, leaf, leafName⟩ name).type.kind.draft o b
          = (Chain.type ⟨rest, leaf, leafName⟩).kind.draft o
              (reached (Chain.type ⟨rest, leaf, leafName⟩) b) ++ [.add "[]"] := by
        rw [type_inArray]
        show (ValueKind.array (Chain.type ⟨rest, leaf, leafName⟩)).draft o b = _
        generalize Chain.type ⟨rest, leaf, leafName⟩ = item
        obtain ⟨kind, referenceName⟩ := item
        rw [ValueKind.draft]
        rfl
      show (inArray ⟨rest, leaf, leafName⟩ name).type.kind.draft o
          (reached (inArray ⟨rest, leaf, leafName⟩ name).type outside)
        = leaf.kind.draft o (outside || (inArray ⟨rest, leaf, leafName⟩ name).isNamed)
          ++ List.replicate (rest.length + 1) (.add "[]")
      rw [hdraft, ih, isNamed_inArray, List.append_assoc, ← List.replicate_succ']
      congr 1
      cases h : leaf.kind.isDictionary with
      | true => exact leaf.draft_dictionary o h _ _
      | false =>
          rw [reached_eq ((isDictionary_type _).trans h), type_inArray, Bool.or_assoc]

/-- **The steps that write a leaf in arrays.** -/
theorem draft_type (o : Options) (c : Chain) :
    c.type.draft o
      = c.leaf.kind.draft o c.isNamed ++ List.replicate c.arrays.length (.add "[]") := by
  have hreached : c.type.draft o = c.type.kind.draft o (reached c.type false) := by
    obtain ⟨kind, referenceName⟩ := c.type
    rw [ValueType.draft, reached]
    cases referenceName <;> rfl
  rw [hreached, draft_kind_type, Bool.false_or]

end Chain

/-! ## The rule -/

/-- What is written for a type at a level. -/
def ValueType.chars (o : Options) (level : Nat) (type : ValueType) : List Char :=
  written Extends.token level (type.draft o)

/-- What stands for a member at a level, given what stands for the types of members: its comment,
and a line with its name and its type. -/
def Member.charsWith (o : Options) (chars : Nat → ValueType → List Char) (level : Nat)
    (m : Member) : List Char :=
  (Summary.comment m.summary).flatMap (Writer.lineChars level)
    ++ List.replicate level '\t' ++ (o.propertyName m.label).toList ++ ": ".toList
    ++ chars level m.type ++ ";\r\n".toList

/-- What stands for a leaf at a level, given what stands for the types of members, if any node of
its type has a name or none has. -/
def Leaf.chars (o : Options) (chars : Nat → ValueType → List Char) (level : Nat)
    (isNamed : Bool) : Leaf → List Char
  | .known name => (if isNamed then o.typeName name else name).toList
  | .dictionary text => text.toList
  | .shape members =>
    "\x7b\r\n".toList ++ members.flatMap (Member.charsWith o chars (level + 1))
      ++ List.replicate level '\t' ++ "\x7d".toList
  | .unknown => "any".toList

theorem Member.written_draft (o : Options) (level : Nat) (m : Member) :
    written Extends.token level (m.draft o)
      = m.charsWith o (fun level type => type.chars o level) level := by
  obtain ⟨name, optional, summary, initializer, type⟩ := m
  have hlevel : levelAfter level (type.draft o) = level := ValueType.balanced_draft o type level
  have hfront (label : String) :
      levelAfter level [.comment summary, .addIndented label] = level := rfl
  rw [Member.draft, written_append, written_append, levelAfter_append, hfront, hlevel]
  simp [Step.written, Step.levelAfter, charsWith, ValueType.chars, Text.newline]

theorem written_membersDraft (o : Options) (level : Nat) (members : List Member) :
    written Extends.token level (membersDraft o members)
      = members.flatMap (Member.charsWith o (fun level type => type.chars o level) level) := by
  induction members with
  | nil =>
      rw [membersDraft]
      rfl
  | cons m rest ih =>
      rw [membersDraft, written_append, Member.balanced_draft, ih, Member.written_draft,
        List.flatMap_cons]

theorem Leaf.written_draft (o : Options) (level : Nat) (isNamed : Bool) (leaf : Leaf) :
    written Extends.token level (leaf.kind.draft o isNamed)
      = leaf.chars o (fun level type => type.chars o level) level isNamed := by
  cases leaf with
  | known name | dictionary text | unknown =>
      simp [kind, ValueKind.draft, Step.written, chars]
  | shape members =>
      have hopen : levelAfter level [.add "\x7b", .newline, .indent] = level + 1 := rfl
      have hopened : written Extends.token level [.add "\x7b", .newline, .indent]
          = "\x7b\r\n".toList := by simp [Step.written, Step.levelAfter, Text.newline]
      have hclosed : written Extends.token (level + 1) [.dedent, .addIndented "\x7d"]
          = List.replicate level '\t' ++ "\x7d".toList := by simp [Step.written, Step.levelAfter]
      rw [kind, ValueKind.draft, written_append, written_append, levelAfter_append, hopen,
        balanced_membersDraft, hopened, hclosed, written_membersDraft, chars, List.append_assoc,
        List.append_assoc, List.append_assoc]

/-- **The rule for the types of members**: a leaf in arrays is written as the leaf and a pair of
brackets for each array. -/
theorem Chain.chars_type (o : Options) (level : Nat) (c : Chain) :
    c.type.chars o level
      = c.leaf.chars o (fun level type => type.chars o level) level c.isNamed
        ++ (List.replicate c.arrays.length "[]".toList).flatten := by
  have hleaf : levelAfter level (c.leaf.kind.draft o c.isNamed) = level :=
    ValueKind.balanced_draft o c.isNamed c.leaf.kind level
  have hbrackets (level k : Nat) : written Extends.token level (List.replicate k (.add "[]"))
      = (List.replicate k "[]".toList).flatten := by
    induction k with
    | zero => rfl
    | succ k ih =>
        have hstep : Step.levelAfter level (.add "[]") = level := rfl
        rw [List.replicate_succ, written_cons, hstep, ih, List.replicate_succ, List.flatten_cons]
        rfl
  rw [ValueType.chars, draft_type, written_append, hleaf, Leaf.written_draft, hbrackets]

/-- One name anywhere in the chain spells the leaf as it is declared. -/
example : (Chain.type ⟨[none, some "Route", none], .known "Town", none⟩).chars
    { Options.default with camelCaseTypeNames := true } 0 = "town[][][]".toList := by decide +kernel

theorem Chain.sizeOf_lt_of_mem {c : Chain} {members : List Member} (hleaf : c.leaf = .shape members)
    {m : Member} (hm : m ∈ members) : sizeOf m.type < sizeOf c.type := by
  obtain ⟨arrays, leaf, leafName⟩ := c
  obtain rfl : leaf = .shape members := hleaf
  induction arrays with
  | nil =>
      have hmember : sizeOf m < sizeOf members := List.sizeOf_lt_of_mem hm
      have htype : sizeOf m.type < sizeOf m := by
        obtain ⟨_, _, _, _, type⟩ := m
        simp only [Member.mk.sizeOf_spec]
        omega
      show sizeOf m.type < sizeOf (ValueType.mk (.shape members) leafName)
      simp only [ValueType.mk.sizeOf_spec, ValueKind.shape.sizeOf_spec]
      omega
  | cons name rest ih =>
      rw [← inArray_mk, type_inArray]
      simp only [ValueType.mk.sizeOf_spec, ValueKind.array.sizeOf_spec]
      omega

/-- **Nothing else follows the rule**: it says what stands for every type. -/
theorem ValueType.eq_chars_of_rule (o : Options) {chars : Nat → ValueType → List Char}
    (h : ∀ (level : Nat) (c : Chain), chars level c.type
      = c.leaf.chars o chars level c.isNamed
        ++ (List.replicate c.arrays.length "[]".toList).flatten)
    (level : Nat) (type : ValueType) : chars level type = type.chars o level := by
  obtain ⟨c, rfl⟩ : ∃ c : Chain, c.type = type := ⟨_, Chain.type_ofType type⟩
  rw [h, Chain.chars_type]
  congr 1
  cases hleaf : c.leaf with
  | known | dictionary | unknown => rfl
  | shape members =>
      -- The members are smaller than the type around them.
      have hmember : ∀ m ∈ members, Member.charsWith o chars (level + 1) m
          = Member.charsWith o (fun level type => type.chars o level) (level + 1) m := by
        intro m hm
        have hsize : sizeOf m.type < sizeOf c.type := Chain.sizeOf_lt_of_mem hleaf hm
        rw [Member.charsWith, Member.charsWith, eq_chars_of_rule o h (level + 1) m.type]
      rw [Leaf.chars, Leaf.chars, List.flatMap_congr hmember]
termination_by sizeOf type

/-- **Types of members are written by the rule.** For a leaf in arrays a writer gets the leaf and a
pair of brackets for each array, whatever it holds and however deep it is indented, and it is left
at the same level. The pass over the descriptors writes the same. -/
theorem Chain.write_type (o : Options) (c : Chain) :
    (∀ (slot : String → String) (w : Writer),
      ((c.type.draft o).write slot w).text.toList
          = w.text.toList
            ++ c.leaf.chars o (fun level type => type.chars o level) w.level c.isNamed
            ++ (List.replicate c.arrays.length "[]".toList).flatten ∧
        ((c.type.draft o).write slot w).level = w.level) ∧
      ∀ r : Renderer, (Renderer.ofType o r c.type).writer
        = (c.type.draft o).write Extends.token r.writer := by
  refine ⟨fun slot w => ⟨?_, ?_⟩, fun r => ?_⟩
  · have hslot : written slot w.level (c.type.draft o) = c.type.chars o w.level :=
      written_congr (by simp [ValueType.slots_draft]) w.level
    rw [toList_text_write, hslot, chars_type, List.append_assoc]
  · rw [level_write]
    exact ValueType.balanced_draft o c.type w.level
  · rw [Renderer.ofType_eq]
    rfl

end Typings
