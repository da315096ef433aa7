/-!
# Sets that remember the order of arrival

Names and paths are collected as sets whose order can be seen in the output: the order in
which the members first arrived.

## Main definitions

* `distinctBy` — the members of a list whose key has not occurred before.
* `OrderedSet` — a list without repetition, with `ofList`, `insert`, `union` and membership.

## Main results

* `mem_distinctBy_key` — dropping repetitions keeps every key.
* `nodup_distinctBy` — the keys that are left are pairwise distinct.
* `mem_distinctBy` — what is left is the first member with its key.
* `pairwise_idxOf_distinctBy` — what is left stands in the order in which it first occurs.
* `distinctBy_append`, `OrderedSet.ofList_append` — one list behind another one.
* `OrderedSet.foldl_insert_ofList` — a set that is filled one by one.
* `OrderedSet.mem_ofList`, `OrderedSet.mem_insert` — membership after each operation.
-/

namespace Typings

/-! ## First occurrences -/

section Distinct

variable {α β : Type} [DecidableEq β]

/-- The members of a list whose key differs from the key of every member before them. -/
def distinctBy (key : α → β) : List α → List α
  | [] => []
  | x :: rest => x :: (distinctBy key rest).filter (fun y => key y ≠ key x)

@[simp] theorem distinctBy_nil (key : α → β) : distinctBy key [] = [] := rfl

theorem mem_of_mem_distinctBy {key : α → β} {xs : List α} {y : α}
    (h : y ∈ distinctBy key xs) : y ∈ xs := by
  induction xs with
  | nil => simp [distinctBy] at h
  | cons x rest ih =>
    rcases List.mem_cons.1 h with h | h
    · simp [h]
    · exact List.mem_cons_of_mem _ (ih (List.mem_filter.1 h).1)

theorem mem_distinctBy_key {key : α → β} {xs : List α} {k : β} :
    k ∈ (distinctBy key xs).map key ↔ k ∈ xs.map key := by
  induction xs with
  | nil => simp
  | cons x rest ih =>
    by_cases h : k = key x
    · simp [distinctBy, h]
    · have : (∃ a, (a ∈ distinctBy key rest ∧ ¬key a = key x) ∧ key a = k) ↔
          ∃ a ∈ distinctBy key rest, key a = k := by
        constructor
        · rintro ⟨a, ⟨ha, _⟩, hk⟩; exact ⟨a, ha, hk⟩
        · rintro ⟨a, ha, hk⟩; exact ⟨a, ⟨ha, fun e => h (hk ▸ e)⟩, hk⟩
      simp only [List.mem_map] at ih
      simp [distinctBy, this, ih]

theorem nodup_distinctBy (key : α → β) (xs : List α) : ((distinctBy key xs).map key).Nodup := by
  induction xs with
  | nil => simp
  | cons x rest ih =>
    simp only [distinctBy, List.map_cons, List.nodup_cons]
    refine ⟨by simp, ?_⟩
    exact List.Pairwise.sublist ((List.filter_sublist).map key) ih

/-- Behind other members those are left whose key has not occurred among them. -/
theorem distinctBy_append (key : α → β) (xs ys : List α) :
    distinctBy key (xs ++ ys)
      = distinctBy key xs ++ (distinctBy key ys).filter (fun y => key y ∉ xs.map key) := by
  induction xs with
  | nil =>
    have hall : ∀ y ∈ distinctBy key ys, decide (key y ∉ ([] : List α).map key) = true := by
      simp
    rw [distinctBy_nil, List.nil_append, List.nil_append, List.filter_eq_self.2 hall]
  | cons x rest ih =>
    have hkeys (y : α) : (decide (key y ≠ key x) && decide (key y ∉ rest.map key))
        = decide (key y ∉ (x :: rest).map key) := by
      simp only [List.map_cons, List.mem_cons, not_or, Bool.decide_and, ne_eq]
    rw [List.cons_append, distinctBy, ih, List.filter_append, List.filter_filter, distinctBy,
      List.cons_append]
    simp only [hkeys]

theorem distinctBy_concat (key : α → β) (xs : List α) (x : α) :
    distinctBy key (xs ++ [x])
      = distinctBy key xs ++ if key x ∈ xs.map key then [] else [x] := by
  have hone : distinctBy key [x] = [x] := rfl
  rw [distinctBy_append, hone]
  by_cases h : key x ∈ xs.map key
  · rw [if_pos h, List.filter_cons_of_neg (by simpa using h), List.filter_nil]
  · rw [if_neg h, List.filter_cons_of_pos (by simpa using h), List.filter_nil]

/-- A test that looks at the key only finds the same member. -/
theorem find?_distinctBy {key : α → β} {test : α → Bool}
    (htest : ∀ x y, key x = key y → test x = test y) (xs : List α) :
    (distinctBy key xs).find? test = xs.find? test := by
  induction xs with
  | nil => rfl
  | cons x rest ih =>
    rw [distinctBy, List.find?_cons, List.find?_cons]
    cases hx : test x with
    | true => rfl
    | false =>
      -- Members with the key of `x` are left out, but none of them passes the test.
      have hall : (fun y => decide (decide (key y ≠ key x) = true ∧ test y = true)) = test := by
        funext y
        by_cases hy : key y = key x
        · simp [htest y x hy, hx]
        · simp [hy]
      show ((distinctBy key rest).filter fun y => key y ≠ key x).find? test = rest.find? test
      rw [List.find?_filter, hall, ih]

/-- The keys that are left are the keys of the list, each once. -/
theorem map_distinctBy (key : α → β) (xs : List α) :
    (distinctBy key xs).map key = distinctBy id (xs.map key) := by
  induction xs with
  | nil => rfl
  | cons x rest ih =>
    rw [distinctBy, List.map_cons, List.map_cons, distinctBy, ← ih, List.filter_map]
    rfl

/-- What is left is the first member with its key. -/
theorem mem_distinctBy {key : α → β} {xs : List α} {x : α} :
    x ∈ distinctBy key xs ↔ xs.find? (fun y => key y = key x) = some x := by
  induction xs with
  | nil => simp
  | cons y rest ih =>
    rw [distinctBy, List.mem_cons, List.mem_filter, ih, List.find?_cons]
    by_cases hy : key y = key x
    · simp [hy, eq_comm]
    · have hne : x ≠ y := fun e => hy (e ▸ rfl)
      simp [hy, hne, Ne.symm hy]

/-- What is left stands in the order in which it first occurs. -/
theorem pairwise_idxOf_distinctBy (xs : List β) :
    (distinctBy id xs).Pairwise fun a b => xs.idxOf a < xs.idxOf b := by
  induction xs with
  | nil => exact .nil
  | cons x rest ih =>
    have hbehind {y : β} (hy : y ≠ x) : (x :: rest).idxOf y = rest.idxOf y + 1 := by
      rw [List.idxOf_cons, beq_false_of_ne (Ne.symm hy)]
      rfl
    have hne : ∀ y ∈ (distinctBy id rest).filter (fun y => id y ≠ id x), y ≠ x := fun y hy => by
      simpa using (List.mem_filter.1 hy).2
    rw [distinctBy, List.pairwise_cons]
    refine ⟨fun y hy => ?_, (ih.filter _).imp_of_mem fun {a b} ha hb hab => ?_⟩
    · rw [hbehind (hne y hy), List.idxOf_cons_self]
      exact Nat.succ_pos _
    · rw [hbehind (hne a ha), hbehind (hne b hb)]
      exact Nat.succ_lt_succ hab

end Distinct

/-! ## The set -/

/-- A set whose members are listed in the order of their arrival. -/
structure OrderedSet (α : Type) where
  /-- The members, oldest first. -/
  toList : List α
  /-- No member is listed twice. -/
  nodup : toList.Nodup

namespace OrderedSet

variable {α : Type}

/-- The empty set. -/
def empty : OrderedSet α := ⟨[], List.nodup_nil⟩

instance : Inhabited (OrderedSet α) := ⟨empty⟩

instance : Membership α (OrderedSet α) := ⟨fun s x => x ∈ s.toList⟩

theorem mem_def {s : OrderedSet α} {x : α} : x ∈ s ↔ x ∈ s.toList := Iff.rfl

/-- Sets with the same members in the same order. -/
theorem ext {s t : OrderedSet α} (h : s.toList = t.toList) : s = t := by
  obtain ⟨xs, hxs⟩ := s
  obtain ⟨ys, hys⟩ := t
  obtain rfl : xs = ys := h
  rfl

/-- The number of members. -/
def size (s : OrderedSet α) : Nat := s.toList.length

variable [DecidableEq α]

instance (s : OrderedSet α) (x : α) : Decidable (x ∈ s) :=
  inferInstanceAs (Decidable (x ∈ s.toList))

/-- The members of a list, in the order of their first occurrence. -/
def ofList (xs : List α) : OrderedSet α :=
  ⟨distinctBy id xs, by simpa using nodup_distinctBy id xs⟩

@[simp] theorem mem_ofList {xs : List α} {x : α} : x ∈ ofList xs ↔ x ∈ xs := by
  simpa [ofList, mem_def] using @mem_distinctBy_key α α _ id xs x

/-- Add a member at the end, unless the set holds it already. -/
def insert (s : OrderedSet α) (x : α) : OrderedSet α :=
  if h : x ∈ s.toList then s
  else ⟨s.toList ++ [x], by
    refine List.nodup_append.2 ⟨s.nodup, by simp, ?_⟩
    rintro a ha b hb rfl
    exact h (List.mem_singleton.1 hb ▸ ha)⟩

@[simp] theorem mem_insert {s : OrderedSet α} {x y : α} : y ∈ s.insert x ↔ y ∈ s ∨ y = x := by
  by_cases h : x ∈ s.toList
  · simp only [insert, h, dite_true]
    exact ⟨Or.inl, fun hy => hy.elim id fun e => e ▸ h⟩
  · simp [insert, h, mem_def]

/-- The members of both sets: those of the first set, and behind them those of the second one
that are new, each in their order. -/
def union (s t : OrderedSet α) : OrderedSet α :=
  ⟨s.toList ++ t.toList.filter (· ∉ s), by
    refine List.nodup_append.2 ⟨s.nodup, t.nodup.filter _, ?_⟩
    rintro a ha b hb rfl
    exact of_decide_eq_true (List.mem_filter.1 hb).2 ha⟩

@[simp] theorem mem_union {s t : OrderedSet α} {x : α} : x ∈ s.union t ↔ x ∈ s ∨ x ∈ t := by
  simp only [union, mem_def, List.mem_append, List.mem_filter, decide_eq_true_eq]
  by_cases h : x ∈ s.toList <;> simp [h]

theorem ofList_append (xs ys : List α) : ofList (xs ++ ys) = (ofList xs).union (ofList ys) := by
  apply ext
  show distinctBy id (xs ++ ys) = distinctBy id xs ++ (distinctBy id ys).filter (· ∉ ofList xs)
  simp only [distinctBy_append, mem_ofList, List.map_id, id]

theorem insert_ofList (xs : List α) (x : α) : (ofList xs).insert x = ofList (xs ++ [x]) := by
  apply ext
  show ((ofList xs).insert x).toList = distinctBy id (xs ++ [x])
  rw [distinctBy_concat, List.map_id, id]
  by_cases h : x ∈ (ofList xs).toList
  · rw [insert, dif_pos h, if_pos (mem_ofList.1 h), List.append_nil]
    rfl
  · rw [insert, dif_neg h, if_neg fun hmem => h (mem_ofList.2 hmem)]
    rfl

/-- Adding the members of a list one by one. -/
theorem foldl_insert_ofList (xs ys : List α) :
    ys.foldl insert (ofList xs) = ofList (xs ++ ys) := by
  induction ys generalizing xs with
  | nil => rw [List.append_nil, List.foldl_nil]
  | cons y rest ih =>
    rw [List.foldl_cons, insert_ofList, ih, List.append_assoc, List.singleton_append]

end OrderedSet

end Typings
