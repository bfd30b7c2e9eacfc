import OpenBindings.Validation

/-! # The set operations of the `allOf` merge

`mergeAllOfBranch` combines the keywords of two branches with three helpers of the Go file.
`intersectTypeSlices` intersects two `type` lists by what they admit: the common non-numeric
names, then `number` when both sides admit every number and `integer` when both admit some
numbers and one side only integers. So the result admits a value exactly when both lists do
(`intersectTypeSlices_sorted_admits`), read with the instance semantics of `type`
(`typeAdmits`: `integer` admits the numbers with no fractional part). `unionStringSlices` is the
sorted union (`mem_unionStringSlices`), and `intersectValues` keeps the values of the first list
whose canonical JSON some value of the second has (`mem_intersectValues`). -/

namespace OpenBindings.SchemaProfile

open CanonicalJson Normalizer

/-- The names the intersection lists: the common non-numeric names, `number` when both sides
list it, and `integer` when both sides list a numeric type and not both list `number`. -/
theorem mem_intersectTypeSlices {a b : List String} {t : String} :
    t ∈ intersectTypeSlices a b ↔
      (t ∈ a ∧ t ∈ b ∧ t ≠ "number" ∧ t ≠ "integer") ∨
        (t = "number" ∧ "number" ∈ a ∧ "number" ∈ b) ∨
        (t = "integer" ∧ ("number" ∈ a ∨ "integer" ∈ a) ∧ ("number" ∈ b ∨ "integer" ∈ b) ∧
          ¬ ("number" ∈ a ∧ "number" ∈ b)) := by
  simp only [intersectTypeSlices, mem_sortedSet, List.mem_append, List.mem_filter, decide_eq_true_eq]
  split_ifs with h1 h2 <;> simp only [List.mem_singleton, List.not_mem_nil, or_false] <;> aesop

/-- A list of names admits a number through `number`, or through `integer` when the number has
no fractional part. -/
theorem exists_typeAdmits_num (l : List String) (f : Float64) :
    (∃ t ∈ l, typeAdmits t (.num f) = true) ↔ "number" ∈ l ∨ (f.toRat.den = 1 ∧ "integer" ∈ l) := by
  simp only [typeAdmits, Bool.or_eq_true, beq_iff_eq, Bool.and_eq_true, decide_eq_true_eq]
  constructor
  · rintro ⟨t, ht, rfl | ⟨rfl, hi⟩⟩
    · exact .inl ht
    · exact .inr ⟨hi, ht⟩
  · rintro (h | ⟨hi, h⟩)
    · exact ⟨_, h, .inl rfl⟩
    · exact ⟨_, h, .inr ⟨rfl, hi⟩⟩

/-- `intersectTypeSlices` returns a strictly ascending list that admits a value exactly when both
lists admit it. -/
theorem intersectTypeSlices_sorted_admits (a b : List String) :
    (intersectTypeSlices a b).Sorted (· < ·) ∧
      ∀ x : JValue, (intersectTypeSlices a b).any (typeAdmits · x) =
        (a.any (typeAdmits · x) && b.any (typeAdmits · x)) := by
  refine ⟨sortedSet_sorted _, fun x => ?_⟩
  rw [Bool.eq_iff_iff]
  simp only [Bool.and_eq_true, List.any_eq_true]
  cases x with
  | num f =>
    -- a number: the two numeric names decide, on either side and in the result
    rw [exists_typeAdmits_num, exists_typeAdmits_num, exists_typeAdmits_num,
      mem_intersectTypeSlices, mem_intersectTypeSlices]
    simp only [ne_eq, not_true_eq_false, and_false, false_or, true_and, or_false,
      show ("number" : String) ≠ "integer" by decide, show ("integer" : String) ≠ "number" by decide,
      false_and, and_true]
    tauto
  | _ => simp [typeAdmits, mem_intersectTypeSlices]

/-- `unionStringSlices` is the strictly ascending union. -/
theorem mem_unionStringSlices (a b : List String) :
    (unionStringSlices a b).Sorted (· < ·) ∧ ∀ s, s ∈ unionStringSlices a b ↔ s ∈ a ∨ s ∈ b :=
  ⟨sortedSet_sorted _, fun s => by simp [unionStringSlices]⟩

/-- `intersectValues` keeps, in order, the values of `a` equal under canonical JSON to a value
of `b`. -/
theorem mem_intersectValues (a b : List JValue) (v : JValue) :
    v ∈ intersectValues a b ↔ v ∈ a ∧ ∃ w ∈ b, canonicalKey w = canonicalKey v := by
  simp [intersectValues]

end OpenBindings.SchemaProfile
