import OpenBindings.Float64

/-! # JSON values as the Go code holds them

A decoded JSON value is Go's `any`: `nil`, `bool`, `float64`, `string`, `[]any` or
`map[string]any`. A Go map is an association list (`JObj`); ranging over a map visits the list in
order, so a run of the program under one choice of map iteration order is the model's run on the
lists written in that order. Reading `m[k]` is `lookup`, writing `m[k] = v` is `setField`, which
overwrites in place or appends. Go maps never repeat a key; `JValue.KeysUnique` says so of a whole
value, and results that depend on it take it as a hypothesis.

`DecidableEq` is written by hand (the derive handler does not cover nested inductives here):
`JValue.beq` compares structurally and `JValue.eq_of_beq` / `JValue.beq_refl` justify it. -/

namespace OpenBindings

/-- A JSON value as Go's `encoding/json` decodes it into `any`. -/
inductive JValue where
  | null
  | bool (b : Bool)
  | num (x : Float64)
  | str (s : String)
  | arr (xs : List JValue)
  | obj (kvs : List (String × JValue))

/-- A Go `map[string]any`, in iteration order. -/
abbrev JObj := List (String × JValue)

mutual
/-- Structural equality of JSON values. -/
def JValue.beq : JValue → JValue → Bool
  | .null, .null => true
  | .bool a, .bool b => a == b
  | .num a, .num b => a == b
  | .str a, .str b => a == b
  | .arr xs, .arr ys => JValue.beqList xs ys
  | .obj xs, .obj ys => JValue.beqObj xs ys
  | _, _ => false

/-- Structural equality of arrays. -/
def JValue.beqList : List JValue → List JValue → Bool
  | [], [] => true
  | x :: xs, y :: ys => x.beq y && JValue.beqList xs ys
  | _, _ => false

/-- Structural equality of member lists. -/
def JValue.beqObj : JObj → JObj → Bool
  | [], [] => true
  | (k, x) :: xs, (k', y) :: ys => k == k' && x.beq y && JValue.beqObj xs ys
  | _, _ => false
end

mutual
theorem JValue.eq_of_beq : ∀ {a b : JValue}, a.beq b = true → a = b
  | .null, b, h => by cases b <;> first | rfl | cases h
  | .bool _, b, h => by cases b <;> first | exact congrArg _ (beq_iff_eq.1 h) | cases h
  | .num _, b, h => by cases b <;> first | exact congrArg _ (beq_iff_eq.1 h) | cases h
  | .str _, b, h => by cases b <;> first | exact congrArg _ (beq_iff_eq.1 h) | cases h
  | .arr _, b, h => by cases b <;> first | exact congrArg _ (JValue.eq_of_beqList h) | cases h
  | .obj _, b, h => by cases b <;> first | exact congrArg _ (JValue.eq_of_beqObj h) | cases h

theorem JValue.eq_of_beqList : ∀ {a b : List JValue}, JValue.beqList a b = true → a = b
  | [], [], _ => rfl
  | [], _ :: _, h => nomatch h
  | _ :: _, [], h => nomatch h
  | _ :: _, _ :: _, h => by
    obtain ⟨h1, h2⟩ := Bool.and_eq_true_iff.1 h
    rw [JValue.eq_of_beq h1, JValue.eq_of_beqList h2]

theorem JValue.eq_of_beqObj : ∀ {a b : JObj}, JValue.beqObj a b = true → a = b
  | [], [], _ => rfl
  | [], _ :: _, h => nomatch h
  | _ :: _, [], h => nomatch h
  | (_, _) :: _, (_, _) :: _, h => by
    obtain ⟨hkx, h2⟩ := Bool.and_eq_true_iff.1 h
    obtain ⟨hk, h1⟩ := Bool.and_eq_true_iff.1 hkx
    rw [beq_iff_eq.1 hk, JValue.eq_of_beq h1, JValue.eq_of_beqObj h2]
end

mutual
theorem JValue.beq_refl : ∀ a : JValue, a.beq a = true
  | .null => rfl
  | .bool _ => beq_self_eq_true _
  | .num _ => beq_self_eq_true _
  | .str _ => beq_self_eq_true _
  | .arr xs => JValue.beqList_refl xs
  | .obj xs => JValue.beqObj_refl xs

theorem JValue.beqList_refl : ∀ a : List JValue, JValue.beqList a a = true
  | [] => rfl
  | x :: xs => Bool.and_eq_true_iff.2 ⟨JValue.beq_refl x, JValue.beqList_refl xs⟩

theorem JValue.beqObj_refl : ∀ a : JObj, JValue.beqObj a a = true
  | [] => rfl
  | (_, x) :: xs => Bool.and_eq_true_iff.2
      ⟨Bool.and_eq_true_iff.2 ⟨beq_self_eq_true _, JValue.beq_refl x⟩, JValue.beqObj_refl xs⟩
end

instance : DecidableEq JValue := fun a b =>
  decidable_of_iff (a.beq b = true) ⟨JValue.eq_of_beq, fun h => h ▸ JValue.beq_refl a⟩

/-- Results of fallible functions are compared by `decide` in examples. -/
instance exceptDecidableEq {ε α : Type} [DecidableEq ε] [DecidableEq α] : DecidableEq (Except ε α)
  | .ok a, .ok b => if h : a = b then isTrue (h ▸ rfl) else isFalse fun e => h (by cases e; rfl)
  | .error a, .error b => if h : a = b then isTrue (h ▸ rfl) else isFalse fun e => h (by cases e; rfl)
  | .ok _, .error _ => isFalse fun e => by cases e
  | .error _, .ok _ => isFalse fun e => by cases e

/-! ### Go map operations -/

/-- `v, ok := m[k]`: the value stored under `k`, if any. -/
def lookup (m : JObj) (k : String) : Option JValue :=
  match m with
  | [] => none
  | (k', v) :: rest => if k' = k then some v else lookup rest k

/-- `m[k] = v`: overwrites the entry of `k` in place, or appends one. -/
def setField (m : JObj) (k : String) (v : JValue) : JObj :=
  match m with
  | [] => [(k, v)]
  | (k', v') :: rest => if k' = k then (k, v) :: rest else (k', v') :: setField rest k v

/-- `_, ok := m[k]`. -/
def hasKey (m : JObj) (k : String) : Bool := (lookup m k).isSome

@[simp] theorem lookup_nil (k : String) : lookup [] k = none := rfl

theorem lookup_cons (k k' : String) (v : JValue) (rest : JObj) :
    lookup ((k', v) :: rest) k = if k' = k then some v else lookup rest k := rfl

@[simp] theorem lookup_setField_self (m : JObj) (k : String) (v : JValue) :
    lookup (setField m k v) k = some v := by
  induction m with
  | nil => simp [setField, lookup]
  | cons kv rest ih => obtain ⟨k', v'⟩ := kv; by_cases h : k' = k <;> simp [setField, lookup, h, ih]

@[simp] theorem lookup_setField_ne (m : JObj) {k j : String} (v : JValue) (h : k ≠ j) :
    lookup (setField m k v) j = lookup m j := by
  induction m with
  | nil => simp [setField, lookup, h]
  | cons kv rest ih =>
    obtain ⟨k', v'⟩ := kv
    by_cases hk : k' = k
    · subst hk; simp [setField, lookup, h]
    · simp only [setField, hk, if_false, lookup, ih]

theorem lookup_eq_some_mem {m : JObj} {k : String} {v : JValue} (h : lookup m k = some v) :
    (k, v) ∈ m := by
  induction m with
  | nil => simp at h
  | cons kv rest ih =>
    obtain ⟨k', v'⟩ := kv
    rw [lookup_cons] at h
    split at h
    · cases h; subst_vars; exact List.mem_cons_self _ _
    · exact List.mem_cons_of_mem _ (ih h)

theorem lookup_eq_none_iff {m : JObj} {k : String} : lookup m k = none ↔ k ∉ m.map Prod.fst := by
  induction m with
  | nil => simp
  | cons kv rest ih =>
    obtain ⟨k', v'⟩ := kv
    rw [lookup_cons]
    by_cases h : k' = k
    · simp [h]
    · simp only [h, if_false, ih, List.map_cons, List.mem_cons, not_or]
      exact ⟨fun hn => ⟨fun e => h e.symm, hn⟩, And.right⟩

/-- The keys of `setField m k v` are those of `m`, plus `k` at the end when it is new. -/
theorem keys_setField (m : JObj) (k : String) (v : JValue) :
    (setField m k v).map Prod.fst =
      if k ∈ m.map Prod.fst then m.map Prod.fst else m.map Prod.fst ++ [k] := by
  induction m with
  | nil => simp [setField]
  | cons kv rest ih =>
    obtain ⟨k', v'⟩ := kv
    by_cases h : k' = k
    · subst h; simp [setField]
    · simp only [setField, h, if_false, List.map_cons, ih, List.mem_cons, Ne.symm h, false_or]
      split <;> simp

/-- A new key is appended. -/
theorem setField_of_not_mem {m : JObj} {k : String} (v : JValue) (h : k ∉ m.map Prod.fst) :
    setField m k v = m ++ [(k, v)] := by
  induction m with
  | nil => rfl
  | cons kv rest ih =>
    obtain ⟨k', v'⟩ := kv
    simp only [List.map_cons, List.mem_cons, not_or] at h
    simp only [setField, Ne.symm h.1, if_false, ih h.2, List.cons_append]

/-- Writing back the value a key already holds leaves the map as it is. -/
theorem setField_lookup_self {m : JObj} {k : String} {v : JValue} (h : lookup m k = some v) :
    setField m k v = m := by
  induction m with
  | nil => simp at h
  | cons kv rest ih =>
    obtain ⟨k', v'⟩ := kv
    rw [lookup_cons] at h
    by_cases hk : k' = k
    · subst hk
      simp only [if_true, Option.some.injEq] at h
      subst h
      simp [setField]
    · simp only [hk, if_false] at h
      simp only [setField, hk, if_false, ih h]

/-- Keys stay distinct under `setField`. -/
theorem nodup_keys_setField {m : JObj} (k : String) (v : JValue) (h : (m.map Prod.fst).Nodup) :
    ((setField m k v).map Prod.fst).Nodup := by
  rw [keys_setField]
  split
  · exact h
  · rename_i hk
    exact List.pairwise_append.2 ⟨h, List.pairwise_singleton _ _, fun a ha b hb e => by
      rw [List.mem_singleton] at hb
      exact hk (hb ▸ e ▸ ha)⟩

/-- With distinct keys, each entry is what its key looks up. -/
theorem lookup_of_mem_nodup {m : JObj} {k : String} {v : JValue} (hn : (m.map Prod.fst).Nodup)
    (h : (k, v) ∈ m) : lookup m k = some v := by
  induction m with
  | nil => simp at h
  | cons kv rest ih =>
    obtain ⟨k', v'⟩ := kv
    simp only [List.map_cons, List.nodup_cons] at hn
    rw [lookup_cons]
    rcases List.mem_cons.mp h with h | h
    · cases h; simp
    · have hk : k' ≠ k := fun e => hn.1 (e ▸ List.mem_map_of_mem Prod.fst h)
      simp only [hk, if_false, ih hn.2 h]

/-- An entry of `setField m k v` is the new one or an entry of `m`. -/
theorem mem_setField {m : JObj} {k : String} {v : JValue} {kv : String × JValue}
    (h : kv ∈ setField m k v) : kv = (k, v) ∨ kv ∈ m := by
  induction m with
  | nil => simpa [setField] using h
  | cons kv' rest ih =>
    obtain ⟨k', v'⟩ := kv'
    unfold setField at h
    split at h
    · rcases List.mem_cons.mp h with rfl | h
      · exact .inl rfl
      · exact .inr (List.mem_cons_of_mem _ h)
    · rcases List.mem_cons.mp h with rfl | h
      · exact .inr (List.mem_cons_self _ _)
      · exact (ih h).imp_right (List.mem_cons_of_mem _)

/-- Dropping entries by key keeps the lookup of every key that stays. -/
theorem lookup_filter (m : JObj) (p : String × JValue → Bool) {k : String}
    (hp : ∀ v, p (k, v) = true) : lookup (m.filter p) k = lookup m k := by
  induction m with
  | nil => rfl
  | cons kv rest ih =>
    obtain ⟨k', v'⟩ := kv
    by_cases hk : k' = k
    · subst hk; simp [List.filter_cons, hp, lookup_cons]
    · by_cases hpk : p (k', v') = true <;> simp [List.filter_cons, hpk, lookup_cons, hk, ih]

/-! ### Unique keys and depth -/

mutual
/-- Every object of the value has pairwise distinct keys, as every Go map does. -/
def JValue.KeysUnique : JValue → Prop
  | .arr xs => JValue.KeysUniqueList xs
  | .obj kvs => (kvs.map Prod.fst).Nodup ∧ JValue.KeysUniqueObj kvs
  | _ => True

/-- Every element of the array has unique keys. -/
def JValue.KeysUniqueList : List JValue → Prop
  | [] => True
  | x :: xs => x.KeysUnique ∧ JValue.KeysUniqueList xs

/-- Every member value has unique keys. -/
def JValue.KeysUniqueObj : JObj → Prop
  | [] => True
  | (_, x) :: xs => x.KeysUnique ∧ JValue.KeysUniqueObj xs
end

theorem JValue.keysUniqueList_iff {xs : List JValue} :
    JValue.KeysUniqueList xs ↔ ∀ x ∈ xs, x.KeysUnique := by
  induction xs with
  | nil => simp [JValue.KeysUniqueList]
  | cons x rest ih => simp [JValue.KeysUniqueList, ih]

theorem JValue.keysUniqueObj_iff {m : JObj} :
    JValue.KeysUniqueObj m ↔ ∀ kv ∈ m, kv.2.KeysUnique := by
  induction m with
  | nil => simp [JValue.KeysUniqueObj]
  | cons kv rest ih => obtain ⟨k, v⟩ := kv; simp [JValue.KeysUniqueObj, ih]

mutual
/-- Nesting depth of arrays and objects, `1` for a scalar. -/
def JValue.depth : JValue → Nat
  | .arr xs => JValue.depthList xs + 1
  | .obj kvs => JValue.depthObj kvs + 1
  | _ => 1

/-- Largest depth of the elements. -/
def JValue.depthList : List JValue → Nat
  | [] => 0
  | x :: xs => max x.depth (JValue.depthList xs)

/-- Largest depth of the member values. -/
def JValue.depthObj : JObj → Nat
  | [] => 0
  | (_, x) :: xs => max x.depth (JValue.depthObj xs)
end

theorem JValue.depth_le_depthObj_of_mem {m : JObj} {k : String} {v : JValue}
    (h : (k, v) ∈ m) : v.depth ≤ JValue.depthObj m := by
  induction m with
  | nil => simp at h
  | cons kv rest ih =>
    obtain ⟨k', v'⟩ := kv
    simp only [List.mem_cons, Prod.mk.injEq] at h
    rcases h with ⟨-, rfl⟩ | h
    · exact le_max_left _ _
    · exact le_trans (ih h) (le_max_right _ _)

theorem JValue.depth_le_depthList_of_mem {xs : List JValue} {v : JValue} (h : v ∈ xs) :
    v.depth ≤ JValue.depthList xs := by
  induction xs with
  | nil => simp at h
  | cons x rest ih =>
    rcases List.mem_cons.mp h with rfl | h
    · exact le_max_left _ _
    · exact le_trans (ih h) (le_max_right _ _)

/-- A value stored in an object is shallower than the object. -/
theorem JValue.depth_lt_of_lookup {m : JObj} {k : String} {v : JValue}
    (h : lookup m k = some v) : v.depth ≤ JValue.depthObj m :=
  JValue.depth_le_depthObj_of_mem (lookup_eq_some_mem h)

theorem JValue.depth_pos (v : JValue) : 0 < v.depth := by cases v <;> simp [JValue.depth]

/-- A non-empty object has positive depth. -/
theorem JValue.depthObj_pos : ∀ {r : JObj}, r ≠ [] → 0 < JValue.depthObj r
  | [], h => absurd rfl h
  | (_, v) :: _, _ => lt_of_lt_of_le v.depth_pos (le_max_left _ _)

end OpenBindings
