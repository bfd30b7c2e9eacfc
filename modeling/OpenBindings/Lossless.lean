import OpenBindings.GoJson
import OpenBindings.Profile

/-! # The lossless helpers (`splitLossless`, `knownSet`, `marshalLossless`)

Every typed document keeps the JSON members it has no field for: `splitLossless` sorts the raw
members outside the type's known names into extensions (`x-` names) and unknown fields, and
`marshalLossless` writes the unknown fields, then the extensions, then the typed view's members
over them, so that a known field wins a name they share.

Read as Go map operations, a map built by assignments answers a key with the last value assigned
to it (`lookup_foldl_setField`). From this: the raw map answers each name with its last member in
the text (`lookup_rawMap`), the two maps of `splitLossless` answer exactly the names outside the
known set, each in its own class (`lookup_splitLossless`), and the object `marshalLossless` writes
answers a name with the typed view's value, else the extensions', else the unknown fields'
(`lookup_marshalLossless`). -/

namespace OpenBindings.Lossless

open GoJson
open SchemaProfile (hasPrefix)

/-- One iteration of the loop of `splitLossless`: a raw member whose name is not known goes to the
extensions when the name starts with `x-`, and to the unknown fields otherwise. -/
def splitStep (known : List String) (acc : JObj × JObj) (kv : String × JValue) : JObj × JObj :=
  if kv.1 ∈ known then acc
  else if hasPrefix kv.1 "x-" then (setField acc.1 kv.1 kv.2, acc.2)
  else (acc.1, setField acc.2 kv.1 kv.2)

/-- `splitLossless`: the extensions and the unknown fields of the raw members. -/
def splitLossless (raw : JObj) (known : List String) : JObj × JObj :=
  raw.foldl (splitStep known) ([], [])

/-- `knownSet`: the set of known names, kept as the list of them. -/
def knownSet (keys : List String) : List String := keys

/-- The map `out` of `marshalLossless`: the unknown fields, then the extensions, then the members
of the typed view, each written into it. -/
def mergeLossless (unknown extensions typed : JObj) : JObj :=
  let out := unknown.foldl (fun o kv => setField o kv.1 kv.2) []
  let out := extensions.foldl (fun o kv => setField o kv.1 kv.2) out
  typed.foldl (fun o kv => setField o kv.1 kv.2) out

/-- `marshalLossless`: the merged map, which `json.Marshal` writes with sorted names. -/
def marshalLossless (unknown extensions typed : JObj) : JValue :=
  .obj (sortMembers (mergeLossless unknown extensions typed))

/-- The members of an object, none for any other value. -/
def members : JValue → JObj
  | .obj m => m
  | _ => []

/-! ### Go maps built by assignments -/

theorem lookup_append (a b : JObj) (k : String) :
    lookup (a ++ b) k = (lookup a k).or (lookup b k) := by
  induction a with
  | nil => rfl
  | cons kv rest ih =>
    obtain ⟨k', v'⟩ := kv
    by_cases h : k' = k <;> simp [lookup_cons, h, ih]

/-- A map built by assignments answers a key with the last value assigned to it, or as it started. -/
theorem lookup_foldl_setField (m init : JObj) (k : String) :
    lookup (m.foldl (fun o kv => setField o kv.1 kv.2) init) k = (lookup m.reverse k).or (lookup init k) := by
  induction m generalizing init with
  | nil => rfl
  | cons kv rest ih =>
    obtain ⟨k', v'⟩ := kv
    rw [List.foldl_cons, ih, List.reverse_cons, lookup_append, Option.or_assoc]
    by_cases h : k' = k
    · subst h
      simp [lookup_cons]
    · simp [lookup_cons, h, lookup_setField_ne _ _ h]

theorem nodup_keys_foldl_setField (m : JObj) {init : JObj} (h : (init.map Prod.fst).Nodup) :
    ((m.foldl (fun o kv => setField o kv.1 kv.2) init).map Prod.fst).Nodup := by
  induction m generalizing init with
  | nil => exact h
  | cons kv rest ih => exact ih (nodup_keys_setField _ _ h)

/-- The raw map answers each name with the last member of that name. -/
theorem lookup_rawMap (m : JObj) (k : String) : lookup (rawMap m) k = lookup m.reverse k := by
  rw [rawMap, lookup_foldl_setField, lookup_nil, Option.or_none]

theorem nodup_keys_rawMap (m : JObj) : ((rawMap m).map Prod.fst).Nodup :=
  nodup_keys_foldl_setField m List.nodup_nil

/-! ### Sorting -/

/-- With distinct names, a map written in sorted order answers every name as before. -/
theorem lookup_sortMembers {m : JObj} (h : (m.map Prod.fst).Nodup) (k : String) :
    lookup (sortMembers m) k = lookup m k := by
  have hs : ((sortMembers m).map Prod.fst).Nodup := ((perm_sortMembers m).map Prod.fst).nodup_iff.2 h
  cases hl : lookup m k with
  | none =>
    rw [lookup_eq_none_iff] at hl ⊢
    exact fun hk => hl (((perm_sortMembers m).map Prod.fst).subset hk)
  | some v =>
    exact lookup_of_mem_nodup hs ((perm_sortMembers m).symm.subset (lookup_eq_some_mem hl))

/-! ### `splitLossless` -/

/-- The extensions answer an `x-` name outside the known set, and the unknown fields any other
name outside it, with its last raw value. -/
theorem lookup_splitLossless (raw : JObj) (known : List String) (k : String) :
    lookup (splitLossless raw known).1 k =
        (if k ∉ known ∧ hasPrefix k "x-" = true then lookup raw.reverse k else none) ∧
      lookup (splitLossless raw known).2 k =
        (if k ∉ known ∧ hasPrefix k "x-" = false then lookup raw.reverse k else none) := by
  suffices ∀ acc : JObj × JObj,
      lookup (raw.foldl (splitStep known) acc).1 k =
          (if k ∉ known ∧ hasPrefix k "x-" = true then lookup raw.reverse k else none).or
            (lookup acc.1 k) ∧
      lookup (raw.foldl (splitStep known) acc).2 k =
          (if k ∉ known ∧ hasPrefix k "x-" = false then lookup raw.reverse k else none).or
            (lookup acc.2 k) by
    simpa using this ([], [])
  induction raw with
  | nil => intro acc; simp
  | cons kv rest ih =>
    intro acc
    obtain ⟨k', v'⟩ := kv
    rw [List.foldl_cons, List.reverse_cons, lookup_append]
    obtain ⟨h1, h2⟩ := ih _
    rw [h1, h2, splitStep]
    by_cases hk : k' = k
    · subst hk
      by_cases hm : k' ∈ known
      · simp [hm]
      · cases hx : hasPrefix k' "x-" <;> simp [hm, hx, lookup_cons, Option.or_assoc]
    · have hk' : ∀ v, lookup [(k', v)] k = none := fun v => by simp [lookup_cons, hk]
      split_ifs <;> simp [hk', lookup_setField_ne _ _ hk]

/-- Both maps of `splitLossless` hold each name once. -/
theorem nodup_splitLossless (raw : JObj) (known : List String) :
    ((splitLossless raw known).1.map Prod.fst).Nodup ∧
      ((splitLossless raw known).2.map Prod.fst).Nodup := by
  suffices ∀ acc : JObj × JObj, (acc.1.map Prod.fst).Nodup → (acc.2.map Prod.fst).Nodup →
      ((raw.foldl (splitStep known) acc).1.map Prod.fst).Nodup ∧
        ((raw.foldl (splitStep known) acc).2.map Prod.fst).Nodup from
    this ([], []) List.nodup_nil List.nodup_nil
  induction raw with
  | nil => exact fun _ h1 h2 => ⟨h1, h2⟩
  | cons kv rest ih =>
    intro acc h1 h2
    apply ih
    all_goals
      unfold splitStep
      split_ifs
      all_goals first | assumption | exact nodup_keys_setField _ _ ‹_›

/-! ### `marshalLossless` -/

/-- The merged map answers a name with the typed view's value, else the extensions', else the
unknown fields'. -/
theorem lookup_mergeLossless (unknown extensions typed : JObj) (k : String) :
    lookup (mergeLossless unknown extensions typed) k =
      (lookup typed.reverse k).or ((lookup extensions.reverse k).or (lookup unknown.reverse k)) := by
  rw [mergeLossless, lookup_foldl_setField, lookup_foldl_setField, lookup_foldl_setField, lookup_nil,
    Option.or_none]

theorem nodup_keys_mergeLossless (unknown extensions typed : JObj) :
    ((mergeLossless unknown extensions typed).map Prod.fst).Nodup :=
  nodup_keys_foldl_setField _ (nodup_keys_foldl_setField _ (nodup_keys_rawMap unknown))

/-- The object `marshalLossless` writes answers a name as the merged map does. -/
theorem lookup_marshalLossless (unknown extensions typed : JObj) (k : String) :
    lookup (members (marshalLossless unknown extensions typed)) k =
      (lookup typed.reverse k).or ((lookup extensions.reverse k).or (lookup unknown.reverse k)) := by
  rw [marshalLossless, members, lookup_sortMembers (nodup_keys_mergeLossless _ _ _),
    lookup_mergeLossless]

end OpenBindings.Lossless
