import OpenBindings.Json
import Mathlib.Data.List.Sort
import Mathlib.Data.String.Basic

/-! # `encoding/json` on the typed documents

The lossless `UnmarshalJSON` methods of `types.go` read one JSON text twice: into a
`map[string]json.RawMessage`, and into a wire struct. Here a JSON text is its tree, a `JValue` whose
objects keep every member in text order, repeated names included, and numbers already read as
doubles. The two readings are:

* `rawObject`: the members as a map of raw values; a repeated name keeps its last value, and each
  raw value is the member's own tree, passed on untouched.
* `decodeStruct`: the members in order, each stored into the wire field whose JSON name folds to
  the member's name (`foldEq`, Go's case-insensitive match, with the Kelvin sign and the long s as
  `k` and `s`); the field's decoder reads the value on top of what the field holds. A value of
  the wrong JSON type makes the whole decoding fail.

Typed values go back to JSON field by field, a field tagged `omitempty` left out when it holds
its zero value; a Go map is written with its keys in ascending byte order (`sortMembers`). A
value held as `any` is read as Go values, so an object loses its repeated names (`decodeAny`),
and is written with sorted names (`encodeAny`). -/

namespace OpenBindings.GoJson

/-! ### Field names -/

/-- `foldRune` of `encoding/json` where it meets an ASCII field name: an ASCII letter folds to its
upper case, the Kelvin sign to `K` and the long s to `S`. Any other rune folds to the least rune
of its case orbit, which is not ASCII; the model keeps the rune, which compares the same with the
ASCII field names. -/
def foldRune (c : Char) : Char :=
  if 'a' ≤ c ∧ c ≤ 'z' then Char.ofNat (c.toNat - 32)
  else if c = '\u212A' then 'K'
  else if c = '\u017F' then 'S'
  else c

/-- A member name selects the field whose JSON name folds to the same runes. -/
def foldEq (key name : String) : Bool := key.toList.map foldRune = name.toList.map foldRune

/-! ### Maps -/

/-- `m[k] = v` in a Go map with typed values. -/
def mapSet {α : Type} : List (String × α) → String → α → List (String × α)
  | [], k, v => [(k, v)]
  | (k', v') :: rest, k, v => if k' = k then (k, v) :: rest else (k', v') :: mapSet rest k v

section MapSet

variable {α : Type}

theorem mem_mapSet {m : List (String × α)} {k : String} {v : α} {kv : String × α}
    (h : kv ∈ mapSet m k v) : kv = (k, v) ∨ kv ∈ m := by
  induction m with
  | nil => simpa [mapSet] using h
  | cons kv' rest ih =>
    unfold mapSet at h
    split_ifs at h
    · rcases List.mem_cons.1 h with h | h
      · exact .inl h
      · exact .inr (List.mem_cons_of_mem _ h)
    · rcases List.mem_cons.1 h with h | h
      · exact .inr (h ▸ List.mem_cons_self _ _)
      · exact (ih h).imp_right (List.mem_cons_of_mem _)

theorem mem_keys_mapSet {m : List (String × α)} {k k' : String} {v : α} :
    k' ∈ (mapSet m k v).map Prod.fst ↔ k' = k ∨ k' ∈ m.map Prod.fst := by
  induction m with
  | nil => simp [mapSet]
  | cons kv rest ih =>
    by_cases h : kv.1 = k
    · simp [mapSet, h]
    · simp only [mapSet, if_neg h, List.map_cons, List.mem_cons, ih]
      tauto

theorem nodup_keys_mapSet {m : List (String × α)} (k : String) (v : α)
    (h : (m.map Prod.fst).Nodup) : ((mapSet m k v).map Prod.fst).Nodup := by
  induction m with
  | nil => simp [mapSet]
  | cons kv rest ih =>
    rw [List.map_cons, List.nodup_cons] at h
    by_cases hk : kv.1 = k
    · simpa [mapSet, hk] using h
    · simp only [mapSet, if_neg hk, List.map_cons, List.nodup_cons, mem_keys_mapSet]
      exact ⟨fun h' => h'.elim hk h.1, ih h.2⟩

/-- Assigning entries in order keeps the keys distinct and adds exactly the assigned keys. -/
theorem keys_foldl_mapSet (l : List (String × α)) {init : List (String × α)}
    (h : (init.map Prod.fst).Nodup) :
    ((l.foldl (fun m kv => mapSet m kv.1 kv.2) init).map Prod.fst).Nodup ∧
      ∀ k, k ∈ (l.foldl (fun m kv => mapSet m kv.1 kv.2) init).map Prod.fst ↔
        k ∈ l.map Prod.fst ∨ k ∈ init.map Prod.fst := by
  induction l generalizing init with
  | nil => simpa using h
  | cons kv rest ih =>
    obtain ⟨hn, hk⟩ := ih (nodup_keys_mapSet kv.1 kv.2 h)
    rw [List.foldl_cons]
    refine ⟨hn, fun k => ?_⟩
    rw [hk, mem_keys_mapSet, List.map_cons, List.mem_cons]
    tauto

end MapSet

/-- Entries ordered by name. -/
def keyLE {α : Type} (a b : String × α) : Prop := a.1 ≤ b.1

instance {α : Type} : DecidableRel (@keyLE α) := fun a b => inferInstanceAs (Decidable (a.1 ≤ b.1))

/-- The entries of a Go map in the order `json.Marshal` writes them: ascending names. -/
def sortMembers {α : Type} (m : List (String × α)) : List (String × α) := m.insertionSort keyLE

theorem perm_sortMembers {α : Type} (m : List (String × α)) : (sortMembers m).Perm m :=
  List.perm_insertionSort _ m

/-- `json.Unmarshal` into `map[string]json.RawMessage`, on the members of an object. -/
def rawMap (m : JObj) : JObj := m.foldl (fun acc kv => setField acc kv.1 kv.2) []

/-- `json.Unmarshal` into `map[string]json.RawMessage`: an object's members, no members for
`null`, and an error for any other value. -/
def rawObject : JValue → Option JObj
  | .obj m => some (rawMap m)
  | .null => some []
  | _ => none

/-! ### Values held as `any` -/

mutual
/-- A JSON value read into `any`: each object becomes a Go map. -/
def decodeAny : JValue → JValue
  | .arr xs => .arr (decodeAnyList xs)
  | .obj m => .obj (decodeAnyObj m [])
  | v => v

def decodeAnyList : List JValue → List JValue
  | [] => []
  | x :: xs => decodeAny x :: decodeAnyList xs

/-- The members stored one by one into the map `acc`. -/
def decodeAnyObj : JObj → JObj → JObj
  | [], acc => acc
  | (k, v) :: rest, acc => decodeAnyObj rest (setField acc k (decodeAny v))
end

mutual
/-- A Go value held as `any` written as JSON: map entries in ascending name order. -/
def encodeAny : JValue → JValue
  | .arr xs => .arr (encodeAnyList xs)
  | .obj m => .obj (sortMembers (encodeAnyObj m))
  | v => v

def encodeAnyList : List JValue → List JValue
  | [] => []
  | x :: xs => encodeAny x :: encodeAnyList xs

def encodeAnyObj : JObj → JObj
  | [] => []
  | (k, v) :: rest => (k, encodeAny v) :: encodeAnyObj rest
end

/-! ### Decoding into a field -/

/-- A `string` field: a string, or `null`, which leaves the field as it is. -/
def decodeString (prev : String) : JValue → Option String
  | .str s => some s
  | .null => some prev
  | _ => none

/-- A `bool` field. -/
def decodeBool (prev : Bool) : JValue → Option Bool
  | .bool b => some b
  | .null => some prev
  | _ => none

/-- The elements of a `[]string` array, each read over the element the slice already holds there. -/
def decodeStringElems : List String → List JValue → Option (List String)
  | _, [] => some []
  | ps, x :: xs => (decodeString (ps.headD "") x).bind fun s =>
      (decodeStringElems ps.tail xs).map (s :: ·)

/-- A `[]string` field: `null` empties it. -/
def decodeStrings (prev : List String) : JValue → Option (List String)
  | .arr xs => decodeStringElems prev xs
  | .null => some []
  | _ => none

/-- A `*bool` field: `null` makes it `nil`, and a value replaces what the pointer held. -/
def decodePtrBool (_ : Option Bool) : JValue → Option (Option Bool)
  | .bool b => some (some b)
  | .null => some none
  | _ => none

/-- A `*float64` field. -/
def decodePtrFloat (_ : Option Float64) : JValue → Option (Option Float64)
  | .num f => some (some f)
  | .null => some none
  | _ => none

/-- An `any` field: the value read afresh; `null` makes it `nil`. -/
def decodeAnyField (_ : JValue) (v : JValue) : Option JValue := some (decodeAny v)

/-- A `map[string]any` field (`JSONSchema` too): `null` makes it `nil`; an object's members are
stored into the map the field holds. -/
def decodeAnyMap (prev : Option JObj) : JValue → Option (Option JObj)
  | .obj m => some (some (decodeAnyObj m (prev.getD [])))
  | .null => some none
  | _ => none

/-- A `[]T` field whose elements decode with `elem` (`T` has its own `UnmarshalJSON`, which
overwrites the element it decodes into). -/
def decodeElems {α : Type} (elem : JValue → Option α) (_ : List α) : JValue → Option (List α)
  | .arr xs => xs.mapM elem
  | .null => some []
  | _ => none

/-- A `map[string]T` field whose values decode afresh with `elem`, stored into the map the field
holds; `null` makes it `nil`. -/
def decodeMap {α : Type} (elem : JValue → Option α) (prev : Option (List (String × α))) :
    JValue → Option (Option (List (String × α)))
  | .obj m => (m.foldlM (fun acc kv => (elem kv.2).map (mapSet acc kv.1)) (prev.getD [])).map some
  | .null => some none
  | _ => none

/-- A `*T` field whose value decodes with `elem` (an `UnmarshalJSON` that overwrites the value the
pointer holds); `null` makes it `nil`. -/
def decodePtr {α : Type} (elem : JValue → Option α) (_ : Option α) : JValue → Option (Option α)
  | .null => some none
  | v => (elem v).map some

/-- A wire struct's fields as `encoding/json` caches them: each JSON name with the decoder that
reads a value into that field. -/
abbrev Fields (σ : Type) := List (String × (σ → JValue → Option σ))

/-- One member stored into the field whose JSON name folds to the member's name; a member that
names no field is skipped. -/
def storeMember {σ : Type} (fields : Fields σ) (w : σ) (k : String) (v : JValue) : Option σ :=
  match fields.find? (fun f => foldEq k f.1) with
  | some f => f.2 w v
  | none => some w

/-- `json.Unmarshal` into a wire struct: each member in order, stored into its field; `null`
leaves the struct at its zero value. -/
def decodeStruct {σ : Type} (fields : Fields σ) (zero : σ) : JValue → Option σ
  | .obj m => m.foldlM (fun w kv => storeMember fields w kv.1 kv.2) zero
  | .null => some zero
  | _ => none

/-! ### Encoding a field -/

/-- A `string` field tagged `omitempty`. -/
def omitString (name s : String) : JObj := if s = "" then [] else [(name, .str s)]

/-- A `bool` field tagged `omitempty`. -/
def omitBool (name : String) (b : Bool) : JObj := if b then [(name, .bool true)] else []

/-- A `[]string` field tagged `omitempty`. -/
def omitStrings (name : String) (xs : List String) : JObj :=
  if xs.isEmpty then [] else [(name, .arr (xs.map .str))]

/-- A `*bool` field tagged `omitempty`. -/
def omitPtrBool (name : String) : Option Bool → JObj
  | some b => [(name, .bool b)]
  | none => []

/-- A `*float64` field tagged `omitempty`. -/
def omitPtrFloat (name : String) : Option Float64 → JObj
  | some f => [(name, .num f)]
  | none => []

/-- An `any` field tagged `omitempty`: left out when `nil`. -/
def omitAny (name : String) (v : JValue) : JObj := if v = .null then [] else [(name, encodeAny v)]

/-- A `map[string]any` field tagged `omitempty`: left out when `nil` or empty. -/
def omitAnyMap (name : String) : Option JObj → JObj
  | some m => if m.isEmpty then [] else [(name, encodeAny (.obj m))]
  | none => []

/-- A `[]T` field tagged `omitempty`, each element written by `enc`. -/
def omitElems {α : Type} (name : String) (enc : α → JValue) (xs : List α) : JObj :=
  if xs.isEmpty then [] else [(name, .arr (xs.map enc))]

/-- A `map[string]T`, each value written by `enc`. -/
def encodeMap {α : Type} (enc : α → JValue) (m : List (String × α)) : JValue :=
  .obj (sortMembers (m.map fun kv => (kv.1, enc kv.2)))

/-- A `map[string]any` value (a `JSONSchema` in a map): `nil` is written `null`. -/
def encodeAnyMap : Option JObj → JValue
  | some m => encodeAny (.obj m)
  | none => .null

/-- A `map[string]T` field without `omitempty`: `nil` is written `null`. -/
def encodeMapField {α : Type} (enc : α → JValue) : Option (List (String × α)) → JValue
  | some m => encodeMap enc m
  | none => .null

/-- A `map[string]T` field tagged `omitempty`. -/
def omitMap {α : Type} (name : String) (enc : α → JValue) : Option (List (String × α)) → JObj
  | some m => if m.isEmpty then [] else [(name, encodeMap enc m)]
  | none => []

/-- A `*T` field tagged `omitempty`, its value written by `enc`. -/
def omitPtr {α : Type} (name : String) (enc : α → JValue) : Option α → JObj
  | some x => [(name, enc x)]
  | none => []

/-! ### What an encoder writes

Every field encoder writes at most one member, under the field's JSON name. -/

theorem keys_omitString (name s : String) : ((omitString name s).map Prod.fst).Sublist [name] := by
  unfold omitString; split <;> simp

theorem keys_omitBool (name : String) (b : Bool) : ((omitBool name b).map Prod.fst).Sublist [name] := by
  unfold omitBool; split <;> simp

theorem keys_omitStrings (name : String) (xs : List String) :
    ((omitStrings name xs).map Prod.fst).Sublist [name] := by
  unfold omitStrings; split <;> simp

theorem keys_omitPtrBool (name : String) (b : Option Bool) :
    ((omitPtrBool name b).map Prod.fst).Sublist [name] := by
  cases b <;> simp [omitPtrBool]

theorem keys_omitPtrFloat (name : String) (f : Option Float64) :
    ((omitPtrFloat name f).map Prod.fst).Sublist [name] := by
  cases f <;> simp [omitPtrFloat]

theorem keys_omitAny (name : String) (v : JValue) : ((omitAny name v).map Prod.fst).Sublist [name] := by
  unfold omitAny; split <;> simp

theorem keys_omitAnyMap (name : String) (m : Option JObj) :
    ((omitAnyMap name m).map Prod.fst).Sublist [name] := by
  unfold omitAnyMap; split <;> (try split) <;> simp

theorem keys_omitElems {α : Type} (name : String) (enc : α → JValue) (xs : List α) :
    ((omitElems name enc xs).map Prod.fst).Sublist [name] := by
  unfold omitElems; split <;> simp

theorem keys_omitMap {α : Type} (name : String) (enc : α → JValue) (m : Option (List (String × α))) :
    ((omitMap name enc m).map Prod.fst).Sublist [name] := by
  unfold omitMap; split <;> (try split) <;> simp

theorem keys_omitPtr {α : Type} (name : String) (enc : α → JValue) (x : Option α) :
    ((omitPtr name enc x).map Prod.fst).Sublist [name] := by
  cases x <;> simp [omitPtr]

end OpenBindings.GoJson
