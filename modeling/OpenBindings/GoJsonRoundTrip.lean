import OpenBindings.Lossless

/-! # Round trips through `encoding/json`

A value survives a round trip when decoding its encoding gives a value that encodes the same way
(`RoundTrips`); for a struct field, when the member its encoder writes, decoded into the field's
zero value, gives a value whose encoder writes the same member (`FieldRoundTrips`). Neither asks
for the value itself back: an empty map and a `nil` map encode alike, and a value held as `any`
comes back with its objects' names in order.

Each field type of the documents round-trips: strings, booleans, pointers and string slices
exactly, `any` values and `map[string]any` fields when no object in them repeats a name
(`encodeAny_decodeAny_encodeAny`), and slices, maps and pointers of a type that round-trips,
maps when they hold each key once. -/

namespace OpenBindings.GoJson

/-! ### Entries sorted by name -/

section Sorting

variable {α : Type}

/-- Entries strictly ordered by name. -/
def keyLT (a b : String × α) : Prop := a.1 < b.1

instance : IsTotal (String × α) keyLE := ⟨fun a b => le_total a.1 b.1⟩

instance : IsTrans (String × α) keyLE := ⟨fun _ _ _ => le_trans⟩

instance : IsAntisymm (String × α) keyLT := ⟨fun _ _ h h' => absurd (lt_trans h h') (lt_irrefl _)⟩

theorem sorted_sortMembers (m : List (String × α)) : (sortMembers m).Sorted keyLE :=
  List.sorted_insertionSort _ _

theorem sortMembers_of_sorted {m : List (String × α)} (h : m.Sorted keyLE) : sortMembers m = m :=
  List.Sorted.insertionSort_eq h

theorem nodup_keys_sortMembers {m : List (String × α)} (h : (m.map Prod.fst).Nodup) :
    ((sortMembers m).map Prod.fst).Nodup :=
  ((List.perm_insertionSort keyLE m).map Prod.fst).nodup_iff.2 h

/-- Entries sorted by name, with distinct names, are strictly ascending. -/
theorem sorted_keyLT {m : List (String × α)} (h : m.Sorted keyLE) (hn : (m.map Prod.fst).Nodup) :
    m.Sorted keyLT :=
  (h.and (List.pairwise_map.1 hn)).imp fun h => lt_of_le_of_ne h.1 h.2

/-- Two lists of entries sorted by name, with distinct names and the same entries, are one. -/
theorem eq_of_perm_of_sorted_keyLE {l l' : List (String × α)} (hp : l.Perm l')
    (hs : l.Sorted keyLE) (hs' : l'.Sorted keyLE) (hn : (l.map Prod.fst).Nodup) : l = l' :=
  List.eq_of_perm_of_sorted hp (sorted_keyLT hs hn) (sorted_keyLT hs' ((hp.map Prod.fst).nodup_iff.1 hn))

/-- Sorting entries with distinct names does not depend on the order they come in. -/
theorem sortMembers_eq_of_perm {l l' : List (String × α)} (hp : l.Perm l')
    (hn : (l.map Prod.fst).Nodup) : sortMembers l = sortMembers l' :=
  eq_of_perm_of_sorted_keyLE
    (((List.perm_insertionSort keyLE l).trans hp).trans (List.perm_insertionSort keyLE l').symm)
    (sorted_sortMembers l) (sorted_sortMembers l') (nodup_keys_sortMembers hn)

/-- Entries whose names form a sublist of a list of names in ascending order are sorted, and
their names are distinct. -/
theorem sorted_of_keys_sublist {m : List (String × α)} {names : List String}
    (hs : (names.map String.toList).Sorted (· < ·)) (h : (m.map Prod.fst).Sublist names) :
    m.Sorted keyLE ∧ (m.map Prod.fst).Nodup := by
  have hlt : (m.map Prod.fst).Sorted (· < ·) :=
    (List.pairwise_map.1 hs |>.imp String.lt_iff_toList_lt.2).sublist h
  exact ⟨(List.pairwise_map.1 hlt).imp le_of_lt, hlt.nodup⟩

/-- Entries with the same members as `m` whose names run through a list of names in ascending
order are `m` sorted. -/
theorem sortMembers_eq_of_keys_sublist {m m' : List (String × α)} (names : List String)
    (hs : (names.map String.toList).Sorted (· < ·)) (hp : m'.Perm m)
    (h : (m'.map Prod.fst).Sublist names) : sortMembers m = m' :=
  have hm' := sorted_of_keys_sublist hs h
  eq_of_perm_of_sorted_keyLE ((perm_sortMembers m).trans hp.symm) (sorted_sortMembers m) hm'.1
    (nodup_keys_sortMembers ((hp.map Prod.fst).nodup_iff.1 hm'.2))

/-- Sorting commutes with rewriting the values. -/
theorem sortMembers_map_snd {β : Type} (f : α → β) (m : List (String × α)) :
    sortMembers (m.map fun kv => (kv.1, f kv.2)) = (sortMembers m).map fun kv => (kv.1, f kv.2) :=
  (List.map_insertionSort keyLE keyLE (fun kv => (kv.1, f kv.2)) m fun _ _ _ _ => Iff.rfl).symm

end Sorting

/-! ### Values held as `any` -/

theorem encodeAnyList_eq (xs : List JValue) : encodeAnyList xs = xs.map encodeAny := by
  induction xs with
  | nil => rfl
  | cons x xs ih => rw [encodeAnyList, ih]; rfl

theorem decodeAnyList_eq (xs : List JValue) : decodeAnyList xs = xs.map decodeAny := by
  induction xs with
  | nil => rfl
  | cons x xs ih => rw [decodeAnyList, ih]; rfl

theorem encodeAnyObj_eq (m : JObj) : encodeAnyObj m = m.map fun kv => (kv.1, encodeAny kv.2) := by
  induction m with
  | nil => rfl
  | cons kv rest ih => rw [encodeAnyObj, ih]; rfl

/-- Members with distinct names, stored one by one into a map that has none of them, are
appended to it in order. -/
theorem decodeAnyObj_eq {m acc : JObj} (hn : (m.map Prod.fst).Nodup)
    (hd : ∀ k ∈ m.map Prod.fst, k ∉ acc.map Prod.fst) :
    decodeAnyObj m acc = acc ++ m.map fun kv => (kv.1, decodeAny kv.2) := by
  induction m generalizing acc with
  | nil => rw [decodeAnyObj, List.map_nil, List.append_nil]
  | cons kv rest ih =>
    obtain ⟨k, v⟩ := kv
    rw [List.map_cons, List.nodup_cons] at hn
    rw [decodeAnyObj, setField_of_not_mem _ (hd k (List.mem_cons_self _ _)), ih hn.2, List.map_cons,
      List.append_assoc, List.singleton_append]
    intro k' hk'
    simp only [List.map_append, List.mem_append, List.map_cons, List.map_nil, List.mem_singleton,
      not_or]
    exact ⟨hd k' (List.mem_cons_of_mem _ hk'), fun he => hn.1 (he ▸ hk')⟩

theorem encodeAny_eq_null {v : JValue} : encodeAny v = .null ↔ v = .null := by
  cases v <;> simp [encodeAny]

mutual
/-- A value whose objects repeat no name, encoded, read back into `any` and encoded again, is
written as it was the first time. -/
theorem encodeAny_decodeAny_encodeAny : ∀ {v : JValue}, v.KeysUnique →
    encodeAny (decodeAny (encodeAny v)) = encodeAny v
  | .null, _ => rfl
  | .bool _, _ => rfl
  | .num _, _ => rfl
  | .str _, _ => rfl
  | .arr xs, h => by
    simp only [encodeAny, decodeAny, encodeAnyList_eq, decodeAnyList_eq, List.map_map]
    exact congrArg JValue.arr (List.map_congr_left (encodeAny_decodeAny_encodeAnyList h))
  | .obj m, h => by
    have hS : ∀ kv ∈ sortMembers (m.map fun kv => (kv.1, encodeAny kv.2)),
        (kv.1, encodeAny (decodeAny kv.2)) = kv := by
      intro kv hkv
      obtain ⟨⟨k, v⟩, hm, rfl⟩ := List.mem_map.1 ((List.perm_insertionSort _ _).subset hkv)
      rw [encodeAny_decodeAny_encodeAnyObj h.2 _ hm]
    have hn : ((sortMembers (m.map fun kv => (kv.1, encodeAny kv.2))).map Prod.fst).Nodup :=
      nodup_keys_sortMembers (by simpa [List.map_map] using h.1)
    simp only [encodeAny, decodeAny, encodeAnyObj_eq]
    rw [decodeAnyObj_eq hn (by simp), List.nil_append]
    simp only [List.map_map, Function.comp_def]
    refine congrArg JValue.obj ?_
    rw [List.map_congr_left hS, List.map_id', sortMembers_of_sorted (sorted_sortMembers _)]

theorem encodeAny_decodeAny_encodeAnyList : ∀ {xs : List JValue}, JValue.KeysUniqueList xs →
    ∀ x ∈ xs, encodeAny (decodeAny (encodeAny x)) = encodeAny x
  | [], _ => by simp
  | _ :: _, h => List.forall_mem_cons.2
      ⟨encodeAny_decodeAny_encodeAny h.1, encodeAny_decodeAny_encodeAnyList h.2⟩

theorem encodeAny_decodeAny_encodeAnyObj : ∀ {m : JObj}, JValue.KeysUniqueObj m →
    ∀ kv ∈ m, encodeAny (decodeAny (encodeAny kv.2)) = encodeAny kv.2
  | [], _ => by simp
  | (_, _) :: _, h => List.forall_mem_cons.2
      ⟨encodeAny_decodeAny_encodeAny h.1, encodeAny_decodeAny_encodeAnyObj h.2⟩
end

/-! ### Round trips -/

section RoundTrip

variable {α : Type}

/-- `x` survives encoding with `enc` and decoding with `dec`: the value decoded encodes as `x`. -/
def RoundTrips (dec : JValue → Option α) (enc : α → JValue) (x : α) : Prop :=
  ∃ y, dec (enc x) = some y ∧ enc y = enc x

/-- A field's value survives its encoder `write`: decoded from the field's zero value, the members
`write` writes give a value for which `write` writes them again. -/
def FieldRoundTrips {τ : Type} (write : τ → JObj) (dec : τ → JValue → Option τ) (zero x : τ) :
    Prop :=
  ∃ y, (write x).foldlM (fun z kv => dec z kv.2) zero = some y ∧ write y = write x

/-- An object with distinct names held as `any` comes back with its members in name order. -/
theorem roundTrips_anyObj {o : JObj} (h : (JValue.obj o).KeysUnique) :
    ∃ o', decodeAnyMap none (encodeAny (.obj o)) = some (some o') ∧
      encodeAny (.obj o') = encodeAny (.obj o) ∧ o'.length = o.length := by
  have hn : ((sortMembers (encodeAnyObj o)).map Prod.fst).Nodup :=
    nodup_keys_sortMembers (by simpa [encodeAnyObj_eq, List.map_map] using h.1)
  refine ⟨decodeAnyObj (sortMembers (encodeAnyObj o)) [], rfl, encodeAny_decodeAny_encodeAny h, ?_⟩
  rw [decodeAnyObj_eq hn (by simp), List.nil_append, List.length_map, sortMembers,
    List.length_insertionSort, encodeAnyObj_eq, List.length_map]

theorem roundTrips_encodeAnyMap {x : Option JObj} (h : ∀ o ∈ x, (JValue.obj o).KeysUnique) :
    RoundTrips (decodeAnyMap none) encodeAnyMap x := by
  cases x with
  | none => exact ⟨none, rfl, rfl⟩
  | some o =>
    obtain ⟨o', ho, he, -⟩ := roundTrips_anyObj (h o rfl)
    exact ⟨some o', ho, he⟩

theorem roundTrips_str (s : String) : RoundTrips (decodeString "") JValue.str s := ⟨s, rfl, rfl⟩

/-- Elements that round-trip, decoded from their encodings, encode as they did. -/
theorem mapM_map_enc {elem : JValue → Option α} {enc : α → JValue} {xs : List α}
    (h : ∀ x ∈ xs, RoundTrips elem enc x) :
    ∃ ys, (xs.map enc).mapM elem = some ys ∧ ys.map enc = xs.map enc := by
  induction xs with
  | nil => exact ⟨[], rfl, rfl⟩
  | cons x xs ih =>
    obtain ⟨y, hy, he⟩ := h x (List.mem_cons_self _ _)
    obtain ⟨ys, hys, hes⟩ := ih fun x hx => h x (List.mem_cons_of_mem _ hx)
    exact ⟨y :: ys, by rw [List.map_cons, List.mapM_cons, hy, hys]; rfl, by simp [he, hes]⟩

theorem mapSet_of_not_mem {m : List (String × α)} {k : String} (v : α)
    (h : k ∉ m.map Prod.fst) : mapSet m k v = m ++ [(k, v)] := by
  induction m with
  | nil => rfl
  | cons kv rest ih =>
    simp only [List.map_cons, List.mem_cons, not_or] at h
    rw [mapSet, if_neg fun h' => h.1 h'.symm, ih h.2]
    rfl

/-- Members with distinct names that round-trip, stored one by one into a map that has none of
them, are appended to it, each decoded. -/
theorem foldlM_mapSet {elem : JValue → Option α} {enc : α → JValue} :
    ∀ {L : JObj} {acc : List (String × α)}, (L.map Prod.fst).Nodup →
      (∀ k ∈ L.map Prod.fst, k ∉ acc.map Prod.fst) →
      (∀ kv ∈ L, ∃ y, elem kv.2 = some y ∧ enc y = kv.2) →
      ∃ m', L.foldlM (fun acc kv => (elem kv.2).map (mapSet acc kv.1)) acc = some (acc ++ m') ∧
        m'.map (fun kv => (kv.1, enc kv.2)) = L
  | [], acc, _, _, _ => ⟨[], by simp, rfl⟩
  | (k, v) :: rest, acc, hn, hd, h => by
    rw [List.map_cons, List.nodup_cons] at hn
    obtain ⟨y, hy, he⟩ := h (k, v) (List.mem_cons_self _ _)
    have hd' : ∀ k' ∈ rest.map Prod.fst, k' ∉ (acc ++ [(k, y)]).map Prod.fst := fun k' hk' => by
      simp only [List.map_append, List.mem_append, List.map_cons, List.map_nil, List.mem_singleton,
        not_or]
      exact ⟨hd k' (List.mem_cons_of_mem _ hk'), fun he => hn.1 (he ▸ hk')⟩
    obtain ⟨m', hm', hmap⟩ :=
      foldlM_mapSet hn.2 hd' fun kv hkv => h kv (List.mem_cons_of_mem _ hkv)
    refine ⟨(k, y) :: m', ?_, by simp [he, hmap]⟩
    rw [List.foldlM_cons, hy]
    simp only [Option.map_some', Option.bind_eq_bind, Option.some_bind]
    rw [mapSet_of_not_mem _ (hd k (List.mem_cons_self _ _)), hm', List.append_assoc]
    rfl

/-- A map with distinct keys whose values round-trip comes back as a map that encodes as it did. -/
theorem roundTrips_encodeMap {elem : JValue → Option α} {enc : α → JValue}
    {m : List (String × α)} (hn : (m.map Prod.fst).Nodup) (h : ∀ kv ∈ m, RoundTrips elem enc kv.2) :
    ∃ m', decodeMap elem none (encodeMap enc m) = some (some m') ∧
      encodeMap enc m' = encodeMap enc m ∧ m'.length = m.length := by
  have hS : ((sortMembers (m.map fun kv => (kv.1, enc kv.2))).map Prod.fst).Nodup :=
    nodup_keys_sortMembers (by simpa [List.map_map] using hn)
  obtain ⟨m', hm', hmap⟩ := @foldlM_mapSet _ _ _ _ [] hS (by simp) fun kv hkv => by
    obtain ⟨⟨k, x⟩, hx, rfl⟩ := List.mem_map.1 ((List.perm_insertionSort _ _).subset hkv)
    exact h (k, x) hx
  refine ⟨m', by rw [encodeMap, decodeMap, Option.getD_none, hm', List.nil_append]; rfl, ?_, ?_⟩
  · rw [encodeMap, hmap, sortMembers_of_sorted (sorted_sortMembers _)]
    rfl
  · rw [← List.length_map m' (fun kv => (kv.1, enc kv.2)), hmap, sortMembers,
      List.length_insertionSort, List.length_map]

theorem decodePtr_of_ne_null {elem : JValue → Option α} (p : Option α) {v : JValue}
    (h : v ≠ .null) : decodePtr elem p v = (elem v).map some := by
  cases v <;> first | exact absurd rfl h | rfl

theorem decodeStringElems_map_str (ps xs : List String) :
    decodeStringElems ps (xs.map .str) = some xs := by
  induction xs generalizing ps with
  | nil => rfl
  | cons x xs ih => simp [decodeStringElems, decodeString, ih]

/-! ### Decoding a struct field by field -/

/-- Decoding the members a field's encoder writes, at most one under the field's name, sets the
field to what the field's own decoder reads from them and leaves the other fields alone. -/
theorem foldlM_storeMember_write {σ τ : Type} {fields : Fields σ} {n : String} {l : JObj}
    (hl : (l.map Prod.fst).Sublist [n]) {dec : τ → JValue → Option τ} {zero y : τ}
    (hy : l.foldlM (fun z kv => dec z kv.2) zero = some y) (get : σ → τ) (set : σ → τ → σ)
    (hstore : ∀ w v, storeMember fields w n v = (dec (get w) v).map (set w))
    (hsg : ∀ w, set w (get w) = w) {st : σ} (hst : get st = zero) :
    l.foldlM (fun w kv => storeMember fields w kv.1 kv.2) st = some (set st y) := by
  subst hst
  match l, hl with
  | [], _ =>
    cases hy
    rw [hsg]
    rfl
  | [(k, v)], hl =>
    obtain rfl : k = n := by simpa using hl
    simp only [List.foldlM_cons, List.foldlM_nil, bind_pure] at hy ⊢
    rw [hstore, hy]
    rfl
  | _ :: _ :: _, hl => exact absurd hl.length_le (by simp)

theorem foldlM_append_of_eq_some {σ : Type} {f : σ → String × JValue → Option σ} {l₁ l₂ : JObj}
    {s₀ s₁ s₂ : σ} (h₁ : l₁.foldlM f s₀ = some s₁) (h₂ : l₂.foldlM f s₁ = some s₂) :
    (l₁ ++ l₂).foldlM f s₀ = some s₂ := by
  rw [List.foldlM_append, h₁]
  exact h₂

/-! ### Each field type round-trips -/

/-- A field without `omitempty` writes its one member. -/
theorem keys_singleton (name : String) (v : JValue) : ([(name, v)].map Prod.fst).Sublist [name] :=
  List.Sublist.refl _

/-- A `string` field without `omitempty` is read back from its member. -/
theorem foldlM_decodeString_str (name s p : String) :
    [(name, JValue.str s)].foldlM (fun z kv => decodeString z kv.2) p = some s :=
  rfl

theorem fieldRoundTrips_omitString (name s : String) :
    FieldRoundTrips (omitString name) decodeString "" s := by
  by_cases h : s = ""
  · subst h; exact ⟨"", rfl, rfl⟩
  · exact ⟨s, by simp [omitString, h, decodeString], rfl⟩

theorem fieldRoundTrips_omitBool (name : String) (b : Bool) :
    FieldRoundTrips (omitBool name) decodeBool false b := by
  cases b <;> exact ⟨_, rfl, rfl⟩

theorem fieldRoundTrips_omitStrings (name : String) (xs : List String) :
    FieldRoundTrips (omitStrings name) decodeStrings [] xs := by
  cases xs with
  | nil => exact ⟨[], rfl, rfl⟩
  | cons x xs =>
    exact ⟨x :: xs, by simp [omitStrings, decodeStrings, decodeStringElems, decodeString,
      decodeStringElems_map_str], rfl⟩

theorem fieldRoundTrips_omitPtrBool (name : String) (b : Option Bool) :
    FieldRoundTrips (omitPtrBool name) decodePtrBool none b := by
  cases b <;> exact ⟨_, rfl, rfl⟩

theorem fieldRoundTrips_omitPtrFloat (name : String) (f : Option Float64) :
    FieldRoundTrips (omitPtrFloat name) decodePtrFloat none f := by
  cases f <;> exact ⟨_, rfl, rfl⟩

theorem fieldRoundTrips_omitAny (name : String) {v : JValue} (h : v.KeysUnique) :
    FieldRoundTrips (omitAny name) decodeAnyField .null v := by
  by_cases hv : v = .null
  · subst hv; exact ⟨.null, rfl, rfl⟩
  · have he := encodeAny_decodeAny_encodeAny h
    have hy : decodeAny (encodeAny v) ≠ .null := fun hy =>
      hv (encodeAny_eq_null.1 (by rw [← he, hy]; rfl))
    exact ⟨decodeAny (encodeAny v), by simp [omitAny, hv, decodeAnyField],
      by simp [omitAny, hv, hy, he]⟩

theorem fieldRoundTrips_omitAnyMap (name : String) {m : Option JObj}
    (h : ∀ o ∈ m, (JValue.obj o).KeysUnique) :
    FieldRoundTrips (omitAnyMap name) decodeAnyMap none m := by
  cases m with
  | none => exact ⟨none, rfl, rfl⟩
  | some o =>
    by_cases ho : o.isEmpty
    · exact ⟨none, by simp [omitAnyMap, ho], by simp [omitAnyMap, ho]⟩
    · obtain ⟨o', ho', he, hl⟩ := roundTrips_anyObj (h o rfl)
      have hne : o'.isEmpty = false := by
        rw [Bool.eq_false_iff, ne_eq, List.isEmpty_iff_length_eq_zero, hl,
          ← List.isEmpty_iff_length_eq_zero]
        exact ho
      exact ⟨some o', by simp [omitAnyMap, ho, ho'], by simp [omitAnyMap, ho, hne, he]⟩

theorem fieldRoundTrips_omitElems (name : String) {elem : JValue → Option α} {enc : α → JValue}
    {xs : List α} (h : ∀ x ∈ xs, RoundTrips elem enc x) :
    FieldRoundTrips (omitElems name enc) (decodeElems elem) [] xs := by
  cases xs with
  | nil => exact ⟨[], rfl, rfl⟩
  | cons x xs =>
    obtain ⟨ys, hys, he⟩ := mapM_map_enc h
    have hne : ys.isEmpty = false := by
      cases ys with
      | nil => simp at he
      | cons => rfl
    refine ⟨ys, ?_, by simp [omitElems, he, hne]⟩
    simp only [omitElems, List.isEmpty_cons, Bool.false_eq_true, if_false, List.foldlM_cons,
      List.foldlM_nil, decodeElems, hys]
    rfl

theorem fieldRoundTrips_omitMap (name : String) {elem : JValue → Option α} {enc : α → JValue}
    {x : Option (List (String × α))} (hn : ∀ m ∈ x, (m.map Prod.fst).Nodup)
    (h : ∀ m ∈ x, ∀ kv ∈ m, RoundTrips elem enc kv.2) :
    FieldRoundTrips (omitMap name enc) (decodeMap elem) none x := by
  cases x with
  | none => exact ⟨none, rfl, rfl⟩
  | some m =>
    by_cases hm : m.isEmpty
    · exact ⟨none, by simp [omitMap, hm], by simp [omitMap, hm]⟩
    · obtain ⟨m', hm', he, hl⟩ := roundTrips_encodeMap (hn m rfl) (h m rfl)
      have hne : m'.isEmpty = false := by
        rw [Bool.eq_false_iff, ne_eq, List.isEmpty_iff_length_eq_zero, hl,
          ← List.isEmpty_iff_length_eq_zero]
        exact hm
      exact ⟨some m', by simp [omitMap, hm, hm'], by simp [omitMap, hm, hne, he]⟩

theorem fieldRoundTrips_encodeMapField (name : String) {elem : JValue → Option α}
    {enc : α → JValue} {x : Option (List (String × α))} (hn : ∀ m ∈ x, (m.map Prod.fst).Nodup)
    (h : ∀ m ∈ x, ∀ kv ∈ m, RoundTrips elem enc kv.2) :
    FieldRoundTrips (fun x => [(name, encodeMapField enc x)]) (decodeMap elem) none x := by
  cases x with
  | none => exact ⟨none, rfl, rfl⟩
  | some m =>
    obtain ⟨m', hm', he, -⟩ := roundTrips_encodeMap (hn m rfl) (h m rfl)
    exact ⟨some m', by simp [encodeMapField, hm'], by simp [encodeMapField, he]⟩

theorem fieldRoundTrips_omitPtr (name : String) {elem : JValue → Option α} {enc : α → JValue}
    {x : Option α} (h : ∀ t ∈ x, RoundTrips elem enc t ∧ enc t ≠ .null) :
    FieldRoundTrips (omitPtr name enc) (decodePtr elem) none x := by
  cases x with
  | none => exact ⟨none, rfl, rfl⟩
  | some t =>
    obtain ⟨⟨y, hy, he⟩, hnull⟩ := h t rfl
    exact ⟨some y, by simp [omitPtr, decodePtr_of_ne_null _ hnull, hy], by simp [omitPtr, he]⟩

end RoundTrip

end OpenBindings.GoJson
