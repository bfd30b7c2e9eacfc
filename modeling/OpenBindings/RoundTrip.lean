import OpenBindings.NumberText
import OpenBindings.StringText
import Mathlib.Data.List.Perm.Basic

/-! # Decoding undoes the canonical encoding

The decoder reads `writeJCS v` back as `v`, up to the order of object members, for every value
whose objects have distinct member names, as every Go map has (`decodeText_writeJCS`). So
`marshal` is idempotent: a canonical text is its own canonical form (`marshal_idempotent`, in
`CanonicalText`).

The proof is an induction on the depth of the value (`readsBack_of_depth`) for the property
`ReadsBack`: with fuel for the length of the text, `parseValue` reads the text as the value,
whatever follows that cannot continue a number. Numbers and strings come from `NumberText` and
`StringText`. The elements of an array are read one comma at a time (`parseElements_text`), and
the members of an object in the order `writeJCS` sorts them (`parseMembers_text`): a permutation
of the object's own order, so the object read back is the original up to member order. -/

namespace OpenBindings.CanonicalJson

/-! ### The decoder's steps on canonical text -/

theorem skipSpace_cons {c : Char} (cs : List Char) (h : isSpace c = false) :
    skipSpace (c :: cs) = c :: cs := by
  simp [skipSpace, List.dropWhile_cons, h]

/-- Text that does not open an array or an object is a scalar. -/
theorem parseValue_scalar (fuel : Nat) {c : Char} {cs : List Char}
    (h : isSpace c = false ∧ c ≠ '[' ∧ c ≠ '{') :
    parseValue (fuel + 1) (c :: cs) = parseScalar (c :: cs) := by
  rw [parseValue, skipSpace_cons _ h.1]
  split
  · rename_i heq; cases heq; exact absurd rfl h.2.1
  · rename_i heq; cases heq; exact absurd rfl h.2.2.symm
  · rfl

/-- The first character of a number: a minus sign or a digit. -/
def NumberHead (c : Char) : Prop := c = '-' ∨ c = '0' ∨ '1' ≤ c ∧ c ≤ '9'

theorem parseIntPart_head {c : Char} {r : List Char} {q : List Char × List Char}
    (h : parseIntPart (c :: r) = some q) : NumberHead c := by
  unfold parseIntPart at h
  split at h
  · rename_i heq; cases heq; exact .inr (.inl rfl)
  · rename_i heq; cases heq
    split at h
    · exact .inr (.inr ‹_›)
    · cases h
  · cases h

/-- What the decoder reads as a number starts with a minus sign or a digit. -/
theorem head_of_parseNumber {cs : List Char} {p : Float64 × List Char}
    (h : parseNumber cs = some p) : ∃ c r, cs = c :: r ∧ NumberHead c := by
  rcases cs with _ | ⟨c, r⟩
  · simp [parseNumber, numberSign, parseIntPart] at h
  refine ⟨c, r, rfl, ?_⟩
  by_cases hc : c = '-'
  · exact .inl hc
  rw [parseNumber, numberSign_of_head (by simpa using hc)] at h
  cases hp : parseIntPart (c :: r) with
  | none => simp [hp] at h
  | some q => exact parseIntPart_head hp

/-- A number starts with none of the characters that open another value, close one, or are
whitespace. -/
theorem NumberHead.ne {c : Char} (hc : NumberHead c) :
    ∀ x ∈ ['n', 't', 'f', '"', '[', '{', ']', '}', ' ', '\t', '\n', '\r'], c ≠ x := by
  rcases hc with rfl | rfl | ⟨h1, h2⟩
  · decide
  · decide
  · intro x hx hcx
    subst hcx
    simp only [List.mem_cons, List.mem_nil_iff, or_false] at hx
    rcases hx with rfl | rfl | rfl | rfl | rfl | rfl | rfl | rfl | rfl | rfl | rfl | rfl <;>
      first | exact absurd h1 (by decide) | exact absurd h2 (by decide)

theorem parseScalar_of_parseNumber {cs : List Char} {f : Float64} {r : List Char}
    (h : parseNumber cs = some (f, r)) : parseScalar cs = some (.num f, r) := by
  obtain ⟨c, cs', rfl, hc⟩ := head_of_parseNumber h
  have hne := hc.ne
  -- the match falls through the heads of the literals and of a string to the number branch
  unfold parseScalar
  delta parseScalar.match_1
  dsimp only
  rw [dif_neg (hne 'n' (by simp)), dif_neg (hne 't' (by simp)), dif_neg (hne 'f' (by simp)),
    dif_neg (hne '"' (by simp)), h]
  rfl

theorem parseElements_close (fuel : Nat) (acc : List JValue) (rest : List Char) :
    parseElements (fuel + 1) acc (']' :: rest) = some (.arr acc, rest) := rfl

theorem parseElements_comma {fuel : Nat} {acc : List JValue} {cs r : List Char} {v : JValue}
    (h : parseValue fuel cs = some (v, r)) :
    parseElements (fuel + 1) acc (',' :: cs) = parseElements fuel (acc ++ [v]) r := by
  simp only [parseElements, skipSpace_cons _ (show isSpace ',' = false by decide), h]

/-- A member followed by a comma: the value is stored, and the next member read. -/
theorem parseMembers_comma {fuel : Nat} {acc : JObj} {k cs r rest : List Char} {v : JValue}
    (hk : unquote cs = some (k, ':' :: r)) (h : parseValue fuel r = some (v, ',' :: rest)) :
    parseMembers (fuel + 1) acc ('"' :: cs) =
      parseMembers fuel (setField acc (String.mk k) v) rest := by
  simp only [parseMembers, skipSpace_cons _ (show isSpace '"' = false by decide), hk,
    skipSpace_cons _ (show isSpace ':' = false by decide), h,
    skipSpace_cons _ (show isSpace ',' = false by decide)]

/-- The last member, followed by the closing brace. -/
theorem parseMembers_close {fuel : Nat} {acc : JObj} {k cs r rest : List Char} {v : JValue}
    (hk : unquote cs = some (k, ':' :: r)) (h : parseValue fuel r = some (v, '}' :: rest)) :
    parseMembers (fuel + 1) acc ('"' :: cs) = some (.obj (setField acc (String.mk k) v), rest) := by
  simp only [parseMembers, skipSpace_cons _ (show isSpace '"' = false by decide), hk,
    skipSpace_cons _ (show isSpace ':' = false by decide), h,
    skipSpace_cons _ (show isSpace '}' = false by decide)]

/-- An array whose first element starts the text after the bracket. -/
theorem parseValue_arr {fuel : Nat} {c : Char} {cs r : List Char} {v : JValue}
    (hc : isSpace c = false ∧ c ≠ ']') (h : parseValue fuel (c :: cs) = some (v, r)) :
    parseValue (fuel + 1) ('[' :: c :: cs) = parseElements fuel [v] r := by
  rw [parseValue, skipSpace_cons _ (by decide)]
  simp only [skipSpace_cons _ hc.1]
  split
  · rename_i heq; cases heq; exact absurd rfl hc.2
  · rw [h]

/-- An object whose first member starts the text after the brace. -/
theorem parseValue_obj (fuel : Nat) (cs : List Char) :
    parseValue (fuel + 1) ('{' :: '"' :: cs) = parseMembers fuel [] ('"' :: cs) := by
  simp only [parseValue, skipSpace_cons _ (show isSpace '{' = false by decide),
    skipSpace_cons _ (show isSpace '"' = false by decide)]
  rfl

/-! ### The shape of canonical text -/

/-- Nothing may follow a number at the end of the text. -/
theorem endsNumber_nil : EndsNumber [] := fun _ h => nomatch h

/-- Every canonical text starts with a character that is not whitespace and closes nothing. -/
theorem writeJCS_head (v : JValue) : ∃ c cs, (writeJCS v).toList = c :: cs ∧
    isSpace c = false ∧ c ≠ ']' ∧ c ≠ '}' := by
  cases v with
  | null => exact ⟨'n', _, rfl, by decide⟩
  | bool b => cases b <;> exact ⟨_, _, rfl, by decide⟩
  | str s => exact ⟨'"', _, rfl, by decide⟩
  | arr xs => exact ⟨'[', _, rfl, by decide⟩
  | obj kvs => exact ⟨'{', _, rfl, by decide⟩
  | num f =>
    obtain ⟨c, cs, hcs, hc⟩ := head_of_parseNumber (parseNumber_formatJCSFloat64 f endsNumber_nil)
    rw [List.append_nil] at hcs
    have hne := hc.ne
    exact ⟨c, cs, hcs, by simp_all [isSpace]⟩

/-- Joining with commas: the first text, then a comma before each of the others. -/
theorem joinComma_map_toList {α : Type} (h : α → String) (a : α) (l : List α) :
    (joinComma ((a :: l).map h)).toList =
      (h a).toList ++ l.flatMap fun x => ',' :: (h x).toList := by
  induction l generalizing a with
  | nil => simp [joinComma]
  | cons b l ih =>
    rw [List.map_cons, List.map_cons, joinComma, ← List.map_cons]
    · show (h a ++ ",").toList ++ (joinComma (List.map h (b :: l))).toList = _
      rw [ih]
      simp [String.toList, String.data_append]
    · exact List.cons_ne_nil _ _

theorem writeJCSList_eq_map (xs : List JValue) : writeJCSList xs = xs.map writeJCS := by
  induction xs with
  | nil => rfl
  | cons x xs ih => rw [writeJCSList, ih, List.map_cons]

/-- A nonempty array: its first element, then a comma before each other one. -/
theorem writeJCS_arr_toList (x : JValue) (xs : List JValue) :
    (writeJCS (.arr (x :: xs))).toList =
      '[' :: ((writeJCS x).toList ++ (xs.flatMap fun y => ',' :: (writeJCS y).toList) ++ [']']) := by
  simp only [writeJCS, writeJCSList_eq_map]
  show '[' :: ((joinComma ((x :: xs).map writeJCS)).toList ++ [']']) = _
  rw [joinComma_map_toList]

/-- The text of one member, as `writeJCS` writes it. -/
def memberText (kv : String × JValue) : List Char :=
  (writeJCSString kv.1 ++ ":" ++ writeJCS kv.2).toList

theorem memberText_append (k : String) (v : JValue) (X : List Char) :
    memberText (k, v) ++ X =
      '"' :: (k.toList.flatMap escapeRune ++ '"' :: ':' :: ((writeJCS v).toList ++ X)) := by
  simp [memberText, writeJCSString, String.toList, String.data_append]

theorem memberText_length (kv : String × JValue) : (memberText kv).length =
    (kv.1.toList.flatMap escapeRune).length + 3 + (writeJCS kv.2).toList.length := by
  have h := congrArg List.length (memberText_append kv.1 kv.2 [])
  simp only [List.append_nil, List.length_cons, List.length_append] at h
  rw [h]
  omega

/-- An object is written with its members in some order, a permutation of its own. -/
theorem writeJCS_obj_toList (kvs : JObj) : ∃ kvs' : JObj, kvs'.Perm kvs ∧
    (writeJCS (.obj kvs)).toList = '{' :: ((joinComma (kvs'.map fun kv =>
      writeJCSString kv.1 ++ ":" ++ writeJCS kv.2)).toList ++ ['}']) := by
  refine ⟨kvs.insertionSort fun a b => memberLE (a.1, "") (b.1, ""),
    List.perm_insertionSort _ _, ?_⟩
  have hsort : (writeJCSMembers kvs).insertionSort memberLE =
      (kvs.insertionSort fun a b => memberLE (a.1, "") (b.1, "")).map
        fun kv => (kv.1, writeJCS kv.2) := by
    rw [writeJCSMembers_eq_map]
    exact (List.map_insertionSort (fun a b : String × JValue => memberLE (a.1, "") (b.1, ""))
      memberLE (fun kv => (kv.1, writeJCS kv.2)) kvs fun _ _ _ _ => Iff.rfl).symm
  simp only [writeJCS, hsort, List.map_map]
  rfl

theorem endsNumber_punct {c : Char} (hc : c = ',' ∨ c = ']' ∨ c = '}') (rest : List Char) :
    EndsNumber (c :: rest) := by
  intro x hx
  cases hx
  rcases hc with rfl | rfl | rfl <;> decide

/-- After an element or a member comes a comma or the closing bracket. -/
theorem endsNumber_commas {α : Type} (f : α → List Char) (xs : List α) {c : Char}
    (hc : c = ']' ∨ c = '}') (rest : List Char) :
    EndsNumber ((xs.flatMap fun x => ',' :: f x) ++ c :: rest) := by
  cases xs with
  | nil => exact endsNumber_punct (.inr hc) rest
  | cons y ys => exact endsNumber_punct (.inl rfl) _

/-! ### Reading back, one level at a time -/

/-- The decoder reads the text of `v` back as `v` up to member order, given fuel for the text's
length, whatever follows that cannot continue a number. -/
def ReadsBack (v : JValue) : Prop :=
  ∀ fuel rest, (writeJCS v).toList.length ≤ fuel → EndsNumber rest →
    ∃ w, parseValue fuel ((writeJCS v).toList ++ rest) = some (w, rest) ∧ w.SameUpToOrder v

/-- A scalar reads back as itself. -/
theorem ReadsBack.of_self {v : JValue} (h : ∀ fuel rest, EndsNumber rest →
    parseValue (fuel + 1) ((writeJCS v).toList ++ rest) = some (v, rest)) : ReadsBack v := by
  intro fuel rest hf hr
  obtain ⟨c, cs, hcs, -⟩ := writeJCS_head v
  obtain ⟨F, rfl⟩ : ∃ F, fuel = F + 1 := ⟨fuel - 1, by rw [hcs] at hf; simp at hf; omega⟩
  exact ⟨v, h F rest hr, JValue.sameUpToOrder_refl v⟩

/-- The elements after the first: each after a comma, then the closing bracket. -/
theorem parseElements_text (rest : List Char) : ∀ (xs : List JValue), (∀ x ∈ xs, ReadsBack x) →
    ∀ (fuel : Nat) (acc : List JValue),
      (xs.flatMap fun x => ',' :: (writeJCS x).toList).length < fuel →
      ∃ ws, parseElements fuel acc ((xs.flatMap fun x => ',' :: (writeJCS x).toList) ++ ']' :: rest) =
        some (.arr (acc ++ ws), rest) ∧ JValue.SameUpToOrderList ws xs
  | _, _, 0, _, h => absurd h (Nat.not_lt_zero _)
  | [], _, fuel + 1, acc, _ => ⟨[], by rw [List.append_nil]; rfl, rfl⟩
  | x :: xs, hx, fuel + 1, acc, hlen => by
    simp only [List.flatMap_cons, List.length_cons, List.length_append] at hlen
    obtain ⟨w, hw, hsw⟩ := hx x (List.mem_cons_self _ _) fuel
      ((xs.flatMap fun x => ',' :: (writeJCS x).toList) ++ ']' :: rest) (by omega)
      (endsNumber_commas _ xs (.inl rfl) rest)
    obtain ⟨ws, hws, hsws⟩ := parseElements_text rest xs
      (fun y hy => hx y (List.mem_cons_of_mem _ hy)) fuel (acc ++ [w]) (by omega)
    refine ⟨w :: ws, ?_, w, ws, rfl, hsw, hsws⟩
    simp only [List.flatMap_cons, List.cons_append, List.append_assoc]
    rw [parseElements_comma hw, hws, List.append_assoc, List.singleton_append]

/-- The members in the order they are written: each read and stored under its name, which is
new, so the object grows by one member at the end. -/
theorem parseMembers_text (rest : List Char) : ∀ (ms : JObj) (k : String) (v : JValue)
    (acc : JObj) (fuel : Nat), ReadsBack v → (∀ kv ∈ ms, ReadsBack kv.2) →
    (acc.map Prod.fst ++ k :: ms.map Prod.fst).Nodup →
    (memberText (k, v) ++ ms.flatMap fun kv => ',' :: memberText kv).length < fuel →
    ∃ ws, parseMembers fuel acc
        (memberText (k, v) ++ (ms.flatMap fun kv => ',' :: memberText kv) ++ '}' :: rest) =
        some (.obj (acc ++ ws), rest) ∧
      List.Forall₂ (fun a b => a.1 = b.1 ∧ a.2.SameUpToOrder b.2) ws ((k, v) :: ms)
  | _, _, _, _, 0, _, _, _, h => absurd h (Nat.not_lt_zero _)
  | [], k, v, acc, fuel + 1, hv, _, hnd, hlen => by
    have hk : k ∉ acc.map Prod.fst := fun h => (List.nodup_append.1 hnd).2.2 h (List.mem_singleton_self k)
    simp only [List.flatMap_nil, List.append_nil, memberText_length] at hlen
    obtain ⟨w, hw, hsw⟩ := hv fuel ('}' :: rest) (by omega) (endsNumber_punct (.inr (.inr rfl)) rest)
    refine ⟨[(k, w)], ?_, .cons ⟨rfl, hsw⟩ .nil⟩
    rw [List.flatMap_nil, List.append_nil, memberText_append,
      parseMembers_close (unquoteFrom_escaped _ _) hw]
    exact congrArg (fun m => some (JValue.obj m, rest)) (setField_of_not_mem _ hk)
  | (k₂, v₂) :: ms, k, v, acc, fuel + 1, hv, hms, hnd, hlen => by
    have hk : k ∉ acc.map Prod.fst := fun h =>
      (List.nodup_append.1 hnd).2.2 h (List.mem_cons_self _ _)
    simp only [List.flatMap_cons, List.length_cons, List.length_append, memberText_length] at hlen
    obtain ⟨w, hw, hsw⟩ := hv fuel (',' :: (memberText (k₂, v₂) ++
      (ms.flatMap fun kv => ',' :: memberText kv) ++ '}' :: rest)) (by omega)
      (endsNumber_punct (.inl rfl) _)
    have hnd' : ((acc ++ [(k, w)]).map Prod.fst ++ k₂ :: ms.map Prod.fst).Nodup := by
      simpa using hnd
    obtain ⟨ws, hws, hsws⟩ := parseMembers_text rest ms k₂ v₂ (acc ++ [(k, w)]) fuel
      (hms _ (List.mem_cons_self _ _)) (fun kv h => hms kv (List.mem_cons_of_mem _ h)) hnd'
      (by simp only [List.length_append, memberText_length]; omega)
    refine ⟨(k, w) :: ws, ?_, .cons ⟨rfl, hsw⟩ hsws⟩
    rw [List.flatMap_cons, List.append_assoc, memberText_append, List.cons_append, List.cons_append,
      parseMembers_comma (unquoteFrom_escaped _ _) hw, show String.mk k.toList = k from rfl,
      setField_of_not_mem _ hk, hws]
    simp

/-- Members of the same names whose values are equal up to member order: the objects are equal
up to member order at every depth below. -/
theorem sameUpToOrderObj_of_forall₂ : ∀ {ms lvs : JObj},
    List.Forall₂ (fun a b => a.1 = b.1 ∧ a.2.SameUpToOrder b.2) ms lvs →
      JValue.SameUpToOrderObj ms lvs
  | [], [], .nil => rfl
  | (_, x) :: _, (_, _) :: _, .cons ⟨hk, hxy⟩ h => by
    obtain rfl := hk
    exact ⟨x, _, rfl, hxy, sameUpToOrderObj_of_forall₂ h⟩

/-- An object read back member by member, in an order that permutes the original's, is the
original up to member order. -/
theorem sameUpToOrder_obj_of_perm {ws kvs' kvs : JObj}
    (h : List.Forall₂ (fun a b => a.1 = b.1 ∧ a.2.SameUpToOrder b.2) ws kvs')
    (hp : kvs'.Perm kvs) : (JValue.obj ws).SameUpToOrder (.obj kvs) := by
  obtain ⟨ms, hms, hws⟩ := List.perm_comp_forall₂ hp.symm h.flip
  simp only [JValue.SameUpToOrder]
  exact ⟨ws, ms, rfl, hws.symm, sameUpToOrderObj_of_forall₂ hms.flip⟩

/-- A string reads back as itself. -/
theorem ReadsBack.str (s : String) : ReadsBack (.str s) := ReadsBack.of_self fun fuel rest _ => by
  show parseValue (fuel + 1) ('"' :: ((s.toList.flatMap escapeRune ++ ['"']) ++ rest)) = _
  rw [parseValue_scalar fuel (by decide)]
  exact parseScalar_writeJCSString s rest

/-- A number reads back as itself, whatever follows that cannot continue it. -/
theorem ReadsBack.num (f : Float64) : ReadsBack (.num f) := ReadsBack.of_self fun fuel rest hr => by
  have h := parseNumber_formatJCSFloat64 f hr
  obtain ⟨c, cs, hcs, hc⟩ := head_of_parseNumber h
  have hne := hc.ne
  show parseValue (fuel + 1) ((formatJCSFloat64 f).toList ++ rest) = _
  rw [hcs, parseValue_scalar fuel (by simp_all [isSpace]), ← hcs, parseScalar_of_parseNumber h]

/-- An array whose elements read back reads back, element by element. -/
theorem ReadsBack.arr {xs : List JValue} (hxs : ∀ x ∈ xs, ReadsBack x) : ReadsBack (.arr xs) := by
  intro fuel rest hf hr
  cases xs with
  | nil =>
    obtain ⟨F, rfl⟩ : ∃ F, fuel = F + 1 := ⟨fuel - 1, by simp [writeJCS, joinComma] at hf; omega⟩
    exact ⟨.arr [], rfl, JValue.sameUpToOrder_refl _⟩
  | cons x xs =>
    rw [writeJCS_arr_toList] at hf ⊢
    simp only [List.length_cons, List.length_append, List.length_singleton] at hf
    obtain ⟨F, rfl⟩ : ∃ F, fuel = F + 1 := ⟨fuel - 1, by omega⟩
    obtain ⟨w, hw, hsw⟩ := hxs x (List.mem_cons_self _ _) F
      ((xs.flatMap fun y => ',' :: (writeJCS y).toList) ++ ']' :: rest) (by omega)
      (endsNumber_commas _ xs (.inl rfl) rest)
    obtain ⟨ws, hws, hsws⟩ := parseElements_text rest xs
      (fun y hy => hxs y (List.mem_cons_of_mem _ hy)) F [w] (by omega)
    obtain ⟨c, cs, hcs, hc⟩ := writeJCS_head x
    rw [hcs, List.cons_append] at hw
    refine ⟨.arr (w :: ws), ?_, ?_⟩
    · rw [List.cons_append, List.append_assoc, List.append_assoc, List.singleton_append, hcs,
        List.cons_append, parseValue_arr ⟨hc.1, hc.2.1⟩ hw, hws]
      rfl
    · simp only [JValue.SameUpToOrder]
      exact ⟨_, rfl, w, ws, rfl, hsw, hsws⟩

/-- An object with distinct member names whose member values read back reads back, member by
member in the order `writeJCS` sorts them. -/
theorem ReadsBack.obj {kvs : JObj} (hn : (kvs.map Prod.fst).Nodup)
    (hkvs : ∀ kv ∈ kvs, ReadsBack kv.2) : ReadsBack (.obj kvs) := by
  intro fuel rest hf hr
  obtain ⟨kvs', hp, htext⟩ := writeJCS_obj_toList kvs
  rw [htext] at hf ⊢
  cases kvs' with
  | nil =>
    obtain rfl : kvs = [] := List.perm_nil.1 hp.symm
    obtain ⟨F, rfl⟩ : ∃ F, fuel = F + 1 := ⟨fuel - 1, by simp at hf; omega⟩
    exact ⟨.obj [], rfl, JValue.sameUpToOrder_refl _⟩
  | cons kv ms =>
    obtain ⟨k, v⟩ := kv
    rw [joinComma_map_toList] at hf ⊢
    change (('{' :: ((memberText (k, v) ++ ms.flatMap fun kv => ',' :: memberText kv) ++
      ['}'])).length ≤ fuel) at hf
    change ∃ w, parseValue fuel (('{' :: ((memberText (k, v) ++
      ms.flatMap fun kv => ',' :: memberText kv) ++ ['}'])) ++ rest) = some (w, rest) ∧ _
    simp only [List.length_cons, List.length_append, List.length_singleton] at hf
    obtain ⟨F, rfl⟩ : ∃ F, fuel = F + 1 := ⟨fuel - 1, by omega⟩
    have hnd : (([] : JObj).map Prod.fst ++ k :: ms.map Prod.fst).Nodup := by
      simpa using (hp.map Prod.fst).nodup_iff.2 hn
    obtain ⟨ws, hws, hsws⟩ := parseMembers_text rest ms k v [] F
      (hkvs _ (hp.subset (List.mem_cons_self _ _)))
      (fun kv h => hkvs kv (hp.subset (List.mem_cons_of_mem _ h))) hnd
      (by simp only [List.length_append]; omega)
    rw [List.append_assoc, memberText_append] at hws
    refine ⟨.obj ws, ?_, sameUpToOrder_obj_of_perm hsws hp⟩
    rw [List.cons_append, List.append_assoc, List.append_assoc, List.singleton_append,
      memberText_append, parseValue_obj, hws]
    rfl

/-- Every value of depth at most `n` whose objects have distinct member names reads back: a
scalar as itself, an array element by element, an object member by member in sorted order. -/
theorem readsBack_of_depth : ∀ (n : Nat) (v : JValue), v.depth ≤ n → v.KeysUnique → ReadsBack v
  | 0, v, h, _ => absurd h (by cases v <;> simp [JValue.depth])
  | _ + 1, .null, _, _ => ReadsBack.of_self fun _ _ _ => rfl
  | _ + 1, .bool b, _, _ => ReadsBack.of_self fun _ _ _ => by cases b <;> rfl
  | _ + 1, .str s, _, _ => ReadsBack.str s
  | _ + 1, .num f, _, _ => ReadsBack.num f
  | n + 1, .arr xs, h, hu => ReadsBack.arr fun x hx => readsBack_of_depth n x
      ((JValue.depth_le_depthList_of_mem hx).trans (by simp only [JValue.depth] at h; omega))
      (JValue.keysUniqueList_iff.1 hu x hx)
  | n + 1, .obj kvs, h, hu => ReadsBack.obj hu.1 fun kv hkv => readsBack_of_depth n kv.2
      ((JValue.depth_le_depthObj_of_mem (show (kv.1, kv.2) ∈ kvs from hkv)).trans
        (by simp only [JValue.depth] at h; omega))
      (JValue.keysUniqueObj_iff.1 hu.2 kv hkv)

/-- The decoder reads the canonical text of a value back as the value, up to member order. -/
theorem decodeText_writeJCS {v : JValue} (hu : v.KeysUnique) :
    ∃ w, decodeText (writeJCS v) = some w ∧ w.SameUpToOrder v := by
  obtain ⟨w, hw, hsw⟩ := readsBack_of_depth v.depth v le_rfl hu ((writeJCS v).length + 1) []
    (Nat.le_succ _) endsNumber_nil
  rw [List.append_nil] at hw
  refine ⟨w, ?_, hsw⟩
  unfold decodeText
  rw [hw]
  rfl

end OpenBindings.CanonicalJson
