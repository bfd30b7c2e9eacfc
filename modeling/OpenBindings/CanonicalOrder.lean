import OpenBindings.CanonicalJson
import Mathlib.Data.List.Lex

/-! # Member order of the canonical encoder

`writeJCS` sorts an object's members by the UTF-16 code units of their names. `lessUTF16` is a
strict total order on code-unit sequences (`lessUTF16_irrefl`, `lessUTF16_trans`,
`lessUTF16_total`), and `utf16Encode` is injective, since `utf16Decode` undoes it
(`utf16Decode_encode`). So on a Go map, whose member names are distinct, the sorted order is the
unique ascending order of the names, whatever order the members came in, and two values that
differ only in the order of their members are written to the same text
(`writeJCS_eq_of_sameUpToOrder`). `lessUTF16` is the lexicographic order of `List.Lex`
(`lessUTF16_lexicographic`). -/

namespace OpenBindings.CanonicalJson

/-! ### UTF-16 -/

/-- Decoding of code units: a high surrogate followed by a low one is one rune, any other unit
is a rune of its own. -/
def utf16Decode : List UInt16 → List Char
  | [] => []
  | [u] => [Char.ofNat u.toNat]
  | u :: v :: rest =>
    if 0xD800 ≤ u.toNat ∧ u.toNat < 0xDC00 ∧ 0xDC00 ≤ v.toNat ∧ v.toNat < 0xE000 then
      Char.ofNat (0x10000 + (u.toNat - 0xD800) * 0x400 + (v.toNat - 0xDC00)) :: utf16Decode rest
    else Char.ofNat u.toNat :: utf16Decode (v :: rest)

theorem char_toNat_valid (c : Char) : c.toNat < 0xD800 ∨ (0xDFFF < c.toNat ∧ c.toNat < 0x110000) := by
  have := c.valid
  simpa [UInt32.isValidChar, Nat.isValidChar, Char.toNat] using this

theorem utf16Decode_single {u : UInt16} (rest : List UInt16)
    (h : ¬ (0xD800 ≤ u.toNat ∧ u.toNat < 0xDC00)) :
    utf16Decode (u :: rest) = Char.ofNat u.toNat :: utf16Decode rest := by
  cases rest with
  | nil => rfl
  | cons v rest => simp only [utf16Decode]; rw [if_neg (fun h' => h ⟨h'.1, h'.2.1⟩)]

theorem utf16Decode_units (c : Char) (rest : List UInt16) :
    utf16Decode (utf16Units c ++ rest) = c :: utf16Decode rest := by
  have hc := char_toNat_valid c
  unfold utf16Units
  split
  · rename_i hlt
    have hu : (UInt16.ofNat c.toNat).toNat = c.toNat :=
      UInt16.toNat_ofNat_of_lt (by simp only [UInt16.size]; omega)
    rw [List.singleton_append, utf16Decode_single _ (by rw [hu]; omega), hu, Char.ofNat_toNat]
  · rename_i hge
    have hhi : (UInt16.ofNat (0xD800 + (c.toNat - 0x10000) / 0x400)).toNat =
        0xD800 + (c.toNat - 0x10000) / 0x400 :=
      UInt16.toNat_ofNat_of_lt (by simp only [UInt16.size]; omega)
    have hlo : (UInt16.ofNat (0xDC00 + (c.toNat - 0x10000) % 0x400)).toNat =
        0xDC00 + (c.toNat - 0x10000) % 0x400 :=
      UInt16.toNat_ofNat_of_lt (by simp only [UInt16.size]; omega)
    simp only [List.cons_append, List.nil_append, utf16Decode, hhi, hlo]
    rw [if_pos (by omega)]
    have hsum : 0x10000 + (0xD800 + (c.toNat - 0x10000) / 0x400 - 0xD800) * 0x400 +
        (0xDC00 + (c.toNat - 0x10000) % 0x400 - 0xDC00) = c.toNat := by omega
    rw [hsum, Char.ofNat_toNat]
    rfl

/-- Decoding undoes `utf16Encode`. -/
theorem utf16Decode_encode (s : String) : utf16Decode (utf16Encode s) = s.toList := by
  unfold utf16Encode
  induction s.toList with
  | nil => rfl
  | cons c cs ih => rw [List.flatMap_cons, utf16Decode_units, ih]

theorem utf16Encode_injective {s t : String} (h : utf16Encode s = utf16Encode t) : s = t := by
  have := congrArg utf16Decode h
  rw [utf16Decode_encode, utf16Decode_encode] at this
  exact String.ext this

/-! ### `lessUTF16` is a strict total order -/

theorem lessUTF16_irrefl : ∀ a : List UInt16, lessUTF16 a a = false
  | [] => rfl
  | _ :: as => by simp [lessUTF16, lessUTF16_irrefl as]

theorem lessUTF16_trans : ∀ {a b c : List UInt16},
    lessUTF16 a b = true → lessUTF16 b c = true → lessUTF16 a c = true
  | [], _ :: _, _ :: _, _, _ => by simp [lessUTF16]
  | [], [], _, h, _ | _, [], [], _, h | _ :: _, [], _, h, _ | _, _ :: _, [], _, h => by
    simp [lessUTF16] at h
  | a :: as, b :: bs, c :: cs, hab, hbc => by
    simp only [lessUTF16] at hab hbc ⊢
    by_cases h1 : a = b
    · subst h1
      by_cases h2 : a = c
      · subst h2
        simp only [↓reduceIte] at hab hbc ⊢
        exact lessUTF16_trans hab hbc
      · simpa [h2] using hbc
    · by_cases h2 : b = c
      · subst h2
        simpa [h1] using hab
      · simp only [h1, h2, ↓reduceIte, decide_eq_true_eq] at hab hbc
        have hlt : a.toNat < c.toNat := Nat.lt_trans hab hbc
        have hne : a ≠ c := fun h => by subst h; omega
        simp only [hne, ↓reduceIte, decide_eq_true_eq]
        exact hlt

theorem lessUTF16_total : ∀ {a b : List UInt16}, a ≠ b → lessUTF16 a b = true ∨ lessUTF16 b a = true
  | [], [], h => absurd rfl h
  | [], _ :: _, _ => .inl (by simp [lessUTF16])
  | _ :: _, [], _ => .inr (by simp [lessUTF16])
  | a :: as, b :: bs, h => by
    simp only [lessUTF16]
    by_cases hab : a = b
    · subst hab
      simp only [↓reduceIte]
      exact lessUTF16_total fun h' => h (h' ▸ rfl)
    · simp only [hab, Ne.symm hab, ↓reduceIte, decide_eq_true_eq]
      have : a.toNat ≠ b.toNat := fun h => hab (UInt16.eq_of_val_eq (Fin.ext h))
      show a.toNat < b.toNat ∨ b.toNat < a.toNat
      omega

theorem lessUTF16_asymm {a b : List UInt16} (h : lessUTF16 a b = true) : lessUTF16 b a = false := by
  by_contra h'
  have := lessUTF16_trans h (Bool.not_eq_false _ ▸ h')
  rw [lessUTF16_irrefl] at this
  exact Bool.false_ne_true this

/-- `lessUTF16` is the lexicographic order on code units: a proper prefix comes first, and
otherwise the first unit that differs decides. -/
theorem lessUTF16_iff_lex : ∀ a b : List UInt16, lessUTF16 a b = true ↔ List.Lex (· < ·) a b
  | [], [] => by simp [lessUTF16]
  | [], _ :: _ => by simp [lessUTF16, List.Lex.nil]
  | _ :: _, [] => by simp [lessUTF16]
  | a :: as, b :: bs => by
    simp only [lessUTF16]
    by_cases h : a = b
    · subst h
      rw [if_pos rfl, lessUTF16_iff_lex as bs]
      constructor
      · exact List.Lex.cons
      · rintro (_ | ⟨hl⟩ | ⟨hr⟩)
        · exact hl
        · exact absurd hr (Nat.lt_irrefl _)
    · rw [if_neg h, decide_eq_true_iff]
      constructor
      · exact List.Lex.rel
      · rintro (_ | _ | ⟨hr⟩)
        · exact absurd rfl h
        · exact hr

/-! ### Sorting the members -/

/-- `a`'s name comes strictly before `b`'s in UTF-16 order. -/
def memberLT (a b : String × String) : Prop := lessUTF16 (utf16Encode a.1) (utf16Encode b.1) = true

instance : IsTotal (String × String) memberLE := ⟨fun a b => by
  unfold memberLE
  cases h : lessUTF16 (utf16Encode b.1) (utf16Encode a.1)
  · exact .inl rfl
  · exact .inr (lessUTF16_asymm h)⟩

instance : IsTrans (String × String) memberLE := ⟨fun a b c hab hbc => by
  unfold memberLE at *
  by_contra hca
  rw [Bool.not_eq_false] at hca
  by_cases he : utf16Encode a.1 = utf16Encode b.1
  · rw [he] at hca; exact absurd hca (by rw [hbc]; decide)
  · rcases lessUTF16_total he with h | h
    · exact absurd (lessUTF16_trans hca h) (by rw [hbc]; decide)
    · exact absurd h (by rw [hab]; decide)⟩

instance : IsAntisymm (String × String) memberLT :=
  ⟨fun _ _ hab hba => absurd hba (by unfold memberLT; rw [lessUTF16_asymm hab]; decide)⟩

/-- Between members of distinct names, `memberLE` is strict. -/
theorem memberLT_of_memberLE {a b : String × String} (h : memberLE a b) (hne : a.1 ≠ b.1) :
    memberLT a b := by
  rcases lessUTF16_total (fun he => hne (utf16Encode_injective he)) with h' | h'
  · exact h'
  · exact absurd h' (by unfold memberLE at h; rw [h]; decide)

/-- Sorting members of distinct names puts them in strictly ascending order of their names. -/
theorem sorted_insertionSort_memberLT {l : List (String × String)} (hn : (l.map Prod.fst).Nodup) :
    (l.insertionSort memberLE).Sorted memberLT := by
  have hnm : ((l.insertionSort memberLE).map Prod.fst).Nodup :=
    ((List.perm_insertionSort memberLE l).map Prod.fst).nodup_iff.2 hn
  exact ((List.sorted_insertionSort memberLE l).and (List.pairwise_map.1 hnm)).imp
    fun h => memberLT_of_memberLE h.1 h.2

/-- Sorting members of distinct names gives one list, whatever order they came in: the sorted
lists are strictly ascending in the names, and such a list is determined by its members. -/
theorem insertionSort_memberLE_eq_of_perm {l l' : List (String × String)} (hp : l.Perm l')
    (hn : (l.map Prod.fst).Nodup) : l.insertionSort memberLE = l'.insertionSort memberLE :=
  List.eq_of_perm_of_sorted
    (((List.perm_insertionSort memberLE l).trans hp).trans (List.perm_insertionSort memberLE l').symm)
    (sorted_insertionSort_memberLT hn) (sorted_insertionSort_memberLT ((hp.map Prod.fst).nodup_iff.1 hn))

end OpenBindings.CanonicalJson

/-! ### Values equal up to member order -/

namespace OpenBindings

mutual
/-- `a` is `b` up to the order of the members of its objects, at every depth. -/
def JValue.SameUpToOrder (a : JValue) : JValue → Prop
  | .arr ys => ∃ xs, a = .arr xs ∧ JValue.SameUpToOrderList xs ys
  | .obj lvs => ∃ kvs ms, a = .obj kvs ∧ kvs.Perm ms ∧ JValue.SameUpToOrderObj ms lvs
  | .null => a = .null
  | .bool b => a = .bool b
  | .num x => a = .num x
  | .str s => a = .str s

/-- Element by element. -/
def JValue.SameUpToOrderList (xs : List JValue) : List JValue → Prop
  | [] => xs = []
  | y :: ys => ∃ x rest, xs = x :: rest ∧ x.SameUpToOrder y ∧ JValue.SameUpToOrderList rest ys

/-- Member by member, under the same names. -/
def JValue.SameUpToOrderObj (ms : JObj) : JObj → Prop
  | [] => ms = []
  | (k, y) :: lvs =>
    ∃ x rest, ms = (k, x) :: rest ∧ x.SameUpToOrder y ∧ JValue.SameUpToOrderObj rest lvs
end

mutual
theorem JValue.sameUpToOrder_refl : ∀ a : JValue, a.SameUpToOrder a
  | .arr xs => by
    simp only [JValue.SameUpToOrder]; exact ⟨xs, rfl, JValue.sameUpToOrderList_refl xs⟩
  | .obj kvs => by
    simp only [JValue.SameUpToOrder]
    exact ⟨kvs, kvs, rfl, List.Perm.refl _, JValue.sameUpToOrderObj_refl kvs⟩
  | .null | .bool _ | .num _ | .str _ => rfl

theorem JValue.sameUpToOrderList_refl : ∀ xs : List JValue, JValue.SameUpToOrderList xs xs
  | [] => rfl
  | x :: xs => by
    simp only [JValue.SameUpToOrderList]
    exact ⟨x, xs, rfl, JValue.sameUpToOrder_refl x, JValue.sameUpToOrderList_refl xs⟩

theorem JValue.sameUpToOrderObj_refl : ∀ m : JObj, JValue.SameUpToOrderObj m m
  | [] => rfl
  | (_, x) :: m => by
    simp only [JValue.SameUpToOrderObj]
    exact ⟨x, m, rfl, JValue.sameUpToOrder_refl x, JValue.sameUpToOrderObj_refl m⟩
end

end OpenBindings

namespace OpenBindings.CanonicalJson

theorem writeJCSMembers_eq_map (kvs : JObj) :
    writeJCSMembers kvs = kvs.map fun kv => (kv.1, writeJCS kv.2) := by
  induction kvs with
  | nil => rfl
  | cons kv rest ih => obtain ⟨k, v⟩ := kv; simp only [writeJCSMembers, ih, List.map_cons]

mutual
/-- `writeJCS` does not see the order of members: on a value with distinct member names, every
value equal to it up to member order is written to the same text. -/
theorem writeJCS_eq_of_sameUpToOrder : ∀ {b a : JValue}, a.KeysUnique → a.SameUpToOrder b →
    writeJCS a = writeJCS b
  | .arr _, _, hu, ⟨_, ha, h⟩ => by
    subst ha
    simp only [writeJCS, writeJCSList_eq_of_sameUpToOrder hu h]
  | .obj _, _, hu, ⟨kvs, ms, ha, hp, h⟩ => by
    subst ha
    have hms : JValue.KeysUniqueObj ms :=
      JValue.keysUniqueObj_iff.2 fun kv hkv => JValue.keysUniqueObj_iff.1 hu.2 kv (hp.mem_iff.2 hkv)
    have hn : ((writeJCSMembers kvs).map Prod.fst).Nodup := by
      simpa only [writeJCSMembers_eq_map, List.map_map] using hu.1
    have hperm : (writeJCSMembers kvs).Perm (writeJCSMembers ms) := by
      simpa only [writeJCSMembers_eq_map] using hp.map _
    simp only [writeJCS, insertionSort_memberLE_eq_of_perm hperm hn,
      writeJCSMembers_eq_of_sameUpToOrder hms h]
  | .null, _, _, h | .bool _, _, _, h | .num _, _, _, h | .str _, _, _, h => by rw [h]

theorem writeJCSList_eq_of_sameUpToOrder : ∀ {ys xs : List JValue}, JValue.KeysUniqueList xs →
    JValue.SameUpToOrderList xs ys → writeJCSList xs = writeJCSList ys
  | [], _, _, h => by rw [h]
  | _ :: _, _, hu, ⟨_, _, hxs, hx, h⟩ => by
    subst hxs
    simp only [writeJCSList, writeJCS_eq_of_sameUpToOrder hu.1 hx,
      writeJCSList_eq_of_sameUpToOrder hu.2 h]

theorem writeJCSMembers_eq_of_sameUpToOrder : ∀ {lvs ms : JObj}, JValue.KeysUniqueObj ms →
    JValue.SameUpToOrderObj ms lvs → writeJCSMembers ms = writeJCSMembers lvs
  | [], _, _, h => by rw [h]
  | (_, _) :: _, _, hu, ⟨_, _, hms, hx, h⟩ => by
    subst hms
    simp only [writeJCSMembers, writeJCS_eq_of_sameUpToOrder hu.1 hx,
      writeJCSMembers_eq_of_sameUpToOrder hu.2 h]
end

/-- `lessUTF16` is the lexicographic order on code-unit sequences and a strict total order, so
sorting the members of an object with distinct names by it gives the one arrangement whose
names ascend strictly in UTF-16 order. -/
theorem lessUTF16_lexicographic :
    (∀ a b : List UInt16, lessUTF16 a b = true ↔ List.Lex (· < ·) a b) ∧
    (∀ a, lessUTF16 a a = false) ∧
    (∀ a b c, lessUTF16 a b = true → lessUTF16 b c = true → lessUTF16 a c = true) ∧
    (∀ a b, (lessUTF16 a b = true ∨ lessUTF16 b a = true ∨ a = b) ∧
      ¬ (lessUTF16 a b = true ∧ lessUTF16 b a = true) ∧ ¬ (lessUTF16 a b = true ∧ a = b) ∧
      ¬ (lessUTF16 b a = true ∧ a = b)) ∧
    ∀ kvs : JObj, (kvs.map Prod.fst).Nodup →
      ((writeJCSMembers kvs).insertionSort memberLE).Sorted memberLT ∧
      ∀ l, l.Perm (writeJCSMembers kvs) → l.Sorted memberLT →
        l = (writeJCSMembers kvs).insertionSort memberLE := by
  refine ⟨lessUTF16_iff_lex, lessUTF16_irrefl, fun _ _ _ => lessUTF16_trans, fun a b => ?_,
    fun kvs hn => ?_⟩
  · refine ⟨?_, fun h => by rw [lessUTF16_asymm h.1] at h; exact Bool.false_ne_true h.2,
      fun h => by rw [h.2, lessUTF16_irrefl] at h; exact Bool.false_ne_true h.1,
      fun h => by rw [h.2, lessUTF16_irrefl] at h; exact Bool.false_ne_true h.1⟩
    by_cases he : a = b
    · exact .inr (.inr he)
    · exact (lessUTF16_total he).elim .inl (.inr ∘ .inl)
  · have hn' : ((writeJCSMembers kvs).map Prod.fst).Nodup := by
      simpa only [writeJCSMembers_eq_map, List.map_map] using hn
    refine ⟨sorted_insertionSort_memberLT hn', fun l hp hs => ?_⟩
    exact List.eq_of_perm_of_sorted (hp.trans (List.perm_insertionSort memberLE _).symm) hs
      (sorted_insertionSort_memberLT hn')

/-- A surrogate pair sorts below `U+E000` in UTF-16 order, though its code point is above it, and
the sorted members of an object with both names ascend strictly. -/
theorem lessUTF16_lexicographic_surrogate :
    List.Lex (· < ·) (utf16Encode "😀") (utf16Encode "\uE000") ∧
      ((writeJCSMembers [("\uE000", .null), ("😀", .null)]).insertionSort memberLE).Sorted memberLT :=
  ⟨(lessUTF16_lexicographic.1 _ _).1 (by decide),
    (lessUTF16_lexicographic.2.2.2.2 [("\uE000", .null), ("😀", .null)] (by decide)).1⟩

end OpenBindings.CanonicalJson
