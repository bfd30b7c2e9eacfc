import OpenBindings.RoundTrip

/-! # The canonical text, and `Marshal` on it

`writeJCS v` is one JSON text with no insignificant whitespace: a lexer that skips string literals
(`outsideStrings`) finds no whitespace in it (`writeJCS_spaceFree`). Outside strings the text is
made of the literals, the punctuation and numbers, and what `parseNumber` reads is made of digits,
signs, points and exponent marks (`parseNumber_numPrefix`). Inside strings `escapeRune` writes
every escape with its backslash, so the lexer leaves each string where it ends.

With `decodeText_writeJCS` this gives the claim about `Marshal` (`marshal_idempotent`). -/

namespace OpenBindings.CanonicalJson

/-! ### What the number parser reads -/

/-- The characters a number is written with. -/
def NumChar (c : Char) : Prop :=
  c.isDigit = true ∨ c = '-' ∨ c = '.' ∨ c = 'e' ∨ c = 'E' ∨ c = '+'

theorem NumChar.not_quote_space {c : Char} (h : NumChar c) : c ≠ '"' ∧ isSpace c = false := by
  rcases h with h | rfl | rfl | rfl | rfl | rfl
  · refine ⟨fun e => absurd (e ▸ h) (by decide), ?_⟩
    cases hs : isSpace c
    · rfl
    · simp only [isSpace, Bool.or_eq_true, decide_eq_true_eq] at hs
      rcases hs with ((rfl | rfl) | rfl) | rfl <;> exact absurd h (by decide)
  all_goals decide

theorem isDigit_of_one_le {c : Char} (h : '1' ≤ c ∧ c ≤ '9') : c.isDigit = true := by
  have hr : c.isDigit = true ↔ '0' ≤ c ∧ c ≤ '9' := by
    simp only [Char.isDigit, Bool.and_eq_true, decide_eq_true_eq]
    rfl
  exact hr.2 ⟨Char.le_trans (by decide) h.1, h.2⟩

/-- `cs` is `r` after a prefix of number characters. -/
def NumPrefix (cs r : List Char) : Prop := ∃ pre, cs = pre ++ r ∧ ∀ c ∈ pre, NumChar c

theorem NumPrefix.refl (cs : List Char) : NumPrefix cs cs := ⟨[], rfl, fun _ h => nomatch h⟩

theorem NumPrefix.trans {a b c : List Char} (h₁ : NumPrefix a b) (h₂ : NumPrefix b c) :
    NumPrefix a c := by
  obtain ⟨p, rfl, hp⟩ := h₁
  obtain ⟨q, rfl, hq⟩ := h₂
  exact ⟨p ++ q, (List.append_assoc _ _ _).symm, fun x hx =>
    (List.mem_append.1 hx).elim (hp x) (hq x)⟩

theorem NumPrefix.cons {c : Char} (hc : NumChar c) {cs r : List Char} (h : NumPrefix cs r) :
    NumPrefix (c :: cs) r := by
  obtain ⟨p, rfl, hp⟩ := h
  exact ⟨c :: p, rfl, fun x hx => (List.mem_cons.1 hx).elim (· ▸ hc) (hp x)⟩

theorem numPrefix_digits (cs : List Char) : NumPrefix cs (cs.dropWhile Char.isDigit) :=
  ⟨cs.takeWhile Char.isDigit, (List.takeWhile_append_dropWhile _ _).symm,
    fun _ hx => .inl (List.mem_takeWhile_imp hx)⟩

theorem parseIntPart_numPrefix {cs ip r : List Char} (h : parseIntPart cs = some (ip, r)) :
    NumPrefix cs r := by
  unfold parseIntPart at h
  split at h
  · cases h; exact (NumPrefix.refl _).cons (show NumChar '0' from .inl rfl)
  · split at h
    · cases h; exact (numPrefix_digits _).cons (.inl (isDigit_of_one_le ‹_›))
    · cases h
  · cases h

theorem parseFrac_numPrefix {cs fp r : List Char} (h : parseFrac cs = some (fp, r)) :
    NumPrefix cs r := by
  unfold parseFrac at h
  split at h
  · split at h
    · cases h
    · cases h; exact (numPrefix_digits _).cons (show NumChar '.' from .inr (.inr (.inl rfl)))
  · cases h; exact NumPrefix.refl _

theorem parseExpDigits_numPrefix {neg : Bool} {cs r : List Char} {x : Int}
    (h : parseExpDigits neg cs = some (x, r)) : NumPrefix cs r := by
  unfold parseExpDigits at h
  split at h
  · cases h
  · cases h; exact numPrefix_digits _

theorem parseExp_numPrefix {cs r : List Char} {x : Int} (h : parseExp cs = some (x, r)) :
    NumPrefix cs r := by
  have he : NumChar 'e' := by unfold NumChar; decide
  have hE : NumChar 'E' := by unfold NumChar; decide
  have hm : NumChar '-' := by unfold NumChar; decide
  have hp : NumChar '+' := by unfold NumChar; decide
  unfold parseExp at h
  split at h
  · exact ((parseExpDigits_numPrefix h).cons hm).cons he
  · exact ((parseExpDigits_numPrefix h).cons hm).cons hE
  · exact ((parseExpDigits_numPrefix h).cons hp).cons he
  · exact ((parseExpDigits_numPrefix h).cons hp).cons hE
  · exact (parseExpDigits_numPrefix h).cons he
  · exact (parseExpDigits_numPrefix h).cons hE
  · cases h; exact NumPrefix.refl _

/-- What the decoder reads as a number is written with number characters only. -/
theorem parseNumber_numPrefix {cs r : List Char} {f : Float64} (h : parseNumber cs = some (f, r)) :
    NumPrefix cs r := by
  have hsign : NumPrefix cs (numberSign cs).2 := by
    unfold numberSign
    split
    · exact (NumPrefix.refl _).cons (show NumChar '-' from .inr (.inl rfl))
    · exact NumPrefix.refl _
  simp only [parseNumber, Option.bind_eq_bind] at h
  rcases hs : numberSign cs with ⟨neg, cs₁⟩
  rw [hs] at hsign h
  rcases hi : parseIntPart cs₁ with _ | ⟨ip, cs₂⟩ <;> rw [hi] at h
  · cases h
  rcases hf : parseFrac cs₂ with _ | ⟨fp, cs₃⟩ <;> simp only [hf, Option.some_bind] at h
  · cases h
  rcases hx : parseExp cs₃ with _ | ⟨x, cs₄⟩ <;> simp only [hx, Option.some_bind] at h
  · cases h
  rcases hd : Float64.ofDecimal neg (digitsValue (ip ++ fp)) (x - fp.length) with _ | g <;>
    simp only [hd, Option.some_bind, Option.none_bind] at h
  · cases h
  cases h
  exact hsign.trans ((parseIntPart_numPrefix hi).trans ((parseFrac_numPrefix hf).trans
    (parseExp_numPrefix hx)))

/-! ### Whitespace outside strings -/

/-- The characters of a JSON text outside its string literals, as a lexer sees them: `inString`
says whether a string literal is open, `escaped` whether the character before was its backslash.
Whitespace left here lies between tokens: it is what RFC 8259 calls insignificant. -/
def outsideStrings : Bool → Bool → List Char → List Char
  | _, _, [] => []
  | false, _, c :: rest =>
    if c = '"' then outsideStrings true false rest else c :: outsideStrings false false rest
  | true, true, _ :: rest => outsideStrings true false rest
  | true, false, c :: rest =>
    if c = '\\' then outsideStrings true true rest
    else if c = '"' then outsideStrings false false rest else outsideStrings true false rest

/-- Text that puts no whitespace outside its strings, whatever follows it. -/
def SpaceFree (T : List Char) : Prop :=
  ∀ rest, ∃ sk, outsideStrings false false (T ++ rest) = sk ++ outsideStrings false false rest ∧
    ∀ c ∈ sk, isSpace c = false

theorem SpaceFree.append {T U : List Char} (hT : SpaceFree T) (hU : SpaceFree U) :
    SpaceFree (T ++ U) := fun rest => by
  obtain ⟨su, hu, hsu⟩ := hU rest
  obtain ⟨st, ht, hst⟩ := hT (U ++ rest)
  refine ⟨st ++ su, by rw [List.append_assoc, ht, hu, List.append_assoc], fun c hc => ?_⟩
  exact (List.mem_append.1 hc).elim (hst c) (hsu c)

/-- Characters that are neither a quote nor whitespace stay outside strings. -/
theorem SpaceFree.plain : ∀ {L : List Char}, (∀ c ∈ L, c ≠ '"' ∧ isSpace c = false) →
    SpaceFree L
  | [], _ => fun rest => ⟨[], rfl, fun _ h => nomatch h⟩
  | c :: L, h => fun rest => by
    obtain ⟨sk, hsk, hs⟩ := SpaceFree.plain (fun x hx => h x (List.mem_cons_of_mem _ hx)) rest
    have hc := h c (List.mem_cons_self _ _)
    refine ⟨c :: sk, ?_, fun x hx => (List.mem_cons.1 hx).elim (· ▸ hc.2) (hs x)⟩
    rw [List.cons_append, outsideStrings, if_neg hc.1, hsk, List.cons_append]

theorem SpaceFree.cons {c : Char} (hc : c ≠ '"' ∧ isSpace c = false) {T : List Char}
    (h : SpaceFree T) : SpaceFree (c :: T) :=
  (show SpaceFree [c] from SpaceFree.plain fun _ hx => (List.mem_singleton.1 hx) ▸ hc).append h

/-- The digits `\u00xx` writes are neither quotes nor backslashes. -/
theorem hexDigits_plain : ∀ n : Fin 32,
    ∀ c ∈ [hexDigit ((Char.ofNat n.val).val / 16), hexDigit ((Char.ofNat n.val).val % 16)],
      c ≠ '\\' ∧ c ≠ '"' := by
  decide

theorem outsideStrings_in_plain {c : Char} (rest : List Char) (h1 : c ≠ '\\') (h2 : c ≠ '"') :
    outsideStrings true false (c :: rest) = outsideStrings true false rest := by
  simp [outsideStrings, h1, h2]

theorem outsideStrings_in_escape (c : Char) (rest : List Char) :
    outsideStrings true false ('\\' :: c :: rest) = outsideStrings true false rest := by
  simp [outsideStrings]

/-- Inside a string, the lexer passes over each escaped rune. -/
theorem outsideStrings_escapeRune (r : Char) (X : List Char) :
    outsideStrings true false (escapeRune r ++ X) = outsideStrings true false X := by
  rcases escapeRune_cases r with ⟨c, he, -⟩ | ⟨h8, he⟩ | ⟨h1, h2, -, he⟩ <;> rw [he]
  · exact outsideStrings_in_escape c X
  · have h31 : r.toNat ≤ 31 := h8
    have hh := hexDigits_plain ⟨r.toNat, Nat.lt_succ_of_le h31⟩
    simp only [Char.ofNat_toNat, List.mem_cons, List.mem_singleton, List.not_mem_nil, or_false,
      forall_eq_or_imp, forall_eq] at hh
    show outsideStrings true false ('\\' :: 'u' :: '0' :: '0' :: hexDigit (r.val / 16) ::
      hexDigit (r.val % 16) :: X) = _
    rw [outsideStrings_in_escape, outsideStrings_in_plain _ (by decide) (by decide),
      outsideStrings_in_plain _ (by decide) (by decide), outsideStrings_in_plain _ hh.1.1 hh.1.2,
      outsideStrings_in_plain _ hh.2.1 hh.2.2]
  · rw [List.singleton_append, outsideStrings_in_plain _ h1 h2]

/-- The lexer skips a string literal `writeJCSString` writes, quotes included. -/
theorem spaceFree_writeJCSString (s : String) : SpaceFree (writeJCSString s).toList := by
  have body : ∀ (rest : List Char) (cs : List Char),
      outsideStrings true false (cs.flatMap escapeRune ++ '"' :: rest) =
        outsideStrings false false rest := by
    intro rest cs
    induction cs with
    | nil => rfl
    | cons r cs ih => rw [List.flatMap_cons, List.append_assoc, outsideStrings_escapeRune, ih]
  intro rest
  refine ⟨[], ?_, fun _ h => nomatch h⟩
  show outsideStrings false false ('"' :: ((s.toList.flatMap escapeRune ++ ['"']) ++ rest)) = _
  rw [outsideStrings, if_pos rfl, List.append_assoc, List.singleton_append, body]
  rfl

/-- A number's text is made of number characters, so it stays outside strings. -/
theorem spaceFree_formatJCSFloat64 (f : Float64) : SpaceFree (formatJCSFloat64 f).toList := by
  obtain ⟨pre, hpre, hc⟩ := parseNumber_numPrefix (parseNumber_formatJCSFloat64 f endsNumber_nil)
  rw [List.append_nil, List.append_nil] at hpre
  rw [hpre]
  exact SpaceFree.plain fun c h => (hc c h).not_quote_space

theorem spaceFree_commas {α : Type} (t : α → List Char) :
    ∀ xs : List α, (∀ a ∈ xs, SpaceFree (t a)) → SpaceFree (xs.flatMap fun a => ',' :: t a)
  | [], _ => SpaceFree.plain fun _ h => nomatch h
  | a :: xs, h => by
    rw [List.flatMap_cons]
    exact ((h a (List.mem_cons_self _ _)).cons (by decide)).append
      (spaceFree_commas t xs fun b hb => h b (List.mem_cons_of_mem _ hb))

theorem memberText_eq (kv : String × JValue) :
    memberText kv = (writeJCSString kv.1).toList ++ ':' :: (writeJCS kv.2).toList := by
  simp [memberText, String.toList, String.data_append]

/-- `writeJCS` puts no whitespace outside strings, at any depth. -/
theorem spaceFree_of_depth : ∀ (n : Nat) (v : JValue), v.depth ≤ n → SpaceFree (writeJCS v).toList
  | 0, v, h => absurd h (by cases v <;> simp [JValue.depth])
  | _ + 1, .null, _ => SpaceFree.plain (by decide)
  | _ + 1, .bool b, _ => by cases b <;> exact SpaceFree.plain (by decide)
  | _ + 1, .str s, _ => spaceFree_writeJCSString s
  | _ + 1, .num f, _ => spaceFree_formatJCSFloat64 f
  | n + 1, .arr xs, h => by
    cases xs with
    | nil => exact SpaceFree.plain (by decide)
    | cons x xs =>
      have hx : ∀ y ∈ x :: xs, SpaceFree (writeJCS y).toList := fun y hy =>
        spaceFree_of_depth n y ((JValue.depth_le_depthList_of_mem hy).trans
          (by simp only [JValue.depth] at h; omega))
      rw [writeJCS_arr_toList]
      exact ((hx x (List.mem_cons_self _ _)).append (spaceFree_commas _ xs fun y hy =>
        hx y (List.mem_cons_of_mem _ hy))).append (SpaceFree.plain (by decide)) |>.cons (by decide)
  | n + 1, .obj kvs, h => by
    have hkv : ∀ kv ∈ kvs, SpaceFree (memberText kv) := fun kv hkv => memberText_eq kv ▸
      ((spaceFree_writeJCSString kv.1).append ((spaceFree_of_depth n kv.2
        ((JValue.depth_le_depthObj_of_mem (show (kv.1, kv.2) ∈ kvs from hkv)).trans
          (by simp only [JValue.depth] at h; omega))).cons (by decide)))
    obtain ⟨kvs', hp, htext⟩ := writeJCS_obj_toList kvs
    rw [htext]
    cases kvs' with
    | nil => exact SpaceFree.plain (by decide)
    | cons kv ms =>
      rw [joinComma_map_toList]
      exact ((hkv kv (hp.subset (List.mem_cons_self _ _))).append (spaceFree_commas memberText ms
        fun m hm => hkv m (hp.subset (List.mem_cons_of_mem _ hm)))).append
          (SpaceFree.plain (by decide)) |>.cons (by decide)

/-- The canonical text has no whitespace outside its strings. -/
theorem writeJCS_spaceFree (v : JValue) :
    ∀ c ∈ outsideStrings false false (writeJCS v).toList, isSpace c = false := by
  obtain ⟨sk, hsk, hs⟩ := spaceFree_of_depth v.depth v le_rfl []
  rw [List.append_nil] at hsk
  rw [hsk]
  simpa [outsideStrings] using hs

/-! ### `Marshal` is idempotent -/

/-- `writeJCS` writes one JSON text with no whitespace outside its strings, which the decoder reads
back as the value, strings and numbers as they were, arrays in order and objects with the same
members; so `marshal` returns a canonical text unchanged. -/
theorem marshal_idempotent :
    (∀ v : JValue, (∀ c ∈ outsideStrings false false (writeJCS v).toList, isSpace c = false) ∧
      (v.KeysUnique → ∃ w, decodeText (writeJCS v) = some w ∧ w.SameUpToOrder v)) ∧
    ∀ s c : String, marshal s = some c → marshal c = some c := by
  refine ⟨fun v => ⟨writeJCS_spaceFree v, decodeText_writeJCS⟩, fun s c h => ?_⟩
  obtain ⟨v, hv, rfl⟩ := Option.map_eq_some'.1 h
  obtain ⟨w, hw, hsw⟩ := decodeText_writeJCS (decodeText_keysUnique hv)
  simp only [marshal, hw, Option.map_some']
  exact congrArg some (writeJCS_eq_of_sameUpToOrder (decodeText_keysUnique hw) hsw)

theorem marshal_idempotent_nested :
    (∃ w, decodeText (writeJCS (.obj [("b", .arr [.bool true, .null]), ("a", .str "x y")])) =
      some w ∧ w.SameUpToOrder (.obj [("b", .arr [.bool true, .null]), ("a", .str "x y")])) ∧
    marshal "\x7b\"a\":\"x y\",\"b\":[true,null]\x7d" =
      some "\x7b\"a\":\"x y\",\"b\":[true,null]\x7d" :=
  ⟨(marshal_idempotent.1 _).2 ⟨by decide, by
      simp [JValue.KeysUniqueObj, JValue.KeysUnique, JValue.KeysUniqueList]⟩,
    marshal_idempotent.2 "\x7b \"b\": [true, null], \"a\": \"x y\"\x7d" _ (by decide)⟩

end OpenBindings.CanonicalJson
