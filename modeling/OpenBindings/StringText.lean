import OpenBindings.JsonText

/-! # Strings read back: `unquote` after `writeJCSString`

`writeJCSString` escapes each rune on its own (`escapeRune`), and `unquote` reads each escape back
as that rune (`unquoteFrom_escapeRune`): a shorthand escape through `escapeChar`, another control
character through `\u00xx`, whose code unit lies below the surrogates, and every other rune as
itself. So the text of every string reads back as the string, up to its closing quote
(`parseScalar_writeJCSString`). -/

namespace OpenBindings.CanonicalJson

/-- What `escapeRune` writes: a backslash and a second character for the seven runes with a short
escape, `\u00` and two hex digits for another control character, and the rune itself for every
other rune. -/
theorem escapeRune_cases (r : Char) :
    (∃ c, escapeRune r = ['\\', c] ∧ (r, c) ∈ [('\\', '\\'), ('"', '"'), ('\x08', 'b'), ('\t', 't'),
      ('\n', 'n'), ('\x0c', 'f'), ('\r', 'r')]) ∨
    (r.val ≤ 0x1F ∧
      escapeRune r = ['\\', 'u', '0', '0', hexDigit (r.val / 16), hexDigit (r.val % 16)]) ∨
    (r ≠ '\\' ∧ r ≠ '"' ∧ ¬ r.val ≤ 0x1F ∧ escapeRune r = [r]) := by
  unfold escapeRune
  by_cases hs : r ∈ ['\\', '"', '\x08', '\t', '\n', '\x0c', '\r']
  · simp only [List.mem_cons, List.mem_singleton, List.not_mem_nil, or_false] at hs
    rcases hs with rfl | rfl | rfl | rfl | rfl | rfl | rfl <;> exact .inl ⟨_, rfl, by decide⟩
  · simp only [List.mem_cons, List.not_mem_nil, or_false, not_or] at hs
    obtain ⟨h1, h2, h3, h4, h5, h6, h7⟩ := hs
    rw [if_neg h1, if_neg h2, if_neg h3, if_neg h4, if_neg h5, if_neg h6, if_neg h7]
    by_cases h8 : r.val ≤ 0x1F
    · exact .inr (.inl ⟨h8, if_pos h8⟩)
    · exact .inr (.inr ⟨h1, h2, h8, if_neg h8⟩)

/-- A character other than a quote or a backslash is read as itself, unless it is a control
character. -/
theorem unquoteFrom_plain {r : Char} (p : Option Nat) (rest : List Char) (h1 : r ≠ '"')
    (h2 : r ≠ '\\') :
    unquoteFrom p (r :: rest) =
      if r.toNat < 0x20 then none else prepend (pendingChars p ++ [r]) (unquoteFrom none rest) := by
  rw [unquoteFrom] <;> simp_all

/-- `\u00xx` with the lowercase digits `hexDigit` writes is the control character `xx`. -/
theorem hexEscape_small : ∀ n : Fin 32, getu4 '0' '0' (hexDigit ((Char.ofNat n.val).val / 16))
    (hexDigit ((Char.ofNat n.val).val % 16)) = some n.val ∧
      unitChar n.val = Char.ofNat n.val := by
  decide

/-- Each escaped rune reads back as the rune. -/
theorem unquoteFrom_escapeRune (r : Char) (rest : List Char) :
    unquoteFrom none (escapeRune r ++ rest) = prepend [r] (unquoteFrom none rest) := by
  rcases escapeRune_cases r with ⟨c, he, hs⟩ | ⟨h8, he⟩ | ⟨h1, h2, h8, he⟩ <;> rw [he]
  · -- the seven shorthand escapes read back by evaluation
    simp only [List.mem_cons, Prod.mk.injEq, List.mem_singleton, List.not_mem_nil, or_false] at hs
    rcases hs with ⟨rfl, rfl⟩ | ⟨rfl, rfl⟩ | ⟨rfl, rfl⟩ | ⟨rfl, rfl⟩ | ⟨rfl, rfl⟩ | ⟨rfl, rfl⟩ |
      ⟨rfl, rfl⟩ <;> rfl
  · -- a control character without a shorthand: `\u00xx`
    have h31 : r.toNat ≤ 31 := h8
    obtain ⟨hu, hc⟩ := hexEscape_small ⟨r.toNat, Nat.lt_succ_of_le h31⟩
    simp only [Char.ofNat_toNat] at hu hc
    show (getu4 '0' '0' _ _).bind _ = _
    rw [hu]
    simp only [Option.some_bind, hc, show ¬ (0xD800 ≤ r.toNat ∧ r.toNat < 0xDC00) by omega,
      if_false, List.nil_append]
    rfl
  · have h32 : ¬ r.toNat < 0x20 := fun h => h8 (Nat.le_of_lt_succ h)
    rw [List.singleton_append, unquoteFrom_plain none rest h2 h1, if_neg h32]
    rfl

/-- The escaped runes of a string, then the closing quote, read back as the runes. -/
theorem unquoteFrom_escaped (rest : List Char) : ∀ cs : List Char,
    unquoteFrom none (cs.flatMap escapeRune ++ '"' :: rest) = some (cs, rest)
  | [] => rfl
  | r :: cs => by
    rw [List.flatMap_cons, List.append_assoc, unquoteFrom_escapeRune, unquoteFrom_escaped rest cs]
    rfl

/-- The decoder reads `writeJCSString s` back as the string `s`, whatever follows it. -/
theorem parseScalar_writeJCSString (s : String) (rest : List Char) :
    parseScalar ((writeJCSString s).toList ++ rest) = some (.str s, rest) := by
  show (unquote (s.toList.flatMap escapeRune ++ ['"'] ++ rest)).map _ = _
  rw [List.append_assoc, List.singleton_append, unquote, unquoteFrom_escaped]
  rfl

end OpenBindings.CanonicalJson
