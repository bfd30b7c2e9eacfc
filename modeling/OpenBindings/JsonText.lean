import OpenBindings.CanonicalOrder

/-! # `canonicaljson.Marshal` on a JSON text

`Marshal` given a `[]byte` or a `json.RawMessage` decodes one value with a `json.Decoder` in
`UseNumber` mode, requires the second `Decode` to meet `io.EOF` (only whitespace may follow), and
writes the value with `writeJCS`. `marshal` is that function, `none` standing for every error.

The decoder reads RFC 8259 text as Go's scanner and `unquote` do: the four whitespace characters,
the literals, strings with the escapes `\" \\ \/ \b \f \n \r \t \uXXXX` and no raw control
character, where a `\u` surrogate forms one rune with a following `\u` of the other half and is
U+FFFD otherwise, and numbers `-? (0 | [1-9][0-9]*) (.[0-9]+)? ([eE][+-]?[0-9]+)?`. An object
becomes a map, so a repeated member name overwrites the earlier value (`setField`), as
`m[key] = value` does. In Go a number stays a `json.Number` and `writeJCS` converts it with
`strconv.ParseFloat`, which fails above the largest double; the model converts it as it is read
(`Float64.ofDecimal`), and the text fails in both. The input is a `String`, so it is valid UTF-8,
the case where Go's byte-level decoder and the model read the same characters.

The parser's fuel bounds the number of nested calls; `decodeText` gives it one unit more than the
text has characters, and each call reads at least one character. -/

namespace OpenBindings.CanonicalJson

/-- JSON whitespace: space, tab, line feed and carriage return. -/
def isSpace (c : Char) : Bool := c = ' ' || c = '\t' || c = '\n' || c = '\r'

/-- Skips whitespace. -/
def skipSpace (cs : List Char) : List Char := cs.dropWhile isSpace

/-- The value of a hexadecimal digit. -/
def hexVal (c : Char) : Option Nat :=
  if '0' ≤ c ∧ c ≤ '9' then some (c.toNat - 48)
  else if 'a' ≤ c ∧ c ≤ 'f' then some (c.toNat - 87)
  else if 'A' ≤ c ∧ c ≤ 'F' then some (c.toNat - 55)
  else none

/-- `getu4`: the code unit that four hexadecimal digits write. -/
def getu4 (a b c d : Char) : Option Nat := do
  return (← hexVal a) * 4096 + (← hexVal b) * 256 + (← hexVal c) * 16 + (← hexVal d)

/-- The character of a one-letter escape. -/
def escapeChar : Char → Option Char
  | '"' => some '"'
  | '\\' => some '\\'
  | '/' => some '/'
  | 'b' => some '\x08'
  | 'f' => some '\x0c'
  | 'n' => some '\n'
  | 'r' => some '\r'
  | 't' => some '\t'
  | _ => none

/-- Puts characters in front of a decoded string body. -/
def prepend (cs : List Char) (r : Option (List Char × List Char)) : Option (List Char × List Char) :=
  r.map fun p => (cs ++ p.1, p.2)

/-- The rune of a `\u` escape read on its own: U+FFFD for a surrogate, the unit itself otherwise. -/
def unitChar (u : Nat) : Char := if 0xD800 ≤ u ∧ u < 0xE000 then '�' else Char.ofNat u

/-- The rune of a high and a low surrogate, as `utf16.DecodeRune` combines them. -/
def pairChar (u u' : Nat) : Char := Char.ofNat (0x10000 + (u - 0xD800) * 0x400 + (u' - 0xDC00))

/-- What a high surrogate still waiting for its low half stands for when none comes: U+FFFD. -/
def pendingChars : Option Nat → List Char
  | none => []
  | some _ => ['�']

/-- `unquote` from the opening quote on: the characters of a string body up to its closing quote,
and the text after the quote. A `\u` high surrogate is held back (`pending`) until the next
character: a `\u` low surrogate completes it, as Go's lookahead with `utf16.DecodeRune` does, and
anything else makes it U+FFFD. -/
def unquoteFrom (pending : Option Nat) : List Char → Option (List Char × List Char)
  | [] => none
  | '"' :: rest => some (pendingChars pending, rest)
  | '\\' :: 'u' :: a :: b :: c :: d :: rest =>
    (getu4 a b c d).bind fun u =>
      let next := if 0xD800 ≤ u ∧ u < 0xDC00 then unquoteFrom (some u) rest
        else prepend [unitChar u] (unquoteFrom none rest)
      match pending with
      | some h => if 0xDC00 ≤ u ∧ u < 0xE000 then prepend [pairChar h u] (unquoteFrom none rest)
        else prepend ['�'] next
      | none => next
  | '\\' :: c :: rest =>
    (escapeChar c).bind fun e => prepend (pendingChars pending ++ [e]) (unquoteFrom none rest)
  | c :: rest =>
    if c.toNat < 0x20 then none else prepend (pendingChars pending ++ [c]) (unquoteFrom none rest)

/-- `unquote`: the string body after an opening quote. -/
def unquote (cs : List Char) : Option (List Char × List Char) := unquoteFrom none cs

/-- The number that decimal digits write. -/
def digitsValue (ds : List Char) : Nat := ds.foldl (fun n c => 10 * n + (c.toNat - 48)) 0

/-- The integer part of a number: `0`, or a nonzero digit and more digits. -/
def parseIntPart : List Char → Option (List Char × List Char)
  | '0' :: rest => some (['0'], rest)
  | c :: rest =>
    if '1' ≤ c ∧ c ≤ '9' then some (c :: rest.takeWhile Char.isDigit, rest.dropWhile Char.isDigit)
    else none
  | [] => none

/-- The fraction of a number: a point and at least one digit, or nothing. -/
def parseFrac : List Char → Option (List Char × List Char)
  | '.' :: rest =>
    match rest.takeWhile Char.isDigit with
    | [] => none
    | ds => some (ds, rest.dropWhile Char.isDigit)
  | cs => some ([], cs)

/-- The exponent digits with their sign, at least one digit. -/
def parseExpDigits (neg : Bool) (cs : List Char) : Option (Int × List Char) :=
  match cs.takeWhile Char.isDigit with
  | [] => none
  | ds => some (if neg then -(digitsValue ds : Int) else digitsValue ds, cs.dropWhile Char.isDigit)

/-- The exponent of a number: `e` or `E`, an optional sign and digits; or nothing. -/
def parseExp : List Char → Option (Int × List Char)
  | 'e' :: '-' :: rest | 'E' :: '-' :: rest => parseExpDigits true rest
  | 'e' :: '+' :: rest | 'E' :: '+' :: rest => parseExpDigits false rest
  | 'e' :: rest | 'E' :: rest => parseExpDigits false rest
  | cs => some (0, cs)

/-- The sign of a number: a leading minus, or none. -/
def numberSign : List Char → Bool × List Char
  | '-' :: rest => (true, rest)
  | cs => (false, cs)

/-- A number, rounded to the nearest double as `strconv.ParseFloat` rounds it; `none` for a number
beyond the largest double. -/
def parseNumber (cs : List Char) : Option (Float64 × List Char) := do
  let (neg, cs) := numberSign cs
  let (ip, cs) ← parseIntPart cs
  let (fp, cs) ← parseFrac cs
  let (x, cs) ← parseExp cs
  let f ← Float64.ofDecimal neg (digitsValue (ip ++ fp)) (x - fp.length)
  return (f, cs)

/-- A literal, a string or a number at the head of the text. -/
def parseScalar : List Char → Option (JValue × List Char)
  | 'n' :: 'u' :: 'l' :: 'l' :: rest => some (.null, rest)
  | 't' :: 'r' :: 'u' :: 'e' :: rest => some (.bool true, rest)
  | 'f' :: 'a' :: 'l' :: 's' :: 'e' :: rest => some (.bool false, rest)
  | '"' :: rest => (unquote rest).map fun p => (.str (String.mk p.1), p.2)
  | cs => (parseNumber cs).map fun p => (.num p.1, p.2)

mutual
/-- One value after optional whitespace. -/
def parseValue : Nat → List Char → Option (JValue × List Char)
  | 0, _ => none
  | fuel + 1, cs =>
    match skipSpace cs with
    | '[' :: rest =>
      match skipSpace rest with
      | ']' :: r => some (.arr [], r)
      | _ =>
        match parseValue fuel rest with
        | some (v, r) => parseElements fuel [v] r
        | none => none
    | '\x7b' :: rest =>
      match skipSpace rest with
      | '\x7d' :: r => some (.obj [], r)
      | _ => parseMembers fuel [] rest
    | cs => parseScalar cs

/-- After an element: a comma and the next element, or the closing bracket. -/
def parseElements : Nat → List JValue → List Char → Option (JValue × List Char)
  | 0, _, _ => none
  | fuel + 1, acc, cs =>
    match skipSpace cs with
    | ',' :: rest =>
      match parseValue fuel rest with
      | some (v, r) => parseElements fuel (acc ++ [v]) r
      | none => none
    | ']' :: rest => some (.arr acc, rest)
    | _ => none

/-- A member (its name, a colon, its value stored with `m[key] = value`), then a comma and the
next member, or the closing brace. -/
def parseMembers : Nat → JObj → List Char → Option (JValue × List Char)
  | 0, _, _ => none
  | fuel + 1, acc, cs =>
    match skipSpace cs with
    | '"' :: rest =>
      match unquote rest with
      | some (k, r) =>
        match skipSpace r with
        | ':' :: r =>
          match parseValue fuel r with
          | some (v, r) =>
            match skipSpace r with
            | ',' :: r => parseMembers fuel (setField acc (String.mk k) v) r
            | '\x7d' :: r => some (.obj (setField acc (String.mk k) v), r)
            | _ => none
          | none => none
        | _ => none
      | none => none
    | _ => none
end

/-- `json.Decoder.Decode` twice: one value, then nothing but whitespace. -/
def decodeText (s : String) : Option JValue :=
  match parseValue (s.length + 1) s.toList with
  | some (v, rest) => if skipSpace rest = [] then some v else none
  | none => none

/-- `canonicaljson.Marshal` on a JSON text: the canonical text, or `none` where Go returns an
error. -/
def marshal (s : String) : Option String := (decodeText s).map writeJCS

/-! ### Decoded values are Go maps -/

/-- What the scalar reader returns: a literal, a string body read up to its closing quote, or a
number. -/
theorem parseScalar_eq_some {cs r : List Char} {v : JValue} (h : parseScalar cs = some (v, r)) :
    cs = 'n' :: 'u' :: 'l' :: 'l' :: r ∧ v = .null ∨
    cs = 't' :: 'r' :: 'u' :: 'e' :: r ∧ v = .bool true ∨
    cs = 'f' :: 'a' :: 'l' :: 's' :: 'e' :: r ∧ v = .bool false ∨
    (∃ rest s, cs = '"' :: rest ∧ unquote rest = some (s, r) ∧ v = .str (String.mk s)) ∨
    ∃ f, parseNumber cs = some (f, r) ∧ v = .num f := by
  unfold parseScalar at h
  split at h
  · cases h; exact .inl ⟨rfl, rfl⟩
  · cases h; exact .inr (.inl ⟨rfl, rfl⟩)
  · cases h; exact .inr (.inr (.inl ⟨rfl, rfl⟩))
  · obtain ⟨⟨s, r'⟩, hs, he⟩ := Option.map_eq_some'.1 h
    cases he
    exact .inr (.inr (.inr (.inl ⟨_, s, rfl, hs, rfl⟩)))
  · obtain ⟨⟨f, r'⟩, hf, he⟩ := Option.map_eq_some'.1 h
    cases he
    exact .inr (.inr (.inr (.inr ⟨f, hf, rfl⟩)))

theorem parseScalar_keysUnique {cs r : List Char} {v : JValue} (h : parseScalar cs = some (v, r)) :
    v.KeysUnique := by
  rcases parseScalar_eq_some h with ⟨-, rfl⟩ | ⟨-, rfl⟩ | ⟨-, rfl⟩ | ⟨-, -, -, -, rfl⟩ | ⟨-, -, rfl⟩ <;>
    trivial

/-- Storing a member keeps the names distinct and every member value a Go value. -/
theorem setField_keysUnique {acc : JObj} {k : String} {v : JValue} (hn : (acc.map Prod.fst).Nodup)
    (hacc : ∀ kv ∈ acc, kv.2.KeysUnique) (hv : v.KeysUnique) :
    ((setField acc k v).map Prod.fst).Nodup ∧ ∀ kv ∈ setField acc k v, kv.2.KeysUnique := by
  refine ⟨?_, fun kv hkv => ?_⟩
  · rw [keys_setField]
    split
    · exact hn
    · exact hn.append (List.nodup_singleton k) (List.disjoint_singleton.2 ‹_›)
  · rcases mem_setField hkv with rfl | hkv
    · exact hv
    · exact hacc kv hkv

/-- Every value the decoder builds has distinct member names in each of its objects. -/
theorem parse_keysUnique : ∀ fuel : Nat,
    (∀ {cs r v}, parseValue fuel cs = some (v, r) → v.KeysUnique) ∧
    (∀ {acc cs r v}, (∀ x ∈ acc, JValue.KeysUnique x) →
      parseElements fuel acc cs = some (v, r) → v.KeysUnique) ∧
    (∀ {acc : JObj} {cs r v}, (acc.map Prod.fst).Nodup → (∀ kv ∈ acc, kv.2.KeysUnique) →
      parseMembers fuel acc cs = some (v, r) → v.KeysUnique)
  | 0 => ⟨(fun h => nomatch h), (fun _ h => nomatch h), fun _ _ h => nomatch h⟩
  | fuel + 1 => by
    obtain ⟨ihv, ihe, ihm⟩ := parse_keysUnique fuel
    refine ⟨fun h => ?_, fun hacc h => ?_, fun hn hacc h => ?_⟩
    · simp only [parseValue] at h
      split at h
      · split at h
        · cases h; trivial
        · split at h
          · exact ihe (by simpa using ihv ‹_›) h
          · cases h
      · split at h
        · cases h; exact ⟨List.nodup_nil, trivial⟩
        · exact ihm (by exact List.nodup_nil) (by simp) h
      · exact parseScalar_keysUnique h
    · simp only [parseElements] at h
      split at h
      · split at h
        · refine ihe (fun x hx => ?_) h
          rcases List.mem_append.1 hx with hx | hx
          · exact hacc x hx
          · rw [List.mem_singleton.1 hx]; exact ihv ‹_›
        · cases h
      · cases h; exact JValue.keysUniqueList_iff.2 hacc
      · cases h
    · simp only [parseMembers] at h
      split at h <;> try cases h
      split at h <;> try cases h
      split at h <;> try cases h
      split at h <;> try cases h
      have hv := ihv ‹_›
      split at h
      · exact ihm (by exact (setField_keysUnique hn hacc hv).1)
          (by exact (setField_keysUnique hn hacc hv).2) h
      · cases h
        exact ⟨(setField_keysUnique hn hacc hv).1,
          JValue.keysUniqueObj_iff.2 (setField_keysUnique hn hacc hv).2⟩
      · cases h

theorem decodeText_keysUnique {s : String} {v : JValue} (h : decodeText s = some v) :
    v.KeysUnique := by
  unfold decodeText at h
  split at h
  · split at h
    · cases h; exact (parse_keysUnique _).1 ‹_›
    · cases h
  · cases h

/-! ### Marshal does not see member order -/

/-- Two decodings that fail together, or give values equal up to the order of members. -/
def SameDecoding : Option JValue → Option JValue → Prop
  | some a, some b => a.SameUpToOrder b
  | none, none => True
  | _, _ => False

/-- Texts whose decoded values are equal up to member order, or that both fail to decode, have the
same canonical form, or both fail. -/
theorem marshal_eq_of_sameDecoding {a b : String} (h : SameDecoding (decodeText a) (decodeText b)) :
    marshal a = marshal b := by
  unfold marshal
  cases ha : decodeText a <;> cases hb : decodeText b <;> rw [ha, hb] at h
  case some.some => exact congrArg some (writeJCS_eq_of_sameUpToOrder (decodeText_keysUnique ha) h)
  all_goals exact (h : False).elim

/-- A repeated member name keeps its last value, so the two orders of its members are written
differently. -/
theorem marshal_repeated_name_order :
    marshal "\x7b\"a\":true,\"a\":false\x7d" = some "\x7b\"a\":false\x7d" ∧
    marshal "\x7b\"a\":false,\"a\":true\x7d" = some "\x7b\"a\":true\x7d" := by
  decide

end OpenBindings.CanonicalJson
