import OpenBindings.Interface

/-! # Format tokens (package `formattoken`)

A format token is `<name>@<version>`. `Parse` trims the text, checks it against `tokenRe`,
`^[A-Za-z0-9][A-Za-z0-9.\-]*@[A-Za-z0-9][A-Za-z0-9.\-]*$`, splits it at its last `@` and lowercases
the name; `String` writes the token back, and `Normalize` is the two in a row.

The pattern is read as a five-state automaton (`reStep`), and `matchString_iff` gives its language:
a name part, `@`, a version part, each a letter or digit followed by letters, digits, dots and
hyphens (`TokenPart`). From it, `Parse` accepts exactly those texts and returns their two parts
(`parse_eq_ok_iff`) and rejects every other text with the message for its case
(`parse_eq_error_iff`); what `String` writes of a parsed token parses back to the same token, so
`Normalize` is idempotent (`parse_string`, `normalize_normalize`). -/

namespace OpenBindings

open SchemaProfile (quote isSpace)

/-- `FormatToken`: the name, lowercased by `Parse`, and the version as written. -/
structure FormatToken where
  name : String
  version : String
  deriving DecidableEq, Repr

namespace FormatToken

/-- `String`: `name@version`, or the empty string when either part is empty. -/
def string (t : FormatToken) : String :=
  if t.name = "" ∨ t.version = "" then "" else t.name ++ "@" ++ t.version

/-! ### The pattern `tokenRe` -/

/-- `[A-Za-z0-9.\-]`, the characters after the first of each part. -/
def isTokenChar (c : Char) : Bool := c.isAlphanum || c = '.' || c = '-'

/-- Where `tokenRe` stands after a prefix of the text. -/
inductive ReState
  | start | name | afterAt | version | dead
  deriving DecidableEq, Repr

/-- One character of `tokenRe`: a letter or digit opens each part, token characters continue it,
and one `@` ends the name. -/
def reStep : ReState → Char → ReState
  | .start, c => if c.isAlphanum then .name else .dead
  | .name, c => if isTokenChar c then .name else if c = '@' then .afterAt else .dead
  | .afterAt, c => if c.isAlphanum then .version else .dead
  | .version, c => if isTokenChar c then .version else .dead
  | .dead, _ => .dead

/-- `tokenRe.MatchString`: the whole text is read and ends inside the version. -/
def matchString (cs : List Char) : Bool := cs.foldl reStep .start = .version

/-- One part of a token as the pattern admits it. -/
def TokenPart (cs : List Char) : Prop :=
  ∃ c rest, cs = c :: rest ∧ c.isAlphanum = true ∧ ∀ x ∈ rest, isTokenChar x = true

/-! ### `Parse`, `Normalize` -/

/-- `strings.LastIndexByte(s, c)`, counted in characters: the texts `Parse` splits are ASCII, where
characters and bytes agree. -/
def lastIndexByte : List Char → Char → Option Nat
  | [], _ => none
  | x :: xs, c => match lastIndexByte xs c with
    | some i => some (i + 1)
    | none => if x = c then some 0 else none

/-- `strings.ToLower` on the ASCII text the pattern admits. -/
def toLower (cs : List Char) : String := String.mk (cs.map Char.toLower)

/-- `Parse`. The pattern puts an `@` in every text it admits, so the last branch is never taken. -/
def parse (s : String) : Except String FormatToken :=
  let s := trimSpace s
  if s = "" then .error "format token: empty"
  else if !matchString s.toList then .error ("format token: invalid " ++ quote s)
  else match lastIndexByte s.toList '@' with
    | some i => .ok ⟨toLower (s.toList.take i), String.mk (s.toList.drop (i + 1))⟩
    | none => .error ("format token: invalid " ++ quote s)

/-- `IsFormatToken`. -/
def isFormatToken (s : String) : Bool :=
  match parse s with
  | .ok _ => true
  | .error _ => false

/-- `Normalize`. -/
def normalize (s : String) : Except String String := (parse s).map string

/-- `IsOpenBindings`. -/
def isOpenBindings (t : FormatToken) : Bool := t.name = "openbindings"

/-! ### The language of `tokenRe` -/

@[simp] theorem not_tokenPart_nil : ¬ TokenPart [] := by
  rintro ⟨_, _, h, -⟩
  cases h

@[simp] theorem tokenPart_cons {c : Char} {cs : List Char} :
    TokenPart (c :: cs) ↔ c.isAlphanum = true ∧ ∀ x ∈ cs, isTokenChar x = true := by
  constructor
  · rintro ⟨_, _, h, hc, hr⟩
    obtain ⟨rfl, rfl⟩ := List.cons.inj h
    exact ⟨hc, hr⟩
  · rintro ⟨hc, hr⟩
    exact ⟨c, cs, rfl, hc, hr⟩

theorem foldl_dead (cs : List Char) : cs.foldl reStep .dead = .dead := by
  induction cs with
  | nil => rfl
  | cons _ _ ih => exact ih

theorem foldl_version_iff : ∀ cs : List Char,
    cs.foldl reStep .version = .version ↔ ∀ x ∈ cs, isTokenChar x = true
  | [] => by simp
  | c :: cs => by
    by_cases hc : isTokenChar c = true
    · simp [reStep, hc, foldl_version_iff cs]
    · simp [reStep, hc, foldl_dead]

theorem foldl_afterAt_iff (cs : List Char) :
    cs.foldl reStep .afterAt = .version ↔ TokenPart cs := by
  cases cs with
  | nil => simp
  | cons c cs =>
    by_cases hc : c.isAlphanum = true
    · simp [reStep, hc, foldl_version_iff]
    · simp [reStep, hc, foldl_dead]

/-- A part has no `@`: it is neither a letter or digit nor a token character. -/
theorem TokenPart.ne_at {cs : List Char} (h : TokenPart cs) : ∀ x ∈ cs, x ≠ '@' := by
  obtain ⟨c, rest, rfl, hc, hr⟩ := h
  rintro x (_ | ⟨_, hx⟩) rfl
  · exact absurd hc (by decide)
  · exact absurd (hr _ hx) (by decide)

/-- From inside the name, the pattern reaches the version exactly on the rest of a name, `@` and
a version part. -/
theorem foldl_name_iff : ∀ cs : List Char, cs.foldl reStep .name = .version ↔
    ∃ p v, cs = p ++ '@' :: v ∧ (∀ x ∈ p, isTokenChar x = true) ∧ TokenPart v
  | [] => by simp
  | c :: cs => by
    rw [List.foldl_cons]
    by_cases hc : isTokenChar c = true
    · rw [reStep, if_pos hc, foldl_name_iff cs]
      constructor
      · rintro ⟨p, v, rfl, hp, hv⟩
        exact ⟨c :: p, v, rfl, by simpa [hc] using hp, hv⟩
      · rintro ⟨_ | ⟨x, p⟩, v, h, hp, hv⟩
        · cases (List.cons.inj h).1
          exact absurd hc (by decide)
        · obtain ⟨rfl, rfl⟩ := List.cons.inj h
          exact ⟨p, v, rfl, fun y hy => hp y (.tail _ hy), hv⟩
    · by_cases ha : c = '@'
      · subst ha
        rw [reStep, if_neg hc, if_pos rfl, foldl_afterAt_iff]
        constructor
        · exact fun hv => ⟨[], cs, rfl, nofun, hv⟩
        · rintro ⟨_ | ⟨x, p⟩, v, h, hp, hv⟩
          · exact (List.cons.inj h).2 ▸ hv
          · cases (List.cons.inj h).1
            exact absurd (hp _ (.head _)) (by decide)
      · rw [reStep, if_neg hc, if_neg ha, foldl_dead]
        simp only [reduceCtorEq, false_iff, not_exists, not_and]
        rintro (_ | ⟨x, p⟩) v h hp -
        · exact ha (List.cons.inj h).1
        · exact hc ((List.cons.inj h).1 ▸ hp _ (.head _))

/-- The language of `tokenRe`: a name part, `@`, and a version part. -/
theorem matchString_iff (cs : List Char) :
    matchString cs = true ↔ ∃ n v, cs = n ++ '@' :: v ∧ TokenPart n ∧ TokenPart v := by
  rw [matchString, decide_eq_true_iff]
  cases cs with
  | nil => simp
  | cons c cs =>
    rw [List.foldl_cons]
    by_cases hc : c.isAlphanum = true
    · rw [reStep, if_pos hc, foldl_name_iff]
      constructor
      · rintro ⟨p, v, rfl, hp, hv⟩
        exact ⟨c :: p, v, rfl, tokenPart_cons.2 ⟨hc, hp⟩, hv⟩
      · rintro ⟨_ | ⟨x, p⟩, v, h, hn, hv⟩
        · exact absurd hn not_tokenPart_nil
        · obtain ⟨rfl, rfl⟩ := List.cons.inj h
          exact ⟨p, v, rfl, (tokenPart_cons.1 hn).2, hv⟩
    · rw [reStep, if_neg hc, foldl_dead]
      simp only [reduceCtorEq, false_iff, not_exists, not_and]
      rintro (_ | ⟨x, p⟩) v h hn -
      · exact not_tokenPart_nil hn
      · exact hc ((List.cons.inj h).1 ▸ (tokenPart_cons.1 hn).1)

/-! ### Token characters are ASCII -/

theorem isTokenChar_lt {c : Char} (h : isTokenChar c = true) : c.toNat < 128 := by
  simp only [isTokenChar, Char.isAlphanum, Char.isAlpha, Char.isUpper, Char.isLower, Char.isDigit,
    Bool.or_eq_true, Bool.and_eq_true, decide_eq_true_eq] at h
  rcases h with (((⟨-, h⟩ | ⟨-, h⟩) | ⟨-, h⟩) | rfl) | rfl
  any_goals exact Nat.lt_of_le_of_lt (UInt32.toNat_le_of_le (by decide) h) (by decide)
  all_goals decide

/-- What lowercasing does to a token character, read off the ASCII table. -/
theorem ascii_toLower : ∀ n : Fin 128, isTokenChar (Char.ofNat n) = true →
    isTokenChar (Char.ofNat n).toLower = true ∧
      ((Char.ofNat n).isAlphanum = true → (Char.ofNat n).toLower.isAlphanum = true) ∧
      (Char.ofNat n).toLower.toLower = (Char.ofNat n).toLower ∧
      isSpace (Char.ofNat n) = false ∧ isSpace (Char.ofNat n).toLower = false := by
  decide

/-- Lowercasing keeps a token character a token character (and a letter or digit one), is
idempotent on it, and neither is white space. -/
theorem isTokenChar.toLower {c : Char} (h : isTokenChar c = true) :
    isTokenChar c.toLower = true ∧ (c.isAlphanum = true → c.toLower.isAlphanum = true) ∧
      c.toLower.toLower = c.toLower ∧ isSpace c = false ∧ isSpace c.toLower = false := by
  have := ascii_toLower ⟨c.toNat, isTokenChar_lt h⟩
  simp only [Char.ofNat_toNat] at this
  exact this h

theorem isTokenChar_of_isAlphanum {c : Char} (h : c.isAlphanum = true) : isTokenChar c = true := by
  simp [isTokenChar, h]

theorem TokenPart.map_toLower {cs : List Char} (h : TokenPart cs) :
    TokenPart (cs.map Char.toLower) := by
  obtain ⟨c, rest, rfl, hc, hr⟩ := h
  refine tokenPart_cons.2 ⟨(isTokenChar.toLower (isTokenChar_of_isAlphanum hc)).2.1 hc, ?_⟩
  simpa using fun x hx => (isTokenChar.toLower (hr x hx)).1

theorem TokenPart.forall_tokenChar {cs : List Char} (h : TokenPart cs) :
    ∀ x ∈ cs, isTokenChar x = true := by
  obtain ⟨c, rest, rfl, hc, hr⟩ := h
  rintro x (_ | ⟨_, hx⟩)
  · exact isTokenChar_of_isAlphanum hc
  · exact hr x hx

/-! ### Splitting, trimming, lowercasing -/

theorem lastIndexByte_none {c : Char} : ∀ {w : List Char}, (∀ x ∈ w, x ≠ c) → lastIndexByte w c = none
  | [], _ => rfl
  | y :: w, hw => by
    simp [lastIndexByte, lastIndexByte_none fun x hx => hw x (.tail _ hx), hw y (.head _)]

/-- The last `c` of a text whose rest has no `c` is the one after the prefix. -/
theorem lastIndexByte_append {c : Char} {v : List Char} (hv : ∀ x ∈ v, x ≠ c) :
    ∀ n : List Char, lastIndexByte (n ++ c :: v) c = some n.length
  | [] => by simp [lastIndexByte, lastIndexByte_none hv]
  | x :: n => by simp [lastIndexByte, lastIndexByte_append hv n]

theorem dropWhile_of_forall {p : Char → Bool} :
    ∀ {cs : List Char}, (∀ x ∈ cs, p x = false) → cs.dropWhile p = cs
  | [], _ => rfl
  | _ :: _, h => List.dropWhile_cons_of_neg (by simp [h _ (.head _)])

/-- `TrimSpace` leaves a text without white space as it is. -/
theorem trimSpace_of_forall {cs : List Char} (h : ∀ x ∈ cs, isSpace x = false) :
    trimSpace (String.mk cs) = String.mk cs := by
  unfold trimSpace
  rw [String.toList, dropWhile_of_forall h, dropWhile_of_forall (by simpa using h),
    List.reverse_reverse]

theorem toLower_map_toLower {cs : List Char} (h : ∀ x ∈ cs, isTokenChar x = true) :
    toLower (cs.map Char.toLower) = toLower cs := by
  rw [toLower, toLower, List.map_map]
  exact congrArg String.mk (List.map_congr_left fun x hx => (isTokenChar.toLower (h x hx)).2.2.1)

/-! ### What `Parse` accepts -/

theorem eq_true_of_not_not {b : Bool} (h : ¬ (!b) = true) : b = true := by
  cases b
  · exact absurd rfl h
  · rfl

/-- What `Parse` returns is the lowercased name part and the version part of the trimmed text. -/
theorem tokenParts_of_parse {s : String} {t : FormatToken} (h : parse s = .ok t) :
    ∃ n v, (trimSpace s).toList = n ++ '@' :: v ∧ TokenPart n ∧ TokenPart v ∧
      t = ⟨toLower n, String.mk v⟩ := by
  unfold parse at h
  dsimp only at h
  split_ifs at h with h1 h2
  obtain ⟨n, v, hs, hn, hv⟩ := (matchString_iff _).1 (eq_true_of_not_not h2)
  rw [hs, lastIndexByte_append hv.ne_at n] at h
  cases h
  exact ⟨n, v, hs, hn, hv, by simp⟩

/-- A text that is, once trimmed, a name part, `@` and a version part parses to the two. -/
theorem parse_of_tokenParts {s : String} {n v : List Char} (hs : (trimSpace s).toList = n ++ '@' :: v)
    (hn : TokenPart n) (hv : TokenPart v) : parse s = .ok ⟨toLower n, String.mk v⟩ := by
  have hne : trimSpace s ≠ "" := fun h => by rw [h] at hs; cases n <;> cases hs
  have hm : matchString (trimSpace s).toList = true := (matchString_iff _).2 ⟨n, v, hs, hn, hv⟩
  unfold parse
  dsimp only
  rw [if_neg hne, hm, if_neg (by decide), hs, lastIndexByte_append hv.ne_at n]
  simp

/-- `Parse` accepts exactly the texts that are, once trimmed, a name part, `@` and a version part;
the token is the lowercased name and the version as written. -/
theorem parse_eq_ok_iff {s : String} {t : FormatToken} :
    parse s = .ok t ↔ ∃ n v, (trimSpace s).toList = n ++ '@' :: v ∧ TokenPart n ∧ TokenPart v ∧
      t = ⟨toLower n, String.mk v⟩ :=
  ⟨tokenParts_of_parse, fun ⟨_, _, hs, hn, hv, ht⟩ => ht ▸ parse_of_tokenParts hs hn hv⟩

/-- The text `String` writes of the token of a name part and a version part parses back to it. -/
theorem parse_string_of_tokenParts {n v : List Char} (hn : TokenPart n) (hv : TokenPart v) :
    parse (FormatToken.string ⟨toLower n, String.mk v⟩) = .ok ⟨toLower n, String.mk v⟩ := by
  have hln := hn.map_toLower
  have hstr : FormatToken.string ⟨toLower n, String.mk v⟩ = String.mk (n.map Char.toLower ++ '@' :: v) := by
    obtain ⟨c, rest, rfl, -⟩ := hn
    obtain ⟨d, vs, rfl, -⟩ := hv
    simp [string, toLower, String.ext_iff]
  have hnosp : ∀ x ∈ n.map Char.toLower ++ '@' :: v, isSpace x = false := by
    intro x hx
    rcases List.mem_append.1 hx with hx | (_ | ⟨_, hx⟩)
    · exact (isTokenChar.toLower (hln.forall_tokenChar x hx)).2.2.2.1
    · decide
    · exact (isTokenChar.toLower (hv.forall_tokenChar x hx)).2.2.2.1
  have hs : (trimSpace (FormatToken.string ⟨toLower n, String.mk v⟩)).toList =
      n.map Char.toLower ++ '@' :: v := by
    rw [hstr, trimSpace_of_forall hnosp]
    rfl
  rw [parse_of_tokenParts hs hln hv, toLower_map_toLower hn.forall_tokenChar]

/-- The text `String` writes of a parsed token parses back to the same token. -/
theorem parse_string {s : String} {t : FormatToken} (h : parse s = .ok t) :
    parse t.string = .ok t := by
  obtain ⟨n, v, -, hn, hv, rfl⟩ := tokenParts_of_parse h
  exact parse_string_of_tokenParts hn hv

/-- `" OpenAPI@3.1 "` parses to `openapi@3.1`, whose text parses back to it. -/
theorem parse_string_openapi :
    parse " OpenAPI@3.1 " = .ok ⟨"openapi", "3.1"⟩ ∧
      parse (FormatToken.string ⟨"openapi", "3.1"⟩) = .ok ⟨"openapi", "3.1"⟩ :=
  ⟨by decide, parse_string (show parse " OpenAPI@3.1 " = .ok ⟨"openapi", "3.1"⟩ by decide)⟩

/-- `Normalize` is idempotent: what it returns, it returns again. -/
theorem normalize_normalize {s r : String} (h : normalize s = .ok r) : normalize r = .ok r := by
  unfold normalize at h ⊢
  cases hp : parse s with
  | error e => rw [hp] at h; cases h
  | ok t =>
    rw [hp] at h
    cases h
    obtain ⟨n, v, -, hn, hv, rfl⟩ := tokenParts_of_parse hp
    rw [parse_string_of_tokenParts hn hv]
    rfl

/-- `Normalize("OpenBindings@0.1.0")` is `openbindings@0.1.0`, which normalizes to itself. -/
theorem normalize_normalize_openBindings :
    normalize "OpenBindings@0.1.0" = .ok "openbindings@0.1.0" ∧
      normalize "openbindings@0.1.0" = .ok "openbindings@0.1.0" :=
  ⟨by decide, normalize_normalize (show normalize "OpenBindings@0.1.0" = .ok "openbindings@0.1.0" by decide)⟩

end FormatToken

end OpenBindings
