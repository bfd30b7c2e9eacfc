import OpenBindings.CanonicalJson
import Mathlib.Data.String.Basic

/-! # The profile gate and the normalizer's helpers (`schemaprofile`)

The keyword tables of profile v0.1, the error values the normalizer returns, and the helper
functions of the `schemaprofile` package: the keyword gate `assertProfileKeywords`, the
canonicalisation of `type` and `required`, JSON Pointer resolution, and the small conversions
(`asMap`, `asSlice`, `toFloat64`, `ptrJoin`). Errors built with `errors.New` or `fmt.Errorf` are
kept as their message text. -/

namespace OpenBindings.SchemaProfile

open CanonicalJson

/-- The in-scope keywords of profile v0.1. -/
def inScopeKeywords : List String :=
  ["$ref", "$defs", "allOf", "type", "enum", "const", "properties", "required",
    "additionalProperties", "items", "oneOf", "anyOf", "minimum", "maximum", "exclusiveMinimum",
    "exclusiveMaximum", "minLength", "maxLength", "minItems", "maxItems"]

/-- The annotation-only keywords, stripped by the normalizer. -/
def annotationKeywords : List String :=
  ["title", "description", "examples", "default", "deprecated", "readOnly", "writeOnly", "$schema"]

/-- The errors of the normalizer: `*OutsideProfileError`, `*RefError` (its cause as text),
`*SchemaError`, and the plain errors of `errors.New` and `fmt.Errorf`. -/
inductive ProfileError where
  | outsideProfile (path keyword : String)
  | refError (path ref cause : String)
  | schemaError (path message : String)
  | other (message : String)
deriving DecidableEq

/-- `strings.HasPrefix(s, p)`. -/
def hasPrefix (s p : String) : Bool := p.toList.isPrefixOf s.toList

/-- `pathOrRoot`: the empty path is shown as `<root>`. -/
def pathOrRoot (path : String) : String := if path = "" then "<root>" else path

/-- A key the profile admits: in scope or an annotation. -/
def isProfileKeyword (k : String) : Bool := k ∈ inScopeKeywords || k ∈ annotationKeywords

/-- `assertProfileKeywords`: the first key, in map order, that is neither in scope nor an
annotation is reported at the schema's path. -/
def assertProfileKeywords (schema : JObj) (path : String) : Except ProfileError Unit :=
  match schema.find? (fun kv => !isProfileKeyword kv.1) with
  | some (k, _) => .error (.outsideProfile (pathOrRoot path) k)
  | none => .ok ()

/-- A schema whose keys the profile all admits passes the gate. -/
theorem assertProfileKeywords_ok {schema : JObj} (path : String)
    (h : schema.all (fun kv => isProfileKeyword kv.1) = true) :
    assertProfileKeywords schema path = .ok () := by
  have none : schema.find? (fun kv => !isProfileKeyword kv.1) = none :=
    List.find?_eq_none.mpr fun kv hkv => by simpa using List.all_eq_true.mp h kv hkv
  simp [assertProfileKeywords, none]

/-- A schema that passes the gate has only keys the profile admits. -/
theorem isProfileKeyword_of_assert {schema : JObj} {path : String}
    (h : assertProfileKeywords schema path = .ok ()) : ∀ kv ∈ schema, isProfileKeyword kv.1 = true := by
  intro kv hkv
  unfold assertProfileKeywords at h
  split at h
  · cases h
  · have := List.find?_eq_none.mp ‹_› kv hkv
    simpa using this

/-- Go's `unicode.IsSpace`. -/
def isSpace (c : Char) : Bool :=
  c = '\t' || c = '\n' || c = '\x0b' || c = '\x0c' || c = '\r' || c = ' ' ||
  c.val = 0x85 || c.val = 0xA0 || c.val = 0x1680 || (0x2000 ≤ c.val && c.val ≤ 0x200A) ||
  c.val = 0x2028 || c.val = 0x2029 || c.val = 0x202F || c.val = 0x205F || c.val = 0x3000

/-- `strings.TrimSpace(s) == ""`: `s` is white space only. -/
def isBlank (s : String) : Bool := s.toList.all isSpace

/-- Adds `s` to a set kept as a list, as `set[s] = struct{}{}` does. -/
def addUnique (acc : List String) (s : String) : List String := if s ∈ acc then acc else acc ++ [s]

/-- The keys of a string set, sorted ascending as `sort.Slice` with `<` sorts them. -/
def sortedSet (xs : List String) : List String :=
  (xs.foldl addUnique []).insertionSort (· ≤ ·)

theorem mem_foldl_addUnique (acc xs : List String) (s : String) :
    s ∈ xs.foldl addUnique acc ↔ s ∈ acc ∨ s ∈ xs := by
  induction xs generalizing acc with
  | nil => simp
  | cons x xs ih =>
    rw [List.foldl_cons, ih]
    by_cases h : x ∈ acc <;> simp only [addUnique, h, if_true, if_false, List.mem_append,
      List.mem_singleton, List.mem_cons] <;> aesop

theorem nodup_foldl_addUnique (xs : List String) {acc : List String} (h : acc.Nodup) :
    (xs.foldl addUnique acc).Nodup := by
  induction xs generalizing acc with
  | nil => exact h
  | cons x xs ih =>
    refine ih ?_
    by_cases hx : x ∈ acc
    · simpa [addUnique, hx] using h
    · simpa [addUnique, hx, List.nodup_append] using h

@[simp] theorem mem_sortedSet (xs : List String) (s : String) : s ∈ sortedSet xs ↔ s ∈ xs := by
  simp [sortedSet, (List.perm_insertionSort _ _).mem_iff, mem_foldl_addUnique]

/-- `sortedSet` is strictly ascending: sorted, and free of duplicates. -/
theorem sortedSet_sorted (xs : List String) : (sortedSet xs).Sorted (· < ·) :=
  (List.sorted_insertionSort _ _).lt_of_le
    ((List.perm_insertionSort _ _).nodup_iff.mpr (nodup_foldl_addUnique xs List.nodup_nil))

theorem foldl_addUnique_of_nodup : ∀ (acc xs : List String), (acc ++ xs).Nodup →
    xs.foldl addUnique acc = acc ++ xs
  | acc, [], _ => by simp
  | acc, x :: xs, h => by
    have hx : x ∉ acc := fun hx => (List.nodup_append.mp h).2.2 hx (List.mem_cons_self x xs)
    rw [List.foldl_cons, addUnique, if_neg hx,
      foldl_addUnique_of_nodup (acc ++ [x]) xs (by simpa using h), List.append_assoc,
      List.singleton_append]

/-- A strictly ascending list is its own sorted set. -/
theorem sortedSet_of_sorted {xs : List String} (h : xs.Sorted (· < ·)) : sortedSet xs = xs := by
  rw [sortedSet, foldl_addUnique_of_nodup [] xs (by simpa using h.nodup), List.nil_append]
  exact List.Sorted.insertionSort_eq (h.imp le_of_lt)

/-- The strings of a list of decoded values, failing on a non-string or blank element. -/
def nonBlankStrings : List JValue → Option (List String)
  | [] => some []
  | .str s :: rest => if isBlank s then none else (nonBlankStrings rest).map (s :: ·)
  | _ :: _ => none

theorem nonBlankStrings_not_blank : ∀ {xs : List JValue} {ss : List String},
    nonBlankStrings xs = some ss → ∀ s ∈ ss, isBlank s = false
  | [], _, h => by cases h; simp
  | .str x :: rest, ss, h => by
    simp only [nonBlankStrings] at h
    split at h
    · cases h
    · obtain ⟨ss', hr, rfl⟩ := Option.map_eq_some'.mp h
      simp only [List.mem_cons, forall_eq_or_imp]
      exact ⟨by simpa using ‹¬isBlank x = true›, nonBlankStrings_not_blank hr⟩
  | .null :: _, _, h | .bool _ :: _, _, h | .num _ :: _, _, h | .arr _ :: _, _, h
  | .obj _ :: _, _, h => by cases h

/-- Non-blank strings are read back by `nonBlankStrings`. -/
theorem nonBlankStrings_map_str : ∀ {ts : List String}, (∀ t ∈ ts, isBlank t = false) →
    nonBlankStrings (ts.map .str) = some ts
  | [], _ => rfl
  | t :: ts, h => by
    simp only [List.mem_cons, forall_eq_or_imp] at h
    simp only [List.map_cons, nonBlankStrings, h.1, Bool.false_eq_true, if_false,
      nonBlankStrings_map_str h.2, Option.map_some']

/-- `normalizeType`: a non-blank string becomes a one-element list; an array of non-blank
strings becomes its sorted set. -/
def normalizeType (v : JValue) : Except String (List String) :=
  match v with
  | .str x => if isBlank x then .error "must not be empty" else .ok [x]
  | .arr xs => match nonBlankStrings xs with
    | some ss => .ok (sortedSet ss)
    | none => .error "must be array of non-empty strings"
  | _ => .error "must be string or array of strings"

/-- `normalizeStringSet`: an array of non-blank strings becomes its sorted set. -/
def normalizeStringSet (v : JValue) : Except String (List String) :=
  match v with
  | .arr xs => match nonBlankStrings xs with
    | some ss => .ok (sortedSet ss)
    | none => .error "must contain only non-empty strings"
  | _ => .error "must be array"

/-- What `normalizeType` returns is a strictly ascending list of non-blank strings. -/
theorem normalizeType_ok {v : JValue} {ts : List String} (h : normalizeType v = .ok ts) :
    ts.Sorted (· < ·) ∧ ∀ t ∈ ts, isBlank t = false := by
  unfold normalizeType at h
  split at h
  · split at h
    · cases h
    · cases h; simpa using ‹¬isBlank _ = true›
  · split at h
    · cases h
      exact ⟨sortedSet_sorted _, fun t ht => nonBlankStrings_not_blank ‹_› t ((mem_sortedSet _ _).mp ht)⟩
    · cases h
  · cases h

/-- What `normalizeStringSet` returns is a strictly ascending list of non-blank strings. -/
theorem normalizeStringSet_ok {v : JValue} {ts : List String} (h : normalizeStringSet v = .ok ts) :
    ts.Sorted (· < ·) ∧ ∀ t ∈ ts, isBlank t = false := by
  unfold normalizeStringSet at h
  split at h
  · split at h
    · cases h
      exact ⟨sortedSet_sorted _, fun t ht => nonBlankStrings_not_blank ‹_› t ((mem_sortedSet _ _).mp ht)⟩
    · cases h
  · cases h

/-- `asMap`: the object behind a decoded value, if it is one. -/
def asMap : JValue → Option JObj
  | .obj m => some m
  | _ => none

/-- `asMap` of a map entry, with the empty object for a missing or non-object value, as the Go
code writes `m, _ := asMap(v); if m == nil { m = map[string]any{} }`. -/
def asMapOrEmpty (v : Option JValue) : JObj :=
  match v with
  | some (.obj m) => m
  | _ => []

/-- `asSlice`: the elements of a decoded array, if it is one. -/
def asSlice : JValue → Option (List JValue)
  | .arr xs => some xs
  | _ => none

/-- `toFloat64`: the number, or `0` for any other value. -/
def toFloat64 : JValue → Float64
  | .num x => x
  | _ => Float64.zero

/-- `ptrJoin`: joins path segments with a dot, except before `[` or `.`. -/
def ptrJoin (pre next : String) : String :=
  if pre = "" then next
  else if next = "" then pre
  else if hasPrefix next "[" ∨ hasPrefix next "." then pre ++ next
  else pre ++ "." ++ next

/-- The `w` lowest hexadecimal digits of `n`, lowercase, as `strconv.Quote` writes escapes. -/
def hexDigits (n : Nat) : Nat → List Char
  | 0 => []
  | w + 1 => hexDigits (n / 16) w ++ [hexDigit (n % 16).toUInt32]

/-- A lowercase hexadecimal byte, as `strconv.Quote` writes `\xNN`. -/
def hexByte (n : Nat) : List Char := hexDigits n 2

/-- The code points above U+00FF that Unicode's general categories make unprintable without a
table: the separators `Zs`, `Zl` and `Zp`, the format characters `Cf` (Unicode 15.0), the private
use areas `Co` and the noncharacters. -/
def wideNotPrint (n : Nat) : Bool :=
  n = 0x1680 || (0x2000 ≤ n && n ≤ 0x200F) || (0x2028 ≤ n && n ≤ 0x202F) ||
  (0x205F ≤ n && n ≤ 0x206F) || n = 0x3000 ||
  (0x0600 ≤ n && n ≤ 0x0605) || n = 0x061C || n = 0x06DD || n = 0x070F || n = 0x0890 ||
  n = 0x0891 || n = 0x08E2 || n = 0x180E || n = 0xFEFF || (0xFFF9 ≤ n && n ≤ 0xFFFB) ||
  n = 0x110BD || n = 0x110CD || (0x13430 ≤ n && n ≤ 0x1343F) || (0x1BCA0 ≤ n && n ≤ 0x1BCA3) ||
  (0x1D173 ≤ n && n ≤ 0x1D17A) || (0xE0000 ≤ n && n ≤ 0xE007F) ||
  (0xE000 ≤ n && n ≤ 0xF8FF) || 0xF0000 ≤ n || (0xFDD0 ≤ n && n ≤ 0xFDEF) || n % 0x10000 ≥ 0xFFFE

/-- `strconv.IsPrint`: Go's fast path decides Latin-1 (space to `~`, and U+00A1 to U+00FF but
the soft hyphen); above it, the runes `wideNotPrint` names are unprintable. Go's tables also make
every unassigned code point unprintable; they are not part of `src/`, and the model keeps such a
rune as printable. -/
def isPrint (c : Char) : Bool :=
  let n := c.toNat
  if n ≤ 0xFF then (0x20 ≤ n && n ≤ 0x7E) || (0xA1 ≤ n && n ≠ 0xAD) else !wideNotPrint n

/-- The `%q` form of one rune, as `appendEscapedRune` writes it: quote and backslash escaped, a
printable rune kept, the named escapes of the ASCII controls, `\xNN` for the other ASCII
controls and DEL, and `\uNNNN` or `\UNNNNNNNN` for any other unprintable rune. -/
def quoteRune (c : Char) : List Char :=
  if c = '"' then ['\\', '"'] else if c = '\\' then ['\\', '\\']
  else if isPrint c then [c]
  else if c = '\x07' then ['\\', 'a'] else if c = '\x08' then ['\\', 'b']
  else if c = '\x0c' then ['\\', 'f'] else if c = '\n' then ['\\', 'n']
  else if c = '\r' then ['\\', 'r'] else if c = '\t' then ['\\', 't']
  else if c = '\x0b' then ['\\', 'v']
  else if c.val < 0x20 ∨ c.val = 0x7F then '\\' :: 'x' :: hexByte c.toNat
  else if c.toNat < 0x10000 then '\\' :: 'u' :: hexDigits c.toNat 4
  else '\\' :: 'U' :: hexDigits c.toNat 8

/-- `fmt.Sprintf("%q", s)`. -/
def quote (s : String) : String := String.mk ('"' :: s.toList.flatMap quoteRune ++ ['"'])

/- A no-break space and a zero-width space are escaped, as Go's `%q` writes them. -/
example : quote "a\u00a0b\u200b" = "\"a\\u00a0b\\u200b\"" := by decide

/-! ### JSON Pointer -/

/-- `strings.Split(s, "/")` on the characters of `s`. -/
def splitSlash : List Char → List (List Char)
  | [] => [[]]
  | c :: rest => if c = '/' then [] :: splitSlash rest
    else match splitSlash rest with
      | [] => [[c]]
      | t :: ts => (c :: t) :: ts

/-- `strings.ReplaceAll(tok, "~" ++ [c], [r])`, scanning left to right. -/
def replaceEscape (c r : Char) : List Char → List Char
  | '~' :: d :: rest => if d = c then r :: replaceEscape c r rest else '~' :: replaceEscape c r (d :: rest)
  | x :: rest => x :: replaceEscape c r rest
  | [] => []

/-- A pointer token unescaped: `~1` to `/`, then `~0` to `~`. -/
def unescapeToken (tok : List Char) : String :=
  String.mk (replaceEscape '0' '~' (replaceEscape '1' '/' tok))

/-- The value of a string of decimal digits, `none` if empty or if a character is not a digit. -/
def digitsValue : List Char → Option Nat
  | [] => none
  | cs => cs.foldl (fun acc c => acc.bind fun n =>
      if c.isDigit then some (10 * n + (c.toNat - 48)) else none) (some 0)

/-- `strconv.Atoi`: an optional sign, then decimal digits. (An `int64` overflow is an error in
Go; such an index is out of range for every array, so the caller's outcome is the same.) -/
def atoi (s : String) : Option Int :=
  match s.toList with
  | '-' :: ds => (digitsValue ds).map fun n => -(n : Int)
  | '+' :: ds => (digitsValue ds).map fun n => (n : Int)
  | ds => (digitsValue ds).map fun n => (n : Int)

/-- One step of the pointer walk: the object member or the array element named by `tok`. -/
def pointerStep (cur : JValue) (tok : String) : Except String JValue :=
  match cur with
  | .obj m => match lookup m tok with
    | some nxt => .ok nxt
    | none => .error ("pointer not found: " ++ quote tok)
  | .arr xs =>
    if tok = "-" then .error "pointer '-' is not valid for array lookup"
    else match atoi tok with
      | some idx => if h : 0 ≤ idx ∧ idx < xs.length then .ok (xs.get ⟨idx.toNat, by omega⟩)
        else .error ("array index out of range: " ++ quote tok)
      | none => .error ("array index out of range: " ++ quote tok)
  | _ => .error "pointer traversed non-container"

/-- `resolveJSONPointer`: the empty fragment is the document; otherwise the fragment must start
with `/` and each unescaped token steps into the current value. -/
def resolveJSONPointer (doc : JValue) (fragment : String) : Except String JValue :=
  if fragment = "" then .ok doc
  else if ¬ hasPrefix fragment "/" then .error "unsupported fragment (must be JSON Pointer)"
  else ((splitSlash fragment.toList).drop 1).foldlM (fun cur tok => pointerStep cur (unescapeToken tok)) doc

end OpenBindings.SchemaProfile
