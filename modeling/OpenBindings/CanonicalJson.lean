import OpenBindings.Json
import Mathlib.Data.List.Sort

/-! # The canonical JSON encoder (`canonicaljson.go`)

`writeJCS` writes a decoded JSON value in the RFC 8785 form: object members sorted by the UTF-16
code units of their names (`lessUTF16`), strings with the shorthand escapes and lowercase `\u00xx`
for the other control characters, numbers in the ECMAScript form (`formatJCSFloat64`), no
whitespace. The output is kept as a `String`; Go writes its UTF-8 bytes.

`writeJCS`'s error returns cannot be reached from a decoded value (a `float64` decoded from JSON
is finite, and every decoded value has one of the six JSON types), so the writer is total here.
Go writes the members of an object in sorted order; the model encodes each member value first and
then sorts the encoded members by name, which gives the same bytes since no member can fail.
`sort.Slice` is not stable; member names of a Go map are distinct and `lessUTF16` orders distinct
names strictly, so the sorted order does not depend on the sort. -/

namespace OpenBindings.CanonicalJson

/-- `utf16.EncodeRune`: one code unit below `U+10000`, otherwise the surrogate pair
`0xD800 + (r - 0x10000) >> 10`, `0xDC00 + (r - 0x10000) & 0x3FF`. -/
def utf16Units (c : Char) : List UInt16 :=
  if c.toNat < 0x10000 then [UInt16.ofNat c.toNat]
  else [UInt16.ofNat (0xD800 + (c.toNat - 0x10000) / 0x400),
    UInt16.ofNat (0xDC00 + (c.toNat - 0x10000) % 0x400)]

/-- `utf16.Encode([]rune(k))`. -/
def utf16Encode (s : String) : List UInt16 := s.toList.flatMap utf16Units

/-- `lessUTF16`: the first differing code unit decides, and a proper prefix comes first. -/
def lessUTF16 : List UInt16 → List UInt16 → Bool
  | a :: as, b :: bs => if a = b then lessUTF16 as bs else decide (a < b)
  | as, bs => decide (as.length < bs.length)

/-- A lowercase hexadecimal digit, as `hex.Encode` writes it. -/
def hexDigit (n : UInt32) : Char :=
  if n < 10 then Char.ofNat (48 + n.toNat) else Char.ofNat (87 + n.toNat)

/-- What `writeJCSString` writes for one rune. -/
def escapeRune (r : Char) : List Char :=
  if r = '\\' then ['\\', '\\']
  else if r = '"' then ['\\', '"']
  else if r = '\x08' then ['\\', 'b']
  else if r = '\t' then ['\\', 't']
  else if r = '\n' then ['\\', 'n']
  else if r = '\x0c' then ['\\', 'f']
  else if r = '\r' then ['\\', 'r']
  else if r.val ≤ 0x1F then ['\\', 'u', '0', '0', hexDigit (r.val / 16), hexDigit (r.val % 16)]
  else [r]

/-- `writeJCSString`: the string between quotes, each rune escaped by `escapeRune`. -/
def writeJCSString (s : String) : String :=
  String.mk ('"' :: s.toList.flatMap escapeRune ++ ['"'])

/-- Drops leading zeros of the exponent digits, keeping at least one. -/
def trimLeadingZeros : List Char → List Char
  | '0' :: c :: rest => trimLeadingZeros (c :: rest)
  | cs => cs

/-- `normalizeExponent`: `1e-07` becomes `1e-7`; a string without `e`, or with fewer than two
characters after it, is returned as it is. -/
def normalizeExponent (s : String) : String :=
  let cs := s.toList
  match cs.indexOf? 'e' with
  | none => s
  | some i =>
    if cs.length ≤ i + 2 then s else String.mk (cs.take (i + 2) ++ trimLeadingZeros (cs.drop (i + 2)))

/-- `formatJCSFloat64` on a finite double: `0` for zero, the exponent form outside
`[1e-6, 1e21)`, the decimal form inside. -/
def formatJCSFloat64 (f : Float64) : String :=
  if f.mant = 0 then "0" else
  let s := if Float64.e21 ≤ f.abs ∨ f.abs < Float64.em6 then normalizeExponent (f.formatFloat 'e')
    else f.formatFloat 'f'
  if s = "-0" then "0" else s

/-- Member order of `writeJCS`: `a` may come before `b` unless `b`'s name is `lessUTF16`-smaller. -/
def memberLE (a b : String × String) : Prop := lessUTF16 (utf16Encode b.1) (utf16Encode a.1) = false

instance : DecidableRel memberLE := fun _ _ => inferInstanceAs (Decidable (_ = false))

/-- Joins already encoded elements with commas. -/
def joinComma : List String → String
  | [] => ""
  | [s] => s
  | s :: rest => s ++ "," ++ joinComma rest

mutual
/-- `writeJCS` on a decoded JSON value. -/
def writeJCS : JValue → String
  | .null => "null"
  | .bool b => if b then "true" else "false"
  | .str s => writeJCSString s
  | .num f => formatJCSFloat64 f
  | .arr xs => "[" ++ joinComma (writeJCSList xs) ++ "]"
  | .obj kvs => "\x7b" ++ joinComma (((writeJCSMembers kvs).insertionSort memberLE).map
      fun m => writeJCSString m.1 ++ ":" ++ m.2) ++ "\x7d"

/-- The encodings of the elements, in order. -/
def writeJCSList : List JValue → List String
  | [] => []
  | x :: xs => writeJCS x :: writeJCSList xs

/-- Each member name with the encoding of its value, in map order. -/
def writeJCSMembers : JObj → List (String × String)
  | [] => []
  | (k, v) :: rest => (k, writeJCS v) :: writeJCSMembers rest
end

end OpenBindings.CanonicalJson
