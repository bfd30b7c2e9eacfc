import OpenBindings.Profile

/-! # The parts of `net/url` that `resolveRef` uses

`resolveRef` parses a `$ref` with `url.Parse`, asks `IsAbs`, `Path`, `Scheme` and `Fragment`,
resolves a relative reference with `Base.ResolveReference`, and keys its cycle set by
`u.String()`. This module models those on references written without percent-escapes and
without user information: Go unescapes `%XX` in the path and the fragment and re-escapes them in
`String()`, which is the identity on such references. -/

namespace OpenBindings.Url

open SchemaProfile

/-- A parsed URL reference, with the fields of Go's `url.URL` that the normalizer reads. -/
structure URL where
  scheme : String := ""
  opaquePart : String := ""
  host : String := ""
  path : String := ""
  rawQuery : String := ""
  forceQuery : Bool := false
  fragment : String := ""
  omitHost : Bool := false
deriving DecidableEq

/-- `strings.Cut(s, [c])` on characters. -/
def cut (c : Char) : List Char → List Char × List Char × Bool
  | [] => ([], [], false)
  | x :: rest => if x = c then ([], rest, true) else
    let (a, b, found) := cut c rest
    (x :: a, b, found)

/-- `getScheme`: a letter, then letters, digits, `+`, `-` or `.`, up to the first `:`. -/
def getScheme (cs : List Char) : Except String (List Char × List Char) :=
  let rec go : List Char → List Char → Except String (List Char × List Char)
    | acc, [] => .ok ([], acc.reverse)
    | acc, c :: rest =>
      if c.isAlpha then go (c :: acc) rest
      else if c.isDigit ∨ c = '+' ∨ c = '-' ∨ c = '.' then
        if acc = [] then .ok ([], cs) else go (c :: acc) rest
      else if c = ':' then
        if acc = [] then .error "missing protocol scheme" else .ok (acc.reverse, rest)
      else .ok ([], cs)
  match go [] cs with
  | .ok ([], _) => .ok ([], cs)
  | r => r

/-- `url.Parse` on a reference without percent-escapes or user information. -/
def parse (raw : String) : Except String URL :=
  let (u, frag, _) := cut '#' raw.toList
  if u.any (fun c => c.val < 0x20 ∨ c.val = 0x7F) then .error "net/url: invalid control character in URL"
  else if u = ['*'] then .ok { path := "*", fragment := String.mk frag }
  else do
    let (scheme, rest) ← getScheme u
    let scheme := String.mk (scheme.map Char.toLower)
    let (rest, query, force) :=
      if rest.getLast? = some '?' ∧ rest.count '?' = 1 then (rest.dropLast, [], true)
      else let (a, b, _) := cut '?' rest; (a, b, false)
    if rest.head? ≠ some '/' ∧ scheme ≠ "" then
      return { scheme, opaquePart := String.mk rest, rawQuery := String.mk query, forceQuery := force,
               fragment := String.mk frag }
    if rest.head? ≠ some '/' ∧ ':' ∈ (cut '/' rest).1 then
      throw "first path segment in URL cannot contain colon"
    let authority := (scheme ≠ "" ∨ ¬ ['/', '/', '/'].isPrefixOf rest) ∧ ['/', '/'].isPrefixOf rest
    let (host, path) := if authority then
        let (h, p, found) := cut '/' (rest.drop 2)
        (h, if found then '/' :: p else [])
      else ([], rest)
    return { scheme, host := String.mk host, path := String.mk path, rawQuery := String.mk query,
             forceQuery := force, fragment := String.mk frag,
             omitHost := ¬ authority ∧ scheme ≠ "" ∧ rest.head? = some '/' }

/-- `u.IsAbs()`. -/
def URL.isAbs (u : URL) : Bool := u.scheme ≠ ""

/-- `u.String()`. -/
def URL.toString (u : URL) : String :=
  let schemePart := if u.scheme = "" then "" else u.scheme ++ ":"
  let body :=
    if u.opaquePart ≠ "" then u.opaquePart
    else
      let auth := if (u.scheme ≠ "" ∨ u.host ≠ "") ∧ ¬ (u.omitHost ∧ u.host = "") ∧
          (u.host ≠ "" ∨ u.path ≠ "") then "//" ++ u.host else ""
      let slash := if u.path ≠ "" ∧ u.path.toList.head? ≠ some '/' ∧ u.host ≠ "" then "/" else ""
      let dot := if schemePart ++ auth ++ slash = "" ∧ ':' ∈ (cut '/' u.path.toList).1 then "./" else ""
      auth ++ slash ++ dot ++ u.path
  let query := if u.forceQuery ∨ u.rawQuery ≠ "" then "?" ++ u.rawQuery else ""
  let frag := if u.fragment = "" then "" else "#" ++ u.fragment
  schemePart ++ body ++ query ++ frag

/-- The segments of `resolvePath`'s walk over `full`, with `.` and `..` applied. -/
def removeDots : List (List Char) → List (List Char) → List (List Char)
  | acc, [] => acc.reverse
  | acc, seg :: rest =>
    if seg = ['.'] then removeDots acc rest
    else if seg = ['.', '.'] then removeDots acc.tail rest
    else removeDots (seg :: acc) rest

/-- `resolvePath(base, ref)`: merge a relative path with the base's directory, then remove dot
segments; the result starts with `/` unless it is empty. -/
def resolvePath (base ref : String) : String :=
  let full : List Char :=
    if ref = "" then base.toList
    else if ref.toList.head? ≠ some '/' then
      (base.toList.reverse.dropWhile (· ≠ '/')).reverse ++ ref.toList
    else ref.toList
  if full = [] then "" else
  let segs := splitSlash full
  let out := removeDots [] segs
  let last := segs.getLast?
  let trailing := if last = some ['.'] ∨ last = some ['.', '.'] then ['/'] else []
  let joined := '/' :: (out.intersperse ['/']).flatten ++ trailing
  String.mk (if joined.take 2 = ['/', '/'] then joined.drop 1 else joined)

/-- `base.ResolveReference(ref)` for a reference without user information. -/
def URL.resolveReference (base ref : URL) : URL :=
  let url := if ref.scheme = "" then { ref with scheme := base.scheme } else ref
  if ref.scheme ≠ "" ∨ ref.host ≠ "" then { url with path := resolvePath ref.path "" }
  else if ref.opaquePart ≠ "" then { url with host := "", path := "" }
  else
    let url := if ref.path = "" ∧ ¬ ref.forceQuery ∧ ref.rawQuery = "" then
        { url with rawQuery := base.rawQuery,
                   fragment := if ref.fragment = "" then base.fragment else ref.fragment }
      else url
    if ref.path = "" ∧ base.opaquePart ≠ "" then { url with opaquePart := base.opaquePart, host := "", path := "" }
    else { url with host := base.host, path := resolvePath base.path ref.path }

end OpenBindings.Url
