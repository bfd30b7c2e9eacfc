import OpenBindings.Profile
import Mathlib.Data.List.Sort
import Mathlib.Algebra.Group.Int

/-! # The interface document and its validator (`types.go`, `version.go`, `Validate`)

`Interface.Validate` makes the shape-level checks of an OpenBindings document and returns `nil`
or one `ValidationError` that lists every problem, each message as the Go code writes it. The
model keeps, of each document type, the fields that `Validate` and `TransformOrRef.Resolve` read.

A Go map of typed values is a `GoMap`: its entries in one iteration order, with distinct keys as
a field, so no value of the model repeats a key. `Validate` ranges over operations, sources,
transforms and bindings in the order of their sorted keys (`GoMap.sorted`), and over imports,
examples and unknown-field maps in map order, as Go does.

Each check appends to one list of problems. A loop body is written as the problems it appends, and
a loop as their concatenation. The operation loop also threads the map of alias owners from one
operation to the next; that loop, and the loop over one operation's aliases, are `checkLoop`. -/

namespace OpenBindings

open SchemaProfile (isBlank isSpace quote hasPrefix atoi)

/-- A Go map with typed values: its entries in one iteration order, no key twice. -/
structure GoMap (α : Type) where
  entries : List (String × α)
  nodup : (entries.map Prod.fst).Nodup

namespace GoMap

variable {α : Type}

/-- The empty map; also what ranging over a `nil` map sees. -/
def empty : GoMap α := ⟨[], List.nodup_nil⟩

/-- `v, ok := m[k]`. -/
def get? (m : GoMap α) (k : String) : Option α := (m.entries.find? (·.1 = k)).map Prod.snd

/-- `_, ok := m[k]`. -/
def contains (m : GoMap α) (k : String) : Bool := (m.get? k).isSome

/-- The entries in the order of their keys after `sort.Strings`. -/
def sorted (m : GoMap α) : List (String × α) := m.entries.insertionSort fun a b => a.1 ≤ b.1

end GoMap

/-- A Go loop whose body appends problems and leaves a state for the next iteration. -/
def checkLoop {σ α : Type} (body : σ → α → List String × σ) : List α → σ → List String × σ
  | [], s => ([], s)
  | x :: xs, s =>
    let r := body s x
    let rs := checkLoop body xs r.2
    (r.1 ++ rs.1, rs.2)

/-- `strings.Split(s, sep)` for a one-character separator. -/
def splitChar (sep : Char) : List Char → List (List Char)
  | [] => [[]]
  | c :: rest => if c = sep then [] :: splitChar sep rest
    else match splitChar sep rest with
      | [] => [[c]]
      | t :: ts => (c :: t) :: ts

/-- The pointer walk's `splitSlash` is this split at `/`. -/
theorem splitSlash_eq_splitChar : ∀ cs : List Char, SchemaProfile.splitSlash cs = splitChar '/' cs
  | [] => rfl
  | c :: rest => congrArg (fun s => if c = '/' then [] :: s else match s with
      | [] => [[c]]
      | t :: ts => (c :: t) :: ts) (splitSlash_eq_splitChar rest)

/-- `strings.TrimSpace`. -/
def trimSpace (s : String) : String :=
  String.mk ((s.toList.dropWhile isSpace).reverse.dropWhile isSpace).reverse

/-- `strings.TrimPrefix`. -/
def trimPrefix (s p : String) : String :=
  if hasPrefix s p then String.mk (s.toList.drop p.length) else s

/-! ### Versions (`version.go`) -/

def minSupportedVersion : String := "0.1.0"

def maxTestedVersion : String := "0.1.0"

/-- `semver`. -/
structure Semver where
  major : Int
  minor : Int
  patch : Int
  deriving DecidableEq, Repr

/-- `strconv.Atoi` on a 64-bit platform: a value outside `int64` is a range error. -/
def atoi64 (s : String) : Option Int :=
  (atoi s).filter fun n => -2 ^ 63 ≤ n && n < 2 ^ 63

/-- `parseSemverStrict`: three dot-separated integers, each read by `Atoi` and not negative. -/
def parseSemverStrict (v : String) : Except String Semver :=
  let bad : Except String Int := .error ("invalid semver: " ++ quote v)
  let part (p : List Char) : Except String Int :=
    match atoi64 (String.mk p) with
    | some n => if n < 0 then bad else .ok n
    | none => bad
  match splitChar '.' (trimSpace v).toList with
  | [a, b, c] => do
    let major ← part a
    let minor ← part b
    let patch ← part c
    pure ⟨major, minor, patch⟩
  | _ => .error ("invalid semver: " ++ quote v)

/-- `compareSemver`: by major, then minor, then patch. -/
def compareSemver (a b : Semver) : Ordering :=
  if a.major ≠ b.major then compare a.major b.major
  else if a.minor ≠ b.minor then compare a.minor b.minor
  else compare a.patch b.patch

/-- `minSupportedSemver`, as `init` parses `MinSupportedVersion`. -/
def minSupportedSemver : Semver := ⟨0, 1, 0⟩

/-- `maxTestedSemver`, as `init` parses `MaxTestedVersion`. -/
def maxTestedSemver : Semver := ⟨0, 1, 0⟩

/-- The two constants parse, so `init` does not panic and stores the values above. -/
theorem parseSemverStrict_supportedRange :
    parseSemverStrict minSupportedVersion = .ok minSupportedSemver ∧
      parseSemverStrict maxTestedVersion = .ok maxTestedSemver := by
  decide

/-- `IsSupportedVersion`. -/
def isSupportedVersion (v : String) : Except String Bool := do
  let parsed ← parseSemverStrict v
  pure (compareSemver parsed minSupportedSemver != .lt && compareSemver parsed maxTestedSemver != .gt)

/-- `semverish`, the pattern `^\d+\.\d+\.\d+$`: three non-empty runs of ASCII digits joined by
dots. -/
def semverish (s : String) : Bool :=
  match splitChar '.' s.toList with
  | [a, b, c] => [a, b, c].all fun p => !p.isEmpty && p.all Char.isDigit
  | _ => false

/-! ### The document (`types.go`) -/

def operationKindMethod : String := "method"

def operationKindEvent : String := "event"

/-- `Satisfies`; `unknown` holds the keys of `Unknown`, whose values `Validate` never reads. -/
structure Satisfies where
  interface : String
  operation : String
  unknown : GoMap Unit := GoMap.empty

/-- `OperationExample`, of which `Validate` reads only `Unknown`. -/
structure OperationExample where
  unknown : GoMap Unit := GoMap.empty

/-- `Operation`; `payload` is `none` for a `nil` schema, and an empty object is present. -/
structure Operation where
  kind : String
  aliases : List String := []
  satisfies : List Satisfies := []
  payload : Option JObj := none
  examples : GoMap OperationExample := GoMap.empty
  unknown : GoMap Unit := GoMap.empty

/-- `Source`; `content` is `none` for `nil`. -/
structure Source where
  format : String
  location : String := ""
  content : Option JValue := none
  unknown : GoMap Unit := GoMap.empty

/-- `Transform`. -/
structure Transform where
  type : String
  expression : String
  unknown : GoMap Unit := GoMap.empty

/-- `TransformOrRef`: a reference when `ref` is not empty, else the inline `transform`, if any. -/
structure TransformOrRef where
  ref : String := ""
  transform : Option Transform := none

/-- `BindingEntry`. -/
structure BindingEntry where
  operation : String
  source : String
  inputTransform : Option TransformOrRef := none
  outputTransform : Option TransformOrRef := none
  unknown : GoMap Unit := GoMap.empty

/-- `Interface`; `operations` is `none` for a `nil` map. -/
structure Interface where
  openBindings : String
  operations : Option (GoMap Operation)
  imports : GoMap String := GoMap.empty
  sources : GoMap Source := GoMap.empty
  bindings : GoMap BindingEntry := GoMap.empty
  transforms : GoMap Transform := GoMap.empty
  unknown : GoMap Unit := GoMap.empty

/-- `i.Operations` as ranging over it and indexing it read it: a `nil` map has no entries. -/
def Interface.ops (i : Interface) : GoMap Operation := i.operations.getD GoMap.empty

/-! ### Transforms and references -/

/-- `IsRef`. -/
def TransformOrRef.isRef (t : TransformOrRef) : Bool := t.ref != ""

/-- The form of a transform reference, `#/transforms/<name>`. -/
def transformRefPrefix : String := "#/transforms/"

/-- `Resolve`: the inline transform, or the named transform a reference points to. -/
def TransformOrRef.resolve (t : TransformOrRef) (transforms : GoMap Transform) : Option Transform :=
  if !t.isRef then t.transform
  else if !hasPrefix t.ref transformRefPrefix then none
  else
    let name := trimPrefix t.ref transformRefPrefix
    if name = "" then none else transforms.get? name

/-- `TransformOrRef.UnmarshalJSON` on the decoded value: an object with `$ref` is a reference to
the string there (`""` for an empty string or `null`), anything else is decoded as an inline
transform by `decodeTransform` (`encoding/json` with `Transform.UnmarshalJSON`). `none` is an
error of `encoding/json`; the `x-` fields beside `$ref` are not kept. -/
def TransformOrRef.unmarshalJSON (decodeTransform : JValue → Option Transform) (b : JValue) :
    Option TransformOrRef :=
  let raw : Option JObj := match b with
    | .obj m => some m
    | .null => some []
    | _ => none
  raw.bind fun raw => match lookup raw "$ref" with
    | some (.str ref) => some { ref := ref }
    | some .null => some {}
    | some _ => none
    | none => (decodeTransform b).map fun tr => { transform := some tr }

/-- `validateTransformRef`. -/
def validateTransformRef (ref : String) (transforms : GoMap Transform) : Except String Unit :=
  if !hasPrefix ref transformRefPrefix then .error ("must start with " ++ quote transformRefPrefix)
  else
    let name := trimPrefix ref transformRefPrefix
    if name = "" then .error "transform name is empty"
    else if !transforms.contains name then .error ("references unknown transform " ++ quote name)
    else .ok ()

/-! ### Options -/

/-- `validateOptions`; every field defaults to `false`. -/
structure ValidateOptions where
  rejectUnknownTypedFields : Bool := false
  requireEventPayload : Bool := false
  requireSupportedVersion : Bool := false

/-- `ValidateOption`. -/
abbrev ValidateOption := ValidateOptions → ValidateOptions

def withRejectUnknownTypedFields : ValidateOption := fun o => { o with rejectUnknownTypedFields := true }

def withRequireEventPayload : ValidateOption := fun o => { o with requireEventPayload := true }

def withRequireSupportedVersion : ValidateOption := fun o => { o with requireSupportedVersion := true }

/-- The options of `Validate`: the defaults, then each option that is not `nil`, in order. -/
def applyOptions (opts : List (Option ValidateOption)) : ValidateOptions :=
  opts.foldl (fun o opt => match opt with | some f => f o | none => o) {}

/-! ### The checks of `Validate` -/

/-- A problem path with a quoted key, `field[%q]`. -/
def keyed (field k : String) : String := field ++ "[" ++ quote k ++ "]"

/-- `appendUnknownFieldProblems`: what it appends, one problem naming the unknown keys sorted. -/
def appendUnknownFieldProblems (pre : String) (unknown : GoMap Unit) : List String :=
  if unknown.entries = [] then []
  else
    let keys := ", ".intercalate ((unknown.entries.map Prod.fst).insertionSort (· ≤ ·))
    if pre = "" then ["unknown fields: " ++ keys] else [pre ++ ": unknown fields: " ++ keys]

/-- `validateInlineTransform`: what it appends for a transform reported under `pre`. -/
def validateInlineTransform (pre : String) (tr : Transform) : List String :=
  (if isBlank tr.type then [pre ++ ".type: required"]
    else if tr.type ≠ "jsonata" then [pre ++ ".type: must be \"jsonata\" (got " ++ quote tr.type ++ ")"]
    else []) ++
  (if isBlank tr.expression then [pre ++ ".expression: required"] else [])

/-- The `openbindings` field. -/
def versionProblems (o : ValidateOptions) (v : String) : List String :=
  if isBlank v then ["openbindings: required"]
  else if !semverish v then ["openbindings: must be MAJOR.MINOR.PATCH (e.g. 0.1.0)"]
  else if o.requireSupportedVersion then
    match isSupportedVersion v with
    | .error e => ["openbindings: invalid version: " ++ e]
    | .ok false => ["openbindings: unsupported version " ++ quote v ++ " (supported " ++
        minSupportedVersion ++ "-" ++ maxTestedVersion ++ ")"]
    | .ok true => []
  else []

/-- The import loop, in map order. -/
def importProblems (imports : GoMap String) : List String :=
  imports.entries.flatMap fun x =>
    if isBlank x.2 then [keyed "imports" x.1 ++ ": value must be non-empty"] else []

/-- One alias of operation `k`: a blank alias, another operation's key, or another operation's
alias is a problem and the loop goes on; otherwise `k` owns the alias (setting it again when `k`
already owns it changes nothing). -/
def aliasStep (opKeys : List String) (k : String) (owner : List (String × String)) (a : String) :
    List String × List (String × String) :=
  let pre := keyed "operations" k ++ ".aliases: "
  if isBlank a then ([pre ++ "must not contain empty strings"], owner)
  else if a ∈ opKeys ∧ a ≠ k then ([pre ++ quote a ++ " conflicts with operation key " ++ quote a], owner)
  else match owner.lookup a with
    | some o => if o ≠ k then ([pre ++ quote a ++ " is also an alias of " ++ quote o], owner)
      else ([], owner)
    | none => ([], (a, k) :: owner)

/-- The checks of one `satisfies` entry, at index `idx` of operation `k`. -/
def satisfiesProblems (imports : GoMap String) (k : String) (idx : Nat) (s : Satisfies) :
    List String :=
  let pre := keyed "operations" k ++ ".satisfies[" ++ toString idx ++ "]"
  (if isBlank s.interface then [pre ++ ".interface: required"]
    else if !imports.contains s.interface then
      [pre ++ ".interface: references unknown import " ++ quote s.interface]
    else []) ++
  (if isBlank s.operation then [pre ++ ".operation: required"] else [])

/-- The body of the operation loop for operation `k`, given the alias owners so far: its
problems, and the owners after it. An operation of another kind is reported and skipped. -/
def operationProblems (o : ValidateOptions) (imports : GoMap String) (opKeys : List String)
    (owner : List (String × String)) (k : String) (op : Operation) :
    List String × List (String × String) :=
  let pre := keyed "operations" k
  if op.kind ≠ operationKindMethod ∧ op.kind ≠ operationKindEvent then
    ([pre ++ ".kind: must be " ++ quote operationKindMethod ++ " or " ++ quote operationKindEvent], owner)
  else
    let payload := if o.requireEventPayload ∧ op.kind = operationKindEvent ∧ op.payload.isNone then
      [pre ++ ".payload: required for kind=" ++ quote operationKindEvent] else []
    let aliases := checkLoop (aliasStep opKeys k) op.aliases owner
    let satisfies := op.satisfies.enum.flatMap fun x => satisfiesProblems imports k x.1 x.2
    let unknown := if o.rejectUnknownTypedFields then
      appendUnknownFieldProblems pre op.unknown ++
      op.satisfies.enum.flatMap (fun x =>
        appendUnknownFieldProblems (pre ++ ".satisfies[" ++ toString x.1 ++ "]") x.2.unknown) ++
      op.examples.entries.flatMap (fun x =>
        appendUnknownFieldProblems (pre ++ ".examples[" ++ quote x.1 ++ "]") x.2.unknown)
      else []
    (payload ++ aliases.1 ++ satisfies ++ unknown, aliases.2)

/-- The operation loop, in key order, from no alias owner. -/
def operationsProblems (o : ValidateOptions) (i : Interface) : List String :=
  let ops := i.ops.sorted
  (checkLoop (fun owner x => operationProblems o i.imports (ops.map Prod.fst) owner x.1 x.2) ops []).1

/-- The body of the source loop. -/
def sourceProblems (o : ValidateOptions) (k : String) (src : Source) : List String :=
  let pre := keyed "sources" k
  let hasLocation := !isBlank src.location
  let hasContent := src.content.isSome
  (if isBlank src.format then [pre ++ ".format: required"] else []) ++
  (if hasLocation && hasContent then [pre ++ ": cannot have both location and content"] else []) ++
  (if !hasLocation && !hasContent then [pre ++ ": must have location or content"] else []) ++
  (if o.rejectUnknownTypedFields then appendUnknownFieldProblems pre src.unknown else [])

/-- The body of the transform loop: Go writes out the checks of `validateInlineTransform` again,
with the same messages under `transforms[%q]`. -/
def transformProblems (o : ValidateOptions) (k : String) (tr : Transform) : List String :=
  validateInlineTransform (keyed "transforms" k) tr ++
  (if o.rejectUnknownTypedFields then appendUnknownFieldProblems (keyed "transforms" k) tr.unknown
    else [])

/-- A transform field that is a reference: `validateTransformRef`'s error under `pre`. -/
def transformRefProblems (pre : String) (t : Option TransformOrRef) (transforms : GoMap Transform) :
    List String :=
  match t with
  | some t =>
    if t.isRef then
      match validateTransformRef t.ref transforms with
      | .error e => [pre ++ ".$ref: " ++ e]
      | .ok () => []
    else []
  | none => []

/-- The inline transform of a transform field that is not a reference, if it has one. -/
def inlineTransform? (t : Option TransformOrRef) : Option Transform :=
  match t with
  | some t => if !t.isRef then t.transform else none
  | none => none

/-- The body of the binding loop. -/
def bindingProblems (o : ValidateOptions) (i : Interface) (k : String) (b : BindingEntry) :
    List String :=
  let pre := keyed "bindings" k
  (if isBlank b.operation then [pre ++ ".operation: required"]
    else if !i.ops.contains b.operation then
      [pre ++ ".operation: references unknown operation " ++ quote b.operation]
    else []) ++
  (if isBlank b.source then [pre ++ ".source: required"]
    else if !i.sources.contains b.source then
      [pre ++ ".source: references unknown source " ++ quote b.source]
    else []) ++
  transformRefProblems (pre ++ ".inputTransform") b.inputTransform i.transforms ++
  transformRefProblems (pre ++ ".outputTransform") b.outputTransform i.transforms ++
  ((inlineTransform? b.inputTransform).map (validateInlineTransform (pre ++ ".inputTransform"))).getD [] ++
  ((inlineTransform? b.outputTransform).map (validateInlineTransform (pre ++ ".outputTransform"))).getD [] ++
  (if o.rejectUnknownTypedFields then
    appendUnknownFieldProblems pre b.unknown ++
    ((inlineTransform? b.inputTransform).map fun tr =>
      appendUnknownFieldProblems (pre ++ ".inputTransform") tr.unknown).getD [] ++
    ((inlineTransform? b.outputTransform).map fun tr =>
      appendUnknownFieldProblems (pre ++ ".outputTransform") tr.unknown).getD []
    else [])

/-- The problems `Validate` collects under the options `o`, in the order it appends them. -/
def validateProblems (o : ValidateOptions) (i : Interface) : List String :=
  versionProblems o i.openBindings ++
  importProblems i.imports ++
  (if i.operations.isNone then ["operations: required"] else []) ++
  operationsProblems o i ++
  i.sources.sorted.flatMap (fun x => sourceProblems o x.1 x.2) ++
  i.transforms.sorted.flatMap (fun x => transformProblems o x.1 x.2) ++
  i.bindings.sorted.flatMap (fun x => bindingProblems o i x.1 x.2) ++
  (if o.rejectUnknownTypedFields then appendUnknownFieldProblems "" i.unknown else [])

/-- `ValidationError`. -/
structure ValidationError where
  problems : List String
  deriving DecidableEq, Repr

/-- `ValidationError.Error`. -/
def ValidationError.error (e : ValidationError) : String :=
  if e.problems = [] then "invalid interface" else "invalid interface: " ++ "; ".intercalate e.problems

/-- `Validate`: `nil` when no check finds a problem. -/
def Interface.validate (i : Interface) (opts : List (Option ValidateOption)) :
    Option ValidationError :=
  let errs := validateProblems (applyOptions opts) i
  if errs = [] then none else some ⟨errs⟩

end OpenBindings
