import OpenBindings.Normalizer

/-! # The compatibility decider (`compat.go`)

`compat(tgt, cand, isInput)` decides, on two normalized schemas, whether the candidate can stand
in for the target: as an input (`tgt ⊆ cand`) or as an output (`cand ⊆ tgt`). Each rule is a
function of the Go file under its name. None of them ever returns an error (`canonicalKey` falls
back instead of failing, and no rule builds one), so the model returns the boolean alone.

`compat` recurses into `properties`, `items`, `additionalProperties` and the union variants of
both sides. The model counts calls with fuel, and `compatFuel` gives enough: every recursive call
is on sub-objects of two non-empty schemas, so the larger depth drops by one per call
(`Fuel` module). Out of fuel the model answers `false`, a branch no public entry reaches. -/

namespace OpenBindings.SchemaProfile

/-- `typeSet`: the strings of `type` when it is an array; `none` stands for Go's `nil`, all
types. -/
def typeSet (schema : JObj) : Option (List String) :=
  match lookup schema "type" with
  | some (.arr xs) => some (xs.filterMap fun | .str s => some s | _ => none)
  | _ => none

/-- `subsetTypes`: `nil` is all types; `integer` is covered by `number`. -/
def subsetTypes : Option (List String) → Option (List String) → Bool
  | none, b => b.isNone
  | some _, none => true
  | some a, some b => a.all fun k => k ∈ b || (k == "integer" && "number" ∈ b)

/-- `hasType`: `type` is an array that lists `t`. -/
def hasType (schema : JObj) (t : String) : Bool :=
  match typeSet schema with
  | none => false
  | some set => t ∈ set

/-- `hasUnion`: the schema has `oneOf` or `anyOf`. -/
def hasUnion (schema : JObj) : Bool := hasKey schema "oneOf" || hasKey schema "anyOf"

/-- `equalJSONValue`: equal canonical JSON. -/
def equalJSONValue (a b : JValue) : Bool := canonicalKey a == canonicalKey b

/-- `enumSet`: the set of canonical keys of `enum`, or `none` when there is no `enum`; a
non-array `enum` gives the empty set. -/
def enumSet (schema : JObj) : Option (List String) :=
  match lookup schema "enum" with
  | none => none
  | some v => some ((((asSlice v).getD []).map canonicalKey).foldl addUnique [])

/-- `compatConstEnum`. -/
def compatConstEnum (tgt cand : JObj) (isInput : Bool) : Bool :=
  let tgtConst := lookup tgt "const"
  let candConst := lookup cand "const"
  let tgtEnum := enumSet tgt
  let candEnum := enumSet cand
  if isInput then
    match tgtConst, tgtEnum with
    | some tc, _ => match candConst, candEnum with
      | some cc, _ => equalJSONValue tc cc
      | none, some ce => canonicalKey tc ∈ ce
      | none, none => true
    | none, some te => match candConst, candEnum with
      | some cc, _ => te.length == 1 && canonicalKey cc ∈ te
      | none, some ce => te.all (· ∈ ce)
      | none, none => true
    | none, none => true
  else
    match tgtEnum, tgtConst with
    | some te, _ => match candConst, candEnum with
      | some cc, _ => canonicalKey cc ∈ te
      | none, some ce => ce.all (· ∈ te)
      | none, none => false
    | none, some tc => match candConst, candEnum with
      | some cc, _ => equalJSONValue tc cc
      | none, some ce => ce.length == 1 && canonicalKey tc ∈ ce
      | none, none => false
    | none, none => true

/-- `stringSet`: the strings of an array, the empty set for anything else. -/
def stringSet : Option JValue → List String
  | some (.arr xs) => xs.filterMap fun | .str s => some s | _ => none
  | _ => []

/-- The object under `k`, or the empty object (`asMap` of a missing or non-object value, whose
`nil` map ranges over nothing). -/
def objAt (schema : JObj) (k : String) : JObj := asMapOrEmpty (lookup schema k)

/-- `compatObject`; `rec` decides nested schemas. -/
def compatObject (rec : JObj → JObj → Bool → Bool) (tgt cand : JObj) (isInput : Bool) : Bool :=
  let tgtReq := stringSet (lookup tgt "required")
  let candReq := stringSet (lookup cand "required")
  let tgtProps := objAt tgt "properties"
  let candProps := objAt cand "properties"
  if isInput then
    candReq.all (· ∈ tgtReq) &&
    tgtProps.all fun (p, tv) => match tv, lookup candProps p with
      | .obj tvm, some (.obj cvm) => rec tvm cvm true
      | _, _ => true
  else
    let tgtAP := lookup tgt "additionalProperties"
    tgtReq.all (· ∈ candReq) &&
    candProps.all (fun (p, cv) =>
      (hasKey tgtProps p || tgtAP != some (.bool false)) &&
      match lookup tgtProps p, cv with
      | some (.obj tvm), .obj cvm => rec tvm cvm false
      | _, _ => true) &&
    match tgtAP, lookup cand "additionalProperties" with
    | some (.bool false), some (.bool apCand) => !apCand
    | some (.bool false), _ => false
    | some (.obj apTgt), some (.obj apCand) => rec apTgt apCand false
    | some (.obj _), some (.bool false) => true
    | some (.obj _), _ => false
    | _, _ => true

/-- `compatArray`: a missing `items` is the empty schema. -/
def compatArray (rec : JObj → JObj → Bool → Bool) (tgt cand : JObj) (isInput : Bool) : Bool :=
  rec (objAt tgt "items") (objAt cand "items") isInput

/-- The objects of a list, or `none` if one element is not an object. -/
def objects : List JValue → Option (List JObj)
  | [] => some []
  | .obj m :: rest => (objects rest).map (m :: ·)
  | _ :: _ => none

/-- `unionVariants`: the variants of `oneOf`, else of `anyOf`; `none` when neither is present
or the value is malformed. -/
def unionVariants (schema : JObj) : Option (List JObj) :=
  match lookup schema "oneOf", lookup schema "anyOf" with
  | some v, _ => (asSlice v).bind objects
  | none, some v => (asSlice v).bind objects
  | none, none => none

/-- `compatUnion`: every variant of the side that must be contained has a variant of the other
side that contains it. -/
def compatUnion (rec : JObj → JObj → Bool → Bool) (tgt cand : JObj) (isInput : Bool) : Bool :=
  match unionVariants tgt, unionVariants cand with
  | some tgtVars, some candVars =>
    if isInput then tgtVars.all fun v => candVars.any fun w => rec v w true
    else candVars.all fun w => tgtVars.any fun v => rec v w false
  | _, _ => false

/-! ### Bounds -/

/-- `effectiveLowerBound`: the stricter of `minimum` and `exclusiveMinimum` (the exclusive one
on a tie), and whether it is exclusive. -/
def effectiveLowerBound (schema : JObj) : Float64 × Bool :=
  match lookup schema "minimum", lookup schema "exclusiveMinimum" with
  | some m, some e => if toFloat64 m ≤ toFloat64 e then (toFloat64 e, true) else (toFloat64 m, false)
  | none, some e => (toFloat64 e, true)
  | some m, none => (toFloat64 m, false)
  | none, none => (Float64.zero, false)

/-- `effectiveUpperBound`: the stricter of `maximum` and `exclusiveMaximum`. -/
def effectiveUpperBound (schema : JObj) : Float64 × Bool :=
  match lookup schema "maximum", lookup schema "exclusiveMaximum" with
  | some m, some e => if toFloat64 e ≤ toFloat64 m then (toFloat64 e, true) else (toFloat64 m, false)
  | none, some e => (toFloat64 e, true)
  | some m, none => (toFloat64 m, false)
  | none, none => (Float64.zero, false)

/-- The shape shared by the four bound comparators: a smaller value holds, a larger one fails,
and on equal values the answer is `!tieFails`. -/
def boundLE (a b : Float64) (tieFails : Bool) : Bool :=
  if a < b then true else if b < a then false else !tieFails

/-- `lowerBoundLessOrEqual`: at equal values an exclusive `a` is the higher bound. -/
def lowerBoundLessOrEqual (a : Float64) (aExcl : Bool) (b : Float64) (bExcl : Bool) : Bool :=
  boundLE a b (aExcl && !bExcl)

/-- `lowerBoundGreaterOrEqual`. -/
def lowerBoundGreaterOrEqual (a : Float64) (aExcl : Bool) (b : Float64) (bExcl : Bool) : Bool :=
  boundLE b a (bExcl && !aExcl)

/-- `upperBoundLessOrEqual`: at equal values an exclusive `b` is the lower bound. -/
def upperBoundLessOrEqual (a : Float64) (aExcl : Bool) (b : Float64) (bExcl : Bool) : Bool :=
  boundLE a b (bExcl && !aExcl)

/-- `upperBoundGreaterOrEqual`. -/
def upperBoundGreaterOrEqual (a : Float64) (aExcl : Bool) (b : Float64) (bExcl : Bool) : Bool :=
  boundLE b a (aExcl && !bExcl)

/-- `compatNumericBounds`: inputs need the candidate's range to reach at least as far where
both sides bound; outputs need every target bound matched by a candidate bound as strict. -/
def compatNumericBounds (tgt cand : JObj) (isInput : Bool) : Bool :=
  let (tgtLo, tgtLoExcl) := effectiveLowerBound tgt
  let (candLo, candLoExcl) := effectiveLowerBound cand
  let (tgtHi, tgtHiExcl) := effectiveUpperBound tgt
  let (candHi, candHiExcl) := effectiveUpperBound cand
  let tgtHasLo := hasKey tgt "minimum" || hasKey tgt "exclusiveMinimum"
  let tgtHasHi := hasKey tgt "maximum" || hasKey tgt "exclusiveMaximum"
  let candHasLo := hasKey cand "minimum" || hasKey cand "exclusiveMinimum"
  let candHasHi := hasKey cand "maximum" || hasKey cand "exclusiveMaximum"
  if isInput then
    (!(tgtHasLo && candHasLo) || lowerBoundLessOrEqual candLo candLoExcl tgtLo tgtLoExcl) &&
    (!(tgtHasHi && candHasHi) || upperBoundGreaterOrEqual candHi candHiExcl tgtHi tgtHiExcl)
  else
    (!tgtHasLo || candHasLo && lowerBoundGreaterOrEqual candLo candLoExcl tgtLo tgtLoExcl) &&
    (!tgtHasHi || candHasHi && upperBoundLessOrEqual candHi candHiExcl tgtHi tgtHiExcl)

/-- `compatSimpleBounds` for a pair of integer keywords without exclusivity. -/
def compatSimpleBounds (tgt cand : JObj) (isInput : Bool) (minKey maxKey : String) : Bool :=
  let num (s : JObj) (k : String) : Float64 := toFloat64 ((lookup s k).getD .null)
  if isInput then
    (!(hasKey tgt minKey && hasKey cand minKey) || !(num tgt minKey < num cand minKey)) &&
    (!(hasKey tgt maxKey && hasKey cand maxKey) || !(num cand maxKey < num tgt maxKey))
  else
    (!hasKey tgt minKey || hasKey cand minKey && !(num cand minKey < num tgt minKey)) &&
    (!hasKey tgt maxKey || hasKey cand maxKey && !(num tgt maxKey < num cand maxKey))

/-- `compatStringBounds`. -/
def compatStringBounds (tgt cand : JObj) (isInput : Bool) : Bool :=
  compatSimpleBounds tgt cand isInput "minLength" "maxLength"

/-- `compatArrayBounds`. -/
def compatArrayBounds (tgt cand : JObj) (isInput : Bool) : Bool :=
  compatSimpleBounds tgt cand isInput "minItems" "maxItems"

/-! ### `compat` -/

/-- The body of `compat`, with `rec` for the nested calls: the `Top` cases, then the rules in
the order of the Go code, each consulted only when its types are in play. -/
def compatStep (rec : JObj → JObj → Bool → Bool) (tgt cand : JObj) (isInput : Bool) : Bool :=
  if tgt = [] then (if isInput then cand = [] else true)
  else if cand = [] then isInput
  else
    let tgtTypes := typeSet tgt
    let candTypes := typeSet cand
    let either (t : String) : Bool := hasType tgt t || hasType cand t
    (tgtTypes.isNone && candTypes.isNone ||
      if isInput then subsetTypes tgtTypes candTypes else subsetTypes candTypes tgtTypes) &&
    compatConstEnum tgt cand isInput &&
    (!either "object" || compatObject rec tgt cand isInput) &&
    (!either "array" || compatArray rec tgt cand isInput) &&
    (!(either "number" || either "integer") || compatNumericBounds tgt cand isInput) &&
    (!either "string" || compatStringBounds tgt cand isInput) &&
    (!either "array" || compatArrayBounds tgt cand isInput) &&
    (!(hasUnion tgt || hasUnion cand) || compatUnion rec tgt cand isInput)

/-- `compat`, one unit of fuel per call. -/
def compat : Nat → JObj → JObj → Bool → Bool
  | 0, _, _, _ => false
  | fuel + 1, tgt, cand, isInput => compatStep (compat fuel) tgt cand isInput

/-- Fuel for `compat` on two schemas: one more than their larger depth. -/
def compatFuel (tgt cand : JObj) : Nat := max (JValue.depthObj tgt) (JValue.depthObj cand) + 1

/-- `inputCompatible`: the empty candidate accepts everything. -/
def inputCompatible (tgt cand : JObj) : Bool :=
  if cand = [] then true else compat (compatFuel tgt cand) tgt cand true

/-- `outputCompatible`: the empty candidate is compatible only with the empty target. -/
def outputCompatible (tgt cand : JObj) : Bool :=
  if cand = [] then tgt = [] else compat (compatFuel tgt cand) tgt cand false

namespace Normalizer

/-- `InputCompatible` and `OutputCompatible`: one fresh cycle set, the target normalized, then
the candidate from the cycle set the target left, then the decider. -/
def compatible (n : Normalizer) (fuel : Nat) (decide : JObj → JObj → Bool) (target candidate : JObj) :
    Option (Except ProfileError Bool) :=
  match n.normalizeAt fuel target "" [] with
  | none => none
  | some (.error e, _) => some (.error e)
  | some (.ok ti, s) => match n.normalizeAt fuel candidate "" s with
    | none => none
    | some (.error e, _) => some (.error e)
    | some (.ok tc, _) => some (.ok (decide ti tc))

/-- `InputCompatible`. -/
def inputCompatible (n : Normalizer) (fuel : Nat) (target candidate : JObj) :
    Option (Except ProfileError Bool) :=
  n.compatible fuel SchemaProfile.inputCompatible target candidate

/-- `OutputCompatible`. -/
def outputCompatible (n : Normalizer) (fuel : Nat) (target candidate : JObj) :
    Option (Except ProfileError Bool) :=
  n.compatible fuel SchemaProfile.outputCompatible target candidate

end Normalizer

end OpenBindings.SchemaProfile
