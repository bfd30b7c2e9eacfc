import OpenBindings.Url

/-! # The schema normalizer (`Normalizer.normalizeAt` and its helpers)

`normalizeAt` gates a schema's keywords, inlines a `$ref` (keeping its URL in the cycle set while
the target is normalized), strips annotations and `$defs`, flattens an `allOf` by merging its
branches and normalizing the merge, canonicalises `type` and `required`, recurses into
`properties`, `additionalProperties`, `items` and the `oneOf`/`anyOf` variants, and sorts the
variants by their canonical JSON.

The Go code is general recursion through `$ref`, so the model counts calls: `normalizeAt` and
`mergeAllOfBranch` spend one unit of fuel per call, and a run that runs out returns `none`. A run
that returns a result with some fuel returns the same result with more (`Fuel` module), and a run
that returns `none` for every fuel is a run that does not terminate. The state is the cycle set
`refStack`, kept as a list of keys; it is threaded through error returns as Go's mutable field is.
`cloneMap` copies a map so that writes to the copy do not reach the original; values here are
immutable, so it is the identity. -/

namespace OpenBindings.SchemaProfile

open CanonicalJson

/-- A normalizer computation: from the cycle set, `none` when the fuel ran out, otherwise the
result (a value or an error) and the cycle set afterwards. -/
def NormM (α : Type) : Type := List String → Option (Except ProfileError α × List String)

instance : Monad NormM where
  pure a := fun s => some (.ok a, s)
  bind x f := fun s => match x s with
    | some (.ok a, s') => f a s'
    | some (.error e, s') => some (.error e, s')
    | none => none

namespace NormM

/-- Returns the error `e`. -/
def fail (e : ProfileError) : NormM α := fun s => some (.error e, s)

/-- A pure result or error. -/
def lift : Except ProfileError α → NormM α
  | .ok a => pure a
  | .error e => fail e

/-- The run ran out of fuel. -/
def outOfFuel : NormM α := fun _ => none

/-- Runs `x`, then removes `key` from the cycle set whatever `x` returned: the `defer cleanup()`
of `normalizeAt`. -/
def withCleanup (key : String) (x : NormM α) : NormM α :=
  fun s => (x s).map fun r => (r.1, r.2.filter (· ≠ key))

/-- `cleanup()` called at once. -/
def cleanup (key : String) : NormM Unit := fun s => some (.ok (), s.filter (· ≠ key))

theorem bind_apply (x : NormM α) (f : α → NormM β) (s : List String) :
    (x >>= f) s = match x s with
      | some (.ok a, s') => f a s'
      | some (.error e, s') => some (.error e, s')
      | none => none := rfl

@[simp] theorem pure_apply (a : α) (s : List String) : (pure a : NormM α) s = some (.ok a, s) := rfl

/-- A bind succeeds exactly when both parts do. -/
theorem bind_eq_ok {x : NormM α} {f : α → NormM β} {s s'' : List String} {b : β} :
    (x >>= f) s = some (.ok b, s'') ↔ ∃ a s', x s = some (.ok a, s') ∧ f a s' = some (.ok b, s'') := by
  rw [bind_apply]
  constructor
  · intro h
    match hx : x s with
    | some (.ok a, s') => rw [hx] at h; exact ⟨a, s', rfl, h⟩
    | some (.error e, s') => rw [hx] at h; cases h
    | none => rw [hx] at h; cases h
  · rintro ⟨a, s', hx, hf⟩
    rw [hx]; exact hf

/-- A bind runs out of fuel exactly when its first part does, or the first part succeeds and the
second runs out. -/
theorem bind_eq_none {x : NormM α} {f : α → NormM β} {s : List String} :
    (x >>= f) s = none ↔ x s = none ∨ ∃ a s', x s = some (.ok a, s') ∧ f a s' = none := by
  rw [bind_apply]
  match x s with
  | some (.ok a, s') =>
    simp only [reduceCtorEq, false_or, Option.some.injEq, Prod.mk.injEq, Except.ok.injEq]
    exact ⟨fun h => ⟨a, s', ⟨rfl, rfl⟩, h⟩, fun ⟨_, _, ⟨h1, h2⟩, h⟩ => h1 ▸ h2 ▸ h⟩
  | some (.error e, s') => simp
  | none => simp

@[simp] theorem lift_ok_apply (a : α) (s : List String) :
    (lift (.ok a) : NormM α) s = some (.ok a, s) := rfl

@[simp] theorem lift_error_apply (e : ProfileError) (s : List String) :
    (lift (.error e) : NormM α) s = some (.error e, s) := rfl

theorem lift_eq_ok {x : Except ProfileError α} {a : α} {s s' : List String}
    (h : (lift x : NormM α) s = some (.ok a, s')) : x = .ok a := by
  cases x with
  | ok b => simp only [lift_ok_apply, Option.some.injEq, Prod.mk.injEq, Except.ok.injEq] at h; rw [h.1]
  | error e => simp at h

@[simp] theorem fail_apply (e : ProfileError) (s : List String) :
    (fail e : NormM α) s = some (.error e, s) := rfl

@[simp] theorem outOfFuel_apply (s : List String) : (outOfFuel : NormM α) s = none := rfl

end NormM

open NormM

/-- The `Normalizer`'s configuration. `fetch` is the `Fetcher` followed by `decodeJSON`: the
decoded document, or the text of either step's error. -/
structure Normalizer where
  root : JValue := .null
  base : Option Url.URL := none
  fetch : Option (Url.URL → Except String JValue) := none

/-- `canonicalKey`: the canonical JSON of a value, the equality key of `enum` and `const`. -/
def canonicalKey (v : JValue) : String := writeJCS v

/-- `schema["$ref"].(string)` when it is a string that is not blank. -/
def refTarget (schema : JObj) : Option String :=
  match lookup schema "$ref" with
  | some (.str r) => if isBlank r then none else some r
  | _ => none

namespace Normalizer

/-- `resolveRef`: the value a `$ref` points to and its key in the cycle set, which stays there
until the caller's cleanup. Every error return leaves the cycle set as it found it. -/
def resolveRef (n : Normalizer) (ref path : String) : NormM (JValue × String) := fun stack =>
  let err (cause : String) : Option (Except ProfileError (JValue × String) × List String) :=
    some (.error (.refError (pathOrRoot path) ref cause), stack)
  match Url.parse ref with
  | .error e => err ("parse " ++ quote ref ++ ": " ++ e)
  | .ok u0 =>
    let resolved : Except String Url.URL :=
      if ¬ u0.isAbs ∧ u0.path ≠ "" then
        match n.base with
        | none => .error "relative $ref with no base"
        | some b => .ok (b.resolveReference u0)
      else .ok u0
    match resolved with
    | .error e => err e
    | .ok u =>
      let key := u.toString
      if key ∈ stack then err "cycle detected" else
      let doc : Except String JValue :=
        if u.scheme = "" ∧ u.path = "" ∧ (u.fragment ≠ "" ∨ hasPrefix ref "#") then .ok n.root
        else match n.fetch with
          | none => .error "external $ref unsupported (no fetcher)"
          | some fetch => fetch u
      match doc >>= fun d => resolveJSONPointer d u.fragment with
      | .error e => err e
      | .ok v => some (.ok (v, key), key :: stack)

/-! ### `allOf` merging -/

/-- `intersectTypeSlices`: non-numeric types by set intersection; `number` when both sides
accept all numbers, `integer` when both accept some and one only integers. -/
def intersectTypeSlices (a b : List String) : List String :=
  let nonNumeric := a.filter fun s => s ≠ "number" ∧ s ≠ "integer" ∧ s ∈ b
  let aNum := "number" ∈ a
  let bNum := "number" ∈ b
  let aInt := "integer" ∈ a
  let bInt := "integer" ∈ b
  let numeric := if (aNum ∨ aInt) ∧ (bNum ∨ bInt) then
      (if aNum ∧ bNum then ["number"] else ["integer"]) else []
  sortedSet (nonNumeric ++ numeric)

/-- `unionStringSlices`: the sorted union. -/
def unionStringSlices (a b : List String) : List String := sortedSet (a ++ b)

/-- `intersectValues`: the values of `a` whose canonical JSON is that of some value of `b`. -/
def intersectValues (a b : List JValue) : List JValue :=
  a.filter fun v => b.any fun w => canonicalKey w = canonicalKey v

/-- A list of strings as the `[]any` the normalizer stores. -/
def strArr (xs : List String) : JValue := .arr (xs.map .str)

/-- `mergeAllOfBranch`'s `type` step: intersect with the accumulated types. -/
def mergeType (acc branch : JObj) (path : String) : Except ProfileError JObj :=
  match lookup branch "type" with
  | none => .ok acc
  | some bt => match normalizeType bt with
    | .error e => .error (.other (path ++ ".type: " ++ e))
    | .ok bTypes => match lookup acc "type" with
      | none => .ok (setField acc "type" (strArr bTypes))
      | some aT => match normalizeType aT with
        | .error e => .error (.other (path ++ ".type: " ++ e))
        | .ok aTypes =>
          let inter := intersectTypeSlices aTypes bTypes
          if inter = [] then .error (.schemaError path "allOf type intersection is empty")
          else .ok (setField acc "type" (strArr inter))

/-- One property of the branch: merged recursively by `rec` into the accumulated property of the
same name, or copied when there is none. -/
def mergeProp (rec : JObj → JObj → String → NormM JObj) (path : String) (aProps : JObj) (k : String)
    (bv : JValue) : NormM JObj :=
  match lookup aProps k with
  | some av => do
    let merged ← rec (asMapOrEmpty (some av)) (asMapOrEmpty (some bv))
      (path ++ ".properties[\"" ++ k ++ "\"]")
    pure (setField aProps k (.obj merged))
  | none => pure (setField aProps k bv)

/-- `mergeAllOfBranch`'s loop over the branch's properties. -/
def mergeProps (rec : JObj → JObj → String → NormM JObj) (path : String) :
    JObj → JObj → NormM JObj
  | aProps, [] => pure aProps
  | aProps, (k, bv) :: rest => do
    let aProps ← mergeProp rec path aProps k bv
    mergeProps rec path aProps rest

/-- `mergeAllOfBranch`'s `properties` step. -/
def mergeProperties (rec : JObj → JObj → String → NormM JObj) (acc branch : JObj)
    (path : String) : NormM JObj :=
  match lookup branch "properties" with
  | none => pure acc
  | some (.obj bProps) => do
    let aProps ← mergeProps rec path (asMapOrEmpty (lookup acc "properties")) bProps
    pure (setField acc "properties" (.obj aProps))
  | some _ => fail (.other (path ++ ".properties: must be object"))

/-- `mergeAllOfBranch`'s `required` step: the union. -/
def mergeRequired (acc branch : JObj) (path : String) : Except ProfileError JObj :=
  match lookup branch "required" with
  | none => .ok acc
  | some br => match normalizeStringSet br with
    | .error e => .error (.other (path ++ ".required: " ++ e))
    | .ok bReq => match lookup acc "required" with
      | none => .ok (setField acc "required" (strArr bReq))
      | some ar => match normalizeStringSet ar with
        | .error e => .error (.other (path ++ ".required: " ++ e))
        | .ok aReq => .ok (setField acc "required" (strArr (unionStringSlices aReq bReq)))

/-- `mergeAllOfBranch`'s `additionalProperties` step: `false` wins, two schemas merge, a schema
wins over `true`. -/
def mergeAdditionalProperties (rec : JObj → JObj → String → NormM JObj) (acc branch : JObj)
    (path : String) : NormM JObj :=
  match lookup branch "additionalProperties" with
  | some (.bool false) => pure (setField acc "additionalProperties" (.bool false))
  | some (.bool true) =>
    pure (if hasKey acc "additionalProperties" then acc
      else setField acc "additionalProperties" (.bool true))
  | some (.obj bv) => match lookup acc "additionalProperties" with
    | some (.bool false) => pure acc
    | some (.bool true) => pure (setField acc "additionalProperties" (.obj bv))
    | some (.obj av) => do
      let merged ← rec av bv (path ++ ".additionalProperties")
      pure (setField acc "additionalProperties" (.obj merged))
    | some _ => pure acc
    | none => pure (setField acc "additionalProperties" (.obj bv))
  | _ => pure acc

/-- `mergeAllOfBranch`'s `enum` and `const` steps: intersect the enums, reject two different
constants. -/
def mergeEnumConst (acc branch : JObj) (path : String) : Except ProfileError JObj := do
  let acc ← match lookup branch "enum" with
    | none => pure acc
    | some (.arr bEnum) => match lookup acc "enum" with
      | some ae =>
        let inter := intersectValues ((asSlice ae).getD []) bEnum
        if inter = [] then throw (.schemaError path "allOf enum intersection is empty")
        else pure (setField acc "enum" (.arr inter))
      | none => pure (setField acc "enum" (.arr bEnum))
    | some _ => throw (.other (path ++ ".enum: must be array"))
  match lookup branch "const" with
  | none => pure acc
  | some bc => match lookup acc "const" with
    | some ac =>
      if canonicalKey ac ≠ canonicalKey bc then throw (.schemaError path "allOf const conflict")
      else pure acc
    | none => pure (setField acc "const" bc)

/-- `mergeAllOfBranch`'s `items` step: merge recursively. -/
def mergeItems (rec : JObj → JObj → String → NormM JObj) (acc branch : JObj) (path : String) :
    NormM JObj :=
  match lookup branch "items" with
  | none => pure acc
  | some (.obj bItems) => match lookup acc "items" with
    | some ai => do
      let merged ← rec (asMapOrEmpty (some ai)) bItems (path ++ ".items")
      pure (setField acc "items" (.obj merged))
    | none => pure (setField acc "items" (.obj bItems))
  | some _ => fail (.other (path ++ ".items: must be object"))

/-- The bound step for one keyword: keep the branch's bound when `better` prefers it. -/
def mergeBound (better : Float64 → Float64 → Bool) (branch acc : JObj) (k : String) : JObj :=
  match lookup branch k with
  | none => acc
  | some bv => match lookup acc k with
    | some av => if better (toFloat64 bv) (toFloat64 av) then setField acc k bv else acc
    | none => setField acc k bv

/-- `mergeAllOfBranch`'s bound steps: the largest lower bound and the smallest upper bound. -/
def mergeBounds (acc branch : JObj) : JObj :=
  let acc := ["minimum", "exclusiveMinimum", "minLength", "minItems"].foldl
    (mergeBound (fun b a => a < b) branch) acc
  ["maximum", "exclusiveMaximum", "maxLength", "maxItems"].foldl
    (mergeBound (fun b a => b < a) branch) acc

/-- `mergeAllOfBranch`: merges one branch into the accumulator, keyword by keyword in the order
of the Go code; `rec` merges nested schemas. -/
def mergeAllOfBranchStep (rec : JObj → JObj → String → NormM JObj) (acc branch : JObj)
    (path : String) : NormM JObj := do
  let acc ← lift (mergeType acc branch path)
  let acc ← mergeProperties rec acc branch path
  let acc ← lift (mergeRequired acc branch path)
  let acc ← mergeAdditionalProperties rec acc branch path
  let acc ← lift (mergeEnumConst acc branch path)
  let acc ← mergeItems rec acc branch path
  pure (mergeBounds acc branch)

/-- `mergeAllOfBranch`, one unit of fuel per call. -/
def mergeAllOfBranch : Nat → JObj → JObj → String → NormM JObj
  | 0, _, _, _ => outOfFuel
  | fuel + 1, acc, branch, path => mergeAllOfBranchStep (mergeAllOfBranch fuel) acc branch path

/-- The branch itself, or the object its `$ref` resolves to; `flattenAllOf` pops the cycle entry
at once. -/
def resolveBranch (n : Normalizer) (branch : JObj) (branchPath : String) : NormM JObj :=
  match refTarget branch with
  | some ref => do
    let (resolved, key) ← n.resolveRef ref branchPath
    cleanup key
    match resolved with
    | .obj rm => pure rm
    | _ => fail (.refError branchPath ref "resolved $ref is not an object")
  | none => pure branch

/-- One branch of `flattenAllOf`: gate it, reject a union, resolve its `$ref`, and merge it into
`merged`. -/
def flattenBranch (n : Normalizer) (fuel : Nat) (path : String) (merged : JObj) (idx : Nat)
    (item : JValue) : NormM JObj :=
  match item with
  | .obj branch => do
    let branchPath := ptrJoin path ("allOf[" ++ toString idx ++ "]")
    lift (assertProfileKeywords branch branchPath)
    if hasKey branch "oneOf" then fail (.outsideProfile branchPath "oneOf inside allOf")
    else if hasKey branch "anyOf" then fail (.outsideProfile branchPath "anyOf inside allOf")
    else do
      let branch ← n.resolveBranch branch branchPath
      mergeAllOfBranch fuel merged branch branchPath
  | _ => fail (.other (pathOrRoot path ++ ".allOf[" ++ toString idx ++ "]: must be object"))

/-- The loop of `flattenAllOf` over the branches, from index `idx`. -/
def flattenBranches (n : Normalizer) (fuel : Nat) (path : String) :
    JObj → Nat → List JValue → NormM JObj
  | merged, _, [] => pure merged
  | merged, idx, item :: rest => do
    let merged ← n.flattenBranch fuel path merged idx item
    n.flattenBranches fuel path merged (idx + 1) rest

/-- `flattenAllOf`: merges all branches of an `allOf` into one schema. -/
def flattenAllOf (n : Normalizer) (fuel : Nat) (allOf : JValue) (path : String) : NormM JObj :=
  match allOf with
  | .arr arr => n.flattenBranches fuel path [] 0 arr
  | _ => fail (.other (pathOrRoot path ++ ".allOf: must be array"))

/-! ### `normalizeAt` -/

/-- The copy of the schema without annotation keywords and `$defs`. -/
def stripAnnotations (schema : JObj) : JObj :=
  schema.filter fun kv => kv.1 ∉ annotationKeywords ∧ kv.1 ≠ "$defs"

/-- Canonicalises `type` with `normalizeType`. -/
def normalizeTypeField (out : JObj) (path : String) : Except ProfileError JObj :=
  match lookup out "type" with
  | none => .ok out
  | some t => match normalizeType t with
    | .error e => .error (.other (pathOrRoot path ++ ".type: " ++ e))
    | .ok types => .ok (setField out "type" (strArr types))

/-- Canonicalises `required` with `normalizeStringSet`. -/
def normalizeRequiredField (out : JObj) (path : String) : Except ProfileError JObj :=
  match lookup out "required" with
  | none => .ok out
  | some v => match normalizeStringSet v with
    | .error e => .error (.other (pathOrRoot path ++ ".required: " ++ e))
    | .ok req => .ok (setField out "required" (strArr req))

/-- The loop over `properties`: each value must be an object and is normalized by `rec` at its
path; the results fill a new map in iteration order. -/
def normalizeProps (rec : JObj → String → NormM JObj) (path : String) : JObj → JObj → NormM JObj
  | nm, [] => pure nm
  | nm, (k, v) :: rest => match v with
    | .obj vm => do
      let nv ← rec vm (ptrJoin path ("properties[" ++ quote k ++ "]"))
      normalizeProps rec path (setField nm k (.obj nv)) rest
    | _ => fail (.other (pathOrRoot path ++ ".properties[" ++ quote k ++ "]: must be object"))

/-- Recurses into `properties`. -/
def normalizePropertiesField (rec : JObj → String → NormM JObj) (out : JObj) (path : String) :
    NormM JObj :=
  match lookup out "properties" with
  | none => pure out
  | some (.obj props) => do
    let nm ← normalizeProps rec path [] props
    pure (setField out "properties" (.obj nm))
  | some _ => fail (.other (pathOrRoot path ++ ".properties: must be object"))

/-- Recurses into `additionalProperties` when it is an object; a boolean stays. -/
def normalizeAdditionalPropertiesField (rec : JObj → String → NormM JObj) (out : JObj)
    (path : String) : NormM JObj :=
  match lookup out "additionalProperties" with
  | none => pure out
  | some (.bool x) => pure (setField out "additionalProperties" (.bool x))
  | some (.obj x) => do
    let nv ← rec x (ptrJoin path "additionalProperties")
    pure (setField out "additionalProperties" (.obj nv))
  | some _ => fail (.other (pathOrRoot path ++ ".additionalProperties: must be boolean or object"))

/-- Recurses into `items`. -/
def normalizeItemsField (rec : JObj → String → NormM JObj) (out : JObj) (path : String) :
    NormM JObj :=
  match lookup out "items" with
  | none => pure out
  | some (.obj im) => do
    let nv ← rec im (ptrJoin path "items")
    pure (setField out "items" (.obj nv))
  | some _ => fail (.other (pathOrRoot path ++ ".items: must be object"))

/-- The loop over the variants of the union keyword `k`: each must be an object and is
normalized by `rec` at its indexed path. -/
def normalizeVariants (rec : JObj → String → NormM JObj) (path k : String) :
    Nat → List JValue → NormM (List JObj)
  | _, [] => pure []
  | idx, item :: rest => match item with
    | .obj m => do
      let nv ← rec m (ptrJoin path (k ++ "[" ++ toString idx ++ "]"))
      let nvs ← normalizeVariants rec path k (idx + 1) rest
      pure (nv :: nvs)
    | _ => fail (.other (pathOrRoot path ++ "." ++ k ++ "[" ++ toString idx ++ "]: must be object"))

/-- Variant order: by canonical JSON, ascending. -/
def canonLE (a b : String × JObj) : Prop := a.1 ≤ b.1

instance : DecidableRel canonLE := fun a b => inferInstanceAs (Decidable (a.1 ≤ b.1))

/-- The normalized variants sorted by their canonical JSON, as `sort.Slice` sorts them. -/
def sortVariants (variants : List JObj) : List JObj :=
  ((variants.map fun v => (writeJCS (.obj v), v)).insertionSort canonLE).map Prod.snd

instance : IsTotal (String × JObj) canonLE := ⟨fun a b => le_total a.1 b.1⟩

instance : IsTrans (String × JObj) canonLE := ⟨fun _ _ _ => le_trans⟩

theorem mem_sortVariants {vs : List JObj} {m : JObj} (h : m ∈ sortVariants vs) : m ∈ vs := by
  obtain ⟨p, hp, rfl⟩ := List.mem_map.mp h
  obtain ⟨v, hv, rfl⟩ := List.mem_map.mp ((List.perm_insertionSort _ _).mem_iff.mp hp)
  exact hv

/-- The sorted variants are in non-decreasing order of their canonical JSON. -/
theorem sortVariants_sorted (vs : List JObj) :
    ((sortVariants vs).map fun m => writeJCS (.obj m)).Sorted (· ≤ ·) := by
  let pairs := (vs.map fun v => (writeJCS (.obj v), v)).insertionSort canonLE
  have first : ∀ p ∈ pairs, writeJCS (.obj p.2) = p.1 := by
    intro p hp
    obtain ⟨v, -, rfl⟩ := List.mem_map.mp ((List.perm_insertionSort _ _).mem_iff.mp hp)
    rfl
  have : (sortVariants vs).map (fun m => writeJCS (.obj m)) = pairs.map Prod.fst := by
    rw [sortVariants, List.map_map]; exact List.map_congr_left first
  rw [this]
  exact (List.sorted_insertionSort canonLE _).map _ fun _ _ h => h

/-- Recurses into the variants of `oneOf` or `anyOf` and sorts them. -/
def normalizeUnionField (rec : JObj → String → NormM JObj) (k : String) (out : JObj)
    (path : String) : NormM JObj :=
  match lookup out k with
  | none => pure out
  | some (.arr arr) => do
    let variants ← normalizeVariants rec path k 0 arr
    pure (setField out k (.arr ((sortVariants variants).map .obj)))
  | some _ => fail (.other (pathOrRoot path ++ "." ++ k ++ ": must be array"))

/-- The keyword steps after `allOf`: `type`, `required`, the nested schemas, the unions. -/
def normalizeFields (rec : JObj → String → NormM JObj) (out : JObj) (path : String) :
    NormM JObj := do
  let out ← lift (normalizeTypeField out path)
  let out ← lift (normalizeRequiredField out path)
  let out ← normalizePropertiesField rec out path
  let out ← normalizeAdditionalPropertiesField rec out path
  let out ← normalizeItemsField rec out path
  let out ← normalizeUnionField rec "oneOf" out path
  normalizeUnionField rec "anyOf" out path

/-- `normalizeAt`, one unit of fuel per call. -/
def normalizeAt (n : Normalizer) : Nat → JObj → String → NormM JObj
  | 0, _, _ => outOfFuel
  | fuel + 1, schema, path => do
    lift (assertProfileKeywords schema path)
    match refTarget schema with
    | some ref => do
      let (resolved, key) ← n.resolveRef ref path
      withCleanup key (match resolved with
        | .obj rm => n.normalizeAt fuel rm path
        | _ => fail (.refError path ref "resolved $ref is not an object"))
    | none =>
      let out := stripAnnotations schema
      match lookup out "allOf" with
      | some allOf => do
        let merged ← n.flattenAllOf fuel allOf path
        n.normalizeAt fuel merged path
      | none => normalizeFields (n.normalizeAt fuel) out path

/-- `normalizeAt` on a schema with a `$ref`: resolve it, normalize the target, and pop the cycle
entry whatever the result. -/
theorem normalizeAt_ref (n : Normalizer) (fuel : Nat) {schema : JObj} {path ref : String}
    (st : List String) (gate : assertProfileKeywords schema path = .ok ())
    (hRef : refTarget schema = some ref) :
    n.normalizeAt (fuel + 1) schema path st =
      (n.resolveRef ref path >>= fun rk => withCleanup rk.2 (match rk.1 with
        | .obj rm => n.normalizeAt fuel rm path
        | _ => fail (.refError path ref "resolved $ref is not an object"))) st := by
  simp only [normalizeAt, bind_apply, gate, lift_ok_apply, hRef]

/-- `normalizeAt` on a schema with `allOf` and no `$ref`: merge the branches, then normalize the
merge, the schema's other keywords dropped. -/
theorem normalizeAt_allOf (n : Normalizer) (fuel : Nat) {schema : JObj} {path : String}
    {allOf : JValue} (st : List String) (gate : assertProfileKeywords schema path = .ok ())
    (noRef : refTarget schema = none) (hAllOf : lookup (stripAnnotations schema) "allOf" = some allOf) :
    n.normalizeAt (fuel + 1) schema path st =
      (n.flattenAllOf fuel allOf path >>= fun merged => n.normalizeAt fuel merged path) st := by
  simp only [normalizeAt, bind_apply, gate, lift_ok_apply, noRef, hAllOf]

/-- `normalizeAt` on a schema with neither `$ref` nor `allOf`: the keyword steps on the schema
without annotations. -/
theorem normalizeAt_fields (n : Normalizer) (fuel : Nat) {schema : JObj} {path : String}
    (st : List String) (gate : assertProfileKeywords schema path = .ok ())
    (noRef : refTarget schema = none) (noAllOf : lookup (stripAnnotations schema) "allOf" = none) :
    n.normalizeAt (fuel + 1) schema path st =
      normalizeFields (n.normalizeAt fuel) (stripAnnotations schema) path st := by
  simp only [normalizeAt, bind_apply, gate, lift_ok_apply, noRef, noAllOf]

/-- `Normalize`: a fresh cycle set, then `normalizeAt` at the root path. -/
def normalize (n : Normalizer) (fuel : Nat) (schema : JObj) : Option (Except ProfileError JObj) :=
  (n.normalizeAt fuel schema "" []).map Prod.fst

end Normalizer

end OpenBindings.SchemaProfile
