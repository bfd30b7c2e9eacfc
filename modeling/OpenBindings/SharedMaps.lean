import OpenBindings.Compat

/-! # The normalizer on shared Go maps

The `Normalizer` module treats a schema as a value. The Go code holds it as a graph of
`map[string]any`: `resolveRef` returns the map inside `Root` itself, and `cloneMap` copies only the
top level of a map, so the maps nested in a copy are the original's. `mergeAllOfBranch` writes
`aProps[k] = merged` into `acc["properties"]`; when `acc` is a `cloneMap` of a property schema
reached through a `$ref`, that map belongs to `Root`, and the write changes `Root` for every later
resolution.

Here the maps are cells of a heap addressed by `Nat`, and `normalizeAt`, `flattenAllOf` and
`mergeAllOfBranch` make the reads and writes the Go code makes. Ranging over a map visits the keys
it had when the loop started, each value read when the loop reaches it: Go reads an entry's
current value when it reaches it, and may skip entries added during the loop.

The `SharedCycles` module proves the cycle-set discipline over this model; `SharedWrites` runs
an `allOf` of two `$ref`s whose property schemas overlap, whose merge rewrites `Root`, so that
`InputCompatible(S, S)` is `false`. -/

namespace OpenBindings.SchemaProfile.Shared

open CanonicalJson

/-- A decoded value as Go holds it: a map is the address of its cell in the heap, so every holder
of a map sees the writes into it. Slices are held by value: the normalizer builds new slices and
never writes into one. -/
inductive GoVal where
  | null
  | bool (b : Bool)
  | num (x : Float64)
  | str (s : String)
  | arr (xs : List GoVal)
  | map (a : Nat)

mutual
/-- Structural equality of Go values; two maps are equal when they are the same map. -/
def GoVal.beq : GoVal → GoVal → Bool
  | .null, .null => true
  | .bool a, .bool b => a == b
  | .num a, .num b => a == b
  | .str a, .str b => a == b
  | .arr xs, .arr ys => GoVal.beqList xs ys
  | .map a, .map b => a == b
  | _, _ => false

/-- Structural equality of slices. -/
def GoVal.beqList : List GoVal → List GoVal → Bool
  | [], [] => true
  | x :: xs, y :: ys => x.beq y && GoVal.beqList xs ys
  | _, _ => false
end

mutual
theorem GoVal.eq_of_beq : ∀ {a b : GoVal}, a.beq b = true → a = b
  | .null, b, h => by cases b <;> first | rfl | cases h
  | .bool _, b, h => by cases b <;> first | exact congrArg _ (beq_iff_eq.1 h) | cases h
  | .num _, b, h => by cases b <;> first | exact congrArg _ (beq_iff_eq.1 h) | cases h
  | .str _, b, h => by cases b <;> first | exact congrArg _ (beq_iff_eq.1 h) | cases h
  | .arr _, b, h => by cases b <;> first | exact congrArg _ (GoVal.eq_of_beqList h) | cases h
  | .map _, b, h => by cases b <;> first | exact congrArg _ (beq_iff_eq.1 h) | cases h

theorem GoVal.eq_of_beqList : ∀ {a b : List GoVal}, GoVal.beqList a b = true → a = b
  | [], [], _ => rfl
  | [], _ :: _, h => nomatch h
  | _ :: _, [], h => nomatch h
  | _ :: _, _ :: _, h => by
    obtain ⟨h1, h2⟩ := Bool.and_eq_true_iff.1 h
    rw [GoVal.eq_of_beq h1, GoVal.eq_of_beqList h2]
end

mutual
theorem GoVal.beq_refl : ∀ a : GoVal, a.beq a = true
  | .null => rfl
  | .bool _ => beq_self_eq_true _
  | .num _ => beq_self_eq_true _
  | .str _ => beq_self_eq_true _
  | .arr xs => GoVal.beqList_refl xs
  | .map _ => beq_self_eq_true _

theorem GoVal.beqList_refl : ∀ a : List GoVal, GoVal.beqList a a = true
  | [] => rfl
  | x :: xs => Bool.and_eq_true_iff.2 ⟨GoVal.beq_refl x, GoVal.beqList_refl xs⟩
end

instance : DecidableEq GoVal := fun a b =>
  decidable_of_iff (a.beq b = true) ⟨GoVal.eq_of_beq, fun h => h ▸ GoVal.beq_refl a⟩

/-- A `map[string]any`: its entries in iteration order. -/
abbrev Cell := List (String × GoVal)

namespace Cell

/-- `m[k]`. -/
def get? : Cell → String → Option GoVal
  | [], _ => none
  | (k', v) :: rest, k => if k' = k then some v else get? rest k

/-- `m[k] = v`: overwrites the entry of `k` in place, or appends one. -/
def set : Cell → String → GoVal → Cell
  | [], k, v => [(k, v)]
  | (k', v') :: rest, k, v => if k' = k then (k, v) :: rest else (k', v') :: set rest k v

/-- The keys with placeholder values: what `assertProfileKeywords` reads of a map. -/
def keysView (m : Cell) : JObj := m.map fun kv => (kv.1, .null)

/-- The copy of the map without annotation keywords and `$defs`. -/
def stripAnnotations (m : Cell) : Cell :=
  m.filter fun kv => kv.1 ∉ annotationKeywords ∧ kv.1 ≠ "$defs"

end Cell

/-- `schema["$ref"].(string)` when it is a string that is not blank. -/
def refTarget (schema : Cell) : Option String :=
  match schema.get? "$ref" with
  | some (.str r) => if isBlank r then none else some r
  | _ => none

/-- A list of strings as the slice the normalizer stores. -/
def goStrings (xs : List String) : GoVal := .arr (xs.map .str)

mutual
/-- The value with every map replaced by an empty object: what a type switch on `string` and
`[]any` sees, `normalizeType` and `normalizeStringSet` reading no map's entries. -/
def GoVal.shallow : GoVal → JValue
  | .null => .null
  | .bool b => .bool b
  | .num x => .num x
  | .str s => .str s
  | .arr xs => .arr (GoVal.shallowList xs)
  | .map _ => .obj []

/-- `shallow` on each element. -/
def GoVal.shallowList : List GoVal → List JValue
  | [] => []
  | x :: xs => x.shallow :: GoVal.shallowList xs
end

/-- `toFloat64`: the number, or `0` for any other value. -/
def GoVal.toFloat64 : GoVal → Float64
  | .num x => x
  | _ => Float64.zero

/-! ### The heap -/

/-- The maps, and the normalizer's cycle set `refStack`. -/
structure Heap where
  cells : List Cell
  refStack : List String
deriving DecidableEq

/-- A computation of the normalizer over the heap: `none` when fuel ran out, otherwise the result
(a value or an error) and the heap afterwards; writes made before an error stay, as in Go. -/
def HeapM (α : Type) : Type := Heap → Option (Except ProfileError α × Heap)

instance : Monad HeapM where
  pure a := fun h => some (.ok a, h)
  bind x f := fun h => match x h with
    | some (r, h') => match r with
      | .ok a => f a h'
      | .error e => some (.error e, h')
    | none => none

namespace HeapM

/-- Returns the error `e`. -/
def fail (e : ProfileError) : HeapM α := fun h => some (.error e, h)

/-- A pure result or error. -/
def lift : Except ProfileError α → HeapM α
  | .ok a => pure a
  | .error e => fail e

/-- The run ran out of fuel. -/
def outOfFuel : HeapM α := fun _ => none

/-- The map at `a`. -/
def load (a : Nat) : HeapM Cell := fun ⟨cells, stack⟩ => some (.ok (cells.getD a []), ⟨cells, stack⟩)

/-- `m[k] = v` on the map at `a`. -/
def store (a : Nat) (k : String) (v : GoVal) : HeapM Unit := fun ⟨cells, stack⟩ =>
  some (.ok (), ⟨List.modify (·.set k v) a cells, stack⟩)

/-- A new map holding the entries `m`. -/
def alloc (m : Cell) : HeapM Nat := fun ⟨cells, stack⟩ =>
  some (.ok cells.length, ⟨cells ++ [m], stack⟩)

/-- `cloneMap`: a new map with the same entries; the maps they hold are not copied. -/
def cloneMap (a : Nat) : HeapM Nat := do alloc (← load a)

/-- `asMap(v)`, and a new empty map when `v` is not a map: `if m == nil { m = map[string]any{} }`. -/
def mapOrNew : Option GoVal → HeapM Nat
  | some (.map a) => pure a
  | _ => alloc []

/-- Runs `x`, then removes `key` from the cycle set whatever `x` returned: `defer cleanup()`. -/
def withCleanup (key : String) (x : HeapM α) : HeapM α := fun h =>
  match x h with
  | some (r, ⟨cells, stack⟩) => some (r, ⟨cells, stack.filter (· ≠ key)⟩)
  | none => none

/-- `cleanup()` called at once. -/
def cleanup (key : String) : HeapM Unit := fun ⟨cells, stack⟩ =>
  some (.ok (), ⟨cells, stack.filter (· ≠ key)⟩)

theorem bind_apply (x : HeapM α) (f : α → HeapM β) (h : Heap) :
    (x >>= f) h = match x h with
      | some (r, h') => match r with
        | .ok a => f a h'
        | .error e => some (.error e, h')
      | none => none := rfl

@[simp] theorem pure_apply (a : α) (h : Heap) : (pure a : HeapM α) h = some (.ok a, h) := rfl

@[simp] theorem fail_apply (e : ProfileError) (h : Heap) :
    (fail e : HeapM α) h = some (.error e, h) := rfl

@[simp] theorem lift_ok_apply (a : α) (h : Heap) : (lift (.ok a) : HeapM α) h = some (.ok a, h) :=
  rfl

@[simp] theorem lift_error_apply (e : ProfileError) (h : Heap) :
    (lift (.error e) : HeapM α) h = some (.error e, h) := rfl

@[simp] theorem outOfFuel_apply (h : Heap) : (outOfFuel : HeapM α) h = none := rfl

@[simp] theorem load_apply (a : Nat) (h : Heap) : load a h = some (.ok (h.cells.getD a []), h) :=
  rfl

@[simp] theorem store_apply (a : Nat) (k : String) (v : GoVal) (h : Heap) :
    store a k v h = some (.ok (), ⟨List.modify (·.set k v) a h.cells, h.refStack⟩) := rfl

@[simp] theorem alloc_apply (m : Cell) (h : Heap) :
    alloc m h = some (.ok h.cells.length, ⟨h.cells ++ [m], h.refStack⟩) := rfl

@[simp] theorem cleanup_apply (key : String) (h : Heap) :
    cleanup key h = some (.ok (), ⟨h.cells, h.refStack.filter (· ≠ key)⟩) := rfl

@[simp] theorem withCleanup_apply (key : String) (x : HeapM α) (h : Heap) :
    withCleanup key x h =
      (x h).map fun r => (r.1, ⟨r.2.cells, r.2.refStack.filter (· ≠ key)⟩) := by
  unfold withCleanup
  rcases x h with _ | ⟨r, cells, stack⟩ <;> rfl

end HeapM

open HeapM

/-- The JSON value a Go value denotes in the heap, read to depth `fuel`; deeper, it is `none`. -/
def readVal (cells : List Cell) : Nat → GoVal → Option JValue
  | 0, _ => none
  | _ + 1, .null => some .null
  | _ + 1, .bool b => some (.bool b)
  | _ + 1, .num x => some (.num x)
  | _ + 1, .str s => some (.str s)
  | fuel + 1, .arr xs => (xs.mapM (readVal cells fuel)).map .arr
  | fuel + 1, .map a =>
    ((cells.getD a []).mapM fun kv => (readVal cells fuel kv.2).map (kv.1, ·)).map .obj

/-- The map at `a` as JSON. -/
def readObj (cells : List Cell) (fuel a : Nat) : Option JObj :=
  match readVal cells fuel (.map a) with
  | some (.obj m) => some m
  | _ => none

/-- Reads a value of the heap; a read deeper than `fuel` runs out of fuel. -/
def read (fuel : Nat) (v : GoVal) : HeapM JValue := fun ⟨cells, stack⟩ =>
  (readVal cells fuel v).map fun j => (.ok j, ⟨cells, stack⟩)

/-- Reads the map at `a` as JSON. -/
def readMap (fuel a : Nat) : HeapM JObj := fun ⟨cells, stack⟩ =>
  (readObj cells fuel a).map fun m => (.ok m, ⟨cells, stack⟩)

@[simp] theorem read_apply (fuel : Nat) (v : GoVal) (h : Heap) :
    read fuel v h = (readVal h.cells fuel v).map fun j => (.ok j, h) := rfl

@[simp] theorem readMap_apply (fuel a : Nat) (h : Heap) :
    readMap fuel a h = (readObj h.cells fuel a).map fun m => (.ok m, h) := rfl

mutual
/-- `decodeJSON`'s result placed in the heap: every object becomes a new map. -/
def place : JValue → List Cell → GoVal × List Cell
  | .null, cs => (.null, cs)
  | .bool b, cs => (.bool b, cs)
  | .num x, cs => (.num x, cs)
  | .str s, cs => (.str s, cs)
  | .arr xs, cs => match placeList xs cs with
    | (vs, cs) => (.arr vs, cs)
  | .obj m, cs => match placeObj m cs with
    | (c, cs) => (.map cs.length, cs ++ [c])

/-- The elements of an array, placed in order. -/
def placeList : List JValue → List Cell → List GoVal × List Cell
  | [], cs => ([], cs)
  | x :: xs, cs => match place x cs with
    | (v, cs) => match placeList xs cs with
      | (vs, cs) => (v :: vs, cs)

/-- The members of an object, placed in order. -/
def placeObj : JObj → List Cell → Cell × List Cell
  | [], cs => ([], cs)
  | (k, x) :: rest, cs => match place x cs with
    | (v, cs) => match placeObj rest cs with
      | (c, cs) => ((k, v) :: c, cs)
end

/-! ### `resolveRef` -/

/-- `resolveJSONPointer`'s step: into the map's entry, or the array's element. -/
def pointerStep (cells : List Cell) (cur : GoVal) (tok : String) : Except String GoVal :=
  match cur with
  | .map a => match (cells.getD a []).get? tok with
    | some nxt => .ok nxt
    | none => .error ("pointer not found: " ++ quote tok)
  | .arr xs =>
    if tok = "-" then .error "pointer '-' is not valid for array lookup"
    else match atoi tok with
      | some idx => if h : 0 ≤ idx ∧ idx < xs.length then .ok (xs.get ⟨idx.toNat, by omega⟩)
        else .error ("array index out of range: " ++ quote tok)
      | none => .error ("array index out of range: " ++ quote tok)
  | _ => .error "pointer traversed non-container"

/-- `resolveJSONPointer`: the value the fragment points to, itself a value of the heap. -/
def resolveJSONPointer (cells : List Cell) (doc : GoVal) (fragment : String) :
    Except String GoVal :=
  if fragment = "" then .ok doc
  else if ¬ hasPrefix fragment "/" then .error "unsupported fragment (must be JSON Pointer)"
  else ((splitSlash fragment.toList).drop 1).foldlM
    (fun cur tok => pointerStep cells cur (unescapeToken tok)) doc

/-- The `Normalizer` over the heap: `root` is `Root` as a value of the heap, so a `$ref` into it
returns `Root`'s own maps; `fetch` gives a document that `resolveRef` decodes into new maps. -/
structure Normalizer where
  root : GoVal := .null
  base : Option Url.URL := none
  fetch : Option (Url.URL → Except String JValue) := none

namespace Normalizer

/-- `resolveRef`: the value a `$ref` points to and its key in the cycle set, which stays there
until the caller's cleanup. Every error return leaves the heap as it found it. -/
def resolveRef (n : Normalizer) (ref path : String) : HeapM (GoVal × String) := fun ⟨cells, stack⟩ =>
  let err (cause : String) : Option (Except ProfileError (GoVal × String) × Heap) :=
    some (.error (.refError (pathOrRoot path) ref cause), ⟨cells, stack⟩)
  match Url.parse ref with
  | .error e => err ("parse " ++ quote ref ++ ": " ++ e)
  | .ok u0 =>
    let resolved : Except String Url.URL :=
      if ¬ u0.isAbs ∧ u0.path ≠ "" then
        match n.base with
        | none => .error "relative $ref with no base"
        | some b => .ok (b.resolveReference u0)
      else .ok u0
    match resolved with
    | .error e => err e
    | .ok u =>
      let key := u.toString
      if key ∈ stack then err "cycle detected" else
      let doc : Except String (GoVal × List Cell) :=
        if u.scheme = "" ∧ u.path = "" ∧ (u.fragment ≠ "" ∨ hasPrefix ref "#") then
          .ok (n.root, cells)
        else match n.fetch with
          | none => .error "external $ref unsupported (no fetcher)"
          | some fetch => (fetch u).map fun d => place d cells
      match doc >>= fun d => (resolveJSONPointer d.2 d.1 u.fragment).map (·, d.2) with
      | .error e => err e
      | .ok (v, cells) => some (.ok (v, key), ⟨cells, key :: stack⟩)

end Normalizer

/-! ### `mergeAllOfBranch` -/

/-- `mergeAllOfBranch`'s `type` step: intersect with the accumulated types. -/
def mergeType (acc branch : Nat) (path : String) : HeapM Unit := do
  match (← load branch).get? "type" with
  | none => pure ()
  | some bt => match normalizeType bt.shallow with
    | .error e => fail (.other (path ++ ".type: " ++ e))
    | .ok bTypes => match (← load acc).get? "type" with
      | none => store acc "type" (goStrings bTypes)
      | some aT => match normalizeType aT.shallow with
        | .error e => fail (.other (path ++ ".type: " ++ e))
        | .ok aTypes =>
          let inter := Normalizer.intersectTypeSlices aTypes bTypes
          if inter = [] then fail (.schemaError path "allOf type intersection is empty")
          else store acc "type" (goStrings inter)

/-- One property of the branch: merged by `rec` into a `cloneMap` of the accumulated property of
the same name, or the branch's own map when there is none; written into `aProps`. -/
def mergeProp (rec : Nat → Nat → String → HeapM Unit) (path : String) (aProps : Nat) (k : String)
    (bv : GoVal) : HeapM Unit := do
  match (← load aProps).get? k with
  | some av => do
    let avm ← mapOrNew (some av)
    let bvm ← mapOrNew (some bv)
    let merged ← cloneMap avm
    rec merged bvm (path ++ ".properties[\"" ++ k ++ "\"]")
    store aProps k (.map merged)
  | none => store aProps k bv

/-- The loop `for k, bv := range bProps` over the keys `ks` the map had when it started. -/
def mergeProps (rec : Nat → Nat → String → HeapM Unit) (path : String) (aProps bProps : Nat) :
    List String → HeapM Unit
  | [] => pure ()
  | k :: ks => do
    if let some bv := (← load bProps).get? k then mergeProp rec path aProps k bv
    mergeProps rec path aProps bProps ks

/-- `mergeAllOfBranch`'s `properties` step: `aProps` is the accumulator's own map when it has one. -/
def mergeProperties (rec : Nat → Nat → String → HeapM Unit) (acc branch : Nat) (path : String) :
    HeapM Unit := do
  match (← load branch).get? "properties" with
  | none => pure ()
  | some (.map bp) => do
    let aProps ← mapOrNew ((← load acc).get? "properties")
    mergeProps rec path aProps bp ((← load bp).map Prod.fst)
    store acc "properties" (.map aProps)
  | some _ => fail (.other (path ++ ".properties: must be object"))

/-- `mergeAllOfBranch`'s `required` step: the union. -/
def mergeRequired (acc branch : Nat) (path : String) : HeapM Unit := do
  match (← load branch).get? "required" with
  | none => pure ()
  | some br => match normalizeStringSet br.shallow with
    | .error e => fail (.other (path ++ ".required: " ++ e))
    | .ok bReq => match (← load acc).get? "required" with
      | none => store acc "required" (goStrings bReq)
      | some ar => match normalizeStringSet ar.shallow with
        | .error e => fail (.other (path ++ ".required: " ++ e))
        | .ok aReq => store acc "required" (goStrings (Normalizer.unionStringSlices aReq bReq))

/-- `mergeAllOfBranch`'s `additionalProperties` step: `false` wins, two schemas merge into a
`cloneMap` of the accumulated one, a schema wins over `true`. -/
def mergeAdditionalProperties (rec : Nat → Nat → String → HeapM Unit) (acc branch : Nat)
    (path : String) : HeapM Unit := do
  match (← load branch).get? "additionalProperties" with
  | some (.bool false) => store acc "additionalProperties" (.bool false)
  | some (.bool true) =>
    if ((← load acc).get? "additionalProperties").isNone then
      store acc "additionalProperties" (.bool true)
  | some (.map bv) => match (← load acc).get? "additionalProperties" with
    | some (.bool false) => pure ()
    | some (.bool true) => store acc "additionalProperties" (.map bv)
    | some (.map av) => do
      let merged ← cloneMap av
      rec merged bv (path ++ ".additionalProperties")
      store acc "additionalProperties" (.map merged)
    | some _ => pure ()
    | none => store acc "additionalProperties" (.map bv)
  | _ => pure ()

/-- `intersectValues`: the values of `a` whose canonical JSON is that of some value of `b`. -/
def intersectValues (fuel : Nat) (a b : List GoVal) : HeapM (List GoVal) := do
  let bKeys ← b.mapM fun w => do pure (canonicalKey (← read fuel w))
  a.filterM fun v => do pure (bKeys.contains (canonicalKey (← read fuel v)))

/-- `mergeAllOfBranch`'s `enum` step: intersect the enums. -/
def mergeEnum (fuel acc branch : Nat) (path : String) : HeapM Unit := do
  match (← load branch).get? "enum" with
  | none => pure ()
  | some (.arr bEnum) => match (← load acc).get? "enum" with
    | some ae => do
      let inter ← intersectValues fuel (match ae with | .arr xs => xs | _ => []) bEnum
      if inter.isEmpty then fail (.schemaError path "allOf enum intersection is empty")
      else store acc "enum" (.arr inter)
    | none => store acc "enum" (.arr bEnum)
  | some _ => fail (.other (path ++ ".enum: must be array"))

/-- `mergeAllOfBranch`'s `const` step: reject two different constants. -/
def mergeConst (fuel acc branch : Nat) (path : String) : HeapM Unit := do
  match (← load branch).get? "const" with
  | none => pure ()
  | some bc => match (← load acc).get? "const" with
    | some ac =>
      if canonicalKey (← read fuel ac) ≠ canonicalKey (← read fuel bc) then
        fail (.schemaError path "allOf const conflict")
    | none => store acc "const" bc

/-- `mergeAllOfBranch`'s `items` step: merge into a `cloneMap` of the accumulated items. -/
def mergeItems (rec : Nat → Nat → String → HeapM Unit) (acc branch : Nat) (path : String) :
    HeapM Unit := do
  match (← load branch).get? "items" with
  | none => pure ()
  | some (.map bItems) => match (← load acc).get? "items" with
    | some ai => do
      let merged ← cloneMap (← mapOrNew (some ai))
      rec merged bItems (path ++ ".items")
      store acc "items" (.map merged)
    | none => store acc "items" (.map bItems)
  | some _ => fail (.other (path ++ ".items: must be object"))

/-- The bound step for one keyword: keep the branch's bound when `better` prefers it. -/
def mergeBound (better : Float64 → Float64 → Bool) (acc branch : Nat) (k : String) :
    HeapM Unit := do
  match (← load branch).get? k with
  | none => pure ()
  | some bv => match (← load acc).get? k with
    | some av => if better bv.toFloat64 av.toFloat64 then store acc k bv
    | none => store acc k bv

/-- `mergeAllOfBranch`'s bound steps: the largest lower bound and the smallest upper bound. -/
def mergeBounds (acc branch : Nat) : HeapM Unit := do
  ["minimum", "exclusiveMinimum", "minLength", "minItems"].forM
    (mergeBound (fun b a => a < b) acc branch)
  ["maximum", "exclusiveMaximum", "maxLength", "maxItems"].forM
    (mergeBound (fun b a => b < a) acc branch)

/-- `mergeAllOfBranch`: merges the branch at `branch` into the map at `acc`, keyword by keyword
in the order of the Go code; `rec` merges nested schemas, `fuel` bounds the reads. -/
def mergeAllOfBranchStep (rec : Nat → Nat → String → HeapM Unit) (fuel acc branch : Nat)
    (path : String) : HeapM Unit := do
  mergeType acc branch path
  mergeProperties rec acc branch path
  mergeRequired acc branch path
  mergeAdditionalProperties rec acc branch path
  mergeEnum fuel acc branch path
  mergeConst fuel acc branch path
  mergeItems rec acc branch path
  mergeBounds acc branch

/-- `mergeAllOfBranch`, one unit of fuel per call. -/
def mergeAllOfBranch : Nat → Nat → Nat → String → HeapM Unit
  | 0, _, _, _ => outOfFuel
  | fuel + 1, acc, branch, path => mergeAllOfBranchStep (mergeAllOfBranch fuel) fuel acc branch path

namespace Normalizer

/-- The branch itself, or the map its `$ref` resolves to; `flattenAllOf` pops the cycle entry at
once. -/
def resolveBranch (n : Normalizer) (branch : Nat) (branchPath : String) : HeapM Nat := do
  match refTarget (← load branch) with
  | some ref => do
    let (resolved, key) ← n.resolveRef ref branchPath
    cleanup key
    match resolved with
    | .map rm => pure rm
    | _ => fail (.refError branchPath ref "resolved $ref is not an object")
  | none => pure branch

/-- One branch of `flattenAllOf`: gate it, reject a union, resolve its `$ref`, and merge it into
the map at `merged`. -/
def flattenBranch (n : Normalizer) (fuel : Nat) (path : String) (merged idx : Nat) (item : GoVal) :
    HeapM Unit :=
  match item with
  | .map branch => do
    let branchPath := ptrJoin path ("allOf[" ++ toString idx ++ "]")
    let bm ← load branch
    lift (assertProfileKeywords bm.keysView branchPath)
    if (bm.get? "oneOf").isSome then fail (.outsideProfile branchPath "oneOf inside allOf")
    else if (bm.get? "anyOf").isSome then fail (.outsideProfile branchPath "anyOf inside allOf")
    else mergeAllOfBranch fuel merged (← n.resolveBranch branch branchPath) branchPath
  | _ => fail (.other (pathOrRoot path ++ ".allOf[" ++ toString idx ++ "]: must be object"))

/-- The loop of `flattenAllOf` over the branches, from index `idx`. -/
def flattenBranches (n : Normalizer) (fuel : Nat) (path : String) (merged : Nat) :
    Nat → List GoVal → HeapM Unit
  | _, [] => pure ()
  | idx, item :: rest => do
    n.flattenBranch fuel path merged idx item
    n.flattenBranches fuel path merged (idx + 1) rest

/-- `flattenAllOf`: merges all branches of an `allOf` into a new map. -/
def flattenAllOf (n : Normalizer) (fuel : Nat) (allOf : GoVal) (path : String) : HeapM Nat :=
  match allOf with
  | .arr arr => do
    let merged ← alloc []
    n.flattenBranches fuel path merged 0 arr
    pure merged
  | _ => fail (.other (pathOrRoot path ++ ".allOf: must be array"))

end Normalizer

/-! ### `normalizeAt` -/

/-- Canonicalises `type` with `normalizeType`. -/
def normalizeTypeField (out : Nat) (path : String) : HeapM Unit := do
  match (← load out).get? "type" with
  | none => pure ()
  | some t => match normalizeType t.shallow with
    | .error e => fail (.other (pathOrRoot path ++ ".type: " ++ e))
    | .ok types => store out "type" (goStrings types)

/-- Canonicalises `required` with `normalizeStringSet`. -/
def normalizeRequiredField (out : Nat) (path : String) : HeapM Unit := do
  match (← load out).get? "required" with
  | none => pure ()
  | some v => match normalizeStringSet v.shallow with
    | .error e => fail (.other (pathOrRoot path ++ ".required: " ++ e))
    | .ok req => store out "required" (goStrings req)

/-- The loop over `properties` (the map at `props`, keys `ks`): each value must be a map and is
normalized by `rec`; the results fill the new map at `nm`. -/
def normalizeProps (rec : Nat → String → HeapM Nat) (path : String) (nm props : Nat) :
    List String → HeapM Unit
  | [] => pure ()
  | k :: ks => do
    match (← load props).get? k with
    | some (.map vm) => do
      let nv ← rec vm (ptrJoin path ("properties[" ++ quote k ++ "]"))
      store nm k (.map nv)
      normalizeProps rec path nm props ks
    | some _ => fail (.other (pathOrRoot path ++ ".properties[" ++ quote k ++ "]: must be object"))
    | none => normalizeProps rec path nm props ks

/-- Recurses into `properties`. -/
def normalizePropertiesField (rec : Nat → String → HeapM Nat) (out : Nat) (path : String) :
    HeapM Unit := do
  match (← load out).get? "properties" with
  | none => pure ()
  | some (.map pm) => do
    let nm ← alloc []
    normalizeProps rec path nm pm ((← load pm).map Prod.fst)
    store out "properties" (.map nm)
  | some _ => fail (.other (pathOrRoot path ++ ".properties: must be object"))

/-- Recurses into `additionalProperties` when it is a map; a boolean stays. -/
def normalizeAdditionalPropertiesField (rec : Nat → String → HeapM Nat) (out : Nat)
    (path : String) : HeapM Unit := do
  match (← load out).get? "additionalProperties" with
  | none => pure ()
  | some (.bool x) => store out "additionalProperties" (.bool x)
  | some (.map x) => do
    let nv ← rec x (ptrJoin path "additionalProperties")
    store out "additionalProperties" (.map nv)
  | some _ => fail (.other (pathOrRoot path ++ ".additionalProperties: must be boolean or object"))

/-- Recurses into `items`. -/
def normalizeItemsField (rec : Nat → String → HeapM Nat) (out : Nat) (path : String) :
    HeapM Unit := do
  match (← load out).get? "items" with
  | none => pure ()
  | some (.map im) => do
    let nv ← rec im (ptrJoin path "items")
    store out "items" (.map nv)
  | some _ => fail (.other (pathOrRoot path ++ ".items: must be object"))

/-- The loop over the variants of the union keyword `k`. -/
def normalizeVariants (rec : Nat → String → HeapM Nat) (path k : String) :
    Nat → List GoVal → HeapM (List Nat)
  | _, [] => pure []
  | idx, item :: rest => match item with
    | .map m => do
      let nv ← rec m (ptrJoin path (k ++ "[" ++ toString idx ++ "]"))
      let nvs ← normalizeVariants rec path k (idx + 1) rest
      pure (nv :: nvs)
    | _ => fail (.other (pathOrRoot path ++ "." ++ k ++ "[" ++ toString idx ++ "]: must be object"))

/-- Variant order: by canonical JSON, ascending. -/
def scoredLE (a b : String × Nat) : Prop := a.1 ≤ b.1

instance : DecidableRel scoredLE := fun a b => inferInstanceAs (Decidable (a.1 ≤ b.1))

/-- The variants sorted by the canonical JSON of the maps they are, as `sort.Slice` sorts them. -/
def sortVariants (fuel : Nat) (variants : List Nat) : HeapM (List Nat) := do
  let scored ← variants.mapM fun v => do pure (writeJCS (← read fuel (.map v)), v)
  pure ((scored.insertionSort scoredLE).map Prod.snd)

/-- Recurses into the variants of `oneOf` or `anyOf` and sorts them. -/
def normalizeUnionField (rec : Nat → String → HeapM Nat) (fuel : Nat) (k : String) (out : Nat)
    (path : String) : HeapM Unit := do
  match (← load out).get? k with
  | none => pure ()
  | some (.arr arr) => do
    let variants ← normalizeVariants rec path k 0 arr
    let sorted ← sortVariants fuel variants
    store out k (.arr (sorted.map .map))
  | some _ => fail (.other (pathOrRoot path ++ "." ++ k ++ ": must be array"))

/-- The keyword steps after `allOf`, each writing into the new map `out`. -/
def normalizeFields (rec : Nat → String → HeapM Nat) (fuel out : Nat) (path : String) :
    HeapM Unit := do
  normalizeTypeField out path
  normalizeRequiredField out path
  normalizePropertiesField rec out path
  normalizeAdditionalPropertiesField rec out path
  normalizeItemsField rec out path
  normalizeUnionField rec fuel "oneOf" out path
  normalizeUnionField rec fuel "anyOf" out path

namespace Normalizer

/-- `normalizeAt` on the map at `schema`, one unit of fuel per call; the result is a new map. -/
def normalizeAt (n : Normalizer) : Nat → Nat → String → HeapM Nat
  | 0, _, _ => outOfFuel
  | fuel + 1, schema, path => do
    let sm ← load schema
    lift (assertProfileKeywords sm.keysView path)
    match refTarget sm with
    | some ref => do
      let (resolved, key) ← n.resolveRef ref path
      withCleanup key (match resolved with
        | .map rm => n.normalizeAt fuel rm path
        | _ => fail (.refError path ref "resolved $ref is not an object"))
    | none => do
      let out ← alloc sm.stripAnnotations
      match sm.stripAnnotations.get? "allOf" with
      | some allOf => do
        let merged ← n.flattenAllOf fuel allOf path
        n.normalizeAt fuel merged path
      | none => do
        normalizeFields (n.normalizeAt fuel) fuel out path
        pure out

/-- `Normalize`: a fresh cycle set, then `normalizeAt` at the root path. -/
def normalize (n : Normalizer) (fuel schema : Nat) : HeapM Nat := fun ⟨cells, _⟩ =>
  n.normalizeAt fuel schema "" ⟨cells, []⟩

/-- `InputCompatible` and `OutputCompatible`: a fresh cycle set, the target normalized, then the
candidate on the heap the target's pass left, then the decider on the JSON of the two results. -/
def compatible (n : Normalizer) (fuel : Nat) (decide : JObj → JObj → Bool) (target candidate : Nat) :
    HeapM Bool := fun ⟨cells, _⟩ =>
  (do
    let ti ← n.normalizeAt fuel target ""
    let tc ← n.normalizeAt fuel candidate ""
    pure (decide (← readMap fuel ti) (← readMap fuel tc))) ⟨cells, []⟩

@[simp] theorem normalize_apply (n : Normalizer) (fuel schema : Nat) (h : Heap) :
    n.normalize fuel schema h = n.normalizeAt fuel schema "" ⟨h.cells, []⟩ := rfl

theorem compatible_apply (n : Normalizer) (fuel : Nat) (decide : JObj → JObj → Bool)
    (target candidate : Nat) (h : Heap) :
    n.compatible fuel decide target candidate h =
      (do
        let ti ← n.normalizeAt fuel target ""
        let tc ← n.normalizeAt fuel candidate ""
        pure (decide (← readMap fuel ti) (← readMap fuel tc))) ⟨h.cells, []⟩ := rfl

end Normalizer

/-! ### Decoded documents -/

/-- `Root` and a schema decoded into new maps, `Root` first: the `Normalizer` that holds that
`Root`, the schema's map, and the heap. -/
def decode (root : JValue) (schema : JObj) : Normalizer × Nat × Heap :=
  match place root [] with
  | (r, cs) => match placeObj schema cs with
    | (s, cs) => ({ root := r }, cs.length, { cells := cs ++ [s], refStack := [] })

/-- `Normalize` of a schema decoded beside `Root`, as JSON. -/
def normalizeDecoded (root : JValue) (fuel : Nat) (schema : JObj) :
    Option (Except ProfileError JObj) :=
  match decode root schema with
  | (n, s, h) => match n.normalize fuel s h with
    | some (.ok r, h') => (readObj h'.cells fuel r).map .ok
    | some (.error e, _) => some (.error e)
    | none => none

/-- What `Root` holds after `Normalize` of a schema decoded beside it. -/
def rootAfterNormalize (root : JValue) (fuel : Nat) (schema : JObj) : Option JValue :=
  match decode root schema with
  | (n, s, h) => match n.normalize fuel s h with
    | some (_, h') => readVal h'.cells fuel n.root
    | none => none

/-- `InputCompatible(S, S)` or `OutputCompatible(S, S)`: one decoded schema passed as both the
target and the candidate. -/
def compatibleSelfDecoded (decide : JObj → JObj → Bool) (root : JValue) (fuel : Nat)
    (schema : JObj) : Option (Except ProfileError Bool) :=
  match decode root schema with
  | (n, s, h) => (n.compatible fuel decide s s h).map Prod.fst

end OpenBindings.SchemaProfile.Shared
