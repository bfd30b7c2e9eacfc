import OpenBindings.Normalizer

/-! # The profile gate

`normalizeAt` checks every schema it is called on with `assertProfileKeywords` before anything
else, so a schema with a key outside the profile fails at once, naming the first such key in map
order (`normalizeAt_first_outside_key`). Two consequences for the Go program follow. The error
names whichever bad key Go's randomised map iteration visits first, so two runs on one schema can
report different keywords. And the branches of an `allOf` are gated before their `$ref` is
resolved, never after: `flattenBranch` merges a resolved target without looking at its keys
(`flattenBranch_ref`), and `mergeAllOfBranch` copies only the keywords it knows, so whatever else
the target holds (a union, a keyword outside the profile) disappears without an error. -/

namespace OpenBindings.SchemaProfile.Normalizer

open NormM

/-- The gate reports the first key outside the profile, in map order, at the schema's path, and
leaves the cycle set as it was. -/
theorem normalizeAt_first_outside_key (n : Normalizer) (fuel : Nat) (schema : JObj)
    (path : String) (st : List String) {k : String} {v : JValue}
    (h : schema.find? (fun kv => !isProfileKeyword kv.1) = some (k, v)) :
    n.normalizeAt (fuel + 1) schema path st =
      some (.error (.outsideProfile (pathOrRoot path) k), st) := by
  have gate : assertProfileKeywords schema path = .error (.outsideProfile (pathOrRoot path) k) := by
    simp [assertProfileKeywords, h]
  simp only [normalizeAt, bind_apply, gate, lift_error_apply]

/-- One Go map, `{"pattern": "x", "format": "y"}`, in its two iteration orders: the normalizer's
error names a different keyword in each. -/
theorem normalize_outside_keyword_follows_map_order :
    ({} : Normalizer).normalize 1 [("pattern", .str "x"), ("format", .str "y")] =
        some (.error (.outsideProfile "<root>" "pattern")) ∧
      ({} : Normalizer).normalize 1 [("format", .str "y"), ("pattern", .str "x")] =
        some (.error (.outsideProfile "<root>" "format")) := by
  decide

/-- A branch of `allOf` whose `$ref` resolves to an object is merged as that object once the
branch itself has passed the gate: the target's own keys are never checked. -/
theorem flattenBranch_ref (n : Normalizer) (fuel : Nat) (path : String) (merged : JObj)
    (idx : Nat) (branch : JObj) (st : List String) {ref key : String} {target : JObj}
    (gate : assertProfileKeywords branch (ptrJoin path ("allOf[" ++ toString idx ++ "]")) = .ok ())
    (noUnion : hasKey branch "oneOf" = false ∧ hasKey branch "anyOf" = false)
    (hRef : refTarget branch = some ref)
    (resolved : n.resolveRef ref (ptrJoin path ("allOf[" ++ toString idx ++ "]")) st =
      some (.ok (.obj target, key), key :: st)) :
    n.flattenBranch fuel path merged idx (.obj branch) st =
      mergeAllOfBranch fuel merged target (ptrJoin path ("allOf[" ++ toString idx ++ "]"))
        ((key :: st).filter (· ≠ key)) := by
  simp only [flattenBranch, resolveBranch, bind_apply, gate, lift_ok_apply, noUnion, hRef, resolved,
    Bool.false_eq_true, ↓reduceIte]
  rfl

/-- `{"allOf": [{"$ref": "#/A"}]}` where `A` is a union: the union a direct branch is refused for
is merged away, and normalization returns the empty schema. -/
theorem normalize_allOf_ref_to_union_succeeds :
    ({ root := .obj [("A", .obj [("oneOf", .arr [.obj [("type", .str "string")],
        .obj [("type", .str "number")]])])] } : Normalizer).normalize 2
      [("allOf", .arr [.obj [("$ref", .str "#/A")]])] = some (.ok []) := by
  decide

end OpenBindings.SchemaProfile.Normalizer
