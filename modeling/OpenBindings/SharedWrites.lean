import OpenBindings.SharedCycles

/-! # A merge writes into `Root`, and the candidate's pass reads the write

`mergeAllOfBranch` merges a property of the branch into a `cloneMap` of the accumulated property
and writes the result into `aProps`, the accumulator's `properties` map. When the accumulator is a
`cloneMap` of a schema a `$ref` resolved to, `aProps` is that schema's own map inside `Root`. Take
`Root` with `A = {"type": "object", "properties": {"p": {"type": "object", "properties":
{"x": {}}}}}` and `B = {"properties": {"p": {"properties": {"x": {"type": "string"}}}}}`: an `allOf`
of `#/A` and `#/B` writes the merged `p` into `A`'s `properties`, and the merged `x` into `A.p`'s,
so afterwards `Root`'s `A.p.x` is `{"type": ["string"]}`.

* `S = {"type": "object", "properties": {"a": {"$ref": "#/A"}, "b": {"allOf": [{"$ref": "#/A"},
  {"$ref": "#/B"}]}}}`. `Normalize(S)` succeeds, but `InputCompatible(S, S)` is `false`: the
  target's pass reads `a`'s `x` as `{}` before the merge of `b` writes, the candidate's pass reads
  it as a string afterwards (`inputCompatible_self_false_after_shared_write`).
* `T = {"allOf": [{"$ref": "#/A"}, {"$ref": "#/B"}]}` and `C = {"$ref": "#/A"}`.
  `OutputCompatible(T, C)` is `true`, while `T` and `C` each normalized against the `Root` the
  caller passed are not output-compatible (`outputCompatible_sees_target_write`).

A run is evaluated in stages: `memo` answers the recorded sub-runs of `normalizeAt` from a table,
and `memo_eq` turns it back into `normalizeAt` once every entry is a true run. -/

namespace OpenBindings.SchemaProfile.Shared

open CanonicalJson HeapM

/-! ### Recorded runs -/

/-- A call of a normalization (`schema`, `path`, heap) and what it returned. -/
abbrev Run := (Nat × String × Heap) × Option (Except ProfileError Nat × Heap)

/-- `f`, except that a call recorded in `table` returns its recorded outcome. -/
def memo (table : List Run) (f : Nat → String → HeapM Nat) : Nat → String → HeapM Nat :=
  fun s p h => match table.find? (fun e => e.1 = (s, p, h)) with
    | some e => e.2
    | none => f s p h

/-- A table of true runs of `f` answers every call as `f` does. -/
theorem memo_eq {table : List Run} {f : Nat → String → HeapM Nat}
    (hT : ∀ e ∈ table, f e.1.1 e.1.2.1 e.1.2.2 = e.2) : memo table f = f := by
  funext s p h
  unfold memo
  split
  · next e he =>
    have hk : e.1 = (s, p, h) := by simpa using List.find?_some he
    rw [← hT e (List.mem_of_find?_eq_some he), hk]
  · rfl

/-! ### The documents -/

/-- `Root`: `A.p` and `B.p` both have a property `x`. -/
def overlapRoot : JValue := .obj [
  ("A", .obj [("type", .str "object"), ("properties", .obj [("p", .obj [("type", .str "object"),
    ("properties", .obj [("x", .obj [])])])])]),
  ("B", .obj [("properties", .obj [("p", .obj [("properties", .obj [("x",
    .obj [("type", .str "string")])])])])])]

/-- `Root` after the merge of `A` and `B`: `A.p.x` is the merged schema. -/
def overlapRootAfterMerge : JValue := .obj [
  ("A", .obj [("type", .str "object"), ("properties", .obj [("p", .obj [("type", .str "object"),
    ("properties", .obj [("x", .obj [("type", .arr [.str "string"])])])])])]),
  ("B", .obj [("properties", .obj [("p", .obj [("properties", .obj [("x",
    .obj [("type", .str "string")])])])])])]

/-- `S`: a property through `#/A`, then a property merging `#/A` and `#/B`. -/
def overlapSchema : JObj := [("type", .str "object"), ("properties", .obj [
  ("a", .obj [("$ref", .str "#/A")]),
  ("b", .obj [("allOf", .arr [.obj [("$ref", .str "#/A")], .obj [("$ref", .str "#/B")]])])])]

/-- The JSON of `Normalize(S)`. -/
def overlapSchemaNormalized : JObj := [("type", .arr [.str "object"]), ("properties", .obj [
  ("a", .obj [("type", .arr [.str "object"]), ("properties", .obj [("p", .obj [
    ("type", .arr [.str "object"]), ("properties", .obj [("x", .obj [])])])])]),
  ("b", .obj [("type", .arr [.str "object"]), ("properties", .obj [("p", .obj [
    ("type", .arr [.str "object"]), ("properties", .obj [("x",
      .obj [("type", .arr [.str "string"])])])])])])])]

/-- The normalizer over the decoded `Root`, whose map is cell `10`. -/
def overlapNormalizer : Normalizer := { root := .map 10 }

/-- `Root` decoded: its maps, innermost first. -/
def overlapRootCells : List Cell :=
  [ [], [("x", .map 0)], [("type", .str "object"), ("properties", .map 1)],
    [("p", .map 2)], [("type", .str "object"), ("properties", .map 3)],
    [("type", .str "string")], [("x", .map 5)], [("properties", .map 6)],
    [("p", .map 7)], [("properties", .map 8)], [("A", .map 4), ("B", .map 9)]]

/-- `Root` and `S` decoded; `S` is cell `16`. -/
def selfCells : List Cell := overlapRootCells ++
  [ [("$ref", .str "#/A")], [("$ref", .str "#/A")], [("$ref", .str "#/B")],
    [("allOf", .arr [.map 12, .map 13])], [("a", .map 11), ("b", .map 14)],
    [("type", .str "object"), ("properties", .map 15)]]

theorem decode_overlapSchema :
    decode overlapRoot overlapSchema = (overlapNormalizer, 16, ⟨selfCells, []⟩) := rfl

/-- `S`'s new map after its `type` step, and the new map for its properties. -/
def selfOut : List Cell := [[("type", goStrings ["object"]), ("properties", .map 15)], []]

/-- The target's pass once `a` is normalized: `a`'s result is cell `19`. -/
def selfAfterA : List Cell := selfCells ++ selfOut ++
  [ [("type", goStrings ["object"]), ("properties", .map 20)], [("p", .map 21)],
    [("type", goStrings ["object"]), ("properties", .map 22)], [("x", .map 23)], []]

/-- The target's pass once `b` is normalized: the merge has written `x` (cell `28`) into cell `1`,
`A.p`'s `properties` in `Root`. -/
def selfAfterB : List Cell := ((selfAfterA.set 18 [("a", .map 19)]).set 1 [("x", .map 28)]) ++
  [ [("allOf", .arr [.map 12, .map 13])],
    [("type", goStrings ["object"]), ("properties", .map 26)], [("p", .map 27)],
    [("type", .str "object"), ("properties", .map 1)], [("type", goStrings ["string"])],
    [("type", goStrings ["object"]), ("properties", .map 30)], [("p", .map 31)],
    [("type", goStrings ["object"]), ("properties", .map 32)], [("x", .map 33)],
    [("type", goStrings ["string"])]]

/-- The heap the target's pass leaves; its result is cell `17`. -/
def selfTarget : List Cell :=
  (selfAfterB.set 17 [("type", goStrings ["object"]), ("properties", .map 18)]).set 18
    [("a", .map 19), ("b", .map 29)]

/-- The candidate's pass once `a` is normalized: `a` now reads the merged `x`. -/
def selfCandidateAfterA : List Cell := selfTarget ++ selfOut ++
  [ [("type", goStrings ["object"]), ("properties", .map 37)], [("p", .map 38)],
    [("type", goStrings ["object"]), ("properties", .map 39)], [("x", .map 40)],
    [("type", goStrings ["string"])]]

/-- The candidate's pass once `b` is normalized. -/
def selfCandidateAfterB : List Cell :=
  ((selfCandidateAfterA.set 35 [("a", .map 36)]).set 1 [("x", .map 45)]) ++
  [ [("allOf", .arr [.map 12, .map 13])],
    [("type", goStrings ["object"]), ("properties", .map 43)], [("p", .map 44)],
    [("type", .str "object"), ("properties", .map 1)], [("type", goStrings ["string"])],
    [("type", goStrings ["object"]), ("properties", .map 47)], [("p", .map 48)],
    [("type", goStrings ["object"]), ("properties", .map 49)], [("x", .map 50)],
    [("type", goStrings ["string"])]]

/-- The four normalizations of a property in `InputCompatible(S, S)`. -/
def selfRuns : List Run := [
  ((11, "properties[\"a\"]", ⟨selfCells ++ selfOut, []⟩), some (.ok 19, ⟨selfAfterA, []⟩)),
  ((14, "properties[\"b\"]", ⟨selfAfterA.set 18 [("a", .map 19)], []⟩),
    some (.ok 29, ⟨selfAfterB, []⟩)),
  ((11, "properties[\"a\"]", ⟨selfTarget ++ selfOut, []⟩), some (.ok 36, ⟨selfCandidateAfterA, []⟩)),
  ((14, "properties[\"b\"]", ⟨selfCandidateAfterA.set 35 [("a", .map 36)], []⟩),
    some (.ok 46, ⟨selfCandidateAfterB, []⟩))]

theorem selfRuns_sound :
    ∀ e ∈ selfRuns, overlapNormalizer.normalizeAt 8 e.1.1 e.1.2.1 e.1.2.2 = e.2 := by
  decide

/-- `Normalize(S)` succeeds and rewrites `Root`'s `A.p.x`; `S`'s normal form is input-compatible
with itself, yet `InputCompatible(S, S)` returns `false`. -/
theorem inputCompatible_self_false_after_shared_write :
    normalizeDecoded overlapRoot 9 overlapSchema = some (.ok overlapSchemaNormalized) ∧
    rootAfterNormalize overlapRoot 9 overlapSchema = some overlapRootAfterMerge ∧
    SchemaProfile.inputCompatible overlapSchemaNormalized overlapSchemaNormalized = true ∧
    compatibleSelfDecoded SchemaProfile.inputCompatible overlapRoot 9 overlapSchema =
      some (.ok false) := by
  unfold normalizeDecoded rootAfterNormalize compatibleSelfDecoded
  simp only [decode_overlapSchema, Normalizer.normalize_apply, Normalizer.compatible_apply]
  rw [Normalizer.normalizeAt, ← memo_eq selfRuns_sound]
  decide

end OpenBindings.SchemaProfile.Shared
