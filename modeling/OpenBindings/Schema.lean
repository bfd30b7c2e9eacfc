import OpenBindings.Compat

/-! # Schema positions

A schema's sub-schemas sit under `properties` (each value that is an object), under
`additionalProperties` and `items` when they are objects, and among the object variants of
`oneOf` and `anyOf`: the positions `normalizeAt` recurses into and `compat` compares. `Child m r`
says that `m` sits directly below `r`, and `AllNodes P r` that `P` holds at `r` and at every
position below it. Positions are read with `lookup`, as the Go code reads them with `m[k]`. -/

namespace OpenBindings.SchemaProfile

/-- `m` is a sub-schema directly below `r`. -/
def Child (m r : JObj) : Prop :=
  (∃ ps k, lookup r "properties" = some (.obj ps) ∧ (k, JValue.obj m) ∈ ps) ∨
  lookup r "additionalProperties" = some (.obj m) ∨
  lookup r "items" = some (.obj m) ∨
  ∃ k ∈ ["oneOf", "anyOf"], ∃ xs, lookup r k = some (.arr xs) ∧ JValue.obj m ∈ xs

/-- `P` holds at the schema and at every schema position below it. -/
inductive AllNodes (P : JObj → Prop) : JObj → Prop
  | node {r : JObj} (here : P r) (below : ∀ m, Child m r → AllNodes P m) : AllNodes P r

namespace AllNodes

variable {P : JObj → Prop} {r : JObj}

theorem root (h : AllNodes P r) : P r := by cases h with | node here _ => exact here

theorem child (h : AllNodes P r) {m : JObj} (hm : Child m r) : AllNodes P m := by
  cases h with | node _ below => exact below m hm

/-- A schema with nothing below it. -/
theorem leaf (h : P r) (hleaf : ∀ m, ¬ Child m r) : AllNodes P r := node h fun m hm => absurd hm (hleaf m)

/-- A property holding at every position implies a weaker one at every position. -/
theorem mono {Q : JObj → Prop} (hPQ : ∀ r, P r → Q r) : ∀ {r}, AllNodes P r → AllNodes Q r
  | _, node here below => node (hPQ _ here) fun m hm => mono hPQ (below m hm)

/-- Two properties holding at every position hold together at every position. -/
theorem and {Q : JObj → Prop} : ∀ {r}, AllNodes P r → AllNodes Q r → AllNodes (fun m => P m ∧ Q m) r
  | _, node hp bp, node hq bq => node ⟨hp, hq⟩ fun m hm => AllNodes.and (bp m hm) (bq m hm)

end AllNodes

/-- A sub-schema is shallower than the schema it sits in. -/
theorem Child.depth_lt {m r : JObj} (h : Child m r) : JValue.depthObj m < JValue.depthObj r := by
  rcases h with ⟨ps, k, hps, hmem⟩ | hap | hit | ⟨k, -, xs, hxs, hmem⟩
  · have h1 := JValue.depth_lt_of_lookup hps
    have h2 := JValue.depth_le_depthObj_of_mem hmem
    simp only [JValue.depth] at h1 h2
    omega
  · have h1 := JValue.depth_lt_of_lookup hap
    simp only [JValue.depth] at h1
    omega
  · have h1 := JValue.depth_lt_of_lookup hit
    simp only [JValue.depth] at h1
    omega
  · have h1 := JValue.depth_lt_of_lookup hxs
    have h2 := JValue.depth_le_depthList_of_mem hmem
    simp only [JValue.depth] at h1 h2
    omega

end OpenBindings.SchemaProfile
