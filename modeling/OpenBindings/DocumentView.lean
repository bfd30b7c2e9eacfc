import OpenBindings.Integrity
import OpenBindings.LosslessKeep
import Mathlib.Tactic.LiftLets
import Mathlib.Data.List.Dedup

/-! # What `Validate` reads of a decoded document

`Validate` runs on the structs `UnmarshalJSON` fills. The model of `Validate` (`OpenBindings.Interface`
and its parts) keeps the fields `Validate` and `Resolve` read and the keys of each `Unknown` map; the
model of the codec (`OpenBindings.Lossless.Interface` and its parts) keeps every field. `view` maps
the second onto the first field by field, so what is proved of `Validate` holds of the documents the
codec produces.

Two results tie the levels together. The decoder of `TransformOrRef` that the model of `Validate`
takes is the view of the codec's, on inputs that repeat no name, where the `$ref` member is the only
one of its name (`TransformOrRef.unmarshalJSON_view`). And the problem `Validate` appends for unknown
fields under `WithRejectUnknownTypedFields` lists exactly the input's member names that are outside
the type's known names and do not start with `x-`, sorted and each once
(`appendUnknownFieldProblems_unmarshalTyped`). -/

namespace OpenBindings

open SchemaProfile (hasPrefix)

/-- A Go map of typed values filled by assigning its entries in order, `m[k] = v`. -/
def GoMap.ofList {α : Type} (l : List (String × α)) : GoMap α :=
  ⟨l.foldl (fun m kv => GoJson.mapSet m kv.1 kv.2) [], (@GoJson.keys_foldl_mapSet _ l [] List.nodup_nil).1⟩

theorem GoMap.contains_ofList {α : Type} {l : List (String × α)} {k : String} :
    (GoMap.ofList l).contains k = true ↔ k ∈ l.map Prod.fst := by
  have hk : ∀ k, k ∈ (GoMap.ofList l).entries.map Prod.fst ↔ k ∈ l.map Prod.fst := fun k =>
    ((@GoJson.keys_foldl_mapSet _ l [] List.nodup_nil).2 k).trans (by simp)
  rw [GoMap.contains_iff, ← hk]
  simp

namespace Lossless

open GoJson

/-! ### The view -/

/-- The keys of the kept unknown members: what `Validate` reads of `Unknown`. -/
def unknownKeys (u : JObj) : GoMap Unit := GoMap.ofList (u.map fun kv => (kv.1, ()))

def Satisfies.view (s : Satisfies) : OpenBindings.Satisfies :=
  { interface := s.interface, operation := s.operation, unknown := unknownKeys s.unknown }

def OperationExample.view (e : OperationExample) : OpenBindings.OperationExample :=
  { unknown := unknownKeys e.unknown }

/-- An `Operation` as `Validate` reads it; a `nil` examples map has no entries. -/
def Operation.view (o : Operation) : OpenBindings.Operation :=
  { kind := o.kind, aliases := o.aliases, satisfies := o.satisfies.map Satisfies.view,
    payload := o.payload,
    examples := GoMap.ofList ((o.examples.getD []).map fun kv => (kv.1, kv.2.view)),
    unknown := unknownKeys o.unknown }

/-- A `Source` as `Validate` reads it; `Content` holds `nil` where the decoded `any` is `null`. -/
def Source.view (s : Source) : OpenBindings.Source :=
  { format := s.format, location := s.location,
    content := if s.content = .null then none else some s.content, unknown := unknownKeys s.unknown }

def Transform.view (t : Transform) : OpenBindings.Transform :=
  { type := t.type, expression := t.expression, unknown := unknownKeys t.unknown }

def TransformOrRef.view (t : TransformOrRef) : OpenBindings.TransformOrRef :=
  { ref := t.ref, transform := t.transform.map Transform.view }

def BindingEntry.view (b : BindingEntry) : OpenBindings.BindingEntry :=
  { operation := b.operation, source := b.source,
    inputTransform := b.inputTransform.map TransformOrRef.view,
    outputTransform := b.outputTransform.map TransformOrRef.view, unknown := unknownKeys b.unknown }

/-- An `Interface` as `Validate` reads it: `Operations` keeps `nil` apart, and the other maps read
a `nil` map as empty. -/
def Interface.view (i : Interface) : OpenBindings.Interface :=
  { openBindings := i.openBindings,
    operations := i.operations.map fun m => GoMap.ofList (m.map fun kv => (kv.1, kv.2.view)),
    imports := GoMap.ofList (i.imports.getD []),
    sources := GoMap.ofList ((i.sources.getD []).map fun kv => (kv.1, kv.2.view)),
    bindings := GoMap.ofList ((i.bindings.getD []).map fun kv => (kv.1, kv.2.view)),
    transforms := GoMap.ofList ((i.transforms.getD []).map fun kv => (kv.1, kv.2.view)),
    unknown := unknownKeys i.unknown }

/-! ### The decoder of `TransformOrRef` -/

/-- On an input that repeats no name, the decoder the model of `Validate` takes, given the codec's
`Transform` decoder, is the view of the codec's `TransformOrRef` decoder. -/
theorem TransformOrRef.unmarshalJSON_view {b : JValue} (hb : ((members b).map Prod.fst).Nodup) :
    (TransformOrRef.unmarshalJSON b).map TransformOrRef.view =
      OpenBindings.TransformOrRef.unmarshalJSON (fun b => (Transform.unmarshalJSON b).map Transform.view)
        b := by
  cases b with
  | obj m =>
    have hl : lookup (rawMap m) "$ref" = lookup m "$ref" := by
      rw [lookup_rawMap, lookup_reverse (show (m.map Prod.fst).Nodup from hb)]
    simp only [TransformOrRef.unmarshalJSON, OpenBindings.TransformOrRef.unmarshalJSON, rawObject, hl,
      Option.bind_eq_bind, Option.some_bind]
    cases lookup m "$ref" with
    | none => simp [Option.map_map, Function.comp_def, TransformOrRef.view]
    | some v => cases v <;> rfl
  | null => simp [TransformOrRef.unmarshalJSON, OpenBindings.TransformOrRef.unmarshalJSON, rawObject,
      Option.map_map, Function.comp_def, TransformOrRef.view]
  | _ => rfl

/- An inline transform decodes to the same value at both levels. -/
example :
    ((members (.obj [("type", .str "jsonata"), ("expression", .str "$")])).map Prod.fst).Nodup ∧
      (TransformOrRef.unmarshalJSON (.obj [("type", .str "jsonata"), ("expression", .str "$")])).map
          TransformOrRef.view =
        OpenBindings.TransformOrRef.unmarshalJSON
          (fun b => (Transform.unmarshalJSON b).map Transform.view)
          (.obj [("type", .str "jsonata"), ("expression", .str "$")]) :=
  ⟨by decide, TransformOrRef.unmarshalJSON_view (by decide)⟩

/-! ### Unknown fields -/

/-- The keys `Validate` reads of a decoded value's `Unknown` are the input's member names outside
the known set that do not start with `x-`. -/
theorem contains_unknownKeys_unmarshalTyped {σ τ : Type} {mk : σ → LosslessFields → τ}
    {fields : Fields σ} {zero : σ} {known : List String} {b : JValue} {d : τ}
    (h : unmarshalTyped mk fields zero known b = some d) (lf : τ → LosslessFields)
    (hlf : ∀ w l, lf (mk w l) = l) (k : String) :
    (unknownKeys (lf d).unknown).contains k = true ↔
      k ∈ (members b).map Prod.fst ∧ k ∉ known ∧ hasPrefix k "x-" = false := by
  obtain ⟨raw, w, hraw, -, rfl⟩ := unmarshalTyped_eq_some.1 h
  obtain ⟨hn, hl⟩ := rawObject_eq_some hraw
  have hmem : ∀ m : JObj, k ∈ m.map Prod.fst ↔ lookup m k ≠ none := fun m => by
    rw [Ne, lookup_eq_none_iff, not_not]
  rw [hlf, unknownKeys, GoMap.contains_ofList, List.map_map, show (Prod.fst ∘ fun kv : String × JValue =>
    (kv.1, ())) = Prod.fst from rfl, hmem, (lookup_splitLossless raw known k).2, lookup_reverse hn, hl]
  split_ifs with hk
  · rw [← hmem, List.map_reverse, List.mem_reverse]
    exact ⟨fun h => ⟨h, hk⟩, fun h => h.1⟩
  · exact ⟨fun h => absurd rfl h, fun h => absurd h.2 hk⟩

/-- Under `WithRejectUnknownTypedFields`, the problem `Validate` appends for a decoded value's
`Unknown` lists the input's member names outside the known set that do not start with `x-`, sorted
and each once; there is none when the input has no such name. -/
theorem appendUnknownFieldProblems_unmarshalTyped {σ τ : Type} {mk : σ → LosslessFields → τ}
    {fields : Fields σ} {zero : σ} {known : List String} {b : JValue} {d : τ}
    (h : unmarshalTyped mk fields zero known b = some d) (lf : τ → LosslessFields)
    (hlf : ∀ w l, lf (mk w l) = l) (pre : String) :
    appendUnknownFieldProblems pre (unknownKeys (lf d).unknown) =
      let names := (((members b).map Prod.fst).filter
        fun k => k ∉ known ∧ hasPrefix k "x-" = false).dedup.insertionSort (· ≤ ·)
      if names = [] then []
      else
        let keys := ", ".intercalate names
        if pre = "" then ["unknown fields: " ++ keys] else [pre ++ ": unknown fields: " ++ keys] := by
  lift_lets
  intro names keys
  have hsort : ((unknownKeys (lf d).unknown).entries.map Prod.fst).insertionSort (· ≤ ·) = names := by
    refine List.eq_of_perm_of_sorted ?_ (List.sorted_insertionSort _ _) (List.sorted_insertionSort _ _)
    refine ((List.perm_insertionSort _ _).trans ?_).trans (List.perm_insertionSort _ _).symm
    refine (List.perm_ext_iff_of_nodup (unknownKeys (lf d).unknown).nodup (List.nodup_dedup _)).2
      fun k => ?_
    have hc := contains_unknownKeys_unmarshalTyped h lf hlf k
    rw [GoMap.contains_iff] at hc
    simp only [List.mem_map, Prod.exists, exists_and_right, exists_eq_right, hc, List.mem_dedup,
      List.mem_filter, decide_eq_true_eq]
  have hnil : (unknownKeys (lf d).unknown).entries = [] ↔ names = [] := by
    rw [← hsort, ← List.length_eq_zero, ← List.length_eq_zero, List.length_insertionSort,
      List.length_map]
  unfold appendUnknownFieldProblems
  simp only [hnil, hsort]

/-- A document with an unknown member given twice beside an `x-` member: the problem names the
unknown member once. -/
theorem appendUnknownFieldProblems_interface :
    Interface.unmarshalJSON (.obj [("openbindings", .str "0.1.0"), ("zz", .null), ("x-a", .null),
        ("zz", .bool true)]) =
      some { openBindings := "0.1.0", extensions := [("x-a", .null)], unknown := [("zz", .bool true)] } ∧
    appendUnknownFieldProblems "" (unknownKeys [("zz", .bool true)]) = ["unknown fields: zz"] :=
  have h : Interface.unmarshalJSON (.obj [("openbindings", .str "0.1.0"), ("zz", .null),
      ("x-a", .null), ("zz", .bool true)]) =
      some { openBindings := "0.1.0", extensions := [("x-a", .null)], unknown := [("zz", .bool true)] } := by
    decide
  ⟨h, (appendUnknownFieldProblems_unmarshalTyped h Interface.toLosslessFields (fun _ _ => rfl) "").trans
    (by decide)⟩

end Lossless

end OpenBindings
