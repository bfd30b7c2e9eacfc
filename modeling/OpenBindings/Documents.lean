import OpenBindings.Lossless

/-! # The typed documents (`types.go`)

Each document type of `types.go` is a struct of typed fields that embeds `LosslessFields`, with a
parallel wire struct that holds the typed fields alone. `UnmarshalJSON` reads the JSON value twice,
as raw members and into the wire struct, copies the wire fields over and splits the raw members
outside the type's known names into extensions and unknown fields; the seven methods share this
body, `unmarshalTyped`. `MarshalJSON` copies the typed fields into a wire struct and lets
`marshalLossless` write it over the kept members.

A typed struct here extends its wire struct and `LosslessFields`, so the copy between the two is
the projection `toXWire`. A wire struct's decoding is its field table (`xWireFields`): each JSON
name with the decoder `encoding/json` uses for the field's Go type. Its encoding (`XWire.encode`)
writes the fields in declaration order and leaves out a field tagged `omitempty` that holds its
zero value. `TransformOrRef` has methods of its own: an object with `$ref` is a reference, kept
with its `x-` members, and anything else an inline transform. -/

namespace OpenBindings.Lossless

open GoJson
open SchemaProfile (hasPrefix)

/-- `LosslessFields`: the `x-` members and the other members a typed struct has no field for. -/
structure LosslessFields where
  extensions : JObj := []
  unknown : JObj := []
deriving DecidableEq

/-! ### Known names -/

def knownSatisfiesSet : List String := knownSet ["interface", "operation"]

def knownOperationSet : List String :=
  knownSet ["kind", "description", "deprecated", "tags", "aliases", "satisfies",
    "idempotent", "input", "output", "payload", "examples"]

def knownOperationExampleSet : List String :=
  knownSet ["description", "input", "output", "payload"]

def knownSourceSet : List String := knownSet ["format", "location", "content", "description"]

def knownBindingEntrySet : List String :=
  knownSet ["operation", "source", "ref", "priority", "description", "deprecated",
    "inputTransform", "outputTransform"]

def knownTransformSet : List String := knownSet ["type", "expression"]

def knownInterfaceSet : List String :=
  knownSet ["openbindings", "name", "version", "description", "contact", "license",
    "schemas", "operations", "imports", "sources", "bindings", "transforms"]

/-- The body of every lossless `UnmarshalJSON`: the raw members, the wire struct, then the raw
members outside `known` split into extensions and unknown fields. -/
def unmarshalTyped {σ τ : Type} (mk : σ → LosslessFields → τ) (fields : Fields σ) (zero : σ)
    (known : List String) (b : JValue) : Option τ := do
  let raw ← rawObject b
  let w ← decodeStruct fields zero b
  let parts := splitLossless raw known
  pure (mk w ⟨parts.1, parts.2⟩)

/-! ### `Satisfies` -/

/-- `satisfiesWire`. -/
structure SatisfiesWire where
  interface : String := ""
  operation : String := ""
deriving DecidableEq

/-- `Satisfies`. -/
structure Satisfies extends SatisfiesWire, LosslessFields
deriving DecidableEq

def satisfiesWireFields : Fields SatisfiesWire :=
  [("interface", fun w v => (decodeString w.interface v).map fun x => { w with interface := x }),
   ("operation", fun w v => (decodeString w.operation v).map fun x => { w with operation := x })]

def SatisfiesWire.encode (w : SatisfiesWire) : JObj :=
  [("interface", .str w.interface), ("operation", .str w.operation)]

theorem SatisfiesWire.keys_encode (w : SatisfiesWire) :
    (w.encode.map Prod.fst).Sublist knownSatisfiesSet :=
  List.Sublist.refl _

def Satisfies.unmarshalJSON : JValue → Option Satisfies :=
  unmarshalTyped Satisfies.mk satisfiesWireFields {} knownSatisfiesSet

def Satisfies.marshalJSON (s : Satisfies) : JValue :=
  marshalLossless s.unknown s.extensions s.toSatisfiesWire.encode

/-! ### `OperationExample` -/

/-- `operationExampleWire`; an `any` field holds `null` for `nil`. -/
structure OperationExampleWire where
  description : String := ""
  input : JValue := .null
  output : JValue := .null
  payload : JValue := .null
deriving DecidableEq

/-- `OperationExample`. -/
structure OperationExample extends OperationExampleWire, LosslessFields
deriving DecidableEq

def operationExampleWireFields : Fields OperationExampleWire :=
  [("description", fun w v => (decodeString w.description v).map fun x => { w with description := x }),
   ("input", fun w v => (decodeAnyField w.input v).map fun x => { w with input := x }),
   ("output", fun w v => (decodeAnyField w.output v).map fun x => { w with output := x }),
   ("payload", fun w v => (decodeAnyField w.payload v).map fun x => { w with payload := x })]

def OperationExampleWire.encode (w : OperationExampleWire) : JObj :=
  omitString "description" w.description ++ omitAny "input" w.input ++ omitAny "output" w.output ++
    omitAny "payload" w.payload

theorem OperationExampleWire.keys_encode (w : OperationExampleWire) :
    (w.encode.map Prod.fst).Sublist knownOperationExampleSet := by
  simp only [encode, List.map_append]
  exact (((keys_omitString _ _).append (keys_omitAny _ _)).append (keys_omitAny _ _)).append
    (keys_omitAny _ _)

def OperationExample.unmarshalJSON : JValue → Option OperationExample :=
  unmarshalTyped OperationExample.mk operationExampleWireFields {} knownOperationExampleSet

def OperationExample.marshalJSON (e : OperationExample) : JValue :=
  marshalLossless e.unknown e.extensions e.toOperationExampleWire.encode

/-! ### `Operation` -/

/-- `operationWire`; a `nil` pointer, `JSONSchema` or map is `none`. -/
structure OperationWire where
  kind : String := ""
  description : String := ""
  deprecated : Bool := false
  tags : List String := []
  aliases : List String := []
  satisfies : List Satisfies := []
  idempotent : Option Bool := none
  input : Option JObj := none
  output : Option JObj := none
  payload : Option JObj := none
  examples : Option (List (String × OperationExample)) := none
deriving DecidableEq

/-- `Operation`. -/
structure Operation extends OperationWire, LosslessFields
deriving DecidableEq

def operationWireFields : Fields OperationWire :=
  [("kind", fun w v => (decodeString w.kind v).map fun x => { w with kind := x }),
   ("description", fun w v => (decodeString w.description v).map fun x => { w with description := x }),
   ("deprecated", fun w v => (decodeBool w.deprecated v).map fun x => { w with deprecated := x }),
   ("tags", fun w v => (decodeStrings w.tags v).map fun x => { w with tags := x }),
   ("aliases", fun w v => (decodeStrings w.aliases v).map fun x => { w with aliases := x }),
   ("satisfies", fun w v =>
      (decodeElems Satisfies.unmarshalJSON w.satisfies v).map fun x => { w with satisfies := x }),
   ("idempotent", fun w v => (decodePtrBool w.idempotent v).map fun x => { w with idempotent := x }),
   ("input", fun w v => (decodeAnyMap w.input v).map fun x => { w with input := x }),
   ("output", fun w v => (decodeAnyMap w.output v).map fun x => { w with output := x }),
   ("payload", fun w v => (decodeAnyMap w.payload v).map fun x => { w with payload := x }),
   ("examples", fun w v =>
      (decodeMap OperationExample.unmarshalJSON w.examples v).map fun x => { w with examples := x })]

def OperationWire.encode (w : OperationWire) : JObj :=
  [("kind", .str w.kind)] ++ omitString "description" w.description ++
    omitBool "deprecated" w.deprecated ++ omitStrings "tags" w.tags ++
    omitStrings "aliases" w.aliases ++ omitElems "satisfies" Satisfies.marshalJSON w.satisfies ++
    omitPtrBool "idempotent" w.idempotent ++ omitAnyMap "input" w.input ++
    omitAnyMap "output" w.output ++ omitAnyMap "payload" w.payload ++
    omitMap "examples" OperationExample.marshalJSON w.examples

theorem OperationWire.keys_encode (w : OperationWire) :
    (w.encode.map Prod.fst).Sublist knownOperationSet := by
  simp only [encode, List.map_append]
  exact ((((((((((List.Sublist.refl _).append (keys_omitString _ _)).append
    (keys_omitBool _ _)).append (keys_omitStrings _ _)).append (keys_omitStrings _ _)).append
    (keys_omitElems _ _ _)).append (keys_omitPtrBool _ _)).append (keys_omitAnyMap _ _)).append
    (keys_omitAnyMap _ _)).append (keys_omitAnyMap _ _)).append (keys_omitMap _ _ _)

def Operation.unmarshalJSON : JValue → Option Operation :=
  unmarshalTyped Operation.mk operationWireFields {} knownOperationSet

def Operation.marshalJSON (o : Operation) : JValue :=
  marshalLossless o.unknown o.extensions o.toOperationWire.encode

/-! ### `Source` -/

/-- `sourceWire`. -/
structure SourceWire where
  format : String := ""
  location : String := ""
  content : JValue := .null
  description : String := ""
deriving DecidableEq

/-- `Source`. -/
structure Source extends SourceWire, LosslessFields
deriving DecidableEq

def sourceWireFields : Fields SourceWire :=
  [("format", fun w v => (decodeString w.format v).map fun x => { w with format := x }),
   ("location", fun w v => (decodeString w.location v).map fun x => { w with location := x }),
   ("content", fun w v => (decodeAnyField w.content v).map fun x => { w with content := x }),
   ("description", fun w v => (decodeString w.description v).map fun x => { w with description := x })]

def SourceWire.encode (w : SourceWire) : JObj :=
  [("format", .str w.format)] ++ omitString "location" w.location ++ omitAny "content" w.content ++
    omitString "description" w.description

theorem SourceWire.keys_encode (w : SourceWire) :
    (w.encode.map Prod.fst).Sublist knownSourceSet := by
  simp only [encode, List.map_append]
  exact (((List.Sublist.refl _).append (keys_omitString _ _)).append (keys_omitAny _ _)).append
    (keys_omitString _ _)

def Source.unmarshalJSON : JValue → Option Source :=
  unmarshalTyped Source.mk sourceWireFields {} knownSourceSet

def Source.marshalJSON (s : Source) : JValue :=
  marshalLossless s.unknown s.extensions s.toSourceWire.encode

/-! ### `Transform` and `TransformOrRef` -/

/-- `transformWire`. -/
structure TransformWire where
  type : String := ""
  expression : String := ""
deriving DecidableEq

/-- `Transform`. -/
structure Transform extends TransformWire, LosslessFields
deriving DecidableEq

def transformWireFields : Fields TransformWire :=
  [("type", fun w v => (decodeString w.type v).map fun x => { w with type := x }),
   ("expression", fun w v => (decodeString w.expression v).map fun x => { w with expression := x })]

def TransformWire.encode (w : TransformWire) : JObj :=
  [("type", .str w.type), ("expression", .str w.expression)]

theorem TransformWire.keys_encode (w : TransformWire) :
    (w.encode.map Prod.fst).Sublist knownTransformSet :=
  List.Sublist.refl _

def Transform.unmarshalJSON : JValue → Option Transform :=
  unmarshalTyped Transform.mk transformWireFields {} knownTransformSet

def Transform.marshalJSON (t : Transform) : JValue :=
  marshalLossless t.unknown t.extensions t.toTransformWire.encode

/-- `TransformOrRef`: a reference when `ref` is not empty, with the `x-` members beside `$ref`;
else the inline `transform`, if any. -/
structure TransformOrRef where
  ref : String := ""
  transform : Option Transform := none
  refExtensions : JObj := []
deriving DecidableEq

/-- One iteration of the loop of `TransformOrRef.UnmarshalJSON` over the raw members: an `x-`
member beside `$ref` is kept. -/
def keepRefExtension (acc : JObj) (kv : String × JValue) : JObj :=
  if kv.1 = "$ref" then acc
  else if hasPrefix kv.1 "x-" then setField acc kv.1 kv.2
  else acc

/-- The `x-` members beside `$ref`. -/
def refExtensionsOf (raw : JObj) : JObj := raw.foldl keepRefExtension []

/-- `TransformOrRef.UnmarshalJSON`: with a `$ref` member, a reference to the string there (`""`
for `null`); without one, an inline transform. -/
def TransformOrRef.unmarshalJSON (b : JValue) : Option TransformOrRef := do
  let raw ← rawObject b
  match lookup raw "$ref" with
  | some refRaw =>
    let ref ← decodeString "" refRaw
    pure { ref := ref, refExtensions := refExtensionsOf raw }
  | none => (Transform.unmarshalJSON b).map fun tr => { transform := some tr }

/-- `TransformOrRef.MarshalJSON`: a reference is its `x-` members with `$ref` set, an inline
transform its own encoding, and a value with neither `null`. -/
def TransformOrRef.marshalJSON (t : TransformOrRef) : JValue :=
  if t.ref ≠ "" then
    let out := t.refExtensions.foldl (fun o kv => setField o kv.1 kv.2) []
    .obj (sortMembers (setField out "$ref" (.str t.ref)))
  else match t.transform with
    | some tr => tr.marshalJSON
    | none => .null

/-! ### `BindingEntry` -/

/-- `bindingEntryWire`. -/
structure BindingEntryWire where
  operation : String := ""
  source : String := ""
  ref : String := ""
  priority : Option Float64 := none
  description : String := ""
  deprecated : Bool := false
  inputTransform : Option TransformOrRef := none
  outputTransform : Option TransformOrRef := none
deriving DecidableEq

/-- `BindingEntry`. -/
structure BindingEntry extends BindingEntryWire, LosslessFields
deriving DecidableEq

def bindingEntryWireFields : Fields BindingEntryWire :=
  [("operation", fun w v => (decodeString w.operation v).map fun x => { w with operation := x }),
   ("source", fun w v => (decodeString w.source v).map fun x => { w with source := x }),
   ("ref", fun w v => (decodeString w.ref v).map fun x => { w with ref := x }),
   ("priority", fun w v => (decodePtrFloat w.priority v).map fun x => { w with priority := x }),
   ("description", fun w v => (decodeString w.description v).map fun x => { w with description := x }),
   ("deprecated", fun w v => (decodeBool w.deprecated v).map fun x => { w with deprecated := x }),
   ("inputTransform", fun w v =>
      (decodePtr TransformOrRef.unmarshalJSON w.inputTransform v).map fun x =>
        { w with inputTransform := x }),
   ("outputTransform", fun w v =>
      (decodePtr TransformOrRef.unmarshalJSON w.outputTransform v).map fun x =>
        { w with outputTransform := x })]

def BindingEntryWire.encode (w : BindingEntryWire) : JObj :=
  [("operation", .str w.operation), ("source", .str w.source)] ++ omitString "ref" w.ref ++
    omitPtrFloat "priority" w.priority ++ omitString "description" w.description ++
    omitBool "deprecated" w.deprecated ++
    omitPtr "inputTransform" TransformOrRef.marshalJSON w.inputTransform ++
    omitPtr "outputTransform" TransformOrRef.marshalJSON w.outputTransform

theorem BindingEntryWire.keys_encode (w : BindingEntryWire) :
    (w.encode.map Prod.fst).Sublist knownBindingEntrySet := by
  simp only [encode, List.map_append]
  exact ((((((List.Sublist.refl _).append (keys_omitString _ _)).append
    (keys_omitPtrFloat _ _)).append (keys_omitString _ _)).append (keys_omitBool _ _)).append
    (keys_omitPtr _ _ _)).append (keys_omitPtr _ _ _)

def BindingEntry.unmarshalJSON : JValue → Option BindingEntry :=
  unmarshalTyped BindingEntry.mk bindingEntryWireFields {} knownBindingEntrySet

def BindingEntry.marshalJSON (be : BindingEntry) : JValue :=
  marshalLossless be.unknown be.extensions be.toBindingEntryWire.encode

/-! ### `Interface` -/

/-- `interfaceWire`. -/
structure InterfaceWire where
  openBindings : String := ""
  name : String := ""
  version : String := ""
  description : String := ""
  contact : Option JObj := none
  license : Option JObj := none
  schemas : Option (List (String × Option JObj)) := none
  operations : Option (List (String × Operation)) := none
  imports : Option (List (String × String)) := none
  sources : Option (List (String × Source)) := none
  bindings : Option (List (String × BindingEntry)) := none
  transforms : Option (List (String × Transform)) := none
deriving DecidableEq

/-- `Interface`, the OpenBindings document. -/
structure Interface extends InterfaceWire, LosslessFields
deriving DecidableEq

def interfaceWireFields : Fields InterfaceWire :=
  [("openbindings", fun w v =>
      (decodeString w.openBindings v).map fun x => { w with openBindings := x }),
   ("name", fun w v => (decodeString w.name v).map fun x => { w with name := x }),
   ("version", fun w v => (decodeString w.version v).map fun x => { w with version := x }),
   ("description", fun w v => (decodeString w.description v).map fun x => { w with description := x }),
   ("contact", fun w v => (decodeAnyMap w.contact v).map fun x => { w with contact := x }),
   ("license", fun w v => (decodeAnyMap w.license v).map fun x => { w with license := x }),
   ("schemas", fun w v => (decodeMap (decodeAnyMap none) w.schemas v).map fun x => { w with schemas := x }),
   ("operations", fun w v =>
      (decodeMap Operation.unmarshalJSON w.operations v).map fun x => { w with operations := x }),
   ("imports", fun w v => (decodeMap (decodeString "") w.imports v).map fun x => { w with imports := x }),
   ("sources", fun w v =>
      (decodeMap Source.unmarshalJSON w.sources v).map fun x => { w with sources := x }),
   ("bindings", fun w v =>
      (decodeMap BindingEntry.unmarshalJSON w.bindings v).map fun x => { w with bindings := x }),
   ("transforms", fun w v =>
      (decodeMap Transform.unmarshalJSON w.transforms v).map fun x => { w with transforms := x })]

def InterfaceWire.encode (w : InterfaceWire) : JObj :=
  [("openbindings", .str w.openBindings)] ++ omitString "name" w.name ++
    omitString "version" w.version ++ omitString "description" w.description ++
    omitAnyMap "contact" w.contact ++ omitAnyMap "license" w.license ++
    omitMap "schemas" encodeAnyMap w.schemas ++
    [("operations", encodeMapField Operation.marshalJSON w.operations)] ++
    omitMap "imports" JValue.str w.imports ++ omitMap "sources" Source.marshalJSON w.sources ++
    omitMap "bindings" BindingEntry.marshalJSON w.bindings ++
    omitMap "transforms" Transform.marshalJSON w.transforms

theorem InterfaceWire.keys_encode (w : InterfaceWire) :
    (w.encode.map Prod.fst).Sublist knownInterfaceSet := by
  simp only [encode, List.map_append]
  exact ((((((((((((List.Sublist.refl _).append (keys_omitString _ _)).append
    (keys_omitString _ _)).append (keys_omitString _ _)).append (keys_omitAnyMap _ _)).append
    (keys_omitAnyMap _ _)).append (keys_omitMap _ _ _)).append (List.Sublist.refl _)).append
    (keys_omitMap _ _ _)).append (keys_omitMap _ _ _)).append (keys_omitMap _ _ _)).append
    (keys_omitMap _ _ _))

def Interface.unmarshalJSON : JValue → Option Interface :=
  unmarshalTyped Interface.mk interfaceWireFields {} knownInterfaceSet

def Interface.marshalJSON (i : Interface) : JValue :=
  marshalLossless i.unknown i.extensions i.toInterfaceWire.encode

end OpenBindings.Lossless
