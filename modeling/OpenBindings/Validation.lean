import OpenBindings.Schema
import Mathlib.Data.Rat.Defs

/-! # What a schema means: validation of instances

The instance semantics of the profile keywords, as JSON Schema 2020-12 gives it, written as a
checker over decoded schemas. A keyword whose value has the wrong JSON type constrains nothing.
Numbers are compared by their exact value (`Float64.toRat`), which is how Go compares doubles;
`integer` admits the numbers with no fractional part; lengths count code points; `enum` and
`const` compare by canonical JSON. `properties`, `additionalProperties`, `items`, `allOf`,
`anyOf` and `oneOf` (exactly one variant) apply sub-schemas, where `true` and `false` accept and
reject everything. A `$ref` applies the schema it denotes together with its siblings.

Three choices are left to a `Reading`: what each reference denotes (the document context that
resolves it), whether `oneOf` is read as `anyOf` (the decider treats the two alike), and whether
`additionalProperties` is ignored (the input rules ignore it on purpose).

`validate` spends one unit of fuel per sub-schema it enters and accepts when the fuel is gone, so
`Valid` is the answer validation settles on as the fuel grows. -/

namespace OpenBindings

namespace Float64

/-- The exact value of a double. -/
def toRat (f : Float64) : ℚ :=
  if 0 ≤ f.exp then (f.num : ℚ) * (2 ^ f.exp.toNat : ℕ) else (f.num : ℚ) / (2 ^ (-f.exp).toNat : ℕ)

end Float64

namespace SchemaProfile

open CanonicalJson

/-- The choices validation leaves open. -/
structure Reading where
  /-- The schema each `$ref` value denotes. -/
  refs : String → Option JObj
  /-- `oneOf` asks for some variant instead of exactly one. -/
  oneOfAsAnyOf : Bool
  /-- `additionalProperties` constrains nothing. -/
  ignoreAdditional : Bool

/-- The type name `t` admits `x`: its own JSON type, or `integer` for a number with no
fractional part. -/
def typeAdmits (t : String) : JValue → Bool
  | .null => t == "null"
  | .bool _ => t == "boolean"
  | .num f => t == "number" || (t == "integer" && f.toRat.den == 1)
  | .str _ => t == "string"
  | .arr _ => t == "array"
  | .obj _ => t == "object"

/-- Equality of JSON values: the same canonical text. -/
def jsonEq (a b : JValue) : Bool := writeJCS a == writeJCS b

/-- `type`: a listed name admits the value. -/
def typeValid (s : JObj) (x : JValue) : Bool :=
  match lookup s "type" with
  | some (.str t) => typeAdmits t x
  | some (.arr ts) => ts.any fun t => match t with
    | .str t => typeAdmits t x
    | _ => false
  | _ => true

/-- `required`: every listed name is a member of the object. -/
def requiredValid (s : JObj) (x : JValue) : Bool :=
  match x, lookup s "required" with
  | .obj m, some (.arr rs) => rs.all fun r => match r with
    | .str k => hasKey m k
    | _ => true
  | _, _ => true

/-- `enum`: the value equals one of the listed values. -/
def enumValid (s : JObj) (x : JValue) : Bool :=
  match lookup s "enum" with
  | some (.arr vs) => vs.any (jsonEq x)
  | _ => true

/-- `const`: the value equals the constant. -/
def constValid (s : JObj) (x : JValue) : Bool :=
  match lookup s "const" with
  | some c => jsonEq c x
  | none => true

/-- The value of the numeric keyword `k`, if it holds a number. -/
def numKeyword (s : JObj) (k : String) : Option ℚ :=
  match lookup s k with
  | some (.num f) => some f.toRat
  | _ => none

/-- The bound of keyword `k` admits a quantity by `ok`, or `k` sets no bound. -/
def boundValid (s : JObj) (k : String) (ok : ℚ → Bool) : Bool := ((numKeyword s k).map ok).getD true

/-- The four bounds of a number. -/
def numberValid (s : JObj) : JValue → Bool
  | .num f => boundValid s "minimum" (fun b => decide (b ≤ f.toRat)) &&
    boundValid s "maximum" (fun b => decide (f.toRat ≤ b)) &&
    boundValid s "exclusiveMinimum" (fun b => decide (b < f.toRat)) &&
    boundValid s "exclusiveMaximum" (fun b => decide (f.toRat < b))
  | _ => true

/-- The length bounds of a string, in code points, and the size bounds of an array. -/
def lengthValid (s : JObj) : JValue → Bool
  | .str t => boundValid s "minLength" (fun b => decide (b ≤ t.length)) &&
    boundValid s "maxLength" (fun b => decide ((t.length : ℚ) ≤ b))
  | .arr xs => boundValid s "minItems" (fun b => decide (b ≤ xs.length)) &&
    boundValid s "maxItems" (fun b => decide ((xs.length : ℚ) ≤ b))
  | _ => true

/-- The keywords whose value is read as it stands, with no sub-schema in it. -/
def plainValid (s : JObj) (x : JValue) : Bool :=
  enumValid s x && constValid s x && numberValid s x && lengthValid s x

/-! ### Keywords that apply sub-schemas -/

/-- A sub-schema applied to `x`: an object is validated by `rec`, `true` and `false` accept and
reject, any other value constrains nothing. -/
def subschemaValid (rec : JObj → JValue → Bool) (sub x : JValue) : Bool :=
  match sub with
  | .obj s => rec s x
  | .bool b => b
  | _ => true

/-- `$ref`: the schema the reference denotes also validates `x`; a reference that denotes
nothing fails. -/
def refValid (refs : String → Option JObj) (rec : JObj → JValue → Bool) (s : JObj) (x : JValue) :
    Bool :=
  match lookup s "$ref" with
  | some (.str r) => match refs r with
    | some t => rec t x
    | none => false
  | _ => true

/-- `allOf`: every branch validates `x`. -/
def allOfValid (rec : JObj → JValue → Bool) (s : JObj) (x : JValue) : Bool :=
  match lookup s "allOf" with
  | some (.arr vs) => vs.all fun v => subschemaValid rec v x
  | _ => true

/-- `anyOf`: some variant validates `x`. -/
def anyOfValid (rec : JObj → JValue → Bool) (s : JObj) (x : JValue) : Bool :=
  match lookup s "anyOf" with
  | some (.arr vs) => vs.any fun v => subschemaValid rec v x
  | _ => true

/-- `oneOf`: exactly one variant validates `x`, or some variant when it is read as `anyOf`. -/
def oneOfValid (asAnyOf : Bool) (rec : JObj → JValue → Bool) (s : JObj) (x : JValue) : Bool :=
  match lookup s "oneOf" with
  | some (.arr vs) =>
    if asAnyOf then vs.any fun v => subschemaValid rec v x
    else vs.countP (fun v => subschemaValid rec v x) == 1
  | _ => true

/-- The schema `ps` gives the member `kv`, if any, validates its value. -/
def propertyValid (rec : JObj → JValue → Bool) (ps : JObj) (kv : String × JValue) : Bool :=
  (lookup ps kv.1).elim true fun sub => subschemaValid rec sub kv.2

/-- `properties`: each member named there is validated by its schema. -/
def propertiesValid (rec : JObj → JValue → Bool) (s : JObj) (x : JValue) : Bool :=
  match x, lookup s "properties" with
  | .obj m, some (.obj ps) => m.all (propertyValid rec ps)
  | _, _ => true

/-- The member name `k` is one of the schema's `properties`. -/
def declared (s : JObj) (k : String) : Bool :=
  match lookup s "properties" with
  | some (.obj ps) => hasKey ps k
  | _ => false

/-- `additionalProperties`: each member not named in `properties` is validated by it. -/
def additionalPropertiesValid (rec : JObj → JValue → Bool) (s : JObj) (x : JValue) : Bool :=
  match x, lookup s "additionalProperties" with
  | .obj m, some ap => m.all fun kv => declared s kv.1 || subschemaValid rec ap kv.2
  | _, _ => true

/-- `items`: each element is validated by it. -/
def itemsValid (rec : JObj → JValue → Bool) (s : JObj) (x : JValue) : Bool :=
  match x, lookup s "items" with
  | .arr xs, some it => xs.all fun y => subschemaValid rec it y
  | _, _ => true

/-- Validation of `x` against `s`, entering at most `fuel` levels of sub-schemas. -/
def validate (rd : Reading) : Nat → JObj → JValue → Bool
  | 0, _, _ => true
  | fuel + 1, s, x =>
    typeValid s x && requiredValid s x && plainValid s x && refValid rd.refs (validate rd fuel) s x &&
      allOfValid (validate rd fuel) s x && propertiesValid (validate rd fuel) s x &&
      (rd.ignoreAdditional || additionalPropertiesValid (validate rd fuel) s x) &&
      itemsValid (validate rd fuel) s x && anyOfValid (validate rd fuel) s x &&
      oneOfValid rd.oneOfAsAnyOf (validate rd fuel) s x

/-- `x` is valid against `s`: from some fuel on, validation accepts it. -/
def Valid (rd : Reading) (s : JObj) (x : JValue) : Prop :=
  ∃ n, ∀ m, n ≤ m → validate rd m s x = true

/-- Two schemas with the same verdicts at every fuel. -/
def SameVerdicts (rd : Reading) (r s : JObj) : Prop :=
  ∀ fuel x, validate rd fuel r x = validate rd fuel s x

theorem SameVerdicts.valid_iff {rd : Reading} {r s : JObj} (h : SameVerdicts rd r s)
    (x : JValue) : Valid rd r x ↔ Valid rd s x := by
  simp only [Valid, h _ x]

end SchemaProfile

end OpenBindings
