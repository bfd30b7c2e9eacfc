import OpenBindings.Normalizer

/-! # JSON Pointer against RFC 6901

`resolveJSONPointer` walks a fragment token by token: `~1` becomes `/`, then `~0` becomes `~`;
an object steps to the member of that name, an array to the element at the index
`strconv.Atoi` reads. RFC 6901 writes an array index as `0` or as decimal digits with no leading
zero, and `rfc6901Resolve` is its evaluation, stated beside the code's walk for comparison.

Every pointer the RFC resolves, the code resolves to the same value
(`resolveJSONPointer_of_rfc6901`), and on pointers whose array tokens `Atoi` and the RFC read
alike the two agree exactly (`resolveJSONPointer_iff_rfc6901`). They differ on the tokens `Atoi`
reads as a non-negative number and the RFC rejects, those with a sign or a leading zero: the
tokens `01`, `+1` and `-0` resolve in the code, also in the fragment of a `$ref`
(`resolveJSONPointer_noncanonical_index`). -/

namespace OpenBindings.SchemaProfile

open Normalizer

/-! ### RFC 6901 evaluation -/

/-- An array index as RFC 6901 writes it: `0`, or decimal digits with no leading zero. -/
def rfcIndex (tok : String) : Option Nat :=
  match tok.toList with
  | '0' :: _ :: _ => none
  | ds => digitsValue ds

/-- One step of RFC 6901 evaluation: the member of that name, or the element at that index. -/
def rfcStep (cur : JValue) (tok : String) : Option JValue :=
  match cur with
  | .obj m => lookup m tok
  | .arr xs => (rfcIndex tok).bind (xs[·]?)
  | _ => none

/-- RFC 6901 evaluation of a fragment: the empty pointer is the document, any other is a
sequence of `/`-prefixed tokens, each unescaped and then evaluated. -/
def rfc6901Resolve (doc : JValue) (fragment : String) : Option JValue :=
  if fragment = "" then some doc
  else if ¬ hasPrefix fragment "/" then none
  else ((splitSlash fragment.toList).drop 1).foldlM (fun cur tok => rfcStep cur (unescapeToken tok)) doc

/-- `Atoi` reads the token as a non-negative index only where the RFC reads the same index. -/
def indexAgrees (tok : String) : Bool :=
  match atoi tok with
  | some i => decide (i < 0) || rfcIndex tok == some i.toNat
  | none => true

/-! ### Indices -/

theorem foldl_digit_none (l : List Char) :
    l.foldl (fun acc c => acc.bind fun n =>
      if c.isDigit then some (10 * n + (c.toNat - 48)) else none) none = none := by
  induction l with
  | nil => rfl
  | cons _ _ ih => exact ih

/-- A string that starts with a non-digit has no digit value. -/
theorem digitsValue_nonDigit {c : Char} (hc : c.isDigit = false) (rest : List Char) :
    digitsValue (c :: rest) = none := by
  simp [digitsValue, hc, foldl_digit_none]

/-- An RFC index is read by `Atoi` as the same number. -/
theorem atoi_of_rfcIndex {tok : String} {i : Nat} (h : rfcIndex tok = some i) :
    atoi tok = some i := by
  unfold rfcIndex at h
  unfold atoi
  generalize tok.toList = l at h ⊢
  split at h
  · cases h
  · split
    · rw [digitsValue_nonDigit (by decide)] at h; cases h
    · rw [digitsValue_nonDigit (by decide)] at h; cases h
    · simp [h]

theorem rfcIndex_dash : rfcIndex "-" = none := by decide

/-! ### One step -/

/-- Where the RFC steps, the code steps to the same value. -/
theorem pointerStep_of_rfcStep {cur v : JValue} {tok : String} (h : rfcStep cur tok = some v) :
    pointerStep cur tok = .ok v := by
  cases cur with
  | obj m => simp only [rfcStep] at h; simp [pointerStep, h]
  | arr xs =>
    obtain ⟨i, hi, hv⟩ := Option.bind_eq_some.1 h
    obtain ⟨hlt, rfl⟩ := List.getElem?_eq_some.1 hv
    have hdash : tok ≠ "-" := by rintro rfl; rw [rfcIndex_dash] at hi; cases hi
    simp [pointerStep, hdash, atoi_of_rfcIndex hi, hlt, Int.natCast_nonneg]
  | _ => cases h

/-- Where the code steps on a token `Atoi` and the RFC read alike, the RFC steps to the same
value. -/
theorem rfcStep_of_pointerStep {cur v : JValue} {tok : String} (ha : indexAgrees tok = true)
    (h : pointerStep cur tok = .ok v) : rfcStep cur tok = some v := by
  cases cur with
  | obj m =>
    simp only [pointerStep] at h
    split at h <;> cases h
    assumption
  | arr xs =>
    simp only [pointerStep] at h
    split at h
    · cases h
    split at h
    · rename_i idx hidx
      split at h
      · rename_i hb
        cases h
        have hi : rfcIndex tok = some idx.toNat := by
          simpa [indexAgrees, hidx, not_lt.2 hb.1] using ha
        simp [rfcStep, hi, List.getElem?_eq_some, show idx.toNat < xs.length by omega]
      · cases h
    · cases h
  | _ => cases h

/-! ### The walk -/

theorem foldlM_pointerStep_of_rfc : ∀ (toks : List (List Char)) (cur v : JValue),
    toks.foldlM (fun cur tok => rfcStep cur (unescapeToken tok)) cur = some v →
      toks.foldlM (fun cur tok => pointerStep cur (unescapeToken tok)) cur = .ok v
  | [], _, _, h => by cases h; rfl
  | tok :: toks, cur, v, h => by
    obtain ⟨c, hc, hrest⟩ := Option.bind_eq_some.1 h
    simp only [List.foldlM_cons, pointerStep_of_rfcStep hc]
    exact foldlM_pointerStep_of_rfc toks c v hrest

theorem foldlM_rfc_of_pointerStep : ∀ (toks : List (List Char)) (cur v : JValue),
    (∀ tok ∈ toks, indexAgrees (unescapeToken tok) = true) →
    toks.foldlM (fun cur tok => pointerStep cur (unescapeToken tok)) cur = .ok v →
      toks.foldlM (fun cur tok => rfcStep cur (unescapeToken tok)) cur = some v
  | [], _, _, _, h => by cases h; rfl
  | tok :: toks, cur, v, ha, h => by
    simp only [List.foldlM_cons] at h ⊢
    cases hs : pointerStep cur (unescapeToken tok) with
    | error e => rw [hs] at h; cases h
    | ok c =>
      rw [hs] at h
      rw [rfcStep_of_pointerStep (ha tok (.head _)) hs]
      exact foldlM_rfc_of_pointerStep toks c v (fun t ht => ha t (.tail _ ht)) h

/-- Every pointer RFC 6901 resolves, the code resolves to the same value. -/
theorem resolveJSONPointer_of_rfc6901 {doc v : JValue} {f : String}
    (h : rfc6901Resolve doc f = some v) : resolveJSONPointer doc f = .ok v := by
  unfold rfc6901Resolve at h
  unfold resolveJSONPointer
  split_ifs at h ⊢
  · cases h; rfl
  · exact foldlM_pointerStep_of_rfc _ _ _ h

/-- On a pointer whose array tokens `Atoi` reads as an index only where RFC 6901 does, the code
and the RFC resolve the same pointers to the same values. -/
theorem resolveJSONPointer_iff_rfc6901 {doc v : JValue} {f : String}
    (hf : ∀ tok ∈ (splitSlash f.toList).drop 1, indexAgrees (unescapeToken tok) = true) :
    resolveJSONPointer doc f = .ok v ↔ rfc6901Resolve doc f = some v := by
  refine ⟨fun h => ?_, resolveJSONPointer_of_rfc6901⟩
  unfold resolveJSONPointer at h
  unfold rfc6901Resolve
  split_ifs at h ⊢
  · cases h; rfl
  · exact foldlM_rfc_of_pointerStep _ _ _ hf h

/-- `Atoi` reads `01`, `+1` and `-0` as indices, which RFC 6901 rejects: on `[null, true]` the
code resolves the first two to `true` and the third to `null` where the RFC walk fails, and a
`$ref` to `#/xs/01` resolves. -/
theorem resolveJSONPointer_noncanonical_index :
    resolveJSONPointer (.arr [.null, .bool true]) "/01" = .ok (.bool true) ∧
      resolveJSONPointer (.arr [.null, .bool true]) "/+1" = .ok (.bool true) ∧
      resolveJSONPointer (.arr [.null, .bool true]) "/-0" = .ok .null ∧
      rfc6901Resolve (.arr [.null, .bool true]) "/01" = none ∧
      rfc6901Resolve (.arr [.null, .bool true]) "/+1" = none ∧
      rfc6901Resolve (.arr [.null, .bool true]) "/-0" = none ∧
      ({ root := .obj [("xs", .arr [.obj [], .obj [("type", .str "string")]])] } :
        Normalizer).normalize 3 [("$ref", .str "#/xs/01")] = some (.ok [("type", strArr ["string"])]) := by
  decide

end OpenBindings.SchemaProfile
