import OpenBindings.KeywordSoundness

/-! # Soundness of the compatibility decider

`compat.go` promises `candidate ⊆ interface` for outputs and `interface ⊆ candidate` for inputs.
The rules keep that promise where they compare everything that constrains: when
`outputCompatible t c` holds, every instance valid against the candidate `c` is valid against the
target `t` (`outputCompatible_sound`), and when `inputCompatible t c` holds, every instance valid
against `t` is valid against `c` with its `additionalProperties` ignored, the one relaxation the
input rules make on purpose (`inputCompatible_sound`). Validation reads `oneOf` as `anyOf`, as
the decider does, and the pair is `Aligned` for the direction (`Conditions`).

Where the rules skip a constraint, the promise is broken (`compatible_unsound_skipped_checks`):
the input rules never compare a `const`, an `enum` or a bound that only the candidate has, against
the comments at `compat.go:3`, `:25`, `:502` and `:655`; the object rules are skipped for a schema
with no `type`, which `compat.go:44` reads as every type; and the output object rule visits only
the candidate's properties.

One step of `compat` is sound when the nested calls are (`output_step`, `input_step`, from the
keyword lemmas); soundness at every fuel follows by recursion on the validation fuel. -/

namespace OpenBindings.SchemaProfile

open CanonicalJson Float64 Normalizer

/-! ### Soundness: one step, then every fuel -/

theorem rule_of_gate {g r : Bool} (h : (!g || r) = true) (hg : g = true) : r = true := by
  simpa [hg] using h

/-- One step of output soundness: when every aligned pair `compat g` accepts is sound at fuel
`f`, every aligned pair `compatStep (compat g)` accepts is sound at `f + 1`. -/
theorem output_step {rd : Reading} (hany : rd.oneOfAsAnyOf = true)
    (hap : rd.ignoreAdditional = false) {f g : Nat} {t c : JObj} (hal : Aligned OutputLocal t c)
    (ih : ∀ {t' c' : JObj}, Aligned OutputLocal t' c' → compat g t' c' false = true →
      ∀ y, validate rd f c' y = true → validate rd f t' y = true)
    (h : compatStep (compat g) t c false = true) (x : JValue)
    (hv : validate rd (f + 1) c x = true) : validate rd (f + 1) t x = true := by
  obtain ⟨L, hprops, hadd, hitems, hvars⟩ := hal
  by_cases ht : t = []
  · subst ht; exact validate_nil rd _ x
  have hc : c ≠ [] := by rintro rfl; simp [compatStep, ht] at h
  obtain ⟨cs, hcl, hcs⟩ := (typeSet_of_wf L.wf_c).resolve_left fun hn => L.typed ht hc hn.1
  unfold compatStep at h
  simp only [ht, hc, hcs, ↓reduceIte, Option.isNone_some, Bool.and_false, Bool.false_or,
    Bool.and_eq_true] at h
  obtain ⟨⟨⟨⟨⟨⟨⟨htypes, hce⟩, hobj⟩, harr⟩, hnum⟩, hstr⟩, harrb⟩, hun⟩ := h
  simp only [validate, plainValid, hap, hany, Bool.false_or, Bool.and_eq_true] at hv ⊢
  obtain ⟨⟨⟨⟨⟨⟨⟨⟨⟨vtype, vreq⟩, ⟨⟨⟨venum, vconst⟩, vnum⟩, vlen⟩⟩, -⟩, -⟩, vprops⟩, vap⟩,
    vitems⟩, vany⟩, vone⟩ := hv
  -- a type the candidate lists admits `x`, so the rules for that type were consulted
  obtain ⟨k, hk, hadm⟩ := List.any_eq_true.1 ((typeValid_eq hcl x).symm.trans vtype)
  have kind := typeAdmits_kind hadm
  have listed : ∀ j, k = j → (hasType t j || hasType c j) = true := fun j hj => by
    rw [hasType_of_mem hcs (hj ▸ hk), Bool.or_true]
  have onObj : ∀ m, x = .obj m → compatObject (compat g) t c false = true := fun m hm =>
    rule_of_gate hobj (listed _ (kind.1 m hm))
  have onNum : ∀ f, x = .num f → compatNumericBounds t c false = true := fun f hf =>
    rule_of_gate hnum <| by
      rcases kind.2.2.2 f hf with hn | hn <;> simp only [listed _ hn, Bool.true_or, Bool.or_true]
  have named : ∀ m, x = .obj m → ∀ kv ∈ m, hasKey (objAt t "properties") kv.1 = true →
      hasKey (objAt c "properties") kv.1 = true := by
    rintro m rfl kv hkv htk
    exact L.props.elim (fun hsub => hsub _ htk) fun hclosed => declared_of_closed hclosed vap kv hkv
  have hU := union_out L.union hun
    (fun vs ws hvs hws v hv w hw hg => ih (hvars vs ws hvs hws v hv w hw) hg x) ⟨vany, vone⟩
  exact ⟨⟨⟨⟨⟨⟨⟨⟨⟨typeValid_of_subsetTypes L.wf_t htypes hk hadm,
    requiredValid_of_subset (fun m hm => (compatObject_out (onObj m hm)).1) vreq⟩,
    ⟨⟨constEnum_out L.wf_t L.wf_c L.constEnum hce ⟨venum, vconst⟩,
      numberValid_out L.wf_t L.wf_c onNum vnum⟩,
      lengthValid_out L.wf_t L.wf_c (fun w hw => rule_of_gate hstr (listed _ (kind.2.2.1 w hw)))
        (fun xs hxs => rule_of_gate harrb (listed _ (kind.2.1 xs hxs))) vlen⟩⟩,
    refValid_of_none L.wf_t.noRef _ _ _⟩, allOfValid_of_none L.wf_t.noAllOf _ _⟩,
    properties_out L.wf_t L.wf_c onObj named
      (fun p tv cv hlt hlc hg => ih (hprops p tv cv hlt hlc) hg) vprops⟩,
    additional_out onObj L.extra (fun ta ca hta hca hg => ih (hadd ta ca hta hca) hg) vap⟩,
    items_out L.wf_t (validate_nil rd f)
      (fun xs hxs => rule_of_gate harr (listed _ (kind.2.1 xs hxs)))
      (fun ti ci hti hci hg => ih (hitems ti ci hti hci) hg) vitems⟩, hU.1⟩, hU.2⟩

/-- One step of input soundness: when every aligned pair `compat g` accepts is sound at fuel
`f`, every aligned pair `compatStep (compat g)` accepts is sound at `f + 1`. -/
theorem input_step {rdT rdC : Reading} (hanyT : rdT.oneOfAsAnyOf = true)
    (hapT : rdT.ignoreAdditional = false) (hanyC : rdC.oneOfAsAnyOf = true)
    (hapC : rdC.ignoreAdditional = true) {f g : Nat} {t c : JObj} (hal : Aligned InputLocal t c)
    (ih : ∀ {t' c' : JObj}, Aligned InputLocal t' c' → compat g t' c' true = true →
      ∀ y, validate rdT f t' y = true → validate rdC f c' y = true)
    (h : compatStep (compat g) t c true = true) (x : JValue)
    (hv : validate rdT (f + 1) t x = true) : validate rdC (f + 1) c x = true := by
  obtain ⟨L, hprops, -, hitems, hvars⟩ := hal
  by_cases hc : c = []
  · subst hc; exact validate_nil rdC _ x
  have ht : t ≠ [] := by rintro rfl; simp [compatStep, hc] at h
  obtain ⟨ts, htl, hts⟩ := (typeSet_of_wf L.wf_t).resolve_left fun hn => L.typed ht hc hn.1
  unfold compatStep at h
  simp only [ht, hc, hts, ↓reduceIte, Option.isNone_some, Bool.false_and, Bool.false_or,
    Bool.and_eq_true] at h
  obtain ⟨⟨⟨⟨⟨⟨⟨htypes, hce⟩, hobj⟩, harr⟩, hnum⟩, hstr⟩, harrb⟩, hun⟩ := h
  simp only [validate, plainValid, hapT, hanyT, Bool.false_or, Bool.and_eq_true] at hv
  simp only [validate, plainValid, hapC, hanyC, Bool.true_or, Bool.and_true, Bool.and_eq_true]
  obtain ⟨⟨⟨⟨⟨⟨⟨⟨⟨vtype, vreq⟩, ⟨⟨⟨venum, vconst⟩, vnum⟩, vlen⟩⟩, -⟩, -⟩, vprops⟩, vap⟩,
    vitems⟩, vany⟩, vone⟩ := hv
  -- a type the target lists admits `x`, so the rules for that type were consulted
  obtain ⟨k, hk, hadm⟩ := List.any_eq_true.1 ((typeValid_eq htl x).symm.trans vtype)
  have kind := typeAdmits_kind hadm
  have listed : ∀ j, k = j → (hasType t j || hasType c j) = true := fun j hj => by
    rw [hasType_of_mem hts (hj ▸ hk), Bool.true_or]
  have onObj : ∀ m, x = .obj m → compatObject (compat g) t c true = true := fun m hm =>
    rule_of_gate hobj (listed _ (kind.1 m hm))
  have onNum : ∀ f, x = .num f → compatNumericBounds t c true = true := fun f hf =>
    rule_of_gate hnum <| by
      rcases kind.2.2.2 f hf with hn | hn <;> simp only [listed _ hn, Bool.true_or, Bool.or_true]
  have named : ∀ m, x = .obj m → ∀ kv ∈ m, hasKey (objAt c "properties") kv.1 = true →
      hasKey (objAt t "properties") kv.1 = true := by
    rintro m rfl kv hkv hck
    exact L.props.elim (fun hsub => hsub _ hck) fun hclosed => declared_of_closed hclosed vap kv hkv
  have hU := union_in L.union hun
    (fun vs ws hvs hws v hv w hw hg => ih (hvars vs ws hvs hws v hv w hw) hg x) ⟨vany, vone⟩
  exact ⟨⟨⟨⟨⟨⟨⟨⟨typeValid_of_subsetTypes L.wf_c htypes hk hadm,
    requiredValid_of_subset (fun m hm => (compatObject_in (onObj m hm)).1) vreq⟩,
    ⟨⟨constEnum_in L.wf_t L.wf_c L.constEnum L.values hce ⟨venum, vconst⟩,
      numberValid_in L.wf_t L.wf_c L.lower L.upper onNum vnum⟩,
      lengthValid_in L.wf_t L.wf_c L.lengths
        (fun w hw => rule_of_gate hstr (listed _ (kind.2.2.1 w hw)))
        (fun xs hxs => rule_of_gate harrb (listed _ (kind.2.1 xs hxs))) vlen⟩⟩,
    refValid_of_none L.wf_c.noRef _ _ _⟩, allOfValid_of_none L.wf_c.noAllOf _ _⟩,
    properties_in L.wf_t L.wf_c onObj named
      (fun p tv cv hlt hlc hg => ih (hprops p tv cv hlt hlc) hg) vprops⟩,
    items_in L.wf_c (validate_nil rdC f)
      (fun xs hxs => rule_of_gate harr (listed _ (kind.2.1 xs hxs)))
      (fun ti ci hti hci hg => ih (hitems ti ci hti hci) hg) vitems⟩, hU.1⟩, hU.2⟩

/-- Output soundness at every fuel, by recursion on the validation fuel. -/
theorem compat_output_sound {rd : Reading} (hany : rd.oneOfAsAnyOf = true)
    (hap : rd.ignoreAdditional = false) :
    ∀ (f g : Nat) {t c : JObj}, Aligned OutputLocal t c → compat g t c false = true →
      ∀ x, validate rd f c x = true → validate rd f t x = true
  | 0, _, _, _, _, _, _, _ => rfl
  | _ + 1, 0, _, _, _, h, _, _ => absurd h Bool.false_ne_true
  | f + 1, g + 1, _, _, hal, h, x, hv =>
    output_step hany hap hal (fun hal' h' y => compat_output_sound hany hap f g hal' h' y) h x hv

/-- Input soundness at every fuel, by recursion on the validation fuel. -/
theorem compat_input_sound {rdT rdC : Reading} (hanyT : rdT.oneOfAsAnyOf = true)
    (hapT : rdT.ignoreAdditional = false) (hanyC : rdC.oneOfAsAnyOf = true)
    (hapC : rdC.ignoreAdditional = true) :
    ∀ (f g : Nat) {t c : JObj}, Aligned InputLocal t c → compat g t c true = true →
      ∀ x, validate rdT f t x = true → validate rdC f c x = true
  | 0, _, _, _, _, _, _, _ => rfl
  | _ + 1, 0, _, _, _, h, _, _ => absurd h Bool.false_ne_true
  | f + 1, g + 1, _, _, hal, h, x, hv =>
    input_step hanyT hapT hanyC hapC hal
      (fun hal' h' y => compat_input_sound hanyT hapT hanyC hapC f g hal' h' y) h x hv

/-- `outputCompatible` is sound on aligned schemas. -/
theorem outputCompatible_sound (refs : String → Option JObj) {t c : JObj}
    (hal : Aligned OutputLocal t c) (h : outputCompatible t c = true) (x : JValue)
    (hx : Valid ⟨refs, true, false⟩ c x) : Valid ⟨refs, true, false⟩ t x := by
  obtain ⟨n, hn⟩ := hx
  refine ⟨n, fun m hm => ?_⟩
  unfold outputCompatible at h
  split_ifs at h with hc
  · rw [of_decide_eq_true h]; exact validate_nil _ m x
  · exact compat_output_sound rfl rfl m _ hal h x (hn m hm)

/-- `inputCompatible` is sound on aligned schemas, the candidate's `additionalProperties`
ignored. -/
theorem inputCompatible_sound (refs : String → Option JObj) {t c : JObj}
    (hal : Aligned InputLocal t c) (h : inputCompatible t c = true) (x : JValue)
    (hx : Valid ⟨refs, true, false⟩ t x) : Valid ⟨refs, true, true⟩ c x := by
  obtain ⟨n, hn⟩ := hx
  refine ⟨n, fun m hm => ?_⟩
  unfold inputCompatible at h
  split_ifs at h with hc
  · rw [hc]; exact validate_nil _ m x
  · exact compat_input_sound rfl rfl rfl rfl m _ hal h x (hn m hm)

/- An object schema with `a` required and nothing else allowed, against one that only types
`a`: the first can stand in for the second as an output and the second for the first as an
input, and `{"a": "s"}` is carried across in both directions. The conditions are checked by
`alignedCheck`. -/
example :
    (outputCompatible
        [("type", strArr ["object"]), ("properties", .obj [("a", .obj [("type", strArr ["string"])])])]
        [("type", strArr ["object"]), ("properties", .obj [("a", .obj [("type", strArr ["string"])])]),
          ("required", strArr ["a"]), ("additionalProperties", .bool false)] = true ∧
      Valid ⟨fun _ => none, true, false⟩
        [("type", strArr ["object"]), ("properties", .obj [("a", .obj [("type", strArr ["string"])])])]
        (.obj [("a", .str "s")])) ∧
    (inputCompatible
        [("type", strArr ["object"]), ("properties", .obj [("a", .obj [("type", strArr ["string"])])]),
          ("required", strArr ["a"]), ("additionalProperties", .bool false)]
        [("type", strArr ["object"]), ("properties", .obj [("a", .obj [("type", strArr ["string"])])])] = true ∧
      Valid ⟨fun _ => none, true, true⟩
        [("type", strArr ["object"]), ("properties", .obj [("a", .obj [("type", strArr ["string"])])])]
        (.obj [("a", .str "s")])) := by
  have hx : Valid ⟨fun _ => none, true, false⟩ [("type", strArr ["object"]),
      ("properties", .obj [("a", .obj [("type", strArr ["string"])])]), ("required", strArr ["a"]),
      ("additionalProperties", .bool false)] (.obj [("a", .str "s")]) :=
    ⟨2, fun m hm => by rcases m with _ | _ | m <;> first | omega | rfl⟩
  have hout : outputCompatible
      [("type", strArr ["object"]), ("properties", .obj [("a", .obj [("type", strArr ["string"])])])]
      [("type", strArr ["object"]), ("properties", .obj [("a", .obj [("type", strArr ["string"])])]),
        ("required", strArr ["a"]), ("additionalProperties", .bool false)] = true := by decide
  have hin : inputCompatible
      [("type", strArr ["object"]), ("properties", .obj [("a", .obj [("type", strArr ["string"])])]),
        ("required", strArr ["a"]), ("additionalProperties", .bool false)]
      [("type", strArr ["object"]), ("properties", .obj [("a", .obj [("type", strArr ["string"])])])] =
        true := by decide
  exact ⟨⟨hout, outputCompatible_sound _
      (Aligned.of_check (fun _ _ => OutputLocal.of_check) 2 _ _ (by decide)) hout _ hx⟩,
    ⟨hin, inputCompatible_sound _
      (Aligned.of_check (fun _ _ => InputLocal.of_check) 2 _ _ (by decide)) hin _ hx⟩⟩

/-- Three pairs of normal forms on which a decider answer is unsound, one for each kind of
position the decider does not compare. With no `type`, no object rule is consulted:
`{"required": []}` passes as an output for `{"required": ["a"]}`, and `{}` is valid against it
only. An `enum` only the candidate has is not compared by the input rules: `"b"` passes the target
and not the candidate. A target property the candidate does not declare is not compared by the
output rules: `{"a": null}` passes the candidate and not the target. -/
theorem compatible_unsound_skipped_checks :
    (({} : Normalizer).normalize 1 [("required", .arr [.str "a"])] =
        some (.ok [("required", .arr [.str "a"])]) ∧
      ({} : Normalizer).normalize 1 [("required", .arr [])] = some (.ok [("required", .arr [])]) ∧
      outputCompatible [("required", .arr [.str "a"])] [("required", .arr [])] = true ∧
      Valid ⟨fun _ => none, true, false⟩ [("required", .arr [])] (.obj []) ∧
      ¬ Valid ⟨fun _ => none, true, false⟩ [("required", .arr [.str "a"])] (.obj [])) ∧
    (({} : Normalizer).normalize 1 [("type", strArr ["string"])] =
        some (.ok [("type", strArr ["string"])]) ∧
      ({} : Normalizer).normalize 1 [("type", strArr ["string"]), ("enum", .arr [.str "a"])] =
        some (.ok [("type", strArr ["string"]), ("enum", .arr [.str "a"])]) ∧
      inputCompatible [("type", strArr ["string"])]
        [("type", strArr ["string"]), ("enum", .arr [.str "a"])] = true ∧
      Valid ⟨fun _ => none, true, false⟩ [("type", strArr ["string"])] (.str "b") ∧
      ¬ Valid ⟨fun _ => none, true, true⟩ [("type", strArr ["string"]), ("enum", .arr [.str "a"])]
        (.str "b")) ∧
    (({} : Normalizer).normalize 2
        [("type", strArr ["object"]), ("properties", .obj [("a", .obj [("type", strArr ["string"])])])] =
        some (.ok [("type", strArr ["object"]),
          ("properties", .obj [("a", .obj [("type", strArr ["string"])])])]) ∧
      ({} : Normalizer).normalize 1 [("type", strArr ["object"])] =
        some (.ok [("type", strArr ["object"])]) ∧
      outputCompatible
        [("type", strArr ["object"]), ("properties", .obj [("a", .obj [("type", strArr ["string"])])])]
        [("type", strArr ["object"])] = true ∧
      Valid ⟨fun _ => none, true, false⟩ [("type", strArr ["object"])] (.obj [("a", .null)]) ∧
      ¬ Valid ⟨fun _ => none, true, false⟩
        [("type", strArr ["object"]), ("properties", .obj [("a", .obj [("type", strArr ["string"])])])]
        (.obj [("a", .null)])) :=
  ⟨⟨by decide, by decide, by decide, ⟨0, fun m _ => by cases m <;> rfl⟩,
      fun ⟨n, hn⟩ => absurd (hn (n + 1) (Nat.le_succ n)) Bool.false_ne_true⟩,
    ⟨by decide, by decide, by decide, ⟨0, fun m _ => by cases m <;> rfl⟩,
      fun ⟨n, hn⟩ => absurd (hn (n + 1) (Nat.le_succ n)) Bool.false_ne_true⟩,
    ⟨by decide, by decide, by decide, ⟨0, fun m _ => by cases m <;> rfl⟩,
      fun ⟨n, hn⟩ => absurd (hn (n + 2) (by omega)) Bool.false_ne_true⟩⟩

end OpenBindings.SchemaProfile
