import OpenBindings.RoundTrip

/-! # Texts that differ in member order

`canonicaljson.Marshal` sees a JSON text only through the value it decodes, so two texts whose
values are equal up to member order are written the same (`marshal_eq_of_sameDecoding`, in
`JsonText`). This module closes the step before that one, on the texts themselves: two texts
written alike but for whitespace, the spelling of tokens that read the same (escapes in a string
or a name, `1.0` for `1`) and the order of the members of their objects, and whose objects repeat
no member name after unescaping, decode to values equal up to member order.

A text is modelled as it is written (`Written`): whitespace before each value, each token as
spelled, the elements and members in written order. `Written.read` is what it means: each token
read whole, and an object's members stored in written order with `m[key] = value`. The decoder
reads the text of every written value as its meaning, whatever follows that cannot continue a
number (`reads_written`, by induction on the decoder's fuel, one lemma per decoder step). The
relation `Rewritten` says that two written texts differ only as above; with distinct names the
object read back is a permutation of the original's members (`Rewritten.read_sameUpToOrder`).

A repeated name is what the condition excludes: `m[key] = value` keeps the last value, so the
order of two members of one name decides the value (`marshal_repeated_name_order`). -/

namespace OpenBindings.CanonicalJson

/-! ### Tokens followed by more text

Each of the decoder's token readers reads a token the same when text follows that cannot continue
it. -/

/-- Characters put in front of a read that carries over to a longer text carry over too. -/
theorem prepend_append {x cs : List Char} {r₁ r₂ : Option (List Char × List Char)}
    (h12 : ∀ {s t}, r₁ = some (s, t) → r₂ = some (s, t ++ x)) {s t : List Char}
    (h : prepend cs r₁ = some (s, t)) : prepend cs r₂ = some (s, t ++ x) := by
  unfold prepend at h ⊢
  obtain ⟨⟨s', t'⟩, hr, he⟩ := Option.map_eq_some'.1 h
  cases he
  rw [h12 hr]
  rfl

/-- A string body read up to its closing quote is read the same whatever follows the quote. -/
theorem unquoteFrom_append (x : List Char) : ∀ (p : Option Nat) (cs : List Char) {s r : List Char},
    unquoteFrom p cs = some (s, r) → unquoteFrom p (cs ++ x) = some (s, r ++ x) := by
  intro p cs
  induction p, cs using unquoteFrom.induct with
  | case1 p => intro s r h; cases h
  | case2 p rest => intro s r h; cases h; rfl
  | case3 p a b c d rest ihs ihn =>
    intro s r h
    simp only [unquoteFrom, List.cons_append] at h ⊢
    cases hg : getu4 a b c d with
    | none => simp [hg] at h
    | some u =>
      simp only [hg, Option.some_bind] at h ⊢
      cases p <;> simp only at h ⊢ <;> split_ifs at h ⊢
      all_goals first
        | exact ihs u h
        | exact prepend_append (ihn) h
        | exact prepend_append (ihs u) h
        | exact prepend_append (prepend_append ihn) h
  | case4 p c rest hu ih =>
    intro s r h
    rw [unquoteFrom.eq_4 _ _ _ hu] at h
    obtain ⟨e, he, h⟩ := Option.bind_eq_some.1 h
    have hcu : c ≠ 'u' := by rintro rfl; cases he
    rw [List.cons_append, List.cons_append, unquoteFrom.eq_4 _ _ _ (fun _ _ _ _ _ h _ => hcu h), he,
      Option.some_bind]
    exact prepend_append ih h
  | case5 p c rest h1 h2 h3 hc => intro s r h; simp [unquoteFrom, hc] at h
  | case6 p c rest h1 h2 h3 hc ih =>
    intro s r h
    rw [unquoteFrom.eq_5 _ _ _ h1 h2 h3, if_neg hc] at h
    have hcb : c ≠ '\\' := by
      rintro rfl
      cases rest with
      | nil => cases h
      | cons c₁ rest₁ => exact h3 c₁ rest₁ rfl rfl
    rw [List.cons_append, unquoteFrom.eq_5 _ _ _ h1 (fun _ _ _ _ _ h _ => hcb h)
      (fun _ _ h _ => hcb h), if_neg hc]
    exact prepend_append ih h


theorem unquote_append {cs s : List Char} (h : unquote cs = some (s, [])) (x : List Char) :
    unquote (cs ++ x) = some (s, x) :=
  unquoteFrom_append x none cs h

/-- The digits at the head of a text, and what follows them, when more text comes after that does
not continue the digits. -/
theorem digits_append {x : List Char} : ∀ {cs : List Char},
    (cs.dropWhile Char.isDigit = [] → ∀ c ∈ x.head?, c.isDigit = false) →
    (cs ++ x).takeWhile Char.isDigit = cs.takeWhile Char.isDigit ∧
      (cs ++ x).dropWhile Char.isDigit = cs.dropWhile Char.isDigit ++ x
  | [], hx => by
    cases x with
    | nil => exact ⟨rfl, rfl⟩
    | cons c r => simp [List.takeWhile_cons, List.dropWhile_cons, hx rfl c rfl]
  | c :: cs, hx => by
    by_cases hc : c.isDigit = true
    · have ih := @digits_append x cs (by simpa [List.dropWhile_cons, hc] using hx)
      simp [List.takeWhile_cons, List.dropWhile_cons, hc, ih.1, ih.2]
    · simp [List.takeWhile_cons, List.dropWhile_cons, hc]

theorem parseIntPart_append {x cs ip r : List Char} (h : parseIntPart cs = some (ip, r))
    (hx : r = [] → ∀ c ∈ x.head?, c.isDigit = false) : parseIntPart (cs ++ x) = some (ip, r ++ x) := by
  unfold parseIntPart at h
  split at h
  · cases h; rfl
  · rename_i c rest hc0
    split at h
    · cases h
      obtain ⟨ht, hd⟩ := digits_append hx
      rw [List.cons_append, parseIntPart.eq_2 _ _ hc0, if_pos ‹_›, ht, hd]
    · cases h
  · cases h

theorem parseExpDigits_append {x cs r : List Char} {neg : Bool} {e : Int}
    (h : parseExpDigits neg cs = some (e, r)) (hx : r = [] → ∀ c ∈ x.head?, c.isDigit = false) :
    parseExpDigits neg (cs ++ x) = some (e, r ++ x) := by
  unfold parseExpDigits at h ⊢
  split at h
  · cases h
  · cases h
    have hd := @digits_append x cs hx
    rw [hd.1, hd.2]
    split
    · contradiction
    · rfl

theorem parseFrac_append {x cs fp r : List Char} (h : parseFrac cs = some (fp, r))
    (hx : r = [] → ∀ c ∈ x.head?, c.isDigit = false ∧ c ≠ '.') :
    parseFrac (cs ++ x) = some (fp, r ++ x) := by
  unfold parseFrac at h
  split at h
  · split at h
    · cases h
    · cases h
      have hd := @digits_append x _ fun h c hc => (hx h c hc).1
      simp only [List.cons_append, parseFrac, hd.1, hd.2]
  · next _ hcs =>
    cases h
    refine parseFrac_none fun c hc => ?_
    rcases cs with _ | ⟨c', cs'⟩
    · exact (hx rfl c hc).2
    · cases hc; rintro rfl; exact hcs cs' rfl

theorem parseExp_append {x cs r : List Char} {e : Int} (h : parseExp cs = some (e, r))
    (hx : r = [] → ∀ c ∈ x.head?, c.isDigit = false ∧ c ≠ 'e' ∧ c ≠ 'E') :
    parseExp (cs ++ x) = some (e, r ++ x) := by
  have hd : r = [] → ∀ c ∈ x.head?, c.isDigit = false := fun h c hc => (hx h c hc).1
  unfold parseExp at h
  split at h
  case h_5 rest hm hp | h_6 rest hm hp =>
    rcases rest with _ | ⟨c, rest⟩
    · cases h
    · have hm' : ∀ r', c :: (rest ++ x) = '-' :: r' → False := fun _ he => hm rest (by cases he; rfl)
      have hp' : ∀ r', c :: (rest ++ x) = '+' :: r' → False := fun _ he => hp rest (by cases he; rfl)
      rw [List.cons_append, List.cons_append]
      first | rw [parseExp.eq_5 _ hm' hp'] | rw [parseExp.eq_6 _ hm' hp']
      exact parseExpDigits_append h hd
  case h_7 _ h1 h2 h3 h4 h5 h6 =>
    cases h
    refine parseExp_none fun c hc => ?_
    rcases cs with _ | ⟨c', cs'⟩
    · exact (hx rfl c hc).2
    · cases hc
      exact ⟨fun he => h5 cs' (by rw [he]), fun he => h6 cs' (by rw [he])⟩
  all_goals exact parseExpDigits_append h hd

theorem numberSign_append {cs : List Char} (x : List Char) (hcs : cs ≠ []) :
    numberSign (cs ++ x) = ((numberSign cs).1, (numberSign cs).2 ++ x) := by
  rcases cs with _ | ⟨c, cs⟩
  · exact absurd rfl hcs
  · by_cases hc : c = '-'
    · subst hc; rfl
    · simp [numberSign, hc]

/-- A number read to the end of its token is read the same when text that cannot continue it
follows. -/
theorem parseNumber_append {cs x : List Char} {f : Float64} (h : parseNumber cs = some (f, []))
    (hx : EndsNumber x) : parseNumber (cs ++ x) = some (f, x) := by
  have hcs : cs ≠ [] := by rintro rfl; cases h
  unfold parseNumber at h ⊢
  simp only [Option.bind_eq_bind, Option.bind_eq_some, Option.pure_def, Option.some.injEq] at h
  obtain ⟨⟨ip, r₁⟩, h₁, ⟨fp, r₂⟩, h₂, ⟨e, r₃⟩, h₃, g, hg, he⟩ := h
  cases he
  dsimp only at h₂ h₃ hg
  have e₁ := @parseIntPart_append x _ _ _ h₁ fun _ c hc => (hx c hc).1
  have e₂ := @parseFrac_append x _ _ _ h₂ fun _ c hc => ⟨(hx c hc).1, (hx c hc).2.1⟩
  have e₃ := @parseExp_append x _ _ _ h₃ fun _ c hc => ⟨(hx c hc).1, (hx c hc).2.2⟩
  simp only [numberSign_append x hcs, Option.bind_eq_bind, e₁, Option.some_bind, e₂, e₃, hg,
    List.nil_append]
  rfl

/-- A literal, a string or a number read to the end of its token is read the same whatever
follows it that cannot continue a number. -/
theorem parseScalar_append {tok x : List Char} {v : JValue} (h : parseScalar tok = some (v, []))
    (hx : EndsNumber x) : parseScalar (tok ++ x) = some (v, x) := by
  rcases parseScalar_eq_some h with ⟨rfl, rfl⟩ | ⟨rfl, rfl⟩ | ⟨rfl, rfl⟩ | ⟨rest, s, rfl, hs, rfl⟩ |
    ⟨f, hf, rfl⟩
  · rfl
  · rfl
  · rfl
  · exact (congrArg (Option.map _) (unquote_append hs x) : (unquote (rest ++ x)).map _ = _)
  · exact parseScalar_of_parseNumber (parseNumber_append hf hx)

/-! ### Written texts -/

/-- JSON whitespace: spaces, tabs, line feeds and carriage returns only. -/
structure Space where
  chars : List Char
  spaces : chars.all isSpace = true

mutual
/-- A JSON value as written. -/
inductive Written where
  /-- Whitespace, then a literal, a string or a number as spelled. -/
  | scalar (ws : Space) (tok : List Char)
  /-- Whitespace, `[`, the elements separated by commas, whitespace and `]`. -/
  | arr (ws : Space) (elems : List Element) (close : Space)
  /-- Whitespace, `{`, the members separated by commas, whitespace and `}`. -/
  | obj (ws : Space) (members : List Member) (close : Space)

/-- An element: its value and the whitespace after it. -/
inductive Element where
  | mk (value : Written) (after : Space)

/-- A member: whitespace, the name as spelled after its opening quote (up to and with the closing
quote), whitespace, `:`, the value and the whitespace after it. -/
inductive Member where
  | mk (ws : Space) (name : List Char) (colon : Space) (value : Written) (after : Space)
end

mutual
/-- The characters of a written value. -/
def Written.text : Written → List Char
  | .scalar ws tok => ws.chars ++ tok
  | .arr ws es close => ws.chars ++ '[' :: (elementsText es ++ close.chars ++ [']'])
  | .obj ws ms close => ws.chars ++ '{' :: (membersText ms ++ close.chars ++ ['}'])

def Element.text : Element → List Char
  | .mk value after => value.text ++ after.chars

/-- The elements: the first, then each after a comma. -/
def elementsText : List Element → List Char
  | [] => []
  | e :: es => e.text ++ moreElements es

def moreElements : List Element → List Char
  | [] => []
  | e :: es => ',' :: (e.text ++ moreElements es)

def Member.text : Member → List Char
  | .mk ws name colon value after =>
    ws.chars ++ '"' :: (name ++ colon.chars ++ ':' :: (value.text ++ after.chars))

/-- The members: the first, then each after a comma. -/
def membersText : List Member → List Char
  | [] => []
  | m :: ms => m.text ++ moreMembers ms

def moreMembers : List Member → List Char
  | [] => []
  | m :: ms => ',' :: (m.text ++ moreMembers ms)
end

/-- A token read whole: a literal, a string or a number with nothing after it. -/
def readToken (tok : List Char) : Option JValue :=
  match parseScalar tok with
  | some (v, []) => some v
  | _ => none

/-- A member name read whole, unescaped. -/
def readName (name : List Char) : Option String :=
  match unquote name with
  | some (k, []) => some (String.mk k)
  | _ => none

/-- `m[key] = value` for each member in order. -/
def storeMembers (acc kvs : JObj) : JObj := kvs.foldl (fun m kv => setField m kv.1 kv.2) acc

mutual
/-- What a written value means: each token read whole, and an object's members stored in written
order into an empty map. -/
def Written.read : Written → Option JValue
  | .scalar _ tok => readToken tok
  | .arr _ es _ => (readElements es).map .arr
  | .obj _ ms _ => (readMembers ms).map fun kvs => .obj (storeMembers [] kvs)

def readElements : List Element → Option (List JValue)
  | [] => some []
  | .mk x _ :: es =>
    match x.read, readElements es with
    | some y, some ys => some (y :: ys)
    | _, _ => none

/-- A member's name and value. -/
def Member.read : Member → Option (String × JValue)
  | .mk _ name _ value _ =>
    match readName name, value.read with
    | some k, some v => some (k, v)
    | _, _ => none

def readMembers : List Member → Option JObj
  | [] => some []
  | m :: ms =>
    match m.read, readMembers ms with
    | some kv, some kvs => some (kv :: kvs)
    | _, _ => none
end

theorem readToken_eq_some {tok : List Char} {v : JValue} :
    readToken tok = some v ↔ parseScalar tok = some (v, []) := by
  unfold readToken
  split <;> simp_all

theorem readName_eq_some {name : List Char} {k : String} :
    readName name = some k ↔ ∃ cs, unquote name = some (cs, []) ∧ String.mk cs = k := by
  unfold readName
  split <;> simp_all

theorem Written.read_arr {ws close : Space} {es : List Element} {v : JValue} :
    (Written.arr ws es close).read = some v ↔ ∃ xs, readElements es = some xs ∧ .arr xs = v := by
  simp only [Written.read, Option.map_eq_some']

theorem Written.read_obj {ws close : Space} {ms : List Member} {v : JValue} :
    (Written.obj ws ms close).read = some v ↔
      ∃ kvs, readMembers ms = some kvs ∧ .obj (storeMembers [] kvs) = v := by
  simp only [Written.read, Option.map_eq_some']

theorem readElements_cons {x : Written} {after : Space} {es : List Element} {xs : List JValue} :
    readElements (.mk x after :: es) = some xs ↔
      ∃ y ys, x.read = some y ∧ readElements es = some ys ∧ y :: ys = xs := by
  rw [readElements]
  cases x.read <;> cases readElements es <;> simp

theorem Member.read_mk {ws colon after : Space} {name : List Char} {x : Written}
    {kv : String × JValue} :
    (Member.mk ws name colon x after).read = some kv ↔
      ∃ k v, readName name = some k ∧ x.read = some v ∧ (k, v) = kv := by
  rw [Member.read]
  cases readName name <;> cases x.read <;> simp

theorem readMembers_cons {m : Member} {ms : List Member} {kvs : JObj} :
    readMembers (m :: ms) = some kvs ↔
      ∃ kv kvs', m.read = some kv ∧ readMembers ms = some kvs' ∧ kv :: kvs' = kvs := by
  rw [readMembers]
  cases m.read <;> cases readMembers ms <;> simp

/-- The members read are each member's name and value. -/
theorem readMembers_eq_some : ∀ {ms : List Member} {kvs : JObj},
    readMembers ms = some kvs ↔ List.Forall₂ (fun m kv => m.read = some kv) ms kvs
  | [], kvs => by cases kvs <;> simp [readMembers]
  | m :: ms, kvs => by
    rw [readMembers_cons, List.forall₂_cons_left_iff]
    simp only [readMembers_eq_some, eq_comm]

/-! ### The decoder on written text -/

theorem skipSpace_space (ws : Space) (cs : List Char) : skipSpace (ws.chars ++ cs) = skipSpace cs :=
  List.dropWhile_append_of_pos (List.all_eq_true.1 ws.spaces)

theorem skipSpace_space_cons (ws : Space) {c : Char} (hc : isSpace c = false) (cs : List Char) :
    skipSpace (ws.chars ++ c :: cs) = c :: cs := by
  rw [skipSpace_space, skipSpace_cons _ hc]

theorem parseValue_space (n : Nat) (ws : Space) (cs : List Char) :
    parseValue n (ws.chars ++ cs) = parseValue n cs := by
  cases n <;> simp only [parseValue, skipSpace_space]

theorem parseElements_space (n : Nat) (acc : List JValue) (ws : Space) (cs : List Char) :
    parseElements n acc (ws.chars ++ cs) = parseElements n acc cs := by
  cases n <;> simp only [parseElements, skipSpace_space]

theorem parseMembers_space (n : Nat) (acc : JObj) (ws : Space) (cs : List Char) :
    parseMembers n acc (ws.chars ++ cs) = parseMembers n acc cs := by
  cases n <;> simp only [parseMembers, skipSpace_space]

/-- Whitespace cannot continue a number. -/
theorem Space.endsNumber (ws : Space) {rest : List Char} (hr : EndsNumber rest) :
    EndsNumber (ws.chars ++ rest) := by
  obtain ⟨_ | ⟨c, cs⟩, hws⟩ := ws
  · exact hr
  · intro x hx
    cases hx
    have hc : c = ' ' ∨ c = '\t' ∨ c = '\n' ∨ c = '\r' := by
      simpa [isSpace, or_assoc] using List.all_eq_true.1 hws c (List.mem_cons_self _ _)
    rcases hc with rfl | rfl | rfl | rfl <;> decide

/-- A token starts with a character that is not whitespace and opens or closes no container. -/
theorem parseScalar_head {tok : List Char} {p : JValue × List Char} (h : parseScalar tok = some p) :
    ∃ c cs, tok = c :: cs ∧ isSpace c = false ∧ c ≠ '[' ∧ c ≠ '{' ∧ c ≠ ']' ∧ c ≠ '}' := by
  obtain ⟨v, r⟩ := p
  rcases parseScalar_eq_some h with ⟨rfl, -⟩ | ⟨rfl, -⟩ | ⟨rfl, -⟩ | ⟨rest, -, rfl, -⟩ | ⟨f, hf, -⟩
  any_goals exact ⟨_, _, rfl, by decide⟩
  obtain ⟨c, r, rfl, hc⟩ := head_of_parseNumber hf
  have hne := hc.ne
  refine ⟨c, r, rfl, ?_, hne '[' (by simp), hne '{' (by simp), hne ']' (by simp), hne '}' (by simp)⟩
  simp [isSpace, hne ' ' (by simp), hne '\t' (by simp), hne '\n' (by simp), hne '\r' (by simp)]

/-- After its whitespace, a written value that means something starts with a character that
closes no container. -/
theorem Written.skipSpace_text {w : Written} {v : JValue} (hw : w.read = some v) (rest : List Char) :
    ∃ c cs, skipSpace (w.text ++ rest) = c :: cs ∧ c ≠ ']' ∧ c ≠ '}' := by
  cases w with
  | scalar ws tok =>
    obtain ⟨c, cs, rfl, hs, -, -, hb, hc⟩ := parseScalar_head (readToken_eq_some.1 hw)
    exact ⟨c, cs ++ rest, by rw [Written.text, List.append_assoc, List.cons_append,
      skipSpace_space_cons _ hs], hb, hc⟩
  | arr ws es close =>
    exact ⟨'[', _, by rw [Written.text, List.append_assoc, List.cons_append,
      skipSpace_space_cons _ (by decide)], by decide, by decide⟩
  | obj ws ms close =>
    exact ⟨'{', _, by rw [Written.text, List.append_assoc, List.cons_append,
      skipSpace_space_cons _ (by decide)], by decide, by decide⟩

/-- An empty array. -/
theorem parseValue_empty_arr (F : Nat) {cs r : List Char} (h : skipSpace cs = ']' :: r) :
    parseValue (F + 1) ('[' :: cs) = some (.arr [], r) := by
  simp only [parseValue, skipSpace_cons _ (show isSpace '[' = false by decide), h]

/-- An array whose first element starts after the bracket. -/
theorem parseValue_open_arr {F : Nat} {cs r : List Char} {v : JValue}
    (hc : ∀ r', skipSpace cs ≠ ']' :: r') (h : parseValue F cs = some (v, r)) :
    parseValue (F + 1) ('[' :: cs) = parseElements F [v] r := by
  simp only [parseValue, skipSpace_cons _ (show isSpace '[' = false by decide), h]

/-- An empty object. -/
theorem parseValue_empty_obj (F : Nat) {cs r : List Char} (h : skipSpace cs = '}' :: r) :
    parseValue (F + 1) ('{' :: cs) = some (.obj [], r) := by
  simp only [parseValue, skipSpace_cons _ (show isSpace '{' = false by decide), h]

/-- An object whose first member starts after the brace. -/
theorem parseValue_open_obj (F : Nat) {cs : List Char} (hc : ∀ r', skipSpace cs ≠ '}' :: r') :
    parseValue (F + 1) ('{' :: cs) = parseMembers F [] cs := by
  simp only [parseValue, skipSpace_cons _ (show isSpace '{' = false by decide)]

/-- A member followed by a comma: its value is stored, and the next member read. -/
theorem parseMembers_next {F : Nat} {acc : JObj} {cs k r₁ r₂ r₃ r₄ : List Char} {v : JValue}
    (hk : unquote cs = some (k, r₁)) (hc : skipSpace r₁ = ':' :: r₂)
    (hv : parseValue F r₂ = some (v, r₃)) (hn : skipSpace r₃ = ',' :: r₄) :
    parseMembers (F + 1) acc ('"' :: cs) = parseMembers F (setField acc (String.mk k) v) r₄ := by
  simp only [parseMembers, skipSpace_cons _ (show isSpace '"' = false by decide), hk, hc, hv, hn]

/-- The last member, followed by the closing brace. -/
theorem parseMembers_last {F : Nat} {acc : JObj} {cs k r₁ r₂ r₃ r₄ : List Char} {v : JValue}
    (hk : unquote cs = some (k, r₁)) (hc : skipSpace r₁ = ':' :: r₂)
    (hv : parseValue F r₂ = some (v, r₃)) (hn : skipSpace r₃ = '}' :: r₄) :
    parseMembers (F + 1) acc ('"' :: cs) = some (.obj (setField acc (String.mk k) v), r₄) := by
  simp only [parseMembers, skipSpace_cons _ (show isSpace '"' = false by decide), hk, hc, hv, hn]

theorem endsNumber_moreElements (es : List Element) (close : Space) (rest : List Char) :
    EndsNumber (moreElements es ++ (close.chars ++ ']' :: rest)) := by
  cases es with
  | nil => exact close.endsNumber (endsNumber_punct (.inr (.inl rfl)) rest)
  | cons e es => exact endsNumber_punct (.inl rfl) _

theorem endsNumber_moreMembers (ms : List Member) (close : Space) (rest : List Char) :
    EndsNumber (moreMembers ms ++ (close.chars ++ '}' :: rest)) := by
  cases ms with
  | nil => exact close.endsNumber (endsNumber_punct (.inr (.inr rfl)) rest)
  | cons m ms => exact endsNumber_punct (.inl rfl) _

/-! ### Reading a written text -/

/-- With fuel for its length, the decoder reads the text of a written value as what it means,
whatever follows that cannot continue a number. -/
def ValueReads (n : Nat) : Prop :=
  ∀ (w : Written) (v : JValue) (rest : List Char), w.read = some v → w.text.length < n →
    EndsNumber rest → parseValue n (w.text ++ rest) = some (v, rest)

/-- The elements after the first, and the closing bracket. -/
def ElementsRead (n : Nat) : Prop :=
  ∀ (es : List Element) (xs acc : List JValue) (close : Space) (rest : List Char),
    readElements es = some xs → (moreElements es).length + close.chars.length < n →
    parseElements n acc (moreElements es ++ (close.chars ++ ']' :: rest)) =
      some (.arr (acc ++ xs), rest)

/-- The members, each stored in order, and the closing brace. -/
def MembersRead (n : Nat) : Prop :=
  ∀ (m : Member) (ms : List Member) (kvs acc : JObj) (close : Space) (rest : List Char),
    readMembers (m :: ms) = some kvs →
    m.text.length + (moreMembers ms).length + close.chars.length < n →
    parseMembers n acc (m.text ++ (moreMembers ms ++ (close.chars ++ '}' :: rest))) =
      some (.obj (storeMembers acc kvs), rest)

theorem valueReads_succ {F : Nat} (hV : ValueReads F) (hE : ElementsRead F) (hM : MembersRead F) :
    ValueReads (F + 1) := by
  intro w v rest hw hlen hr
  cases w with
  | scalar ws tok =>
    have ht := readToken_eq_some.1 hw
    obtain ⟨c, cs, rfl, hc, hc₁, hc₂, -, -⟩ := parseScalar_head ht
    rw [Written.text, List.append_assoc, parseValue_space, List.cons_append,
      parseValue_scalar F ⟨hc, hc₁, hc₂⟩, ← List.cons_append, parseScalar_append ht hr]
  | arr ws es close =>
    obtain ⟨xs, hxs, rfl⟩ := Written.read_arr.1 hw
    simp only [Written.text, List.append_assoc, List.cons_append, List.nil_append,
      parseValue_space, List.length_append, List.length_cons, List.length_singleton] at hlen ⊢
    cases es with
    | nil =>
      cases hxs
      exact parseValue_empty_arr F (skipSpace_space_cons _ (by decide) rest)
    | cons e es =>
      obtain ⟨x, after⟩ := e
      obtain ⟨y, ys, hx, hys, rfl⟩ := readElements_cons.1 hxs
      simp only [elementsText, Element.text, List.append_assoc, List.length_append] at hlen ⊢
      have hy := hV x y _ hx (by omega) (after.endsNumber (endsNumber_moreElements es close rest))
      obtain ⟨c, cs, hcs, hc, -⟩ := x.skipSpace_text hx
        (after.chars ++ (moreElements es ++ (close.chars ++ ']' :: rest)))
      rw [parseValue_open_arr (fun _ h => hc (List.head_eq_of_cons_eq (hcs.symm.trans h))) hy,
        parseElements_space, hE es ys [y] close rest hys (by omega)]
      rfl
  | obj ws ms close =>
    obtain ⟨kvs, hkvs, rfl⟩ := Written.read_obj.1 hw
    simp only [Written.text, List.append_assoc, List.cons_append, List.nil_append,
      parseValue_space, List.length_append, List.length_cons, List.length_singleton] at hlen ⊢
    cases ms with
    | nil =>
      cases hkvs
      exact parseValue_empty_obj F (skipSpace_space_cons _ (by decide) rest)
    | cons m ms =>
      simp only [membersText, List.append_assoc, List.length_append] at hlen ⊢
      rw [parseValue_open_obj F fun _ h => ?_]
      · exact hM m ms kvs [] close rest hkvs (by omega)
      · obtain ⟨ws', name, colon, x, after⟩ := m
        rw [Member.text, List.append_assoc, List.cons_append, skipSpace_space_cons _ (by decide)] at h
        cases h

theorem elementsRead_succ {F : Nat} (hV : ValueReads F) (hE : ElementsRead F) :
    ElementsRead (F + 1) := by
  intro es xs acc close rest hxs hlen
  cases es with
  | nil =>
    cases hxs
    rw [moreElements, List.nil_append, parseElements_space, List.append_nil]
    exact parseElements_close F acc rest
  | cons e es =>
    obtain ⟨x, after⟩ := e
    obtain ⟨y, ys, hx, hys, rfl⟩ := readElements_cons.1 hxs
    simp only [moreElements, Element.text, List.append_assoc, List.cons_append, List.length_cons,
      List.length_append] at hlen ⊢
    rw [parseElements_comma (hV x y _ hx (by omega)
        (after.endsNumber (endsNumber_moreElements es close rest))),
      parseElements_space, hE es ys (acc ++ [y]) close rest hys (by omega)]
    simp

theorem membersRead_succ {F : Nat} (hV : ValueReads F) (hM : MembersRead F) :
    MembersRead (F + 1) := by
  rintro ⟨ws, name, colon, x, after⟩ ms kvs acc close rest hread hlen
  obtain ⟨kv, kvs', hm, hms, rfl⟩ := readMembers_cons.1 hread
  obtain ⟨k, y, hk, hx, rfl⟩ := Member.read_mk.1 hm
  obtain ⟨cs, hcs, rfl⟩ := readName_eq_some.1 hk
  simp only [Member.text, List.append_assoc, List.cons_append, List.length_append,
    List.length_cons] at hlen ⊢
  rw [parseMembers_space]
  have hu := unquote_append hcs (colon.chars ++ ':' :: (x.text ++ (after.chars ++
    (moreMembers ms ++ (close.chars ++ '}' :: rest)))))
  have hy := hV x y _ hx (by omega) (after.endsNumber (endsNumber_moreMembers ms close rest))
  have hc := skipSpace_space_cons colon (show isSpace ':' = false by decide)
  cases ms with
  | nil =>
    cases hms
    exact parseMembers_last hu (hc _) hy
      (by rw [moreMembers, List.nil_append, skipSpace_space, skipSpace_space_cons _ (by decide)])
  | cons m ms =>
    rw [parseMembers_next hu (hc _) hy (by rw [skipSpace_space, moreMembers, List.cons_append,
      skipSpace_cons _ (by decide)])]
    simp only [moreMembers, List.length_cons, List.length_append] at hlen
    rw [List.append_assoc]
    exact hM m ms kvs' _ close rest hms (by omega)

/-- The decoder reads every written value, and the elements and members of every written
container, as what they mean, given fuel for their length. -/
theorem reads_written : ∀ n, ValueReads n ∧ ElementsRead n ∧ MembersRead n
  | 0 => ⟨fun _ _ _ _ h _ => absurd h (Nat.not_lt_zero _),
      fun _ _ _ _ _ _ h => absurd h (Nat.not_lt_zero _),
      fun _ _ _ _ _ _ _ h => absurd h (Nat.not_lt_zero _)⟩
  | F + 1 =>
    have ih := reads_written F
    ⟨valueReads_succ ih.1 ih.2.1 ih.2.2, elementsRead_succ ih.1 ih.2.1, membersRead_succ ih.1 ih.2.2⟩

/-- A text written as `w` and then whitespace decodes to what `w` means. -/
theorem decodeText_written {s : String} {w : Written} {ws : Space} {v : JValue}
    (hs : s.toList = w.text ++ ws.chars) (hw : w.read = some v) : decodeText s = some v := by
  have hlen : w.text.length < s.length + 1 := by
    rw [show s.length = s.toList.length from rfl, hs, List.length_append]
    omega
  have hr : EndsNumber ws.chars := by simpa using ws.endsNumber endsNumber_nil
  have hskip : skipSpace ws.chars = [] := by simpa using skipSpace_space ws []
  unfold decodeText
  rw [hs, (reads_written _).1 w v ws.chars hw hlen hr]
  simp [hskip]

/-! ### Texts that differ in member order -/

/-- A member's name after unescaping. -/
def Member.key : Member → Option String
  | .mk _ name _ _ _ => readName name

mutual
/-- No object of the text repeats a member name after unescaping. -/
def Written.namesDistinct : Written → Bool
  | .scalar _ _ => true
  | .arr _ es _ => elementsDistinct es
  | .obj _ ms _ => decide (ms.map Member.key).Nodup && membersDistinct ms

def elementsDistinct : List Element → Bool
  | [] => true
  | .mk x _ :: es => x.namesDistinct && elementsDistinct es

def membersDistinct : List Member → Bool
  | [] => true
  | .mk _ _ _ x _ :: ms => x.namesDistinct && membersDistinct ms
end

mutual
/-- Two written values that differ only in whitespace, in the spelling of tokens and names that
read the same, and in the order of the members of their objects. -/
inductive Rewritten : Written → Written → Prop
  | scalar {ws ws' : Space} {tok tok' : List Char} :
    readToken tok = readToken tok' → Rewritten (.scalar ws tok) (.scalar ws' tok')
  | arr {ws ws' close close' : Space} {es es' : List Element} :
    ElementsRewritten es es' → Rewritten (.arr ws es close) (.arr ws' es' close')
  | obj {ws ws' close close' : Space} {ms ms' ms'' : List Member} :
    MembersRewritten ms ms' → ms'.Perm ms'' → Rewritten (.obj ws ms close) (.obj ws' ms'' close')

/-- Element by element. -/
inductive ElementsRewritten : List Element → List Element → Prop
  | nil : ElementsRewritten [] []
  | cons {x x' : Written} {after after' : Space} {es es' : List Element} :
    Rewritten x x' → ElementsRewritten es es' →
      ElementsRewritten (.mk x after :: es) (.mk x' after' :: es')

/-- Member by member, under the same names after unescaping. -/
inductive MembersRewritten : List Member → List Member → Prop
  | nil : MembersRewritten [] []
  | cons {ws ws' colon colon' after after' : Space} {name name' : List Char} {x x' : Written}
      {ms ms' : List Member} :
    readName name = readName name' → Rewritten x x' → MembersRewritten ms ms' →
      MembersRewritten (.mk ws name colon x after :: ms) (.mk ws' name' colon' x' after' :: ms')
end

theorem Member.key_of_read {m : Member} {kv : String × JValue} (h : m.read = some kv) :
    m.key = some kv.1 := by
  obtain ⟨ws, name, colon, x, after⟩ := m
  obtain ⟨k, v, hk, -, rfl⟩ := Member.read_mk.1 h
  exact hk

/-- The names of the members read are their keys. -/
theorem keys_of_readMembers {ms : List Member} {kvs : JObj} (h : readMembers ms = some kvs) :
    ms.map Member.key = (kvs.map Prod.fst).map some := by
  have h' := readMembers_eq_some.1 h
  clear h
  induction h' with
  | nil => rfl
  | cons hm _ ih => simp only [List.map_cons, Member.key_of_read hm, ih]

theorem keys_eq_of_forall₂ {R : JValue → JValue → Prop} : ∀ {kvs kvs' : JObj},
    List.Forall₂ (fun a b => a.1 = b.1 ∧ R a.2 b.2) kvs kvs' → kvs.map Prod.fst = kvs'.map Prod.fst
  | [], [], .nil => rfl
  | _ :: _, _ :: _, .cons h hs => by rw [List.map_cons, List.map_cons, h.1, keys_eq_of_forall₂ hs]

/-- Storing members of distinct names appends them. -/
theorem storeMembers_of_nodup : ∀ {acc kvs : JObj}, (acc.map Prod.fst ++ kvs.map Prod.fst).Nodup →
    storeMembers acc kvs = acc ++ kvs
  | _, [], _ => (List.append_nil _).symm
  | acc, kv :: kvs, h => by
    have hk : kv.1 ∉ acc.map Prod.fst := fun hm =>
      List.disjoint_of_nodup_append h hm (List.mem_cons_self _ _)
    show storeMembers (setField acc kv.1 kv.2) kvs = _
    rw [setField_of_not_mem _ hk, storeMembers_of_nodup (by simpa using h)]
    simp

theorem storeMembers_nil_of_nodup {kvs : JObj} (h : (kvs.map Prod.fst).Nodup) :
    storeMembers [] kvs = kvs := by
  simpa using @storeMembers_of_nodup [] kvs (by simpa using h)

/-- A permutation of the members reads as a permutation of the members read. -/
theorem readMembers_perm {ms ms' : List Member} {kvs : JObj} (hp : ms.Perm ms')
    (h : readMembers ms = some kvs) : ∃ kvs', readMembers ms' = some kvs' ∧ kvs.Perm kvs' := by
  obtain ⟨kvs', h', hp'⟩ := List.perm_comp_forall₂ hp.symm (readMembers_eq_some.1 h)
  exact ⟨kvs', readMembers_eq_some.2 h', hp'.symm⟩

mutual
/-- A rewritten text means what the original means, up to member order, when the original repeats
no member name. -/
theorem Rewritten.read_sameUpToOrder : ∀ {w w' : Written} {v : JValue}, Rewritten w w' →
    w.read = some v → w.namesDistinct = true → ∃ v', w'.read = some v' ∧ v.SameUpToOrder v'
  | _, _, v, .scalar h, hw, _ => ⟨v, by rw [Written.read, ← h]; exact hw, JValue.sameUpToOrder_refl v⟩
  | _, _, _, .arr h, hw, hd => by
    obtain ⟨xs, hxs, rfl⟩ := Written.read_arr.1 hw
    obtain ⟨xs', hxs', hs⟩ := ElementsRewritten.read_sameUpToOrder h hxs hd
    exact ⟨.arr xs', Written.read_arr.2 ⟨xs', hxs', rfl⟩, xs, rfl, hs⟩
  | _, _, _, .obj h hp, hw, hd => by
    obtain ⟨kvs, hkvs, rfl⟩ := Written.read_obj.1 hw
    simp only [Written.namesDistinct, Bool.and_eq_true, decide_eq_true_eq] at hd
    obtain ⟨kvs', hkvs', hs⟩ := MembersRewritten.read_forall₂ h hkvs hd.2
    obtain ⟨kvs'', hkvs'', hp'⟩ := readMembers_perm hp hkvs'
    have hn : (kvs.map Prod.fst).Nodup := by
      have := hd.1
      rw [keys_of_readMembers hkvs] at this
      exact this.of_map _
    have hn'' : (kvs''.map Prod.fst).Nodup :=
      (hp'.map Prod.fst).nodup_iff.1 (keys_eq_of_forall₂ hs ▸ hn)
    refine ⟨_, Written.read_obj.2 ⟨kvs'', hkvs'', rfl⟩, ?_⟩
    rw [storeMembers_nil_of_nodup hn, storeMembers_nil_of_nodup hn'']
    exact sameUpToOrder_obj_of_perm hs hp'

theorem ElementsRewritten.read_sameUpToOrder : ∀ {es es' : List Element} {xs : List JValue},
    ElementsRewritten es es' → readElements es = some xs → elementsDistinct es = true →
      ∃ xs', readElements es' = some xs' ∧ JValue.SameUpToOrderList xs xs'
  | _, _, xs, .nil, hxs, _ => ⟨[], rfl, by cases hxs; rfl⟩
  | _, _, _, .cons h hs, hxs, hd => by
    obtain ⟨y, ys, hy, hys, rfl⟩ := readElements_cons.1 hxs
    simp only [elementsDistinct, Bool.and_eq_true] at hd
    obtain ⟨y', hy', hsy⟩ := Rewritten.read_sameUpToOrder h hy hd.1
    obtain ⟨ys', hys', hsys⟩ := ElementsRewritten.read_sameUpToOrder hs hys hd.2
    exact ⟨y' :: ys', readElements_cons.2 ⟨y', ys', hy', hys', rfl⟩, y, ys, rfl, hsy, hsys⟩

theorem MembersRewritten.read_forall₂ : ∀ {ms ms' : List Member} {kvs : JObj},
    MembersRewritten ms ms' → readMembers ms = some kvs → membersDistinct ms = true →
      ∃ kvs', readMembers ms' = some kvs' ∧
        List.Forall₂ (fun a b => a.1 = b.1 ∧ a.2.SameUpToOrder b.2) kvs kvs'
  | _, _, kvs, .nil, hkvs, _ => ⟨[], rfl, by cases hkvs; exact .nil⟩
  | _, _, _, .cons hn h hs, hkvs, hd => by
    obtain ⟨kv, kvs, hm, hms, rfl⟩ := readMembers_cons.1 hkvs
    obtain ⟨k, y, hk, hy, rfl⟩ := Member.read_mk.1 hm
    simp only [membersDistinct, Bool.and_eq_true] at hd
    obtain ⟨y', hy', hsy⟩ := Rewritten.read_sameUpToOrder h hy hd.1
    obtain ⟨kvs', hms', hsms⟩ := MembersRewritten.read_forall₂ hs hms hd.2
    exact ⟨(k, y') :: kvs', readMembers_cons.2 ⟨_, kvs', Member.read_mk.2 ⟨k, y', hn ▸ hk, hy', rfl⟩,
      hms', rfl⟩, .cons ⟨rfl, hsy⟩ hsms⟩
end

/-- Two texts written alike but for whitespace, the spelling of tokens and names that read the same
and the order of object members, where the first repeats no member name after unescaping, decode
to values equal up to member order. -/
theorem sameDecoding_of_rewritten {a b : String} {w w' : Written} {ws ws' : Space}
    (ha : a.toList = w.text ++ ws.chars) (hb : b.toList = w'.text ++ ws'.chars)
    (hr : Rewritten w w') (hd : w.namesDistinct = true) (hw : w.read.isSome) :
    SameDecoding (decodeText a) (decodeText b) := by
  obtain ⟨v, hv⟩ := Option.isSome_iff_exists.1 hw
  obtain ⟨v', hv', hs⟩ := hr.read_sameUpToOrder hv hd
  rw [decodeText_written ha hv, decodeText_written hb hv']
  exact hs

/-- `Marshal` does not see how a text is written. Texts that decode to values equal up to member
order, or both fail to decode, have the same canonical form or both fail; so do, in particular,
texts written alike but for whitespace, the spelling of tokens and names that read the same and
the order of object members, where no object repeats a member name after unescaping. -/
theorem marshal_eq_of_rewritten :
    (∀ a b : String, SameDecoding (decodeText a) (decodeText b) → marshal a = marshal b) ∧
    ∀ (a b : String) (w w' : Written) (ws ws' : Space), a.toList = w.text ++ ws.chars →
      b.toList = w'.text ++ ws'.chars → Rewritten w w' → w.namesDistinct = true →
      w.read.isSome → SameDecoding (decodeText a) (decodeText b) ∧ marshal a = marshal b :=
  ⟨fun _ _ => marshal_eq_of_sameDecoding, fun _ _ _ _ _ _ ha hb hr hd hw =>
    have h := sameDecoding_of_rewritten ha hb hr hd hw
    ⟨h, marshal_eq_of_sameDecoding h⟩⟩

/-- No whitespace. -/
def Space.none : Space := ⟨[], rfl⟩

/-- One space. -/
def Space.one : Space := ⟨[' '], rfl⟩

/-- `{"x":10,"y":"A"}` as written. -/
def plainMembers : Written :=
  .obj .none [.mk .none ['x', '"'] .none (.scalar .none ['1', '0']) .none,
    .mk .none ['y', '"'] .none (.scalar .none ['"', 'A', '"']) .none] .none

/-- `{ "\u0079": "\u0041", "x": 1e1 }`: the members swapped, the name and the string escaped, the
number with an exponent, and spaces. -/
def respelledMembers : Written :=
  .obj .none [.mk .one ['\\', 'u', '0', '0', '7', '9', '"'] .none
      (.scalar .one ['"', '\\', 'u', '0', '0', '4', '1', '"']) .none,
    .mk .one ['x', '"'] .none (.scalar .one ['1', 'e', '1']) .one] .none

theorem marshal_eq_of_rewritten_respelled :
    SameDecoding (decodeText "\x7b\"x\":10,\"y\":\"A\"\x7d")
      (decodeText "\x7b \"\\u0079\": \"\\u0041\", \"x\": 1e1 \x7d") ∧
    marshal "\x7b\"x\":10,\"y\":\"A\"\x7d" =
      marshal "\x7b \"\\u0079\": \"\\u0041\", \"x\": 1e1 \x7d" :=
  have h := marshal_eq_of_rewritten.2 _ _ plainMembers respelledMembers .none .none (by decide)
    (by decide) (.obj (.cons rfl (.scalar (by decide)) (.cons (by decide) (.scalar (by decide)) .nil))
      (.swap _ _ _)) (by decide) (by decide)
  ⟨h.1, marshal_eq_of_rewritten.1 _ _ h.1⟩

end OpenBindings.CanonicalJson
