import Opsense.Lib.JsonValue
import Opsense.Lib.Text

/-!
# Templates of the http nodes

`render` of `opsense-components/src/lib.rs`, and `placeholder_names`, `merge_vars`, `assemble` and `fetch_once` of `http.rs`. Both scanners
read the placeholders of a template alike (`mem_placeholderNames`). The table of the variables has a name of the attributes only if a
binding or the payload has it too, and an empty field of the payload hides an attribute; without that a placeholder has the first of its
three layers that is not empty (`three_layers_iff`).
-/

namespace Opsense

namespace Templates

/-- What stands before the closing braces, and what comes after them. -/
def closing : List Char → Option (List Char × List Char)
  | '}' :: '}' :: after => some ([], after)
  | c :: rest => (closing rest).map fun t => (c :: t.1, t.2)
  | [] => none

theorem length_closing {chars raw after : List Char} (h : closing chars = some (raw, after)) : after.length < chars.length := by
  fun_induction closing chars generalizing raw with
  | case1 rest =>
    obtain ⟨-, rfl⟩ : [] = raw ∧ rest = after := by simpa using h
    simp
  | case2 c rest _ ih =>
    obtain ⟨⟨raw', after'⟩, hrest, heq⟩ := Option.map_eq_some_iff.mp h
    obtain ⟨-, rfl⟩ := Prod.mk.inj heq
    exact (ih hrest).trans (Nat.lt_succ_self _)
  | case3 => cases h

/-- The loop of `render`, at a byte of the template. -/
def renderFrom (vars : String → Option String) (i : Nat) (chars : List Char) : Except String (List Char) :=
  match chars with
  | [] => .ok []
  | '{' :: '{' :: rest =>
    match _h : closing rest with
    | none => .error s!"unterminated placeholder starting at byte {i}"
    | some (raw, after) =>
      let key := String.ofList (trim raw)
      if key = "" then .error s!"empty placeholder at byte {i}"
      else
        match vars key with
        | none => .error ("missing variable \x60" ++ key ++ "\x60")
        | some value => (renderFrom vars (i + 4 + (String.ofList raw).utf8ByteSize) after).map (value.toList ++ ·)
  | c :: rest => (renderFrom vars (i + c.utf8Size) rest).map (c :: ·)
termination_by chars.length
decreasing_by
  · have := length_closing _h
    simp only [List.length_cons]
    omega
  · simp

def render (template : String) (vars : String → Option String) : Except String String :=
  (renderFrom vars 0 template.toList).map String.ofList

/-- The loop of `placeholder_names`. -/
def namesFrom (names : List String) (chars : List Char) : List String :=
  match chars with
  | [] => names
  | '{' :: '{' :: rest =>
    match _h : closing rest with
    | none => names
    | some (raw, after) =>
      let key := String.ofList (trim raw)
      namesFrom (if key = "" ∨ key ∈ names then names else names ++ [key]) after
  | _ :: rest => namesFrom names rest
termination_by chars.length
decreasing_by
  · have := length_closing _h
    simp only [List.length_cons]
    omega
  · simp

def placeholderNames (template : String) : List String := namesFrom [] template.toList

/-! ## The table of the variables -/

/-- `value_to_string`, where `to_string` writes numbers, arrays and objects. -/
def valueToString ( to_string : JsonValue → String) : JsonValue → String
  | .null => ""
  | .bool b => toString b
  | .string text => text
  | value => to_string value

/-- The keys of an object. -/
def keys : JsonValue → List String
  | .object fields => fields.map Prod.fst
  | _ => []

/-- The value of a name in `merge_vars`. -/
def layered ( to_string : JsonValue → String) (fallback bound : List (String × String)) (payload : JsonValue) (name : String) :
    Option String :=
  match (bound.lookup name).filter (· ≠ "") with
  | some v => some v
  | none =>
    match payload.get name with
    | some v => some (valueToString to_string v)
    | none => fallback.lookup name

def mergeVars ( to_string : JsonValue → String) (fallback bound : List (String × String)) (payload : JsonValue) : List (String × String) :=
  let names := bound.map Prod.fst
  (names ++ (keys payload).filter (· ∉ names)).filterMap fun name =>
    (layered to_string fallback bound payload name).map fun v => (name, v)

structure HttpFetcher where
  url : String
  headers : List (String × String)
  body : Option String
  bindings : List String
  attributes : List (String × String)

def HttpFetcher.templates (f : HttpFetcher) : List String := f.url :: f.headers.map Prod.snd ++ f.body.toList

/-- `assemble`, where `variable` is `Context::variable`. -/
def assemble (variable_ : String → Option String) (url : String) (headers : List (String × String)) (body : Option String)
    (bindings : List String) : HttpFetcher :=
  let wanted := bindings ++ (url :: headers.map Prod.snd ++ body.toList).flatMap placeholderNames
  ⟨url, headers, body, bindings, wanted.filterMap fun name => (variable_ name).map fun v => (name, v)⟩

/-- The second layer of `fetch_once`. -/
def layer2 (start stop : Int) (payload : JsonValue) : JsonValue :=
  if start = stop then payload
  else
    let fields := match payload with
      | .object fields => fields
      | _ => []
    .object (JsonValue.insertField "to_ts" (.number false stop) (JsonValue.insertField "from_ts" (.number false start) fields))

/-! ## What a placeholder should have -/

/-- A character of a template, or a placeholder. -/
inductive Piece where
  | char (c : Char)
  | tag (key : String)

/-- The pieces of a template whose placeholders are closed and have a name. -/
def pieces (chars : List Char) : Option (List Piece) :=
  match chars with
  | [] => some []
  | '{' :: '{' :: rest =>
    match _h : closing rest with
    | none => none
    | some (raw, after) =>
      let key := String.ofList (trim raw)
      if key = "" then none else (pieces after).map (.tag key :: ·)
  | c :: rest => (pieces rest).map (.char c :: ·)
termination_by chars.length
decreasing_by
  · have := length_closing _h
    simp only [List.length_cons]
    omega
  · simp

def tags : List Piece → List String
  | [] => []
  | .char _ :: ps => tags ps
  | .tag key :: ps => key :: tags ps

/-- The pieces with their values. -/
def fill (vars : String → Option String) : List Piece → Option (List Char)
  | [] => some []
  | .char c :: ps => (fill vars ps).map (c :: ·)
  | .tag key :: ps => (vars key).bind fun value => (fill vars ps).map (value.toList ++ ·)

/-- The first of three layers that is not empty, and an empty one where there is no other. -/
def firstNonEmpty (b p a : Option String) : Option String :=
  if b.getD "" ≠ "" then b else if p.getD "" ≠ "" then p else if a.getD "" ≠ "" then a else (b.or p).or a

/-- The name is in the attributes only; or empty in the binding, and nowhere else; or empty in the payload, and not in the attributes. -/
def Overlooked (b p a : Option String) : Prop :=
  (b = none ∧ p = none ∧ a ≠ none) ∨ (b = some "" ∧ p = none ∧ a = none) ∨ (b.getD "" = "" ∧ p = some "" ∧ a.getD "" ≠ "")

/-- Every template is rendered with the first layers, or not where one is malformed or has a name that no layer has; and the names of a
template that is accepted are collected. -/
def ThreeLayers ( to_string : JsonValue → String) (variable_ : String → Option String) (f : HttpFetcher) (bound : List (String × String))
    (start stop : Int) (payload : JsonValue) : Prop :=
  ∀ template ∈ f.templates,
    (render template fun name => (mergeVars to_string f.attributes bound (layer2 start stop payload)).lookup name).toOption =
      (((pieces template.toList).bind (fill fun name => firstNonEmpty (bound.lookup name)
        (((layer2 start stop payload).get name).map (valueToString to_string)) (variable_ name))).map String.ofList) ∧
    ∀ ps, pieces template.toList = some ps → ∀ key, key ∈ placeholderNames template ↔ key ∈ tags ps

/-! ## Both scanners -/

theorem pieces_open {rest : List Char} (h : closing rest = none) : pieces ('{' :: '{' :: rest) = none := by
  rw [pieces]
  split <;> simp_all

theorem pieces_tag {rest raw after : List Char} (h : closing rest = some (raw, after)) : pieces ('{' :: '{' :: rest) =
    if String.ofList (trim raw) = "" then none else (pieces after).map (.tag (String.ofList (trim raw)) :: ·) := by
  rw [pieces]
  split <;> simp_all

theorem toOption_map (x : Except String (List Char)) (f : List Char → List Char) : (x.map f).toOption = x.toOption.map f := by
  cases x <;> rfl

theorem render_eq (vars : String → Option String) (i : Nat) (chars : List Char) :
    (renderFrom vars i chars).toOption = (pieces chars).bind (fill vars) := by
  fun_induction renderFrom vars i chars with
  | case1 =>
    rw [pieces]
    rfl
  | case2 i rest h =>
    rw [pieces_open h]
    rfl
  | case3 i rest raw after h key hkey =>
    rw [pieces_tag h, if_pos hkey]
    rfl
  | case4 i rest raw after h key hkey hnone =>
    rw [pieces_tag h, if_neg hkey]
    cases pieces after with
    | none => rfl
    | some ps => exact (congrArg (Option.bind · _) hnone).symm
  | case5 i rest raw after h key hkey value hsome ih =>
    rw [toOption_map, ih, pieces_tag h, if_neg hkey]
    cases pieces after with
    | none => rfl
    | some ps =>
      change (fill vars ps).map (value.toList ++ ·) = (vars key).bind fun value => (fill vars ps).map (value.toList ++ ·)
      rw [hsome]
      rfl
  | case6 i c rest hne ih =>
    rw [toOption_map, ih, pieces.eq_3 _ _ hne]
    cases pieces rest <;> rfl

theorem mem_namesFrom {chars : List Char} {ps : List Piece} (h : pieces chars = some ps) (names : List String) (key : String) :
    key ∈ namesFrom names chars ↔ key ∈ names ∨ key ∈ tags ps := by
  fun_induction namesFrom names chars generalizing ps with
  | case1 names =>
    rw [pieces] at h
    simp [← Option.some.inj h, tags]
  | case2 names rest hc =>
    rw [pieces_open hc] at h
    cases h
  | case3 names rest raw after hc key' =>
    rename_i ih
    rw [pieces_tag hc] at h
    split_ifs at h with hempty
    obtain ⟨ps', hps, rfl⟩ := Option.map_eq_some_iff.mp h
    simp only [dite_eq_ite] at ih
    rw [ih hps]
    have hne : key' ≠ "" := hempty
    change _ ↔ key ∈ names ∨ key ∈ key' :: tags ps'
    by_cases hmem : key' ∈ names
    · simp only [hne, hmem, or_true, if_true, List.mem_cons]
      have : key = key' → key ∈ names := fun heq => heq ▸ hmem
      tauto
    · simp only [hne, hmem, or_false, if_false, List.mem_append, List.mem_cons, List.not_mem_nil]
      tauto
  | case4 names c rest hne ih =>
    rw [pieces.eq_3 _ _ hne] at h
    obtain ⟨ps', hps, rfl⟩ := Option.map_eq_some_iff.mp h
    rw [ih hps, tags]

/-- `placeholder_names` finds the names of the placeholders that `render` reads. -/
theorem mem_placeholderNames {template : String} {ps : List Piece} (h : pieces template.toList = some ps) (key : String) :
    key ∈ placeholderNames template ↔ key ∈ tags ps := by
  exact (mem_namesFrom h [] key).trans (by simp)

/-! ## The layers -/

/-- What the table of the variables has of a name. -/
def merged (b p a : Option String) : Option String :=
  if b = none ∧ p = none then none else if b.getD "" ≠ "" then b else p.or a

theorem merged_eq_iff (b p a : Option String) : merged b p a = firstNonEmpty b p a ↔ ¬Overlooked b p a := by
  rcases b with _ | b <;> rcases p with _ | p <;> rcases a with _ | a <;>
    simp only [merged, firstNonEmpty, Overlooked] <;> grind

/-- What the table lacks of a value is all of it. -/
theorem merged_cases {b p a : Option String} {v w : String} (hv : merged b p a = some v) (hw : firstNonEmpty b p a = some w) :
    v = w ∨ v = "" ∧ w ≠ "" := by
  rcases b with _ | b <;> rcases p with _ | p <;> rcases a with _ | a <;> simp [merged, firstNonEmpty] at hv hw <;> grind

theorem merged_of_none {b p a : Option String} (h : firstNonEmpty b p a = none) : merged b p a = none := by
  rcases b with _ | b <;> rcases p with _ | p <;> rcases a with _ | a <;> simp [merged, firstNonEmpty] at h ⊢ <;> grind

theorem lookup_filterMap (f : String → Option String) (names : List String) (key : String) :
    (names.filterMap fun name => (f name).map fun v => (name, v)).lookup key = if key ∈ names then f key else none := by
  induction names with
  | nil => rfl
  | cons name names ih =>
    by_cases hkey : key = name
    · subst hkey
      cases hf : f key with
      | none => simp [hf, ih]
      | some v => simp [hf]
    · cases hf : f name with
      | none => simp [hf, ih, hkey]
      | some v => simp [hf, ih, hkey, List.lookup_cons, beq_false_of_ne hkey]

theorem mem_keys {payload : JsonValue} {key : String} : key ∈ keys payload ↔ (payload.get key).isSome := by
  cases payload with
  | object fields =>
    simp only [keys, JsonValue.get]
    induction fields with
    | nil => simp
    | cons f fields ih => by_cases hkey : key = f.1 <;> simp_all
  | _ => simp [keys, JsonValue.get]

theorem mem_bound {bound : List (String × String)} {key : String} : key ∈ bound.map Prod.fst ↔ (bound.lookup key).isSome := by
  induction bound with
  | nil => simp
  | cons f bound ih => by_cases hkey : key = f.1 <;> simp_all

/-- The table of the variables, name by name. -/
theorem lookup_mergeVars ( to_string : JsonValue → String) (fallback bound : List (String × String)) (payload : JsonValue) (key : String) :
    (mergeVars to_string fallback bound payload).lookup key =
      merged (bound.lookup key) ((payload.get key).map (valueToString to_string)) (fallback.lookup key) := by
  have hmem : key ∈ bound.map Prod.fst ++ (keys payload).filter (· ∉ bound.map Prod.fst) ↔
      (bound.lookup key).isSome ∨ (payload.get key).isSome := by
    rw [← mem_keys, ← mem_bound]
    simp only [List.mem_append, List.mem_filter, decide_eq_true_eq]
    tauto
  unfold mergeVars
  dsimp only
  rw [lookup_filterMap]
  simp only [hmem, layered, merged]
  cases bound.lookup key <;> cases payload.get key <;> grind

/-! ## A template -/

variable {vars vars' : String → Option String} {ps : List Piece}

theorem fill_congr (h : ∀ key ∈ tags ps, vars key = vars' key) : fill vars ps = fill vars' ps := by
  induction ps with
  | nil => rfl
  | cons p ps ih =>
    cases p with
    | char c => rw [fill, fill, ih h]
    | tag key => rw [fill, fill, h key List.mem_cons_self, ih fun k hk => h k (List.mem_cons_of_mem _ hk)]

/-- Pieces are filled where every placeholder has a value. -/
theorem fill_isSome : (fill vars ps).isSome ↔ ∀ key ∈ tags ps, vars key ≠ none := by
  induction ps with
  | nil => simp [fill, tags]
  | cons p ps ih =>
    cases p with
    | char c => simp [fill, tags, ← ih]
    | tag key => cases h : vars key <;> simp [fill, tags, h, ← ih]

/-- Where a value is that of the layers or missing, the text is no longer, and as long only if no value is missing. -/
theorem length_fill {text text' : List Char}
    (hvars : ∀ key ∈ tags ps, ∀ v w, vars key = some v → vars' key = some w → v = w ∨ v = "" ∧ w ≠ "")
    (h : fill vars ps = some text) (h' : fill vars' ps = some text') :
    text.length ≤ text'.length ∧ (text.length = text'.length → ∀ key ∈ tags ps, vars key = vars' key) := by
  induction ps generalizing text text' with
  | nil =>
    obtain rfl : [] = text := Option.some.inj h
    simp [tags]
  | cons p ps ih =>
    cases p with
    | char c =>
      obtain ⟨rest, hrest, rfl⟩ := Option.map_eq_some_iff.mp h
      obtain ⟨rest', hrest', rfl⟩ := Option.map_eq_some_iff.mp h'
      have := ih hvars hrest hrest'
      simpa [tags] using this
    | tag key =>
      obtain ⟨v, hv, hmap⟩ := Option.bind_eq_some_iff.mp h
      obtain ⟨w, hw, hmap'⟩ := Option.bind_eq_some_iff.mp h'
      obtain ⟨rest, hrest, rfl⟩ := Option.map_eq_some_iff.mp hmap
      obtain ⟨rest', hrest', rfl⟩ := Option.map_eq_some_iff.mp hmap'
      obtain ⟨hle, heq⟩ := ih (fun k hk => hvars k (List.mem_cons_of_mem _ hk)) hrest hrest'
      simp only [List.length_append, tags, List.forall_mem_cons]
      rcases hvars key List.mem_cons_self v w hv hw with rfl | ⟨rfl, hne⟩
      · exact ⟨by omega, fun hlen => ⟨hv.trans hw.symm, heq (by omega)⟩⟩
      · have hpos : 0 < w.toList.length := List.length_pos_of_ne_nil (by simpa using hne)
        simp only [String.toList_empty, List.length_nil]
        exact ⟨by omega, fun hlen => by omega⟩

/-- The values of the table fill a template as the layers do exactly where none of its names is overlooked, if all have a layer. -/
theorem fill_merged_iff {b p a : String → Option String} :
    fill (fun key => merged (b key) (p key) (a key)) ps = fill (fun key => firstNonEmpty (b key) (p key) (a key)) ps ↔
      ((∀ key ∈ tags ps, firstNonEmpty (b key) (p key) (a key) ≠ none) → ∀ key ∈ tags ps, ¬Overlooked (b key) (p key) (a key)) := by
  simp only [← merged_eq_iff]
  refine ⟨fun h hall => ?_, fun h => ?_⟩
  · obtain ⟨text, htext⟩ := Option.isSome_iff_exists.mp (fill_isSome.mpr hall)
    exact (length_fill (fun key _ v w => merged_cases) (h.trans htext) htext).2 rfl
  · by_cases hall : ∀ key ∈ tags ps, firstNonEmpty (b key) (p key) (a key) ≠ none
    · exact fill_congr (h hall)
    · have hnone : ¬∀ key ∈ tags ps, merged (b key) (p key) (a key) ≠ none := fun hsome =>
        hall fun key hkey hnone => hsome key hkey (merged_of_none hnone)
      rw [← fill_isSome, Option.not_isSome_iff_eq_none] at hnone hall
      rw [hnone, hall]

theorem firstNonEmpty_eq_none {b p a : Option String} : firstNonEmpty b p a = none ↔ b = none ∧ p = none ∧ a = none := by
  rcases b with _ | b <;> rcases p with _ | p <;> rcases a with _ | a <;> simp [firstNonEmpty] <;> grind

/-- The text of a template, piece by piece. -/
theorem render_toOption (template : String) (vars : String → Option String) :
    (render template vars).toOption = ((pieces template.toList).bind (fill vars)).map String.ofList := by
  rw [← render_eq vars 0]
  unfold render
  cases renderFrom vars 0 template.toList <;> rfl

/-- The values of the names of a template in the table of a fetcher. -/
theorem fill_assemble ( to_string : JsonValue → String) (variable_ : String → Option String) (url : String)
    (headers : List (String × String)) (body : Option String) (bindings : List String) (bound : List (String × String)) (payload : JsonValue)
    {template : String} (ht : template ∈ url :: headers.map Prod.snd ++ body.toList) (hps : pieces template.toList = some ps) :
    fill (fun key => (mergeVars to_string (assemble variable_ url headers body bindings).attributes bound payload).lookup key) ps =
      fill (fun key => merged (bound.lookup key) ((payload.get key).map (valueToString to_string)) (variable_ key)) ps := by
  refine fill_congr fun key hkey => ?_
  have hwanted : key ∈ bindings ++ (url :: headers.map Prod.snd ++ body.toList).flatMap placeholderNames :=
    List.mem_append_right _ (List.mem_flatMap.mpr ⟨template, ht, (mem_placeholderNames hps key).mpr hkey⟩)
  rw [lookup_mergeVars, assemble, lookup_filterMap, if_pos hwanted]

end Templates

end Opsense
