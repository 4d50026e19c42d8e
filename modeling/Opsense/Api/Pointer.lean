import Opsense.Lib.JsonValue
import Opsense.Lib.Namespace

/-!
# Patches by pointer

`json_pointer_value` and `patch_json_pointer` of `opsense/src/api/repl/v1.rs`, with the `pointer` of a JSON value that the first one
goes by. A pointer has its segments between slashes, with `~1` for a slash and `~0` for a tilde in them. The writer leaves out all the
slashes at the beginning of a path and the reader only the first one, so a patch is an update at its path unless the path begins
with two (`properUpdate_iff`).
-/

namespace Opsense

/-- `str::replace` of two characters. -/
def replacePair (a b c : Char) : List Char → List Char
  | x :: y :: rest => if x = a ∧ y = b then c :: replacePair a b c rest else x :: replacePair a b c (y :: rest)
  | rest => rest

/-- A segment of a pointer as a key. -/
def unescape (segment : List Char) : String := String.ofList (replacePair '~' '0' '~' (replacePair '~' '1' '/' segment))

/-- The index that a segment gives into an array: digits without a leading zero, and no more than a machine word. -/
def parseIndex (token : String) : Option Nat :=
  let digits := token.toList
  if digits = [] ∨ (digits.head? = some '0' ∧ digits.length ≠ 1) ∨ ¬digits.all Char.isDigit then none
  else
    let n := Nat.ofDigits 10 (digits.reverse.map fun c => c.toNat - '0'.toNat)
    if n < 2 ^ 64 then some n else none

namespace JsonValue

/-- One segment on the way of a pointer. -/
def descend (v : JsonValue) (token : String) : Option JsonValue :=
  match v with
  | .object fields => fields.lookup token
  | .array items => (parseIndex token).bind fun i => items[i]?
  | _ => none

/-- `Value::pointer` -/
def pointer (v : JsonValue) (path : String) : Option JsonValue :=
  match path.toList with
  | [] => some v
  | '/' :: rest => ((pieces '/' rest).map unescape).foldlM descend v
  | _ => none

end JsonValue

def jsonPointerValue (root : JsonValue) (path : String) : JsonValue := (root.pointer path).getD .null

/-- The walk of `patch_json_pointer` to the object that has the last segment, and the value written there. -/
def patchWithin (path last : String) (new_value : JsonValue) : List String → JsonValue → Except String JsonValue
  | [], .object fields => .ok (.object (JsonValue.insertField last new_value fields))
  | [], _ => .error ("path `" ++ path ++ "`: cha không phải object")
  | seg :: parents, .object fields =>
    match fields.lookup seg with
    | none => .error ("path `" ++ path ++ "`: không có `" ++ seg ++ "` để đi tiếp")
    | some next => (patchWithin path last new_value parents next).map fun next => .object (JsonValue.insertField seg next fields)
  | seg :: _, _ => .error ("path `" ++ path ++ "`: không có `" ++ seg ++ "` để đi tiếp")

/-- The segments of a path, after all the slashes it begins with. -/
def segments (path : String) : List String := (pieces '/' (path.toList.dropWhile (· = '/'))).map unescape

theorem segments_ne_nil (path : String) : segments path ≠ [] := by
  unfold segments
  simp [pieces_ne_nil]

def patchJsonPointer (root : JsonValue) (path : String) (new_value : JsonValue) : Except String JsonValue :=
  if path.toList.head? ≠ some '/' ∨ path = "/" then
    .error ("path phải là JSON pointer bắt đầu bằng '/', vd \"params.sl_pct\" (nhận `" ++ path ++ "`)")
  else patchWithin path ((segments path).getLast (segments_ne_nil path)) new_value (segments path).dropLast root

section Fields

variable {key q : String} {value : JsonValue} {fields : List (String × JsonValue)}

@[simp]
theorem JsonValue.lookup_insertField : (insertField key value fields).lookup q = if q = key then some value else fields.lookup q := by
  have hcons : ∀ k (v : JsonValue) l, List.lookup q ((k, v) :: l) = if q = k then some v else l.lookup q := by
    intro k v l
    by_cases h : q = k
    · simp [h]
    · simp [List.lookup_cons, beq_false_of_ne h, h]
  induction fields with
  | nil => simp [insertField, hcons]
  | cons f fields ih =>
    obtain ⟨k, v⟩ := f
    by_cases hk : key = k
    · simp only [insertField, hk, if_true, hcons]
      split <;> rfl
    · by_cases hlt : key < k
      · simp only [insertField, hk, hlt, if_true, if_false, hcons]
      · simp only [insertField, hk, hlt, if_false, hcons, ih]
        by_cases hq : q = key
        · subst hq
          simp [hk]
        · simp [hq]

end Fields

/-- The tokens of a pointer, as keys. -/
def tokens (path : String) : Option (List String) :=
  match path.toList with
  | [] => some []
  | '/' :: rest => some ((pieces '/' rest).map unescape)
  | _ => none

theorem JsonValue.pointer_eq (v : JsonValue) (path : String) : v.pointer path = (tokens path).bind fun l => l.foldlM descend v := by
  unfold pointer tokens
  split <;> simp_all

/-- Neither of two pointers leads through the other. -/
def PathsApart (path q : String) : Prop := ∀ l ∈ tokens path, ∀ m ∈ tokens q, Diverge l m

/-- What is patched into a document at a path is read there, and what is read apart from it stays the same. -/
def ProperUpdate (root : JsonValue) (path : String) : Prop :=
  ∀ new_value patched, patchJsonPointer root path new_value = .ok patched →
    jsonPointerValue patched path = new_value ∧ ∀ q, PathsApart path q → jsonPointerValue patched q = jsonPointerValue root q

/-- The segments lead through objects to an object. -/
def LeadsToObject (root : JsonValue) (parents : List String) : Prop := ∃ fields, parents.foldlM JsonValue.get root = some (.object fields)

section Within

variable {path last : String} {new_value root patched : JsonValue} {parents : List String}

/-- The value is where the segments lead, and nothing is changed off their way. -/
theorem patchWithin_reads (h : patchWithin path last new_value parents root = .ok patched) :
    (parents ++ [last]).foldlM JsonValue.descend patched = some new_value ∧
      ∀ m, Diverge (parents ++ [last]) m → m.foldlM JsonValue.descend patched = m.foldlM JsonValue.descend root := by
  induction parents generalizing root patched with
  | nil =>
    cases root with
    | object fields =>
      cases h
      refine ⟨by simp [JsonValue.descend], ?_⟩
      rintro (_ | ⟨t, m⟩) hm
      · exact absurd (List.nil_prefix) hm.2
      · have ht : t ≠ last := by
          rintro rfl
          exact hm.1 (by simp)
        simp [JsonValue.descend, ht]
    | _ => simp [patchWithin] at h
  | cons seg parents ih =>
    cases root with
    | object fields =>
      rw [patchWithin] at h
      cases hnext : fields.lookup seg with
      | none => simp [hnext] at h
      | some next =>
        obtain ⟨next', hnext', rfl⟩ : ∃ next', patchWithin path last new_value parents next = .ok next' ∧
            JsonValue.object (JsonValue.insertField seg next' fields) = patched := by
          cases hp : patchWithin path last new_value parents next with
          | error e => simp [hnext, hp, Except.map] at h
          | ok next' => exact ⟨next', rfl, by simpa [hnext, hp, Except.map] using h⟩
        obtain ⟨hread, hoff⟩ := ih hnext'
        refine ⟨by simpa [JsonValue.descend] using hread, ?_⟩
        rintro (_ | ⟨t, m⟩) hm
        · exact absurd (List.nil_prefix) hm.2
        · by_cases ht : t = seg
          · subst ht
            have hd : Diverge (parents ++ [last]) m := by simpa [Diverge] using hm
            simpa [JsonValue.descend, hnext] using hoff m hd
          · simp [JsonValue.descend, ht]
    | _ => simp [patchWithin] at h

theorem patchWithin_ok_iff : (∃ patched, patchWithin path last new_value parents root = .ok patched) ↔ LeadsToObject root parents := by
  unfold LeadsToObject
  induction parents generalizing root with
  | nil => cases root <;> simp [patchWithin]
  | cons seg parents ih =>
    cases root with
    | object fields =>
      rw [patchWithin]
      cases hnext : fields.lookup seg with
      | none => simp [JsonValue.get, hnext]
      | some next =>
        have hmap : (∃ patched, ((patchWithin path last new_value parents next).map fun next =>
            JsonValue.object (JsonValue.insertField seg next fields)) = .ok patched) ↔
            ∃ next', patchWithin path last new_value parents next = .ok next' := by
          cases patchWithin path last new_value parents next <;> simp [Except.map]
        simpa [JsonValue.get, hnext, hmap] using ih
    | _ => simp [patchWithin, JsonValue.get]

end Within

section Slashes

variable {path : String} {rest : List Char}

/-- The writer and the reader have the same segments after a single slash. -/
theorem tokens_eq_segments (h : path.toList = '/' :: rest) (hrest : ¬['/'] <+: rest) : tokens path = some (segments path) := by
  have hdrop : rest.dropWhile (· = '/') = rest := by
    cases rest with
    | nil => rfl
    | cons c cs => exact List.dropWhile_cons_of_neg (by simpa [eq_comm] using hrest)
  simp [tokens, segments, h, hdrop]

theorem unescape_ne_empty {segment : List Char} (h : segment ≠ []) : unescape segment ≠ "" := by
  have hne : ∀ {a b c : Char} {l : List Char}, l ≠ [] → replacePair a b c l ≠ [] := by
    intro a b c l hl
    match l with
    | [x] => simp [replacePair]
    | x :: y :: l =>
      rw [replacePair]
      split <;> simp
  intro hempty
  exact hne (hne h) (by simpa [unescape] using congrArg String.toList hempty)

/-- After more than one, what the reader goes by begins with an empty segment, and what the writer goes by does not, or is nothing
but that. -/
theorem segments_cases (path : String) : segments path = [""] ∨ ∃ s l, segments path = s :: l ∧ s ≠ "" := by
  unfold segments
  cases h : path.toList.dropWhile (· = '/') with
  | nil => exact .inl rfl
  | cons c cs =>
    have hc : c ≠ '/' := by
      have := List.head?_dropWhile_not (· = '/') path.toList
      simpa [h] using this
    right
    cases hp : pieces '/' cs with
    | nil => exact absurd hp (pieces_ne_nil _ _)
    | cons p ps => exact ⟨_, ps.map unescape, by simp [pieces, hc, hp], unescape_ne_empty (List.cons_ne_nil c p)⟩

theorem patchJsonPointer_eq {root new_value patched : JsonValue} (h : patchJsonPointer root path new_value = .ok patched) :
    ∃ rest, path.toList = '/' :: rest ∧
      patchWithin path ((segments path).getLast (segments_ne_nil path)) new_value (segments path).dropLast root = .ok patched := by
  unfold patchJsonPointer at h
  split at h
  · cases h
  · rename_i hpath
    rw [not_or, not_not] at hpath
    obtain ⟨rest, hrest⟩ := List.head?_eq_some_iff.mp hpath.1
    exact ⟨rest, hrest, h⟩

end Slashes

/-- A patch is an update at its path, unless the path begins with two slashes and the document takes it. -/
theorem properUpdate_iff (root : JsonValue) (path : String) :
    ProperUpdate root path ↔ (['/', '/'] <+: path.toList → ¬LeadsToObject root (segments path).dropLast) := by
  have hsegments : (segments path).dropLast ++ [(segments path).getLast (segments_ne_nil path)] = segments path :=
    List.dropLast_append_getLast _
  constructor
  · rintro hproper ⟨t, ht⟩ hlead
    have hpatch : ∀ v, ∃ patched, patchJsonPointer root path v = .ok patched ∧
        patchWithin path ((segments path).getLast (segments_ne_nil path)) v (segments path).dropLast root = .ok patched := by
      intro v
      obtain ⟨patched, hpatched⟩ := patchWithin_ok_iff.mpr hlead
      refine ⟨patched, ?_, hpatched⟩
      rw [patchJsonPointer, if_neg, hpatched]
      have hne : path ≠ "/" := by
        rintro rfl
        simp at ht
      simp [← ht, hne]
    have htokens : tokens path = some ("" :: (pieces '/' t).map unescape) := by
      simp [tokens, ← ht, pieces, unescape, replacePair]
    obtain h | ⟨s, l, h, hs⟩ := segments_cases path
    · -- the value is at the empty key of the document, and the reader looks into it for more
      obtain ⟨patched, hok, hwithin⟩ := hpatch (.bool true)
      have hread := (patchWithin_reads hwithin).1
      rw [hsegments, h] at hread
      obtain ⟨p, ps, hps⟩ := List.exists_cons_of_ne_nil (pieces_ne_nil '/' t)
      have hval := (hproper _ _ hok).1
      rw [jsonPointerValue, JsonValue.pointer_eq, htokens, hps] at hval
      have hroot : patched.descend "" = some (.bool true) := by simpa using hread
      have hbool : JsonValue.descend (.bool true) (unescape p) = none := rfl
      simp [hroot, hbool] at hval
    · -- the reader looks for the empty key, which the writer has left as it was
      have hread : ∀ v, jsonPointerValue root path = v := by
        intro v
        obtain ⟨patched, hok, hwithin⟩ := hpatch v
        have hoff := (patchWithin_reads hwithin).2
        rw [hsegments, h] at hoff
        have hsame := hoff ("" :: (pieces '/' t).map unescape) (by simp [Diverge, hs, hs.symm])
        rw [← (hproper _ _ hok).1]
        simp only [jsonPointerValue, JsonValue.pointer_eq, htokens, Option.bind_some, hsame]
      cases (hread .null).symm.trans (hread (.bool true))
  · intro hno v patched h
    obtain ⟨rest, hrest, hwithin⟩ := patchJsonPointer_eq h
    have hslash : ¬['/'] <+: rest := fun hr =>
      hno (by simpa [hrest] using hr) (patchWithin_ok_iff.mp ⟨_, hwithin⟩)
    have htokens := tokens_eq_segments hrest hslash
    obtain ⟨hread, hoff⟩ := patchWithin_reads hwithin
    rw [hsegments] at hread hoff
    refine ⟨by simp [jsonPointerValue, JsonValue.pointer_eq, htokens, hread], ?_⟩
    intro q hq
    cases hm : tokens q with
    | none => simp [jsonPointerValue, JsonValue.pointer_eq, hm]
    | some m =>
      have hsame := hoff m (hq _ (by simp [htokens]) m (by simp [hm]))
      simp [jsonPointerValue, JsonValue.pointer_eq, hm, hsame]

/-- A patch at `//a` is written at `/a`. -/
theorem doubleSlash_not_proper : ¬ProperUpdate (.object []) "//a" := by
  intro h
  have hread := (h (.bool true) (.object [("a", .bool true)]) (by decide)).1
  exact absurd hread (by decide)

end Opsense
