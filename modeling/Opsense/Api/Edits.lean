import Opsense.Api.Pointer
import Opsense.Lib.Serial
import Opsense.Runtime.Engine

/-!
# Edits of a running pipeline

`reload` and `patch_component` of `opsense/src/api/repl/v1.rs`. A patch reads the component it is about, then all the components, and
takes the lock of the runtime to reload; other edits come in between. The edits do what they do one after another when a patch
reloads on what it has read (`edits_serial`), and else one may undo another (`patch_undone`). What is derived for a component
(`typetag`) and the parser of JSON are the `Codec`; the nodes in an answer, which are looked up afterwards, are left out.
-/

namespace Opsense

/-- Components to JSON and back, and JSON from a text. -/
structure Codec (Body : Type) where
  to_value : Component Body → Option JsonValue
  from_value : JsonValue → Except String (Component Body)
  from_str : String → Except String JsonValue

structure ComponentInput where
  kind : String
  id : String
  inputs : Option (List String)
  config : Option JsonValue

structure PatchCall where
  id : String
  path : String
  value : String
deriving DecidableEq

/-- The edits of a client. -/
inductive Mutation where
  | reload (components : List ComponentInput)
  | patchComponent (call : PatchCall)

/-- `config_edit_observation` -/
structure ConfigEdit where
  node : String
  path : String
  old : JsonValue
  new : JsonValue
deriving DecidableEq

/-- The answer to an edit, and what was written to the audit. -/
structure EditResult where
  reloaded : Bool
  audit : Option ConfigEdit
deriving DecidableEq

/-- What a patch has read: its node, with what becomes of it, and all the components. -/
structure PatchRead where
  call : PatchCall
  target : JsonValue
  patched : JsonValue
  all : List JsonValue

/-- Where an edit is: it was called, it has patched its node, or it waits for the lock with a list to reload. -/
inductive EditPoint (Body : Type) where
  | called (m : Mutation)
  | patched (call : PatchCall) (target patched : JsonValue)
  | parsed (components : List (Component Body)) (read : Option PatchRead)

section

variable {Body : Type}

/-- The id that a serialized component has. -/
def hasId (id : String) (v : JsonValue) : Bool := (v.get "id").bind JsonValue.asStr = some id

/-- A serialized component with its id. -/
def withId (id : String) : JsonValue → JsonValue
  | .object fields => .object (JsonValue.insertField "id" (.string id) fields)
  | v => v

/-- `Runtime::components` -/
def Runtime.components (codec : Codec Body) (s : Runtime Body) : List JsonValue :=
  let entries := s.nodes.entries.filterMap fun n => (s.bootstraps.lookup n.2).map fun b => (n.1, b)
  (entries.insertionSort fun a b => a.1 ≤ b.1).filterMap fun entry => (codec.to_value entry.2.component).map (withId entry.1)

def Codec.parseComponent (codec : Codec Body) (input : ComponentInput) : Except String (Component Body) :=
  let json := JsonValue.insertField "id" (.string input.id) (JsonValue.insertField "type" (.string input.kind) [])
  let json :=
    match input.config with
    | some (.object cfg) => cfg.foldl (fun json field => JsonValue.insertField field.1 field.2 json) json
    | _ => json
  let json :=
    match input.inputs with
    | some inputs => JsonValue.insertField "inputs" (.array (inputs.map .string)) json
    | none => json
  match codec.from_value (.object json) with
  | .ok c => .ok c
  | .error e => .error ("component '" ++ input.id ++ "': " ++ e)

def Codec.parseComponentJson (codec : Codec Body) (value : JsonValue) : Except String (Component Body) :=
  match codec.from_value value with
  | .ok c => .ok c
  | .error e => .error ("component '" ++ ((value.get "id").bind JsonValue.asStr).getD "<no id>" ++ "': " ++ e)

/-- The beginning of `patch_component`: its node among the components with its id, and what becomes of it if that is a change. -/
def patchTarget (codec : Codec Body) (c : PatchCall) (current : List JsonValue) : Except String (Option (JsonValue × JsonValue)) :=
  match current.head? with
  | none => .error ("không có node '" ++ c.id ++ "' (xem Query.status để xem id hiện có)")
  | some target =>
    match codec.from_str c.value with
    | .error e => .error ("`" ++ c.value ++ "` không phải JSON hợp lệ: " ++ e)
    | .ok new_value =>
      match patchJsonPointer target c.path new_value with
      | .error e => .error e
      | .ok patched => .ok (if patched = target then none else some (target, patched))

/-- The first component of an id with another value. -/
def replaceNode (id : String) (patched : JsonValue) : List JsonValue → Option (List JsonValue)
  | [] => none
  | v :: vs => if hasId id v then some (patched :: vs) else (replaceNode id patched vs).map (v :: ·)

/-- The list that a patch makes of all the components. -/
def patchAll (codec : Codec Body) (id : String) (patched : JsonValue) (all : List JsonValue) :
    Except String (List (Component Body)) :=
  match replaceNode id patched all with
  | none => .error ("không có node '" ++ id ++ "'")
  | some all => all.mapM codec.parseComponentJson

/-- What a patch that has reloaded writes to the audit. -/
def PatchRead.audit (r : PatchRead) : ConfigEdit where
  node := r.call.id
  path := String.ofList (r.call.path.toList.dropWhile (· = '/'))
  old := jsonPointerValue r.target r.call.path
  new := jsonPointerValue r.patched r.call.path

/-- The end of an edit, under the lock of the runtime. -/
def reloadParsed (e : Engine Body) (s : Runtime Body) (components : List (Component Body)) (read : Option PatchRead) :
    Runtime Body × Except String EditResult :=
  match s.reload e components with
  | (s, .ok _) => (s, .ok ⟨true, read.map PatchRead.audit⟩)
  | (s, .error error) => (s, .error ("runtime.reload: " ++ error))

/-- One step of an edit. -/
def editStep (e : Engine Body) (codec : Codec Body) (s : Runtime Body) :
    EditPoint Body → Runtime Body × (EditPoint Body ⊕ Except String EditResult)
  | .called (.reload inputs) =>
    match inputs.mapM codec.parseComponent with
    | .error error => (s, .inr (.error error))
    | .ok components => (s, .inl (.parsed components none))
  | .called (.patchComponent c) =>
    match patchTarget codec c ((s.components codec).filter (hasId c.id)) with
    | .error error => (s, .inr (.error error))
    | .ok none => (s, .inr (.ok ⟨false, none⟩))
    | .ok (some (target, patched)) => (s, .inl (.patched c target patched))
  | .patched c target patched =>
    match patchAll codec c.id patched (s.components codec) with
    | .error error => (s, .inr (.error error))
    | .ok components => (s, .inl (.parsed components (some ⟨c, target, patched, s.components codec⟩)))
  | .parsed components read =>
    let (s, answer) := reloadParsed e s components read
    (s, .inr answer)

/-- What is left of a patch that has patched its node, with no other edit in between. -/
def finishPatched (e : Engine Body) (codec : Codec Body) (s : Runtime Body) (c : PatchCall) (target patched : JsonValue) :
    Runtime Body × Except String EditResult :=
  match patchAll codec c.id patched (s.components codec) with
  | .error error => (s, .error error)
  | .ok components => reloadParsed e s components (some ⟨c, target, patched, s.components codec⟩)

/-- What is left of an edit, with no other one in between. -/
def editAlone (e : Engine Body) (codec : Codec Body) (s : Runtime Body) : EditPoint Body → Runtime Body × Except String EditResult
  | .called (.reload inputs) =>
    match inputs.mapM codec.parseComponent with
    | .error error => (s, .error error)
    | .ok components => reloadParsed e s components none
  | .called (.patchComponent c) =>
    match patchTarget codec c ((s.components codec).filter (hasId c.id)) with
    | .error error => (s, .error error)
    | .ok none => (s, .ok ⟨false, none⟩)
    | .ok (some (target, patched)) => finishPatched e codec s c target patched
  | .patched c target patched => finishPatched e codec s c target patched
  | .parsed components read => reloadParsed e s components read

variable {e : Engine Body} {codec : Codec Body} {s s' : Runtime Body}

theorem editStep_inl {p p' : EditPoint Body} (h : editStep e codec s p = (s', .inl p')) :
    s' = s ∧ editAlone e codec s p = editAlone e codec s' p' := by
  cases p with
  | called m =>
    cases m with
    | reload inputs =>
      unfold editStep at h
      unfold editAlone
      cases hparse : inputs.mapM codec.parseComponent with
      | error error => simp [hparse] at h
      | ok components =>
        simp only [hparse, Prod.mk.injEq, Sum.inl.injEq] at h ⊢
        obtain ⟨rfl, rfl⟩ := h
        exact ⟨rfl, rfl⟩
    | patchComponent c =>
      unfold editStep at h
      unfold editAlone
      dsimp only at h ⊢
      split at h
      · cases h
      · cases h
      · obtain ⟨rfl, hp⟩ := Prod.mk.inj h
        rw [← Sum.inl.inj hp]
        exact ⟨rfl, rfl⟩
  | patched c target patched =>
    unfold editStep at h
    unfold editAlone finishPatched
    dsimp only at h ⊢
    split at h
    · cases h
    · obtain ⟨rfl, hp⟩ := Prod.mk.inj h
      rw [← Sum.inl.inj hp]
      exact ⟨rfl, rfl⟩
  | parsed components read =>
    unfold editStep at h
    cases h

theorem editStep_inr {p : EditPoint Body} {answer : Except String EditResult} (h : editStep e codec s p = (s', .inr answer)) :
    editAlone e codec s p = (s', answer) := by
  cases p with
  | called m =>
    cases m with
    | reload inputs =>
      unfold editStep at h
      unfold editAlone
      cases hparse : inputs.mapM codec.parseComponent with
      | error error =>
        simp only [hparse, Prod.mk.injEq, Sum.inr.injEq] at h ⊢
        exact h
      | ok components => simp [hparse] at h
    | patchComponent c =>
      unfold editStep at h
      unfold editAlone
      dsimp only at h ⊢
      split at h
      · obtain ⟨rfl, ha⟩ := Prod.mk.inj h
        rw [← Sum.inr.inj ha]
      · obtain ⟨rfl, ha⟩ := Prod.mk.inj h
        rw [← Sum.inr.inj ha]
      · cases h
  | patched c target patched =>
    unfold editStep at h
    unfold editAlone finishPatched
    dsimp only at h ⊢
    split at h
    · obtain ⟨rfl, ha⟩ := Prod.mk.inj h
      rw [← Sum.inr.inj ha]
    · cases h
  | parsed components read =>
    unfold editStep at h
    obtain ⟨rfl, ha⟩ := Prod.mk.inj h
    rw [← Sum.inr.inj ha]
    rfl

end

/-- The edits of a pipeline as tasks. -/
def edits {Body : Type} (e : Engine Body) (codec : Codec Body) :
    Tasks (Runtime Body) Mutation (EditPoint Body) (Except String EditResult) where
  start := .called
  step := editStep e codec
  alone := editAlone e codec
  quiet _ _ _ _ h := (editStep_inl h).1
  alone_inl _ _ _ _ h := (editStep_inl h).2
  alone_inr _ _ _ _ h := editStep_inr h

/-! ## Patches on what they have read -/

section

variable {Body : Type} {e : Engine Body} {codec : Codec Body}

/-- A node is patched as it was read from the first of the components with its id. -/
theorem patchTarget_some {c : PatchCall} {current : List JsonValue} {target patched : JsonValue}
    (h : patchTarget codec c current = .ok (some (target, patched))) : current.head? = some target := by
  unfold patchTarget at h
  split at h
  · cases h
  · case h_2 found hfound =>
    split at h
    · cases h
    · split at h
      · cases h
      · split at h
        · cases h
        · have hpair := Option.some.inj (Except.ok.inj h)
          rw [hfound, (Prod.mk.inj hpair).1]

theorem patchTarget_congr {c : PatchCall} {current current' : List JsonValue} (h : current.head? = current'.head?) :
    patchTarget codec c current = patchTarget codec c current' := by
  unfold patchTarget
  rw [h]

/-- How an edit has come to where it is. -/
def Follows (codec : Codec Body) (m : Mutation) : EditPoint Body → Prop
  | .called m' => m' = m
  | .patched c target patched => m = .patchComponent c ∧ patchTarget codec c [target] = .ok (some (target, patched))
  | .parsed components none => ∃ inputs, m = .reload inputs ∧ inputs.mapM codec.parseComponent = .ok components
  | .parsed components (some r) =>
    m = .patchComponent r.call ∧ patchTarget codec r.call [r.target] = .ok (some (r.target, r.patched)) ∧
      patchAll codec r.call.id r.patched r.all = .ok components

theorem Follows.step {s s' : Runtime Body} {m : Mutation} {p p' : EditPoint Body} (h : Follows codec m p)
    (hstep : editStep e codec s p = (s', .inl p')) : Follows codec m p' := by
  unfold editStep at hstep
  cases p with
  | called m' =>
    obtain rfl : m' = m := h
    cases m' with
    | reload inputs =>
      dsimp only at hstep
      split at hstep
      · cases hstep
      · case h_2 components hparse =>
        rw [← Sum.inl.inj (Prod.mk.inj hstep).2]
        exact ⟨inputs, rfl, hparse⟩
    | patchComponent c =>
      dsimp only at hstep
      split at hstep
      · cases hstep
      · cases hstep
      · case h_3 target patched htarget =>
        rw [← Sum.inl.inj (Prod.mk.inj hstep).2]
        refine ⟨rfl, ?_⟩
        rw [← htarget]
        exact patchTarget_congr (patchTarget_some htarget).symm
  | patched c target patched =>
    obtain ⟨rfl, htarget⟩ := h
    dsimp only at hstep
    split at hstep
    · cases hstep
    · case h_2 components hall =>
      rw [← Sum.inl.inj (Prod.mk.inj hstep).2]
      exact ⟨rfl, htarget, hall⟩
  | parsed components read => cases hstep

theorem follows {m : Mutation} {p : EditPoint Body} (h : (edits e codec).Reaches m p) : Follows codec m p := by
  induction h with
  | start => rfl
  | step _ hstep ih => exact ih.step hstep

/-- A patch that has read is still right: the node it has patched is as it was, and so are the components it has a list of. -/
def UpToDate (codec : Codec Body) (s : Runtime Body) : EditPoint Body → Prop
  | .patched c target _ => ((s.components codec).filter (hasId c.id)).head? = some target
  | .parsed _ (some r) => s.components codec = r.all ∧ (r.all.filter (hasId r.call.id)).head? = some r.target
  | _ => True

/-- The edit that takes a step is up to date. -/
def Fresh (codec : Codec Body) (t : Turns (Runtime Body) Mutation (EditPoint Body) (Except String EditResult)) :
    Turn Mutation → Prop
  | .call _ => True
  | .advance i => ∀ task ∈ t.tasks[i]?, ∀ p ∈ task.2.getLeft?, UpToDate codec t.shared p

instance decidableUpToDate (codec : Codec Body) (s : Runtime Body) : ∀ p, Decidable (UpToDate codec s p)
  | .called _ => isTrue trivial
  | .patched c target _ => inferInstanceAs (Decidable (((s.components codec).filter (hasId c.id)).head? = some target))
  | .parsed _ none => isTrue trivial
  | .parsed _ (some r) =>
    inferInstanceAs (Decidable (s.components codec = r.all ∧ (r.all.filter (hasId r.call.id)).head? = some r.target))

instance decidableFresh (codec : Codec Body) (t : Turns (Runtime Body) Mutation (EditPoint Body) (Except String EditResult)) :
    ∀ a, Decidable (Fresh codec t a)
  | .call _ => isTrue trivial
  | .advance i => inferInstanceAs (Decidable (∀ task ∈ t.tasks[i]?, ∀ p ∈ task.2.getLeft?, UpToDate codec t.shared p))

/-- An edit that is up to date ends as it would if it were called now. -/
theorem Follows.alone {s : Runtime Body} {m : Mutation} {p : EditPoint Body} (h : Follows codec m p) (hp : UpToDate codec s p) :
    editAlone e codec s p = editAlone e codec s (.called m) := by
  cases p with
  | called m' => rw [show m' = m from h]
  | patched c target patched =>
    obtain ⟨rfl, htarget⟩ := h
    have hnow : patchTarget codec c ((s.components codec).filter (hasId c.id)) = .ok (some (target, patched)) := by
      rw [← htarget]
      exact patchTarget_congr hp
    unfold editAlone
    dsimp only
    rw [hnow]
  | parsed components read =>
    cases read with
    | none =>
      obtain ⟨inputs, rfl, hparse⟩ := h
      unfold editAlone
      dsimp only
      rw [hparse]
    | some r =>
      obtain ⟨rfl, htarget, hall⟩ := h
      obtain ⟨hread, hnode⟩ := hp
      have hnow : patchTarget codec r.call ((s.components codec).filter (hasId r.call.id)) = .ok (some (r.target, r.patched)) := by
        rw [← htarget, hread]
        exact patchTarget_congr hnode
      unfold editAlone
      dsimp only
      rw [hnow]
      unfold finishPatched
      dsimp only
      rw [hread, hall]

theorem Fresh.current {s : Runtime Body} {as : List (Turn Mutation)} {a : Turn Mutation}
    (h : Fresh codec (((edits e codec).machine s).state as) a) : (edits e codec).Current (((edits e codec).machine s).state as) a := by
  cases a with
  | call m => trivial
  | advance i =>
    intro m p s' answer hpending _
    exact (follows (Tasks.reaches hpending)).alone (h _ hpending _ rfl)

end

/-- The edits that have been answered have done what they do one after another, in some order. -/
def OneByOne {Body : Type} (e : Engine Body) (codec : Codec Body) (s : Runtime Body)
    (t : Turns (Runtime Body) Mutation (EditPoint Body) (Except String EditResult)) : Prop :=
  ∃ order : List (Mutation × Except String EditResult), order.Perm t.finished ∧ (edits e codec).serial s (order.map Prod.fst) = (t.shared, order.map Prod.snd)

/-- When no patch takes a step on components that have changed since it read them, no edit is lost. -/
theorem edits_serial {Body : Type} (e : Engine Body) (codec : Codec Body) (s : Runtime Body) (as : List (Turn Mutation))
    (h : ((edits e codec).machine s).Along (Fresh codec) as) : OneByOne e codec s (((edits e codec).machine s).state as) :=
  ⟨_, List.Perm.refl _, Tasks.serial_of_current fun pre a hpre => (h pre a hpre).current⟩

/-! ## Two patches -/

/-- An engine of components that have a value. -/
def valueEngine : Engine JsonValue := ⟨fun v w => v = w, fun _ _ => .ok (), fun l => l, fun l => List.Perm.refl l⟩

/-- Sources and sinks with a limit. -/
def limitCodec : Codec JsonValue where
  to_value c :=
    let type := if c.component_type = .source then "source" else "sink"
    some (.object [("inputs", .array (c.inputs.map .string)), ("limit", c.body), ("type", .string type)])
  from_value v :=
    match v.get "id", v.get "limit", v.get "type", v.get "inputs" with
    | some (.string id), some limit, some (.string "source"), _ => .ok ⟨id, .source, none, false, limit⟩
    | some (.string id), some limit, some (.string "sink"), some (.array inputs) =>
      .ok ⟨id, .sink, some (inputs.filterMap JsonValue.asStr), false, limit⟩
    | _, _, _, _ => .error "missing field"
  from_str text :=
    match parseIndex text with
    | some n => .ok (.number false n)
    | none => .error "expected value at line 1 column 1"

/-- A feed, and a store that receives from it, with their limits. -/
def limits (feed store : ℚ) : List (Component JsonValue) :=
  [⟨"feed", .source, none, false, .number false feed⟩, ⟨"store", .sink, some ["feed"], false, .number false store⟩]

/-- A pipeline with both limits at zero. -/
def unlimited : Runtime JsonValue := (Runtime.new.reload valueEngine (limits 0 0)).1

def patchFeed : Mutation := .patchComponent ⟨"feed", "/limit", "1"⟩

def patchStore : Mutation := .patchComponent ⟨"store", "/limit", "2"⟩

theorem edits_serial_twice :
    OneByOne valueEngine limitCodec unlimited (((edits valueEngine limitCodec).machine unlimited).state
      [.call patchFeed, .call patchStore, .advance 0, .advance 0, .advance 0, .advance 1, .advance 1, .advance 1]) :=
  edits_serial valueEngine limitCodec unlimited
    [.call patchFeed, .call patchStore, .advance 0, .advance 0, .advance 0, .advance 1, .advance 1, .advance 1]
    (Machine.along_iff_alongFrom.mpr (by decide +kernel))

/-- Both patches read before either reloads. -/
def overtaken : List (Turn Mutation) :=
  [.call patchFeed, .call patchStore, .advance 0, .advance 0, .advance 1, .advance 1, .advance 0, .advance 1]

/-- Two patches of different nodes that read before either reloads: both are answered and audited as done, and the pipeline is as if
the first one had never been called, as no order of the two leaves it. -/
theorem patch_undone :
    (((edits valueEngine limitCodec).machine unlimited).state overtaken).finished.map Prod.snd =
        [.ok ⟨true, some ⟨"feed", "limit", .number false 0, .number false 1⟩⟩,
          .ok ⟨true, some ⟨"store", "limit", .number false 0, .number false 2⟩⟩] ∧
      (((edits valueEngine limitCodec).machine unlimited).state overtaken).shared.components limitCodec =
        (unlimited.reload valueEngine (limits 0 2)).1.components limitCodec ∧
      ∀ order, order.Perm [patchFeed, patchStore] →
        ((edits valueEngine limitCodec).serial unlimited order).1.components limitCodec ≠
          (((edits valueEngine limitCodec).machine unlimited).state overtaken).shared.components limitCodec := by
  refine ⟨by decide +kernel, by decide +kernel, ?_⟩
  intro order horder
  have hcases : order = [patchFeed, patchStore] ∨ order = [patchStore, patchFeed] := by
    simpa [List.permutations, List.permutationsAux_cons, List.permutationsAux2] using List.mem_permutations.mpr horder
  rcases hcases with rfl | rfl <;> decide +kernel

end Opsense
