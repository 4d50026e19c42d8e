import Opsense.Lib.Choices
import Opsense.Lib.JsonValue

/-!
# Queries on JSON values

`JsonQuery` of `opsense-mlib/src/jq.rs` with its three walks: `pick`, `execute_owned` and the one of `eval_expr`. The first one keeps
the values through which a value was reached and can climb back to them; the other two cannot. Only the first and the third
take an index as the key of an object. Each walk reaches a part of what the first one reaches, so that they agree exactly when
no walk to the end makes such a step (`Strays`). The built-in calls are a parameter.
-/

namespace Opsense

/-- `F` is for the values of `f64`. -/
inductive Operator (F : Type) where
  | matchKey (field : String)
  | access (index : Nat)
  | iter
  | select (keep : List String)
  | parent
  | literalInt (i : Int)
  | literalFloat (f : F)
  | literalStr (s : String)
  | call (name : String) (args : List (List (Operator F)))
  | assign (name : String) (expr : List (Operator F))

/-- The operators of a query. -/
abbrev JsonQuery (F : Type) := List (Operator F)

namespace Jq

variable {F : Type}

/-- A value with the values that it was reached through, the root first. -/
structure Frame where
  val : JsonValue
  parents : List JsonValue

namespace Frame

def child (f : Frame) (val : JsonValue) : Frame := ⟨val, f.parents ++ [f.val]⟩

def parent (f : Frame) : Option Frame := f.parents.getLast?.map fun val => ⟨val, f.parents.dropLast⟩

end Frame

/-- One operator of `pick`. -/
def pickStep (op : Operator F) (item : Frame) : List Frame :=
  match op with
  | .matchKey field => ((item.val.get field).map item.child).toList
  | .access index =>
    match item.val.item index with
    | some v => [item.child v]
    | none => ((item.val.get (toString index)).map item.child).toList
  | .iter => item.val.children.map item.child
  | .parent => item.parent.toList
  | _ => []

def pick (ops : JsonQuery F) (data : JsonValue) : List JsonValue := (Choices.walk pickStep ops [⟨data, []⟩]).map Frame.val

/-- One operator of `execute_owned`. -/
def ownedStep (op : Operator F) (val : JsonValue) : List JsonValue :=
  match op with
  | .matchKey field => (val.get field).toList
  | .access index => (val.item index).toList
  | .iter => val.children
  | .select keep =>
    match val with
    | .object fields => [.object (keep.foldl (fun out key =>
        match fields.lookup key with
        | some v => JsonValue.insertField key v out
        | none => out) [])]
    | _ => []
  | _ => []

def executeOwned (ops : JsonQuery F) (data : JsonValue) : List JsonValue := Choices.walk ownedStep ops [data]

/-- One operator of the walk of `eval_expr`. -/
def evalStep (op : Operator F) (val : JsonValue) : List JsonValue :=
  match op with
  | .matchKey field => (val.get field).toList
  | .access index =>
    match val.item index with
    | some v => [v]
    | none => (val.get (toString index)).toList
  | .iter => val.children
  | _ => []

/-- The value of a literal or of a call that answers. -/
def produced (value : F → JsonValue) (call_builtin : String → List (JsonQuery F) → JsonValue → Option JsonValue) (ctx : JsonValue)
    (op : Operator F) : Option JsonValue :=
  match op with
  | .call name args => call_builtin name args ctx
  | .literalInt i => some (.number false i)
  | .literalFloat f => some (value f)
  | .literalStr s => some (.string s)
  | _ => none

def evalExpr (value : F → JsonValue) (call_builtin : String → List (JsonQuery F) → JsonValue → Option JsonValue) (expr : JsonQuery F)
    (ctx : JsonValue) : List JsonValue :=
  match expr.findSome? (produced value call_builtin ctx) with
  | some v => [v]
  | none => Choices.walk evalStep expr [ctx]

/-- The operator is one of a path. -/
def IsPath : Operator F → Prop
  | .matchKey _ | .access _ | .iter | .parent => True
  | _ => False

/-- Where an operator of a path leads to. -/
inductive Leads : Operator F → Frame → Frame → Prop where
  | key {field : String} {f : Frame} {v : JsonValue} : f.val.get field = some v → Leads (.matchKey field) f (f.child v)
  | index {index : Nat} {f : Frame} {v : JsonValue} : f.val.item index = some v → Leads (.access index) f (f.child v)
  | indexKey {index : Nat} {f : Frame} {v : JsonValue} : f.val.get (toString index) = some v → Leads (.access index) f (f.child v)
  | child {f : Frame} {v : JsonValue} : v ∈ f.val.children → Leads .iter f (f.child v)
  | parent {f g : Frame} : f.parent = some g → Leads .parent f g

/-- A way along all the operators. -/
inductive Ends : JsonQuery F → Frame → Prop where
  | nil (f : Frame) : Ends [] f
  | cons {op : Operator F} {ops : JsonQuery F} {f g : Frame} : Leads op f g → Ends ops g → Ends (op :: ops) f

/-- The operator climbs to the parent, or takes an index as the key of an object. -/
def Odd (op : Operator F) (val : JsonValue) : Prop :=
  match op with
  | .parent => True
  | .access index => (val.get (toString index)).isSome
  | _ => False

/-- A way along all the operators climbs to a parent or takes an index as the key of an object. -/
inductive Strays : JsonQuery F → Frame → Prop where
  | here {op : Operator F} {ops : JsonQuery F} {f g : Frame} : Odd op f.val → Leads op f g → Ends ops g → Strays (op :: ops) f
  | later {op : Operator F} {ops : JsonQuery F} {f g : Frame} : Leads op f g → Strays ops g → Strays (op :: ops) f

variable {op : Operator F} {ops : JsonQuery F} {f g : Frame} {data : JsonValue}

/-! ## The steps -/

theorem get_of_item {v w : JsonValue} {index : Nat} (h : v.item index = some w) (key : String) : v.get key = none := by
  cases v with
  | array items => rfl
  | null | bool | number | string | object => simp [JsonValue.item] at h

/-- `pick` goes where the operator leads to. -/
theorem mem_pickStep (hop : IsPath op) : g ∈ pickStep op f ↔ Leads op f g := by
  cases op with
  | matchKey field =>
    simp only [pickStep, Option.mem_toList, Option.map_eq_some_iff]
    constructor
    · rintro ⟨v, hv, rfl⟩
      exact .key hv
    · intro h
      cases h with
      | key hv => exact ⟨_, hv, rfl⟩
  | access index =>
    unfold pickStep
    dsimp only
    cases hitem : f.val.item index with
    | some v =>
      simp only [List.mem_singleton]
      constructor
      · rintro rfl
        exact .index hitem
      · intro h
        cases h with
        | index hv => rw [Option.some.inj (hitem.symm.trans hv)]
        | indexKey hv =>
          rw [get_of_item hitem] at hv
          nomatch hv
    | none =>
      simp only [Option.mem_toList, Option.map_eq_some_iff]
      constructor
      · rintro ⟨v, hv, rfl⟩
        exact .indexKey hv
      · intro h
        cases h with
        | index hv =>
          rw [hitem] at hv
          nomatch hv
        | indexKey hv => exact ⟨_, hv, rfl⟩
  | iter =>
    simp only [pickStep, List.mem_map]
    constructor
    · rintro ⟨v, hv, rfl⟩
      exact .child hv
    · intro h
      cases h with
      | child hv => exact ⟨_, hv, rfl⟩
  | parent =>
    simp only [pickStep, Option.mem_toList]
    constructor
    · exact .parent
    · intro h
      cases h with
      | parent hg => exact hg
  | select | literalInt | literalFloat | literalStr | call | assign => exact absurd hop id

theorem map_val_child (f : Frame) (l : List JsonValue) : (l.map f.child).map Frame.val = l := by
  rw [List.map_map]
  exact List.map_id l

theorem toList_map_val (f : Frame) (o : Option JsonValue) : (o.map f.child).toList.map Frame.val = o.toList := by
  cases o with
  | none => rfl
  | some v => rfl

/-- The walk of `eval_expr` goes where `pick` goes, unless that climbs. -/
theorem evalStep_eq (hop : IsPath op) (hparent : op ≠ .parent) : evalStep op f.val = (pickStep op f).map Frame.val := by
  cases op with
  | matchKey field => exact (toList_map_val f _).symm
  | access index =>
    unfold evalStep pickStep
    dsimp only
    cases f.val.item index with
    | some v => rfl
    | none => exact (toList_map_val f _).symm
  | iter => exact (map_val_child f _).symm
  | parent => exact absurd rfl hparent
  | select | literalInt | literalFloat | literalStr | call | assign => exact absurd hop id

/-- `execute_owned` goes where the walk of `eval_expr` goes, unless an index is taken as a key. -/
theorem ownedStep_eq (hop : IsPath op) {val : JsonValue} (hodd : ¬Odd op val) : ownedStep op val = evalStep op val := by
  cases op with
  | access index =>
    have hget : val.get (toString index) = none := by simpa [Odd] using hodd
    unfold ownedStep evalStep
    dsimp only
    rw [hget]
    cases val.item index with
    | some v => rfl
    | none => rfl
  | matchKey | iter | parent => rfl
  | select | literalInt | literalFloat | literalStr | call | assign => exact absurd hop id

/-- An odd operator stops `execute_owned`. -/
theorem ownedStep_of_odd {val : JsonValue} (hodd : Odd op val) : ownedStep op val = [] := by
  cases op with
  | access index =>
    cases hitem : val.item index with
    | none => simp [ownedStep, hitem]
    | some v =>
      have hget : (val.get (toString index)).isSome := hodd
      rw [get_of_item hitem] at hget
      nomatch hget
  | parent => rfl
  | matchKey | iter | select | literalInt | literalFloat | literalStr | call | assign => exact absurd hodd id

/-! ## From one value -/

/-- The third walk reaches a part of what the first one reaches. -/
theorem ends_evalStep_sublist (hops : ∀ op ∈ ops, IsPath op) :
    (Choices.ends evalStep ops f.val).Sublist ((Choices.ends pickStep ops f).map Frame.val) := by
  induction ops generalizing f with
  | nil => exact List.Sublist.refl _
  | cons op ops ih =>
    obtain ⟨hop, hrest⟩ := List.forall_mem_cons.mp hops
    by_cases hparent : op = .parent
    · subst hparent
      exact List.nil_sublist _
    · rw [Choices.ends, Choices.ends, evalStep_eq hop hparent, List.flatMap_map, List.map_flatMap]
      exact List.Sublist.flatMap_right _ fun g _ => ih hrest

/-- The second walk reaches a part of what the third one reaches. -/
theorem ends_ownedStep_sublist (hops : ∀ op ∈ ops, IsPath op) (val : JsonValue) :
    (Choices.ends ownedStep ops val).Sublist (Choices.ends evalStep ops val) := by
  induction ops generalizing val with
  | nil => exact List.Sublist.refl _
  | cons op ops ih =>
    obtain ⟨hop, hrest⟩ := List.forall_mem_cons.mp hops
    rw [Choices.ends, Choices.ends]
    by_cases hodd : Odd op val
    · rw [ownedStep_of_odd hodd]
      exact List.nil_sublist _
    · rw [ownedStep_eq hop hodd]
      exact List.Sublist.flatMap_right _ fun v _ => ih hrest v

theorem ends_pickStep (hops : ∀ op ∈ ops, IsPath op) : Choices.ends pickStep ops f ≠ [] ↔ Ends ops f := by
  induction ops generalizing f with
  | nil => exact iff_of_true (by simp [Choices.ends]) (.nil f)
  | cons op ops ih =>
    obtain ⟨hop, hrest⟩ := List.forall_mem_cons.mp hops
    rw [Choices.ends, Ne, List.flatMap_eq_nil_iff]
    push Not
    constructor
    · rintro ⟨g, hg, hends⟩
      exact .cons ((mem_pickStep hop).mp hg) ((ih hrest).mp hends)
    · rintro (_ | ⟨hleads, hends⟩)
      exact ⟨_, (mem_pickStep hop).mpr hleads, (ih hrest).mpr hends⟩

theorem Strays.ends (h : Strays ops f) : Ends ops f := by
  induction h with
  | here _ hleads hends => exact .cons hleads hends
  | later hleads _ ih => exact .cons hleads ih

/-- The second walk reaches all that the first one reaches exactly when no way to the end strays. -/
theorem ends_ownedStep_eq_iff (hops : ∀ op ∈ ops, IsPath op) :
    Choices.ends ownedStep ops f.val = (Choices.ends pickStep ops f).map Frame.val ↔ ¬Strays ops f := by
  induction ops generalizing f with
  | nil => exact iff_of_true rfl nofun
  | cons op ops ih =>
    obtain ⟨hop, hrest⟩ := List.forall_mem_cons.mp hops
    by_cases hodd : Odd op f.val
    · -- nothing is reached by the second walk, and every way to the end strays
      rw [Choices.ends, ownedStep_of_odd hodd, List.flatMap_nil, eq_comm, List.map_eq_nil_iff, ← not_iff_not, not_not]
      refine (ends_pickStep hops).trans ⟨fun h => ?_, Strays.ends⟩
      obtain (_ | ⟨hleads, hends⟩) := h
      exact .here hodd hleads hends
    · have hparent : op ≠ .parent := by
        rintro rfl
        exact hodd trivial
      rw [Choices.ends, Choices.ends, ownedStep_eq hop hodd, evalStep_eq hop hparent, List.flatMap_map, List.map_flatMap,
        Choices.flatMap_eq_iff_of_sublist fun g _ => (ends_ownedStep_sublist hrest g.val).trans (ends_evalStep_sublist hrest)]
      constructor
      · rintro hall (⟨hodd', -, -⟩ | ⟨hleads, hstrays⟩)
        · exact hodd hodd'
        · exact (ih hrest).mp (hall _ ((mem_pickStep hop).mpr hleads)) hstrays
      · intro hnot g hg
        exact (ih hrest).mpr fun hstrays => hnot (.later ((mem_pickStep hop).mp hg) hstrays)

/-! ## The three walks -/

theorem produced_of_isPath (value : F → JsonValue) (call_builtin : String → List (JsonQuery F) → JsonValue → Option JsonValue)
    (hops : ∀ op ∈ ops, IsPath op) : ops.findSome? (produced value call_builtin data) = none := by
  rw [List.findSome?_eq_none_iff]
  intro op hmem
  have hop := hops op hmem
  cases op with
  | matchKey | access | iter | parent => rfl
  | select | literalInt | literalFloat | literalStr | call | assign => exact absurd hop id

/-- `pick`, `execute_owned` and `eval_expr` give the same values in the same order exactly when no way along all the operators
climbs to a parent or takes an index as the key of an object. -/
theorem evaluators_agree_iff (value : F → JsonValue)
    (call_builtin : String → List (JsonQuery F) → JsonValue → Option JsonValue) (ops : JsonQuery F) (data : JsonValue)
    (hops : ∀ op ∈ ops, IsPath op) :
    (executeOwned ops data = pick ops data ∧ evalExpr value call_builtin ops data = pick ops data) ↔ ¬Strays ops ⟨data, []⟩ := by
  have hpick : pick ops data = (Choices.ends pickStep ops ⟨data, []⟩).map Frame.val := by
    rw [pick, Choices.walk_eq, List.flatMap_singleton]
  have howned : executeOwned ops data = Choices.ends ownedStep ops data := by
    rw [executeOwned, Choices.walk_eq, List.flatMap_singleton]
  have heval : evalExpr value call_builtin ops data = Choices.ends evalStep ops data := by
    rw [evalExpr, produced_of_isPath value call_builtin hops]
    dsimp only
    rw [Choices.walk_eq, List.flatMap_singleton]
  rw [hpick, howned, heval, ← ends_ownedStep_eq_iff hops]
  refine ⟨And.left, fun h => ⟨h, ?_⟩⟩
  -- the third walk reaches no less than the second and no more than the first
  have hmore := ends_ownedStep_sublist hops data
  have hless := ends_evalStep_sublist hops (f := ⟨data, []⟩)
  rw [h] at hmore
  exact hless.antisymm hmore

/-- The items of a field. -/
def items (field : String) : JsonQuery Empty := [.matchKey field, .iter]

theorem evaluators_agree_iff_items :
    (executeOwned (items "a") (.object [("a", .array [.null])]) = pick (items "a") (.object [("a", .array [.null])]) ∧
      evalExpr nofun (fun _ _ _ => none) (items "a") (.object [("a", .array [.null])]) =
        pick (items "a") (.object [("a", .array [.null])])) ↔
      ¬Strays (items "a") ⟨.object [("a", .array [.null])], []⟩ :=
  evaluators_agree_iff nofun (fun _ _ _ => none) _ _ (by simp [items, IsPath])

/-- A parent is found by the first walk alone, and an index is a key for all but the second. -/
theorem evaluators_differ :
    (let climb : JsonQuery Empty := [.matchKey "a", .parent]
      let data := JsonValue.object [("a", .null)]
      pick climb data = [data] ∧ executeOwned climb data = [] ∧ evalExpr nofun (fun _ _ _ => none) climb data = []) ∧
    (let first : JsonQuery Empty := [.access 0]
      let data := JsonValue.object [("0", .null)]
      pick first data = [.null] ∧ executeOwned first data = [] ∧ evalExpr nofun (fun _ _ _ => none) first data = [.null]) := by
  decide +kernel

end Jq

end Opsense
