import Opsense.Lib.Adjacency
import Opsense.Lib.DepthFirst
import Opsense.Lib.Machine

/-!
# The runtime of the pipelines

`Runtime` of `opsense-mlib/src/vector/runtime/engine.rs` as far as `reload` reads and writes it, with the other calls that
change its tables. A component is what `Identify` tells of it and a body that `compare` looks at as well. A task, a sender and a
broadcaster are given by the index of their node. The order in which a `HashMap` or a `HashSet` is iterated is that of
`Engine.iter`.
-/

namespace Opsense

inductive ComponentType where
  | unknown
  | input
  | output
  | source
  | sink
  | transform
deriving DecidableEq, Repr

/-- `Display` of `ComponentType` -/
def ComponentType.display : ComponentType → String
  | .unknown => "Unknown"
  | .source => "Source"
  | .sink => "Sink"
  | .input => "Input"
  | .output => "Output"
  | .transform => "Transform"

structure Component (Body : Type) where
  id : String
  component_type : ComponentType
  get_inputs : Option (List String)
  is_terminal : Bool
  body : Body
deriving DecidableEq

/-- The inputs a component declares. -/
def Component.inputs {Body : Type} (c : Component Body) : List String := c.get_inputs.getD []

/-- What a runtime runs on: how bodies compare, what `prepare` of a component gives for a new node, and the order of the tables. -/
structure Engine (Body : Type) where
  same : Body → Body → Bool
  prepare : Nat → Component Body → Except String Unit
  iter : {α : Type} → List α → List α
  iter_perm : ∀ {α : Type} (l : List α), (iter l).Perm l

structure Bootstrap (Body : Type) where
  component : Component Body
  cancelled : Bool
deriving DecidableEq

structure Runtime (Body : Type) where
  nodes : AList fun _ : String => Nat
  bootstraps : AList fun _ : Nat => Bootstrap Body
  tasks : Finset Nat
  senders : Finset Nat
  broadcasts : Finset Nat
  sources : Adjacency Nat
  sinks : Adjacency Nat
  inputs : Finset Nat
  outputs : Finset Nat
  inc : Nat
  is_started : Bool
  permits : Nat
  generation : Nat

/-- A call of a runtime. `stop` is a reload with no components. -/
inductive RuntimeAct (Body : Type) where
  | reload (components : List (Component Body))
  | start
  | broadcast (id : String)
  | waitForShutdown

namespace Runtime

variable {Body : Type}

/-- `Runtime::new` -/
def new : Runtime Body where
  nodes := ∅
  bootstraps := ∅
  tasks := ∅
  senders := ∅
  broadcasts := ∅
  sources := ∅
  sinks := ∅
  inputs := ∅
  outputs := ∅
  inc := 0
  is_started := false
  permits := 0
  generation := 1

/-- `Bootstrap::compare` -/
def compare (e : Engine Body) (b c : Component Body) : Bool :=
  b.component_type = c.component_type ∧ b.id = c.id ∧ b.get_inputs = c.get_inputs ∧ b.is_terminal = c.is_terminal ∧
    e.same b.body c.body

/-- What a reload is to do: the components to add, those to change, and the nodes to delete. -/
structure Plan (Body : Type) where
  adds : List (Component Body)
  diffs : List (Component Body)
  dels : List Nat

/-- The loop that compares the components with the nodes. -/
def sortOut (e : Engine Body) (s : Runtime Body) : List (Component Body) → Plan Body → Except String (Plan Body)
  | [], plan => .ok plan
  | component :: components, plan =>
    match s.nodes.lookup component.id with
    | some idx =>
      match s.bootstraps.lookup idx with
      | none => .error ("Failed to get bootstrap with id " ++ toString idx)
      | some bootstrap =>
        let diffs := if compare e bootstrap.component component then plan.diffs else plan.diffs ++ [component]
        sortOut e s components { plan with diffs := diffs, dels := plan.dels.filter fun i => i ≠ idx }
    | none => sortOut e s components { plan with adds := plan.adds ++ [component] }

/-- The beginning of `reload`. -/
def plan (e : Engine Body) (s : Runtime Body) (components : List (Component Body)) : Except String (Plan Body) :=
  match sortOut e s components ⟨[], [], s.bootstraps.keys⟩ with
  | .error e => .error e
  | .ok plan => .ok { plan with dels := e.iter plan.dels }

/-! ## The validations -/

/-- The component that a `HashMap` made of the additions has for an id: the last one. -/
def willAdd (adds : List (Component Body)) (id : String) : Option (Component Body) := adds.reverse.find? fun c => c.id = id

def isSource (c : Component Body) : Bool := c.component_type = .source ∨ c.component_type = .input

def isSink (c : Component Body) : Bool := c.component_type = .sink ∨ c.component_type = .output

/-- Check the inputs of a component that is added. The additions that nothing is linked with so far are passed on. -/
def checkInputs (s : Runtime Body) (adds : List (Component Body)) (id : String) :
    List String → List String → Except String (List String)
  | [], dead => .ok dead
  | input :: inputs, dead =>
    match willAdd adds input with
    | none =>
      if input ∈ s.nodes then checkInputs s adds id inputs dead
      else .error ("Validation Failed: Node '" ++ id ++ "' requires input '" ++ input ++ "' but it's not found.")
    | some added =>
      if isSink added then .error ("Node " ++ added.id ++ " must not be Sink or Output")
      else checkInputs s adds id inputs (dead.filter fun d => d ≠ input)

/-- Check a component that is added. -/
def checkAdd (s : Runtime Body) (adds : List (Component Body)) (dead : List String) (c : Component Body) :
    Except String (List String) :=
  match c.get_inputs with
  | none =>
    if isSource c then .ok dead
    else .error ("Node '" ++ c.id ++ "' requires to not return None when listing inputs")
  | some inputs =>
    if ¬isSource c ∧ inputs = [] then .error ("Node '" ++ c.id ++ "' requires to have at least one input")
    else checkInputs s adds c.id inputs dead

/-- The first error of a check on the elements of a list. -/
def checkAll {α : Type} (check : α → Except String Unit) : List α → Except String Unit
  | [] => .ok ()
  | a :: as =>
    match check a with
    | .error e => .error e
    | .ok _ => checkAll check as

/-- The check that is made for each of the additions, with what is left of the nodes that nothing is linked with. -/
def checkAdds (s : Runtime Body) (adds : List (Component Body)) : List (Component Body) → List String → Except String (List String)
  | [], dead => .ok dead
  | c :: cs, dead =>
    match checkAdd s adds dead c with
    | .error e => .error e
    | .ok dead => checkAdds s adds cs dead

/-- An addition that nothing is linked with is a sink, or serves its own data, or is an input of a change. -/
def checkDead (adds diffs : List (Component Body)) (name : String) : Except String Unit :=
  match willAdd adds name with
  | none => .ok ()
  | some c =>
    if ¬isSink c ∧ ¬c.is_terminal ∧ c.id ∉ diffs.flatMap Component.inputs then
      .error (c.component_type.display ++ " " ++ c.id ++ " must have connect with another nodes")
    else .ok ()

def validateIfAddingNewNodes (e : Engine Body) (s : Runtime Body) (adds diffs : List (Component Body)) : Except String Unit :=
  match checkAdds s adds adds (adds.map Component.id).dedup with
  | .error e => .error e
  | .ok dead => checkAll (checkDead adds diffs) (e.iter dead)

def validateIfChangingNodes (s : Runtime Body) (diffs adds : List (Component Body)) : Except String Unit :=
  checkAll (fun c : Component Body => checkAll (fun input =>
    if input ∉ s.nodes ∧ input ∉ adds.map Component.id then
      .error ("Node " ++ c.id ++ " wants to receive from non-existent node " ++ input)
    else if input = c.id then .error "Self-loop is not allowed"
    else .ok ()) c.inputs) diffs

/-- The nodes of some names. -/
def indices (s : Runtime Body) (names : List String) : List Nat := names.filterMap s.nodes.lookup

/-- The inputs that a change gives to a node, the last one when there are several. -/
def willChangeInput (s : Runtime Body) (diffs : List (Component Body)) (idx : Nat) : Option (List Nat) :=
  (diffs.reverse.find? fun c => s.nodes.lookup c.id = some idx).map fun c => s.indices c.inputs

/-- The nodes that receive from a node which is deleted do so no longer. What is left of the nodes that send to it is passed on. -/
def checkReceivers (s : Runtime Body) (diffs : List (Component Body)) (dels : List Nat) (dead : Nat) :
    List Nat → List Nat → Except String (List Nat)
  | [], sent_by => .ok sent_by
  | receiver :: receivers, sent_by =>
    if receiver ∈ dels then checkReceivers s diffs dels dead receivers sent_by
    else
      match willChangeInput s diffs receiver with
      | some changing =>
        if dead ∈ changing then .error ("Node " ++ toString receiver ++ " mustn't receive transaction from " ++ toString dead)
        else checkReceivers s diffs dels dead receivers (sent_by.filter fun i => i ∉ changing)
      | none => .error ("Node " ++ toString receiver ++ " mustn't receive transaction from " ++ toString dead)

/-- `validate_if_remove_outdated_nodes` for one of the nodes. -/
def checkDel (e : Engine Body) (s : Runtime Body) (dels : List Nat) (adds diffs : List (Component Body)) (dead : Nat) :
    Except String Unit :=
  if dead ∈ s.indices (adds.flatMap Component.inputs) then
    .error ("You are adding new node to receive data from dead node " ++ toString dead)
  else
    match checkReceivers s diffs dels dead (s.sinks.row dead) (s.sources.row dead).dedup with
    | .error e => .error e
    | .ok sent_by => checkAll (fun i =>
        if (s.sinks.row i).length = 1 ∧ i ∉ dels then .error ("Node " ++ toString i ++ " is on deadline") else .ok ())
        (e.iter sent_by)

def validateIfRemoveOutdatedNodes (e : Engine Body) (s : Runtime Body) (dels : List Nat) (adds diffs : List (Component Body)) :
    Except String Unit :=
  checkAll (checkDel e s dels adds diffs) dels

/-- The name of a node. -/
def nameOf (s : Runtime Body) (idx : Nat) : Option String := (s.nodes.entries.find? fun n => n.2 = idx).map Sigma.fst

/-- The inputs that every node has after a reload. -/
def edges (s : Runtime Body) (adds diffs : List (Component Body)) (dels : List Nat) : Adjacency String :=
  let wired := (s.nodes.entries.filter fun n => n.2 ∉ dels).foldl
    (fun edges n => edges.insert n.1 ((s.sources.row n.2).filterMap s.nameOf)) ∅
  (adds ++ diffs).foldl (fun edges c => edges.insert c.id c.inputs) wired

def validateNoCycles (e : Engine Body) (s : Runtime Body) (adds diffs : List (Component Body)) (dels : List Nat) :
    Except String Unit :=
  let edges := s.edges adds diffs dels
  match DepthFirst.findCycle edges.row (e.iter edges.keys) with
  | some cycle => .error ("Validation Failed: pipeline graph contains a cycle: " ++ " -> ".intercalate cycle)
  | none => .ok ()

/-- Everything that `reload` checks before it changes anything. -/
def validate (e : Engine Body) (s : Runtime Body) (p : Plan Body) : Except String Unit :=
  match s.validateIfAddingNewNodes e p.adds p.diffs with
  | .error e => .error e
  | .ok _ =>
    match s.validateIfChangingNodes p.diffs p.adds with
    | .error e => .error e
    | .ok _ =>
      match s.validateIfRemoveOutdatedNodes e p.dels p.adds p.diffs with
      | .error e => .error e
      | .ok _ => s.validateNoCycles e p.adds p.diffs p.dels

/-! ## The changes -/

/-- What `add_new_nodes` writes for a component before it prepares it. -/
def register (s : Runtime Body) (c : Component Body) : Runtime Body :=
  let idx := s.inc
  { s with
    inc := idx + 1
    nodes := if c.id ∈ s.nodes then s.nodes else s.nodes.insert c.id idx
    inputs := if c.component_type = .input then insert idx s.inputs else s.inputs
    outputs := if c.component_type = .output then insert idx s.outputs else s.outputs
    broadcasts := if c.component_type = .output then insert idx s.broadcasts else s.broadcasts
    senders := insert idx s.senders
    bootstraps := if idx ∈ s.bootstraps then s.bootstraps else s.bootstraps.insert idx ⟨c, false⟩ }

def addNewNodes (e : Engine Body) : List (Component Body) → Runtime Body → Runtime Body × Except String Unit
  | [], s => (s, .ok ())
  | c :: cs, s =>
    let idx := s.inc
    let s := s.register c
    match e.prepare idx c with
    | .error error => (s, .error ("prepare failed for " ++ c.id ++ ": " ++ error))
    | .ok _ => addNewNodes e cs { s with tasks := insert idx s.tasks }

/-- One pass of `configure_links_after_adding_new_nodes`. -/
def linkAdd (s : Runtime Body) (c : Component Body) : Runtime Body :=
  match s.nodes.lookup c.id, c.get_inputs with
  | some current_idx, some inputs =>
    let input_indices := (s.indices inputs).foldl (fun acc i => if i ∈ acc then acc else acc ++ [i]) []
    { s with
      sinks := s.sinks.linkAll (s.indices inputs) current_idx
      sources := s.sources.insert current_idx input_indices }
  | _, _ => s

/-- One pass of `update_changing_nodes`. -/
def changeNode (s : Runtime Body) (c : Component Body) : Runtime Body × Except String Unit :=
  match s.nodes.lookup c.id with
  | none => (s, .error ("Failed to get id of node " ++ c.id))
  | some idx =>
    match s.bootstraps.lookup idx with
    | none => (s, .error ("Not found component with id " ++ c.id))
    | some b => ({ s with bootstraps := s.bootstraps.insert idx { b with component := c } }, .ok ())

/-- One pass of `configure_links_after_changing_nodes`. -/
def linkChange (s : Runtime Body) (c : Component Body) : Runtime Body :=
  match s.nodes.lookup c.id with
  | none => s
  | some current_idx =>
    let new_input_indices := s.indices c.inputs
    let old_input_indices := s.sources.row current_idx
    let gone := old_input_indices.filter fun i => i ∉ new_input_indices
    let fresh := new_input_indices.filter fun i => i ∉ old_input_indices
    { s with
      sinks := (s.sinks.unlinkAll gone current_idx).linkAll fresh current_idx
      sources := s.sources.insert current_idx new_input_indices }

/-- One pass of `remove_oudated_nodes`. -/
def removeNode (s : Runtime Body) (id : Nat) : Runtime Body × Except String Unit :=
  match s.bootstraps.lookup id with
  | none => (s, .error ("Not found component with id " ++ toString id))
  | some b =>
    if b.cancelled then (s, .error "Component has been closed")
    else
      ({ s with
          bootstraps := s.bootstraps.erase id
          tasks := s.tasks.erase id
          inputs := s.inputs.erase id
          outputs := s.outputs.erase id
          nodes := s.nodes.erase b.component.id }, .ok ())

/-- `configure_links_after_remove_oudated_nodes` -/
def unlinkRemoved (s : Runtime Body) (dels : List Nat) : Runtime Body :=
  let links := dels.foldl Adjacency.leave (s.sources, s.sinks)
  { s with
    sources := links.1
    sinks := links.2
    senders := dels.foldl Finset.erase s.senders
    broadcasts := dels.foldl Finset.erase s.broadcasts }

/-- Run a step for the elements of a list, up to the first error. -/
def each {α : Type} (step : Runtime Body → α → Runtime Body × Except String Unit) :
    List α → Runtime Body → Runtime Body × Except String Unit
  | [], s => (s, .ok ())
  | a :: as, s =>
    match step s a with
    | (s, .error e) => (s, .error e)
    | (s, .ok _) => each step as s

/-- What `reload` does when everything was checked. -/
def apply (e : Engine Body) (s : Runtime Body) (p : Plan Body) : Runtime Body × Except String Unit :=
  match addNewNodes e p.adds s with
  | (s, .error e) => (s, .error e)
  | (s, .ok _) =>
    let s := p.adds.foldl linkAdd s
    match each changeNode p.diffs s with
    | (s, .error e) => (s, .error e)
    | (s, .ok _) =>
      let s := p.diffs.foldl linkChange s
      match each removeNode p.dels s with
      | (s, .error e) => (s, .error e)
      | (s, .ok _) =>
        let s := s.unlinkRemoved p.dels
        ({ s with
            permits := if s.is_started then s.permits + s.bootstraps.keys.length else s.permits
            generation := s.generation + 1 }, .ok ())

/-- `Runtime::reload` -/
def reload (e : Engine Body) (s : Runtime Body) (components : List (Component Body)) : Runtime Body × Except String Unit :=
  match s.plan e components with
  | .error error => (s, .error error)
  | .ok p =>
    match s.validate e p with
    | .error error => (s, .error error)
    | .ok _ => s.apply e p

/-- `Runtime::broadcast` -/
def broadcast (s : Runtime Body) (id : String) : Runtime Body × Except String Unit :=
  match s.nodes.lookup id with
  | none => (s, .error ("Not found `" ++ id ++ "`"))
  | some idx =>
    if idx ∉ s.outputs then
      (s, .error ("Node '" ++ id ++ "' (idx: " ++ toString idx ++ ") is not registered as an Output/Sink node."))
    else if ¬s.is_started ∨ idx ∈ s.broadcasts then ({ s with broadcasts := insert idx s.broadcasts }, .ok ())
    else (s, .error ("Failed to create new broadcast channel for " ++ id ++ " because of runtime has been started"))

/-- One call. -/
def step (e : Engine Body) (s : Runtime Body) : RuntimeAct Body → Runtime Body × Except String Unit
  | .reload components => s.reload e components
  | .start =>
    if s.is_started then (s, .error "already started")
    else ({ s with is_started := true, permits := s.permits + s.bootstraps.keys.length }, .ok ())
  | .broadcast id => s.broadcast id
  | .waitForShutdown => ({ s with tasks := ∅ }, .ok ())

/-- A runtime over its calls. -/
def machine (e : Engine Body) : Machine (Runtime Body) (RuntimeAct Body) (Except String Unit) := ⟨new, step e⟩

end Runtime

end Opsense
