import Opsense.Lib.Suffixes

/-!
# The Aho-Corasick matcher

`AhoCorasick` of `opsense-mlib/src/ahocorasick.rs`. A state is a place in the tables; an entry that is past their end is the one of
a state without anything. The callback that collects blocks gives nothing back and is left out. The loops that follow failure links
take `fuel`, and give nothing when it is not enough.
-/

namespace Opsense

namespace Aho

/-- `BTreeMap<String, usize>` -/
abbrev Mapping := Std.TreeMap String Nat

structure Callbacks where
  mapping_fn : String → Mapping → Option Nat
  compare_fn : String → String → Bool
  split_fn : String → List String

namespace Callbacks

/-- `str::split("")`: an empty block before the characters, and one after them. -/
def splitEmpty (s : String) : List String := "" :: (s.toList.map String.singleton ++ [""])

def default : Callbacks where
  mapping_fn block mapping := mapping[block]?
  compare_fn left right := left == right
  split_fn pattern := (splitEmpty pattern).filter fun block => !block.isEmpty

end Callbacks

/-- The automaton; its state 0 is the root. -/
structure Automaton where
  labels : List String
  next : List Mapping
  back : List Nat
  failure : List Nat
  output : List (Option Nat)
  root_inputs : List Nat

namespace Automaton

def root : Automaton := ⟨[""], [∅], [0], [0], [none], []⟩

variable (m : Automaton)

def nextOf (s : Nat) : Mapping := m.next.getD s ∅

def failureOf (s : Nat) : Nat := m.failure.getD s 0

/-- The tables with a new state below `current_state`. -/
def grow (current_state : Nat) (block : String) : Automaton :=
  let index := m.labels.length
  { labels := m.labels ++ [block]
    next := m.next.modify current_state (·.insert block index) ++ [∅]
    back := m.back ++ [current_state]
    failure := m.failure ++ [0]
    output := m.output ++ [none]
    root_inputs := if current_state = 0 then m.root_inputs ++ [index] else m.root_inputs }

/-- A block of a pattern, from `current_state` on; `state` is the number of the next new state. -/
def addBlock : Automaton × Nat × Nat → String → Automaton × Nat × Nat
  | (m, current_state, state), block =>
    match (m.nextOf current_state)[block]? with
    | some next_state => (m, next_state, state)
    | none => (m.grow current_state block, state, state + 1)

/-- A pattern with its number. -/
def addPattern (split_fn : String → List String) (m : Automaton × Nat) (pattern : String × Nat) : Automaton × Nat :=
  let (m, next_state, state) := (split_fn pattern.1).foldl addBlock (m.1, 0, m.2)
  ({ m with output := m.output.set next_state (some pattern.2) }, state)

/-- The inner loop of the failure mapping: the state a label leads to from the first of the failures it does so from. -/
def findFailure (label : String) : Nat → Nat → Bool → Option (Option Nat)
  | 0, _, _ => none
  | fuel + 1, failure_of_previous, break_at_last =>
    match (m.nextOf failure_of_previous).toList.find? fun e => e.1 = label with
    | some (_, failure_state) => some (some failure_state)
    | none =>
      if break_at_last then some none
      else
        let try_failure := m.failureOf failure_of_previous
        findFailure label fuel try_failure (try_failure = failure_of_previous)

/-- The failure of a state, with those of the states before it. -/
def setFailure (fuel i : Nat) : Option Automaton :=
  let back := m.back.getD i 0
  if back = 0 then some m
  else
    (m.findFailure (m.labels.getD i "") fuel (m.failureOf back) false).map fun
      | some failure_state => { m with failure := m.failure.set i failure_state }
      | none => m

/-- The failure mapping, with a queue of states. -/
def mapFailures : Nat → List Nat → Automaton → Option Automaton
  | _, [], m => some m
  | 0, _ :: _, _ => none
  | fuel + 1, i :: queue, m =>
    match m.setFailure fuel i with
    | none => none
    | some m => mapFailures fuel (queue ++ (m.nextOf i).toList.map Prod.snd) m

/-- The loop of `similar` over the failures of a state: is there an output? -/
def probe : Nat → Nat → Option Bool
  | _, 0 => some false
  | 0, _ + 1 => none
  | fuel + 1, s + 1 => if (m.output.getD (s + 1) none).isSome then some true else probe fuel (m.failureOf (s + 1))

/-- The first of the root's inputs with this block, or the root. -/
def rootInput (cb : Callbacks) (block : String) : Nat :=
  (m.root_inputs.find? fun first_id => cb.compare_fn block (m.labels.getD first_id "")).getD 0

/-- The state after a block, or the root where there is none. -/
def transition (cb : Callbacks) (state : Nat) (block : String) : Nat :=
  match cb.mapping_fn block (m.nextOf state) with
  | some next_state => next_state
  | none => (((m.nextOf state).toList.find? fun e => cb.compare_fn block e.1).map Prod.snd).getD 0

/-- The loop of `similar`. -/
def scan (cb : Callbacks) : Nat → Nat → List String → Option Bool
  | _, _, [] => some false
  | 0, _, _ :: _ => none
  | fuel + 1, state, block :: blocks =>
    let next_state := if state = 0 then m.rootInput cb block else m.transition cb state block
    if state ≠ 0 ∧ next_state = 0 then scan cb fuel (m.failureOf state) (block :: blocks)
    else
      match m.probe fuel next_state with
      | none => none
      | some true => some true
      | some false => scan cb fuel next_state blocks

end Automaton

structure AhoCorasick extends Automaton where
  callbacks : Callbacks
  pattern_mapping : Mapping
  patterns : List String
  is_optimized : Bool

namespace AhoCorasick

def newWithCallbacks (callbacks : Callbacks) : AhoCorasick :=
  { toAutomaton := .root, callbacks, pattern_mapping := ∅, patterns := [], is_optimized := false }

def new : AhoCorasick := newWithCallbacks .default

def add (a : AhoCorasick) (pattern : String) : AhoCorasick :=
  if !pattern.isEmpty && !a.pattern_mapping.contains pattern then
    { a with
      pattern_mapping := a.pattern_mapping.insert pattern a.pattern_mapping.size
      patterns := a.patterns ++ [pattern]
      is_optimized := false }
  else a

/-- The automaton of the patterns, without its failures. -/
def build (a : AhoCorasick) : Automaton := (a.patterns.zipIdx.foldl (Automaton.addPattern a.callbacks.split_fn) (.root, 1)).1

def optimize (fuel : Nat) (a : AhoCorasick) : Option AhoCorasick :=
  (Automaton.mapFailures fuel [0] a.build).map fun m => { a with toAutomaton := m, is_optimized := true }

def similar (fuel : Nat) (a : AhoCorasick) (sample : String) : Option Bool :=
  if !a.is_optimized then some false else a.scan a.callbacks fuel 0 (a.callbacks.split_fn sample)

end AhoCorasick

end Aho

end Opsense
