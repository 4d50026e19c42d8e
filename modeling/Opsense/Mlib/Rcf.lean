import Opsense.Lib.Double
import Opsense.Lib.Machine

/-!
# The random cut forest

`RcfForest` of `opsense-mlib/src/rcf.rs`. The random numbers come from a stream that `next` takes them from, and `ln` is the
logarithm of the score. The leaf a point is put into may be cut, and the insertion then goes on into the new leaf; `stack` is how
deep these insertions can go before the process is out of stack. A coordinate past the end of a point is not a number.
-/

namespace Opsense

namespace Rcf

abbrev Point := List Double

/-- A point with its id. -/
abbrev Stored := Nat × Point

/-- The number at a position. -/
def coord (p : Point) (i : Nat) : Double := p.getD i .nan

/-- `for (i, &v) in p.iter().enumerate()`: the numbers of `p` change those at their positions. -/
def mergeWith (change : Double → Double → Double) : Point → Point → Point
  | [], _ => []
  | lo, [] => lo
  | a :: lo, v :: p => change a v :: mergeWith change lo p

def lower (a v : Double) : Double := if Scalar.lt v a then v else a

def higher (a v : Double) : Double := if Scalar.gt v a then v else a

/-- The bounds of the points below a branch. -/
structure BBox where
  min : Point
  max : Point

namespace BBox

def fromPoint (p : Point) : BBox := ⟨p, p⟩

def update (bbox : BBox) (p : Point) : BBox := ⟨mergeWith lower bbox.min p, mergeWith higher bbox.max p⟩

def farOutside (bbox : BBox) (p : Point) : Bool :=
  ((bbox.min.zip bbox.max).zip p).any fun x =>
    let extent := x.1.2 - x.1.1
    Scalar.lt x.2 (x.1.1 - extent) || Scalar.gt x.2 (x.1.2 + extent)

end BBox

inductive Node where
  | empty
  | branch (left right : Node) (cut_dim : Nat) (cut : Double) (bbox : BBox) (size : Nat)
  | leaf (entries : List Stored)

namespace Node

def size : Node → Nat
  | empty => 0
  | branch _ _ _ _ _ size => size
  | leaf entries => entries.length

/-- The points of a tree. -/
def entries : Node → List Stored
  | empty => []
  | branch left right _ _ _ _ => left.entries ++ right.entries
  | leaf entries => entries

def isEmpty : Node → Bool
  | empty => true
  | _ => false

end Node

/-- The bounds of points. -/
def bounds : List Point → Option (Point × Point)
  | [] => none
  | p :: ps => some (ps.foldl (mergeWith lower) p, ps.foldl (mergeWith higher) p)

/-- The first position whose extent is above what is left of `pick`. -/
def pickDim : List Double → Double → Option Nat
  | [], _ => none
  | e :: extents, pick => if Scalar.lt pick e then some 0 else (pickDim extents (pick - e)).map (· + 1)

/-- `XorShift64`, with the number in `[0, 1)` that `next_f64` makes of it. -/
def xorShift (x : UInt64) : Double × UInt64 :=
  let x := x ^^^ (x >>> 12)
  let x := x ^^^ (x <<< 25)
  let x := x ^^^ (x >>> 27)
  (.fin (((x * 0x2545F4914F6CDD1D) >>> 11).toNat / 2 ^ 53), x)

section Insertion

variable {ρ : Type} (next : ρ → Double × ρ)

/-- The tries of `split_cut`. -/
def tryCuts (lo hi : Point) (extents : List Double) (total : Double) : Nat → ρ → Option (Nat × Double) × ρ
  | 0, rng => (none, rng)
  | tries + 1, rng =>
    let (r, rng) := next rng
    let dim := (pickDim extents (r * total)).getD (extents.length - 1)
    if Scalar.gt (coord extents dim) 0.0 then
      let (r, rng) := next rng
      (some (dim, coord lo dim + r * (coord hi dim - coord lo dim)), rng)
    else tryCuts lo hi extents total tries rng

/-- A position and a number between the bounds of the points there, unless all points are the same. -/
def splitCut (points : List Point) (rng : ρ) : Option (Nat × Double) × ρ :=
  match bounds points with
  | none => (none, rng)
  | some (lo, hi) =>
    let extents := List.zipWith (fun a b => Scalar.max (b - a) 0.0) lo hi
    let total := extents.foldl (· + ·) 0.0
    if Scalar.le total 0.0 then (none, rng) else tryCuts next lo hi extents total 8 rng

/-- The side of a cut. -/
def goesLeft (p : Point) (cut_dim : Nat) (cut : Double) : Bool := Scalar.lt (coord p cut_dim) cut

variable (leaf_capacity id : Nat) (point : Point)

/-- A point is put into a leaf, which is cut when it is full; then it is put into the new leaf it is in. The sizes of the siblings
come from the top down. -/
def insertLeaf : Nat → List Stored → ρ → Option (Node × ρ × List Nat)
  | 0, _, _ => none
  | stack + 1, entries, rng =>
    if entries.length < leaf_capacity then some (.leaf (entries ++ [(id, point)]), rng, [])
    else
      match splitCut next (entries.map Prod.snd) rng with
      | (none, rng) => some (.leaf (entries ++ [(id, point)]), rng, [])
      | (some (cut_dim, cut), rng) =>
        let left := entries.filter fun e => goesLeft e.2 cut_dim cut
        let right := entries.filter fun e => !goesLeft e.2 cut_dim cut
        let left := if goesLeft point cut_dim cut then left ++ [(id, point)] else left
        let right := if goesLeft point cut_dim cut then right else right ++ [(id, point)]
        let bbox := ((left ++ right).map Prod.snd).foldl BBox.update (BBox.fromPoint point)
        let size := left.length + right.length
        -- `leaf_contains`
        if left.any fun e => e.1 = id then
          (insertLeaf stack left rng).map fun (node, rng, siblings) =>
            (.branch node (.leaf right) cut_dim cut bbox size, rng, right.length :: siblings)
        else
          (insertLeaf stack right rng).map fun (node, rng, siblings) =>
            (.branch (.leaf left) node cut_dim cut bbox size, rng, left.length :: siblings)

def insertInner (stack : Nat) : Node → ρ → Option (Node × ρ × List Nat)
  | .empty, rng => some (.leaf [(id, point)], rng, [])
  | .leaf entries, rng => insertLeaf next leaf_capacity id point stack entries rng
  | .branch left right cut_dim cut bbox size, rng =>
    if goesLeft point cut_dim cut then
      (insertInner stack left rng).map fun (node, rng, siblings) =>
        (.branch node right cut_dim cut (bbox.update point) (size + 1), rng, right.size :: siblings)
    else
      (insertInner stack right rng).map fun (node, rng, siblings) =>
        (.branch left node cut_dim cut (bbox.update point) (size + 1), rng, left.size :: siblings)

/-- A point that is only scored is not put into a tree whose range it is far from. -/
def skips (transient : Bool) : Node → Bool
  | .branch _ _ _ _ bbox _ => transient && bbox.farOutside point
  | _ => false

/-- The tree with the point, and the sizes of the siblings from the leaf up. -/
def insert (transient : Bool) (stack : Nat) (node : Node) (rng : ρ) : Option (Node × ρ × List Nat) :=
  if skips point transient node then some (node, rng, [node.size])
  else (insertInner next leaf_capacity id point stack node rng).map fun (node, rng, siblings) => (node, rng, siblings.reverse)

end Insertion

/-- The point of an id is taken out; a branch that is left with one child becomes that child. None when a size would go below
zero. -/
def Node.remove (id : Nat) : Node → Option (Node × Bool)
  | .empty => some (.empty, false)
  | .leaf entries =>
    let rest := entries.filter fun e => e.1 ≠ id
    if rest.length < entries.length then some (if rest = [] then .empty else .leaf rest, true) else some (.leaf entries, false)
  | .branch left right cut_dim cut bbox size =>
    (left.remove id).bind fun l =>
      (if l.2 then some (right, true) else right.remove id).bind fun r =>
        if r.2 then
          if size = 0 then none
          else some (if l.1.isEmpty then r.1 else if r.1.isEmpty then l.1 else .branch l.1 r.1 cut_dim cut bbox (size - 1), true)
        else some (.branch left right cut_dim cut bbox size, false)

/-- Collusive displacement, from the sizes of the siblings from the leaf up. -/
def codisp (ln : Double → Double) (siblings : List Nat) : Double :=
  (siblings.foldl (fun (state : Double × Double) s =>
    let s : Double := Scalar.ofNat s
    if Scalar.le s 0.0 then (state.1 + 1.0, state.2)
    else
      let cand := ln (state.1 + s) / ln (state.1 + 1.0)
      (state.1 + s, if Scalar.gt cand state.2 then cand else state.2)) (1.0, 1.0)).2

structure RcfConfig where
  num_trees : Nat
  sample_size : Nat
  shingle_size : Nat
  leaf_capacity : Nat

structure RcfForest (ρ : Type) where
  dims : Nat
  cfg : RcfConfig
  rng : ρ
  trees : List Node
  /-- The points that have been put in, the oldest first. -/
  window : List Stored
  shingle : List Point
  next_id : Nat

/-- Something is done to every tree in turn, with the random numbers the trees before have left; its results are added up. -/
def eachTree {ρ : Type} (f : Node → ρ → Option (Node × ρ × Double)) : List Node → ρ → Double → Option (List Node × ρ × Double)
  | [], rng, total => some ([], rng, total)
  | tree :: trees, rng, total =>
    (f tree rng).bind fun (tree, rng, x) =>
      (eachTree f trees rng (total + x)).map fun (trees, rng, total) => (tree :: trees, rng, total)

namespace RcfForest

variable {ρ : Type} (next : ρ → Double × ρ) (ln : Double → Double) (stack : Nat) (forest : RcfForest ρ)

/-- `with_config`; the assertions on the configuration are not part of it. -/
def withConfig (cfg : RcfConfig) (dims : Nat) (rng : ρ) : RcfForest ρ :=
  { dims, cfg, rng, trees := List.replicate cfg.num_trees .empty, window := [], shingle := [], next_id := 1 }

/-- A point is scored in a tree: it is put in, and taken out again. -/
def scoreTree (id : Nat) (p : Point) (tree : Node) (rng : ρ) : Option (Node × ρ × Double) :=
  (insert next forest.cfg.leaf_capacity id p true stack tree rng).bind fun (tree, rng, siblings) =>
    (tree.remove id).map fun (tree, _) => (tree, rng, codisp ln siblings)

/-- A point is put into a tree. -/
def growTree (id : Nat) (p : Point) (tree : Node) (rng : ρ) : Option (Node × ρ × Double) :=
  (insert next forest.cfg.leaf_capacity id p false stack tree rng).map fun (tree, rng, _) => (tree, rng, 0.0)

/-- The oldest point leaves the window and the trees, when there are more than the sample. -/
def evict : Option (RcfForest ρ) :=
  match forest.window with
  | [] => some forest
  | (old_id, _) :: window =>
    if forest.cfg.sample_size < forest.window.length then
      (forest.trees.mapM fun (tree : Node) => (tree.remove old_id).map Prod.fst).map fun trees => { forest with window, trees }
    else some forest

def insertShingled (shingled : Point) : Option (RcfForest ρ × Double) :=
  let id := forest.next_id
  (eachTree (forest.scoreTree next ln stack id shingled) forest.trees forest.rng 0.0).bind fun (trees, rng, total) =>
    (eachTree (forest.growTree next stack id shingled) trees rng 0.0).bind fun (trees, rng, _) =>
      (evict { forest with rng, trees, window := forest.window ++ [(id, shingled)], next_id := id + 1 }).map fun grown =>
        (grown, total / Scalar.ofNat forest.cfg.num_trees)

/-- `add`: the forest after it, and the score, when there are enough points for one. -/
def add (point : Point) : Option (RcfForest ρ × Except String (Option Double)) :=
  if point.length ≠ forest.dims then
    some (forest, .error s!"RCF cần vector {forest.dims} chiều, nhận được {point.length} chiều")
  else if 1 < forest.cfg.shingle_size then
    let shingle := forest.shingle ++ [point]
    if shingle.length < forest.cfg.shingle_size then some ({ forest with shingle }, .ok none)
    else
      (insertShingled next ln stack { forest with shingle := shingle.tail } shingle.flatten).map fun (forest, x) =>
        (forest, .ok (some x))
  else (insertShingled next ln stack forest point).map fun (forest, x) => (forest, .ok (some x))

/-- The vector that `score` looks at: the point with those before it, as many as there are. -/
def scored (point : Point) : Point :=
  if 1 < forest.cfg.shingle_size then
    let full := (forest.shingle ++ [point]).flatten
    if full.length < forest.dims * forest.cfg.shingle_size then full
    else full.drop (full.length - forest.dims * forest.cfg.shingle_size)
  else point

/-- `score`: the forest after it, and the score. -/
def score (point : Point) : Option (RcfForest ρ × Except String Double) :=
  if point.length ≠ forest.dims then
    some (forest, .error s!"RCF cần vector {forest.dims} chiều, nhận được {point.length} chiều")
  else
    let id := forest.next_id
    (eachTree (forest.scoreTree next ln stack id (forest.scored point)) forest.trees forest.rng 0.0).map fun (trees, rng, total) =>
      ({ forest with rng, trees, next_id := id + 1 }, .ok (total / Scalar.ofNat forest.cfg.num_trees))

end RcfForest

/-- A call on a forest. -/
inductive RcfCall where
  | add (point : Point)
  | score (point : Point)

def RcfCall.point : RcfCall → Point
  | add point => point
  | score point => point

/-- The forest after a call, and its answer; none when the process is out of stack or a size has gone below zero. -/
def RcfForest.call {ρ : Type} (next : ρ → Double × ρ) (ln : Double → Double) (stack : Nat) (forest : RcfForest ρ) :
    RcfCall → Option (RcfForest ρ × Except String (Option Double))
  | .add point => forest.add next ln stack point
  | .score point => (forest.score next ln stack point).map fun (forest, x) => (forest, x.map some)

/-- A forest from its making on; nothing happens after a call that fails. -/
def machine {ρ : Type} (next : ρ → Double × ρ) (ln : Double → Double) (stack : Nat) (cfg : RcfConfig) (dims : Nat) (rng : ρ) :
    Machine (Option (RcfForest ρ)) RcfCall (Option (Except String (Option Double))) where
  init := some (.withConfig cfg dims rng)
  step forest? call :=
    match forest?.bind fun forest => forest.call next ln stack call with
    | none => (none, none)
    | some (forest, answer) => (some forest, some answer)

end Rcf

end Opsense
