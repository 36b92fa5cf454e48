/-
Walks over nested operations.

A walk visits an operation and then, in order, the operations inside its
regions, each with everything nested below it. The visitor decides after each
operation whether to look inside it, to pass over what it holds, or to stop
the whole walk with an answer.

Without a visitor that interferes, a walk sees the pre-order listing. Both are
defined here by recursion on a depth that no finite nesting reaches.
-/
import SimdLowering.Graph.Basic

set_option autoImplicit false

namespace SimdLowering

/-- What a visitor wants next. -/
inductive Visit (β : Type) where
  /-- Look inside the operation, then go on. -/
  | descend
  /-- Pass over what the operation holds, then go on. -/
  | skip
  /-- End the walk with an answer. -/
  | stop (answer : β)
  deriving Repr

namespace Graph

variable {σ β α : Type}

/-- Visit the members of a list until a visit gives an answer. -/
def visitEach (visit : α → σ → σ × Option β) : List α → σ → σ × Option β
  | [], s => (s, none)
  | x :: xs, s =>
    match visit x s with
    | (s, some b) => (s, some b)
    | (s, none) => visitEach visit xs s

/-- Walk an operation and what is nested in it, at most `depth` levels down. -/
def walkWithin (g : Graph) (f : OpId → σ → σ × Visit β) : Nat → OpId → σ → σ × Option β
  | 0, _, s => (s, none)
  | depth + 1, op, s =>
    match f op s with
    | (s, .stop b) => (s, some b)
    | (s, .skip) => (s, none)
    | (s, .descend) => visitEach (g.walkWithin f depth) (g.innerOps op) s

/-- Walk an operation and everything nested in it. -/
def walkOp (g : Graph) (f : OpId → σ → σ × Visit β) (op : OpId) (s : σ) : σ × Option β :=
  g.walkWithin f g.depthBound op s

/-- Walk the operations of a block. -/
def walkBlock (g : Graph) (f : OpId → σ → σ × Visit β) (b : BlockId) (s : σ) : σ × Option β :=
  visitEach (g.walkOp f) (g.opsIn b) s

/-- Walk the operations of a region. -/
def walkRegion (g : Graph) (f : OpId → σ → σ × Visit β) (r : RegionId) (s : σ) : σ × Option β :=
  visitEach (g.walkBlock f) (g.blocksIn r) s

/-- Walk everything nested in an operation, without the operation itself. -/
def walkInside (g : Graph) (f : OpId → σ → σ × Visit β) (op : OpId) (s : σ) : σ × Option β :=
  visitEach (g.walkRegion f) (g.regionsOf op) s

/-- The operations of one kind that are nested in an operation, in the order a
walk meets them. -/
def collectKind (g : Graph) (root : OpId) (kind : OpKind) : List OpId :=
  (g.walkInside (β := Empty)
    (fun op found => (if g.kind op = kind then found ++ [op] else found, .descend)) root []).1

/-! ## Listings -/

/-- An operation and what is nested in it, at most `depth` levels down, each
operation before what it holds. -/
def preorderWithin (g : Graph) : Nat → OpId → List OpId
  | 0, _ => []
  | depth + 1, op => op :: (g.innerOps op).flatMap (g.preorderWithin depth)

/-- An operation and everything nested in it, in pre-order. -/
def preorder (g : Graph) (op : OpId) : List OpId := g.preorderWithin g.depthBound op

/-- Everything nested in an operation, in pre-order. -/
def nested (g : Graph) (root : OpId) : List OpId := (g.innerOps root).flatMap g.preorder

end Graph

end SimdLowering
