import SymbolicPaths.Graph

/-!
# Bounding loops

A run of symbolic execution is pruned once it has taken one back edge too often. Back edges come
from a depth-first search of the control-flow graph: they are the edges that lead to a node whose
search is still open. A transition that the graph does not know counts as a step back when it
returns to an address that the walk has already seen.

The search is a machine with an explicit stack. `Search.step` does one elementary step and
`Search.run` repeats it until the stack is empty, for which `Graph.searchLength` steps suffice.
-/

namespace SymbolicPaths

/-- How far the search has got with a node. -/
inductive Mark where
  /-- The node is on the stack. -/
  | active
  /-- The node and all that is reachable from it are done. -/
  | done
  deriving DecidableEq

/-- The state of a depth-first search. -/
structure Search where
  /-- The open nodes, innermost first, each with the successors still to look at. -/
  stack : List (Address × List Address)
  /-- The nodes met so far. -/
  marks : Std.ExtTreeMap Address Mark
  /-- The back edges found so far, as a graph of their own. -/
  back : Graph

namespace Search

/-- A search that has not begun. -/
def start : Search where
  stack := []
  marks := ∅
  back := Graph.empty

/-- Opens a node. -/
def enter (g : Graph) (s : Search) (a : Address) : Search :=
  { s with stack := (a, g.successors a) :: s.stack, marks := s.marks.insert a .active }

/-- One elementary step: look at the next successor of the innermost open node, or close it. -/
def step (g : Graph) (s : Search) : Search :=
  match s.stack with
  | [] => s
  | (node, []) :: outer => { s with stack := outer, marks := s.marks.insert node .done }
  | (node, next :: rest) :: outer =>
    let s : Search := { s with stack := (node, rest) :: outer }
    match s.marks[next]? with
    | some .active => { s with back := s.back.addEdge node next }
    | some .done => s
    | none => s.enter g next

/-- Steps until the stack is empty, at most `n` times. -/
def run (g : Graph) : Nat → Search → Search
  | 0, s => s
  | n + 1, s => if s.stack.isEmpty then s else run g n (s.step g)

end Search

namespace Graph

/-- A bound on the steps of a search from one root: every node is closed once and every edge looked
at once, and the root itself need not be a node. -/
def searchLength (g : Graph) : Nat :=
  g.size + g.edges.length + 1

/-- Searches from `root` unless an earlier search has met it. -/
def searchFrom (g : Graph) (s : Search) (root : Address) : Search :=
  if s.marks.contains root then s else (s.enter g root).run g g.searchLength

/-- The back edges that a depth-first search finds from `roots`, and from the nodes that these do
not reach. -/
def backEdges (g : Graph) (roots : List Address) : Graph :=
  ((roots ++ g.nodes).foldl g.searchFrom Search.start).back

end Graph

/-- The limit that prunes loops: no single back edge may be taken more than `bound` times. -/
structure LoopBound where
  /-- The known control flow. -/
  graph : Graph
  /-- The back edges among its edges. -/
  back : Graph
  /-- How often a single back edge may be taken. -/
  bound : UInt32

namespace LoopBound

/-- The loop bound of a graph whose search starts at `roots`. -/
def ofGraph (g : Graph) (roots : List Address) (bound : UInt32) : LoopBound where
  graph := g
  back := g.backEdges roots
  bound := bound

/-- Whether an edge is a back edge. -/
def isBackEdge (l : LoopBound) (source target : Address) : Bool :=
  l.back.hasEdge source target

/-- Whether going from `source` to `target` is a step back for a walk that has been at the addresses
`seen`: a known edge decides for itself, any other transition steps back when it returns. -/
def stepsBack (l : LoopBound) (seen : List Address) (source target : Address) : Bool :=
  if l.graph.hasEdge source target then l.isBackEdge source target else seen.contains target

/-- The transitions of the walk that continues from `source` along `rest` and step back, in order.
`seen` holds the addresses up to and including `source`. -/
def backTransitionsFrom (l : LoopBound) (seen : List Address) (source : Address) :
    (rest : List Address) → List (Address × Address)
  | [] => []
  | target :: rest =>
    let later := l.backTransitionsFrom (target :: seen) target rest
    if l.stepsBack seen source target then (source, target) :: later else later

/-- The transitions of a walk that step back, in order. -/
def backTransitions (l : LoopBound) : (walk : List Address) → List (Address × Address)
  | [] => []
  | first :: rest => l.backTransitionsFrom [first] first rest

/-- Whether a walk has taken some single back transition more often than the bound allows. The
transitions are counted without limit. Counters of 32 bits come to the same verdict unless one of
them overflows, which takes the greatest bound, `2 ^ 32 - 1`. At that bound the explorations here
are those of a program whose counters are wide enough. -/
def isSpinning (l : LoopBound) (walk : List Address) : Bool :=
  let taken := l.backTransitions walk
  taken.any fun t => l.bound.toNat < taken.count t

end LoopBound

end SymbolicPaths
