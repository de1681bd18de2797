import SymbolicPaths.Machine.Flow
import SymbolicPaths.Object.Symbol

/-!
# Control-flow recovery

Decoded functions are cut into basic blocks, maximal runs of instructions that control enters only
at the first and leaves only at the last. `splitRuns` cuts, `Run.successors` gives the edges that
leave a run, and `Recovered.add` enters one function after the other into a graph, a block map and a
function list. The graph is shared, so functions that overlap add to each other's blocks.
-/

namespace SymbolicPaths

/-- A run of instructions, never empty. -/
structure Run where
  first : Flow
  rest : List Flow
  deriving DecidableEq

namespace Run

/-- The instructions of a run, with their flow. -/
def flows (r : Run) : List Flow :=
  r.first :: r.rest

/-- The address at which a run begins. -/
def address (r : Run) : Address :=
  r.first.address

/-- Where control goes after the last instruction. -/
def transfer (r : Run) : Transfer :=
  (r.rest.getLastD r.first).transfer

/-- The block that a run makes. -/
def block (r : Run) : Block :=
  ⟨r.flows.foldl (· + ·.size) 0, r.flows.map (·.instruction), .ok []⟩

end Run

/-- The addresses of decoded instructions. -/
def instructionSet (flows : List Flow) : AddressSet :=
  .ofList (flows.map (·.address))

/-- The addresses at which a block has to begin: the first instruction, the instructions that are
jumped to, and those after an instruction that does not simply go on. -/
def leaders (flows : List Flow) : AddressSet :=
  let known := instructionSet flows
  let first := flows.head?.toList.map (·.address)
  let targets := (flows.filterMap (·.transfer.target?)).filter known.contains
  let next := (flows.zip flows.tail).filterMap fun (f, g) =>
    if f.transfer = .plain then none else some g.address
  .ofList (first ++ targets ++ next)

/-- Cuts instructions into runs, before every leader. -/
def splitRuns (leaders : AddressSet) : List Flow → List Run
  | [] => []
  | f :: rest =>
    match splitRuns leaders rest with
    | [] => [⟨f, []⟩]
    | r :: runs =>
      if leaders.contains r.address then ⟨f, []⟩ :: r :: runs else ⟨f, r.flows⟩ :: runs

/-- The runs of a function. -/
def runs (flows : List Flow) : List Run :=
  splitRuns (leaders flows) flows

/-- The addresses at which the blocks of a function begin, in order. -/
def blockStarts (flows : List Flow) : List Address :=
  (runs flows).map (·.address)

/-- The blocks to which control may go after a run, of which `next` is the one that follows it.
Jumps out of the known instructions lead nowhere. -/
def Run.successors (known : AddressSet) (next : Option Address) (r : Run) : List Address :=
  match r.transfer with
  | .ret => []
  | .jump target conditional =>
    (target.filter known.contains).toList ++ if conditional then next.toList else []
  | .call | .plain => next.toList

/-- Enters runs and the edges between them into a graph. -/
def Graph.addRuns (known : AddressSet) : List Run → Graph → Graph
  | [], g => g
  | r :: rest, g =>
    let next := rest.head?.map (·.address)
    let g := (r.successors known next).foldl (fun g b => g.addEdge r.address b)
      (g.addNode r.address)
    g.addRuns known rest

/-- Enters the blocks of a function and the edges between them into a graph. -/
def Graph.addFlows (g : Graph) (flows : List Flow) : Graph :=
  g.addRuns (instructionSet flows) (runs flows)

/-- A function symbol with the instructions that were decoded for it. -/
structure DecodedFunction where
  symbol : Symbol
  flows : List Flow

/-- The function as a graph shows it: its endpoints are the blocks without successor. -/
def DecodedFunction.function (d : DecodedFunction) (g : Graph) : Function where
  address := d.symbol.address
  name := d.symbol.name
  size := d.symbol.size.getD (d.flows.foldl (· + ·.size) 0)
  blocks := blockStarts d.flows
  endpoints := (blockStarts d.flows).filter fun a => (g.successors a).isEmpty

/-- What has been recovered of a program. -/
structure Recovered where
  functions : List Function
  blocks : Std.ExtTreeMap Address Block
  graph : Graph

namespace Recovered

/-- Nothing. -/
def empty : Recovered := ⟨[], ∅, .empty⟩

/-- Adds a function, as the graph so far shows it. A block that is already there is replaced. -/
def add (r : Recovered) (d : DecodedFunction) : Recovered :=
  let graph := r.graph.addFlows d.flows
  { functions := r.functions ++ [d.function graph]
    blocks := (runs d.flows).foldl (fun m b => m.insert b.address b.block) r.blocks
    graph }

/-- What is recovered from the functions of a program, one after the other. -/
def ofDecoded (decoded : List DecodedFunction) : Recovered :=
  decoded.foldl add empty

/-- The project of a recovered program: its engine walks the recovered graph. -/
def toProject (r : Recovered) (info : BinaryInfo) : Project WalkState where
  info
  functions := r.functions
  blocks := r.blocks
  graph := r.graph
  engine := .ok r.graph.walker

end Recovered

end SymbolicPaths
