import SymbolicPaths.Proofs.RecoveredDump

/-!
# Paths fit the static records

In the artifact of a recovered program whose functions do not overlap, the paths of a function run
through its own blocks, from its own address to its own endpoints (`Recovered.dump_fitsGraph`).

Two things have to be seen. The endpoints of a function are computed when the function is added,
from a graph that later functions extend, whereas its paths are found in the final graph. Functions
without a common address do not interfere: adding one leaves the other as it is
(`DecodedFunction.function_addFlows`), so that in the end every function is as the final graph shows
it (`Recovered.functions_eq_map`). And no edge of the final graph leads out of the blocks of a
function (`NonOverlapping.mem_of_edge`), so that a walk that begins in a function stays there
(`Graph.IsWalk.mem_of_closed`).

What explorations find are walks: full exploration finds complete walks from the function's address
(`Explorer.completeWalk_of_explore`), and tracelets are the beginnings of walks from its blocks
(`Explorer.exists_isWalk_of_explore`).
-/

namespace SymbolicPaths

/-! ### The paths of an exploration are walks -/

namespace Graph

variable {g : Graph} {a : Address} {w : List Address}

/-- A walk stays where no edge leads out. -/
theorem IsWalk.mem_of_closed {blocks : List Address} (hw : g.IsWalk a w) (ha : a ∈ blocks)
    (hclosed : ∀ u v, g.hasEdge u v = true → u ∈ blocks → v ∈ blocks) : ∀ b ∈ w, b ∈ blocks := by
  refine hw.follows.induction (· ∈ blocks) w (fun u v => hclosed u v) fun hne => ?_
  have hhead := hw.starts
  rw [List.head?_eq_some_head hne] at hhead
  rwa [Option.some.inj hhead]

/-- The history of a tracelet is the beginning of a walk. -/
theorem TraceletPaths.exists_isWalk {l : LoopBound} {steps : Nat} {claimed : Set Address}
    {start : Address} {paths : List ExecutionPath} (h : g.TraceletPaths l steps claimed start paths)
    {path : ExecutionPath} (hpath : path ∈ paths) :
    ∃ rest, g.IsWalk start (path.history ++ rest) := by
  -- the last block of a walk that is cut off or stops short has not been executed
  have hdropLast : ∀ w, g.IsWalk start w → ∃ rest, g.IsWalk start (w.dropLast ++ rest) := by
    intro w hw
    obtain ⟨rest, hrest⟩ := List.dropLast_prefix w
    refine ⟨rest, ?_⟩
    rwa [hrest]
  obtain ⟨w, hw, -, ⟨-, rfl⟩ | ⟨-, rfl⟩ | ⟨-, rfl⟩⟩ := h.mem_iff.mp hpath
  · exact hdropLast w hw
  · refine ⟨[], ?_⟩
    rw [List.append_nil]
    exact hw
  · exact hdropLast w hw

end Graph

namespace Explorer

variable {g : Graph} {roots : List Address} {bound : UInt32} {evaluator : Evaluator} {strict : Bool}
  {f : Function} {paths : List ExecutionPath} {path : ExecutionPath}

theorem TraceletGroups.exists_isWalk {l : LoopBound} {steps : Nat} {allowOverlap : Bool}
    {claimed : Set Address} {starts : List Address} {groups : List (List ExecutionPath)}
    (h : TraceletGroups g l steps allowOverlap claimed starts groups)
    (hpath : path ∈ groups.flatten) :
    ∃ start ∈ starts, ∃ rest, g.IsWalk start (path.history ++ rest) := by
  induction h with
  | done => cases hpath
  | taken _ _ ih =>
    obtain ⟨start, hstart, hwalk⟩ := ih hpath
    exact ⟨start, List.mem_cons_of_mem _ hstart, hwalk⟩
  | @free claimed start starts paths groups _ hpaths _ ih =>
    rw [List.flatten_cons] at hpath
    rcases List.mem_append.mp hpath with hpath | hpath
    · exact ⟨start, List.mem_cons_self, hpaths.exists_isWalk hpath⟩
    · obtain ⟨later, hlater, hwalk⟩ := ih hpath
      exact ⟨later, List.mem_cons_of_mem _ hlater, hwalk⟩

/-- The paths of full exploration are complete walks from the address of the function. -/
theorem completeWalk_of_explore
    (h : outcome ((walker g roots bound evaluator .full strict).explore f) = .ok paths)
    (hpath : path ∈ paths) :
    g.contains f.address = true ∧ g.CompleteWalk f.address path.history := by
  obtain ⟨s, hentry, -, -⟩ := exploreFull_eq_ok_iff.mp h
  have hnode := (Graph.of_walker_entry hentry).1
  obtain ⟨n, hstops⟩ := Stashes.stopsWithin_walker g roots bound hnode
  obtain ⟨k, hk, hok⟩ := outcome_explore_full_walker evaluator strict hnode hstops
  obtain rfl := Except.ok.inj (hok.symm.trans h)
  obtain ⟨w, hw, rfl⟩ := List.mem_map.mp hpath
  exact ⟨hnode, ((Graph.mem_walksWithin_isComplete hnode hk).mp hw).1⟩

/-- The paths of an exploration by tracelets are the beginnings of walks from the blocks of the
function. -/
theorem exists_isWalk_of_explore {steps : UInt64} {allowOverlap : Bool}
    (hf : ∀ a ∈ f.blocks, g.contains a = true)
    (h : outcome
      ((walker g roots bound evaluator (.tracelet steps allowOverlap) strict).explore f) =
        .ok paths)
    (hpath : path ∈ paths) : ∃ start ∈ f.blocks, ∃ rest, g.IsWalk start (path.history ++ rest) := by
  obtain ⟨groups, hok, hgroups⟩ := traceletGroups_of_tracelets roots bound evaluator
    (.tracelet steps allowOverlap) strict f steps.toNat allowOverlap ∅ hf
  rw [explore_tracelet rfl, hok, ok_bind] at h
  obtain rfl := Except.ok.inj h
  exact hgroups.exists_isWalk hpath

end Explorer

/-! ### Functions that do not overlap -/

/-- The addresses that a function occupies: that of its symbol and those of its instructions. -/
def DecodedFunction.addresses (d : DecodedFunction) : List Address :=
  d.symbol.address :: d.flows.map (·.address)

/-- No address belongs to two functions. -/
def NonOverlapping (decoded : List DecodedFunction) : Prop :=
  decoded.Pairwise fun d d' => d.addresses.Disjoint d'.addresses

instance (d d' : DecodedFunction) : Decidable (d.addresses.Disjoint d'.addresses) :=
  List.decidableBAll (· ∉ d'.addresses) d.addresses

instance (decoded : List DecodedFunction) : Decidable (NonOverlapping decoded) :=
  inferInstanceAs (Decidable (decoded.Pairwise fun d d' => d.addresses.Disjoint d'.addresses))

variable {d d' : DecodedFunction} {decoded : List DecodedFunction} {flows : List Flow} {g : Graph}
  {a u v : Address}

theorem DecodedFunction.mem_addresses_of_mem_blockStarts (h : a ∈ blockStarts d.flows) :
    a ∈ d.addresses := by
  obtain ⟨f, hf, rfl⟩ := exists_of_mem_leaders (mem_blockStarts.mp h)
  exact List.mem_cons_of_mem _ (List.mem_map_of_mem hf)

/-- An address tells to which function it belongs. -/
theorem NonOverlapping.eq_of_mem (h : NonOverlapping decoded) (hd : d ∈ decoded)
    (hd' : d' ∈ decoded) (ha : a ∈ d.addresses) (ha' : a ∈ d'.addresses) : d = d' := by
  have hsymm : Std.Symm fun d d' : DecodedFunction => d.addresses.Disjoint d'.addresses :=
    ⟨fun _ _ hdisjoint => hdisjoint.symm⟩
  by_contra hne
  exact List.Pairwise.forall h hd hd' hne ha ha'

/-- Edges do not lead out of the blocks of a function. -/
theorem NonOverlapping.mem_of_edge (h : NonOverlapping decoded) (hd : d ∈ decoded)
    (hedge : (Recovered.ofDecoded decoded).graph.Edge u v) (hu : u ∈ blockStarts d.flows) :
    v ∈ blockStarts d.flows := by
  obtain ⟨d', hd', hrun⟩ := Recovered.edge_ofDecoded.mp hedge
  obtain rfl := h.eq_of_mem hd hd' (d.mem_addresses_of_mem_blockStarts hu)
    (d'.mem_addresses_of_mem_blockStarts hrun.source_mem)
  exact hrun.target_mem

/-- If the address of a function is a node, then it is one of its own blocks. -/
theorem NonOverlapping.mem_of_contains (h : NonOverlapping decoded) (hd : d ∈ decoded)
    (hnode : (Recovered.ofDecoded decoded).graph.contains d.symbol.address = true) :
    d.symbol.address ∈ blockStarts d.flows := by
  obtain ⟨d', hd', hstart⟩ := Recovered.contains_ofDecoded.mp hnode
  obtain rfl := h.eq_of_mem hd hd' List.mem_cons_self (d'.mem_addresses_of_mem_blockStarts hstart)
  exact hstart

/-! ### Adding a function leaves the others as they are -/

theorem Graph.isEmpty_successors_iff : (g.successors a).isEmpty = true ↔ ∀ b, ¬ g.Edge a b := by
  rw [List.isEmpty_iff, List.eq_nil_iff_forall_not_mem]
  simp only [mem_successors]

/-- An address that is no block of a function gets no successor from it. -/
theorem Graph.isEmpty_successors_addFlows (ha : a ∉ blockStarts flows) :
    ((g.addFlows flows).successors a).isEmpty = (g.successors a).isEmpty := by
  rw [Bool.eq_iff_iff, isEmpty_successors_iff, isEmpty_successors_iff]
  refine forall_congr' fun b => not_congr ?_
  rw [edge_addFlows]
  exact or_iff_left fun hrun => ha hrun.source_mem

/-- **Functions that do not overlap do not interfere.** -/
theorem DecodedFunction.function_addFlows (h : d.addresses.Disjoint d'.addresses) :
    d.function (g.addFlows d'.flows) = d.function g := by
  unfold function
  congr 1
  refine List.filter_congr fun a ha => Graph.isEmpty_successors_addFlows fun ha' => ?_
  exact h (d.mem_addresses_of_mem_blockStarts ha) (d'.mem_addresses_of_mem_blockStarts ha')

namespace Recovered

/-- In the end every function is as the final graph shows it. -/
theorem functions_eq_map (h : NonOverlapping decoded) :
    (ofDecoded decoded).functions = decoded.map (·.function (ofDecoded decoded).graph) := by
  induction decoded using List.reverseRecOn with
  | nil => rfl
  | append_singleton decoded d ih =>
    obtain ⟨hdecoded, -, hlast⟩ := List.pairwise_append.mp h
    rw [ofDecoded_concat, List.map_append]
    -- the function that is added sees the graph with its own edges, and the earlier ones do not see
    -- these
    refine congrArg₂ (· ++ ·) ?_ rfl
    rw [ih hdecoded]
    refine List.map_congr_left fun d' hd' => ?_
    exact (d'.function_addFlows (hlast d' hd' d (List.mem_singleton_self d))).symm

end Recovered

/-! ### The artifact -/

/-- The paths of a function fit what is recorded of the function itself. Its endpoints are its
blocks without successor; its paths run along edges through its blocks; and if functions are
explored in full, then they lead from the function's address to one of its endpoints. -/
structure FunctionRecord.FitsGraph (r : FunctionRecord) (g : Graph) (mode : ExplorationMode) :
    Prop where
  endpoints_eq : r.endpoints = r.blocks.filter fun a => (g.successors a).isEmpty
  mem_blocks : ∀ path ∈ r.paths, ∀ a ∈ path.history, a ∈ r.blocks
  follows : ∀ path ∈ r.paths, path.history.IsChain fun u v => g.hasEdge u v = true
  starts : mode = .full → ∀ path ∈ r.paths, path.history.head? = some r.address
  ends : mode = .full → ∀ path ∈ r.paths, ∃ a ∈ r.endpoints, path.history.getLast? = some a

namespace Recovered

section Exploration

variable {roots : List Address} {bound : UInt32} {evaluator : Evaluator} {mode : ExplorationMode}
  {strict : Bool} {paths : List ExecutionPath}

/-- In either mode a path begins in a block of its function. -/
theorem exists_isWalk_of_explore (h : NonOverlapping decoded) (hd : d ∈ decoded)
    (hpaths : outcome
      ((Explorer.walker (ofDecoded decoded).graph roots bound evaluator mode strict).explore
        (d.function (ofDecoded decoded).graph)) = .ok paths)
    {path : ExecutionPath} (hpath : path ∈ paths) :
    ∃ start ∈ blockStarts d.flows, ∃ rest,
      (ofDecoded decoded).graph.IsWalk start (path.history ++ rest) := by
  cases mode with
  | full =>
    obtain ⟨hnode, hwalk⟩ := Explorer.completeWalk_of_explore hpaths hpath
    refine ⟨_, h.mem_of_contains hd hnode, [], ?_⟩
    rw [List.append_nil]
    exact ⟨hwalk.starts, hwalk.follows⟩
  | tracelet steps allowOverlap =>
    refine Explorer.exists_isWalk_of_explore (fun a ha => ?_) hpaths hpath
    exact contains_ofDecoded.mpr ⟨d, hd, ha⟩

/-- The record of a function, with the paths that were found if its exploration has succeeded. -/
theorem fitsGraph_of_explore (h : NonOverlapping decoded) (hd : d ∈ decoded)
    (hpaths : paths = [] ∨
      outcome ((Explorer.walker (ofDecoded decoded).graph roots bound evaluator mode strict).explore
        (d.function (ofDecoded decoded).graph)) = .ok paths) :
    { (d.function (ofDecoded decoded).graph).record with paths }.FitsGraph
      (ofDecoded decoded).graph mode := by
  rcases hpaths with rfl | hpaths
  · constructor <;> simp [Function.record, DecodedFunction.function]
  have hblocks : ∀ path ∈ paths, ∀ a ∈ path.history, a ∈ blockStarts d.flows := by
    intro path hpath a ha
    obtain ⟨start, hstart, rest, hwalk⟩ := exists_isWalk_of_explore h hd hpaths hpath
    exact hwalk.mem_of_closed hstart (fun u v => h.mem_of_edge hd) a (List.mem_append_left rest ha)
  refine ⟨rfl, hblocks, fun path hpath => ?_, ?_, ?_⟩
  · obtain ⟨start, -, rest, hwalk⟩ := exists_isWalk_of_explore h hd hpaths hpath
    exact hwalk.follows.left_of_append
  · rintro rfl path hpath
    exact (Explorer.completeWalk_of_explore hpaths hpath).2.starts
  · rintro rfl path hpath
    obtain ⟨b, hlast, -, hb⟩ := (Explorer.completeWalk_of_explore hpaths hpath).2.ends
    -- the walk ends in the function, and there in a block without successor
    have hmem := hblocks path hpath b (List.mem_of_getLast? hlast)
    exact ⟨b, List.mem_filter.mpr ⟨hmem, List.isEmpty_iff.mpr hb⟩, hlast⟩

end Exploration

/-- **Paths fit the static records.** If no address belongs to two functions of a recovered program,
then in the artifact of its dump every function fits the recovered graph. -/
theorem dump_fitsGraph (decoded : List DecodedFunction) (hdisjoint : NonOverlapping decoded)
    (info : BinaryInfo) (o : Options) (artifact : Artifact)
    (h : ((ofDecoded decoded).toProject info).Returns o (.ok artifact)) :
    ∀ r ∈ artifact.functions, r.FitsGraph (ofDecoded decoded).graph o.mode := by
  obtain ⟨e, records, he, hrecords, rfl⟩ := Project.dump_eq_ok_iff.mp h.2
  obtain rfl : (ofDecoded decoded).graph.walker = e := Except.ok.inj he
  intro r hr
  obtain ⟨⟨_, blocks⟩, hrecord, rfl⟩ := List.mem_map.mp hr
  obtain ⟨f, hf, hdump⟩ := exists_of_mem_mapM (mapM_eq_ok_iff.mpr hrecords) _ hrecord
  -- the function is as the final graph shows it
  have hfunction : f ∈ (ofDecoded decoded).functions := mem_of_mem_selectFunctions hf
  rw [functions_eq_map hdisjoint] at hfunction
  obtain ⟨d, hd, rfl⟩ := List.mem_map.mp hfunction
  obtain ⟨_, paths, -, hpaths, heq⟩ := Project.dumpFunction_eq_ok_iff.mp hdump
  obtain ⟨rfl, -⟩ := Prod.mk.inj heq
  rw [explorer_toProject] at hpaths
  exact fitsGraph_of_explore hdisjoint hd (Explorer.eq_nil_or_explore_of_exploreOrRecover hpaths)

/-- Two functions that do not overlap: a loop, and a call. -/
def separate : List DecodedFunction :=
  [⟨⟨"count", 1, none, none⟩, countdown⟩,
    ⟨⟨"exit", 8, none, none⟩, [⟨⟨8, "call", "1"⟩, 1, .call⟩, ⟨⟨9, "ret", ""⟩, 1, .ret⟩]⟩]

/-- The tracelets of the loop are cut off or stop short of what is claimed, and those of the call do
not follow it. -/
theorem dump_fitsGraph_separate :
    let p := (ofDecoded separate).toProject ⟨⟨"x86_64", 64, .little⟩, 1, ∅⟩
    NonOverlapping separate ∧
    (∃ artifact, p.Returns {} (.ok artifact) ∧ ∀ r ∈ artifact.functions,
      r.FitsGraph p.graph .full) ∧
    ∃ artifact, p.Returns { tracelet := 2 } (.ok artifact) ∧
      (artifact.functions.map fun r => r.paths.map (·.history)) =
        [[[1, 2], [1, 2], [4]], [[8, 9]]] ∧
      ∀ r ∈ artifact.functions, r.FitsGraph p.graph (.tracelet 2 false) := by
  intro p
  have hdisjoint : NonOverlapping separate := by decide
  have hreturns : ∀ o : Options, o.strict = false → ∃ artifact, p.Returns o (.ok artifact) := by
    intro o ho
    refine ((consistent_ofDecoded separate).exists_returns_iff _ o).mpr fun hstrict => ?_
    rw [ho] at hstrict
    cases hstrict
  obtain ⟨full, hfull⟩ := hreturns {} rfl
  obtain ⟨short, hshort⟩ := hreturns { tracelet := 2 } rfl
  have hpaths : (outcome (p.dump { tracelet := 2 })).map
      (fun a => a.functions.map fun r => r.paths.map (·.history)) =
        .ok [[[1, 2], [1, 2], [4]], [[8, 9]]] := by
    decide
  rw [hshort.2] at hpaths
  exact ⟨hdisjoint, ⟨full, hfull, dump_fitsGraph separate hdisjoint _ {} full hfull⟩, short, hshort,
    Except.ok.inj hpaths, dump_fitsGraph separate hdisjoint _ { tracelet := 2 } short hshort⟩

end Recovered

end SymbolicPaths
