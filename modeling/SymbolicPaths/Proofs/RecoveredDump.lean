import SymbolicPaths.Proofs.DumpLaws
import SymbolicPaths.Proofs.RecoveryLaws
import SymbolicPaths.Proofs.TraceletWalks

/-!
# Recovered programs can be dumped

A program whose control flow has been recovered is consistent, and therefore hardly anything can go
wrong when it is dumped (`Recovered.dump_ofDecoded`). Its blocks are all there, and the walker can
enter each of them. The one thing that can be missing is a node for a function of which no
instruction could be decoded. Only full exploration notices this, and only a strict dump fails
because of it.

Explorations by the walker terminate in any case, so that the dump always returns something
(`Recovered.toProject_terminates`), and whether it is an artifact is a matter of single functions
(`Recovered.Consistent.exists_returns_iff`).
-/

namespace SymbolicPaths

/-- The walker explores a function whose blocks are nodes, unless it is to start outside of the
graph. -/
theorem Explorer.exists_explore_walker_iff (g : Graph) (roots : List Address) (bound : UInt32)
    (evaluator : Evaluator) (mode : ExplorationMode) (strict : Bool) (f : Function)
    (hf : ∀ a ∈ f.blocks, g.contains a = true) :
    (∃ paths, outcome ((walker g roots bound evaluator mode strict).explore f) = .ok paths) ↔
      (mode = .full → g.contains f.address = true) := by
  cases mode with
  | full =>
    constructor
    · rintro ⟨paths, hpaths⟩ -
      obtain ⟨s, hentry, -, -⟩ := exploreFull_eq_ok_iff.mp hpaths
      exact (Graph.of_walker_entry hentry).1
    · intro hnode
      obtain ⟨n, hstops⟩ := Stashes.stopsWithin_walker g roots bound (hnode rfl)
      obtain ⟨k, -, hpaths⟩ := outcome_explore_full_walker evaluator strict (hnode rfl) hstops
      exact ⟨_, hpaths⟩
  | tracelet steps allowOverlap =>
    obtain ⟨groups, hgroups, -⟩ := traceletGroups_of_tracelets roots bound evaluator
      (.tracelet steps allowOverlap) strict f steps.toNat allowOverlap ∅ hf
    refine iff_of_true ⟨groups.flatten, ?_⟩ fun hmode => by cases hmode
    rw [explore_tracelet rfl, hgroups, ok_bind]

namespace Recovered

variable {r : Recovered}

/-- The dump of a recovered program is explored by the walker of its graph. -/
theorem explorer_toProject (r : Recovered) (info : BinaryInfo) (o : Options) :
    (r.toProject info).explorer o r.graph.walker =
      .walker r.graph (r.functions.map (·.address)) o.loopBound
        ⟨o.exclusionTable.offsetsFor info.architecture.name, o.strict⟩ o.mode o.strict :=
  rfl

theorem toProject_terminates (r : Recovered) (info : BinaryInfo) (o : Options) :
    (r.toProject info).Terminates o := by
  intro e he f _
  obtain rfl : r.graph.walker = e := Except.ok.inj he
  rw [explorer_toProject]
  exact Explorer.terminates_walker _ _ _ _ _ _ f

/-- **When the dump of a consistent program succeeds.** -/
theorem Consistent.exists_returns_iff (h : r.Consistent) (info : BinaryInfo) (o : Options) :
    (∃ a, (r.toProject info).Returns o (.ok a)) ↔
      (o.strict = true → o.mode = .full →
        ∀ f ∈ selectFunctions r.functions o.functions, r.graph.contains f.address = true) := by
  have hblocks : ∀ f ∈ r.functions, ∀ a ∈ f.blocks, ∃ b, (r.toProject info).block a = .ok b := by
    intro f hf a ha
    exact Project.exists_block_iff.mpr ((h.mem_blocks_iff a).mpr (h.contains_of_mem f hf a ha))
  -- what is left of a function once its blocks are there is its exploration
  have hfunction : ∀ f ∈ r.functions,
      (∃ s, outcome ((r.toProject info).dumpFunction
        ((r.toProject info).explorer o r.graph.walker) f) = .ok s) ↔
      (o.strict = true → o.mode = .full → r.graph.contains f.address = true) := by
    intro f hf
    rw [Project.exists_dumpFunction_iff, and_iff_right (hblocks f hf),
      Explorer.exists_exploreOrRecover_iff, explorer_toProject,
      Explorer.exists_explore_walker_iff _ _ _ _ _ _ f (h.contains_of_mem f hf)]
    rfl
  have hreturns : (∃ a, (r.toProject info).Returns o (.ok a)) ↔
      ∃ a, outcome ((r.toProject info).dump o) = .ok a :=
    exists_congr fun a => and_iff_right (toProject_terminates r info o)
  rw [hreturns, Project.exists_dump_iff]
  constructor
  · rintro ⟨e, he, hrecords⟩ hstrict hmode f hf
    obtain rfl : r.graph.walker = e := Except.ok.inj he
    exact (hfunction f (mem_of_mem_selectFunctions hf)).mp (hrecords f hf) hstrict hmode
  · intro hnodes
    refine ⟨r.graph.walker, rfl, fun f hf => (hfunction f (mem_of_mem_selectFunctions hf)).mpr ?_⟩
    exact fun hstrict hmode => hnodes hstrict hmode f hf

/-- The blocks of a function begin with its own, once an instruction of it has been decoded. -/
theorem head?_blocks_function {d : DecodedFunction} (g : Graph) (hflows : d.flows ≠ [])
    (hfirst : ∀ f ∈ d.flows.head?, f.address = d.symbol.address) :
    (d.function g).blocks.head? = some (d.function g).address := by
  obtain ⟨f, hf⟩ := Option.ne_none_iff_exists'.mp (mt List.head?_eq_none_iff.mp hflows)
  change (blockStarts d.flows).head? = some d.symbol.address
  rw [head?_blockStarts, hf, Option.map_some, hfirst f hf]

/-- The address of a function is a node, once an instruction of it has been decoded. -/
theorem contains_address {decoded : List DecodedFunction} {d : DecodedFunction} (hd : d ∈ decoded)
    (hflows : d.flows ≠ []) (hfirst : ∀ f ∈ d.flows.head?, f.address = d.symbol.address) :
    (ofDecoded decoded).graph.contains d.symbol.address = true := by
  have hhead := head?_blocks_function (ofDecoded decoded).graph hflows hfirst
  exact contains_ofDecoded.mpr ⟨d, hd, List.mem_of_mem_head? hhead⟩

/-- **A recovered program is consistent, so that dumping it cannot fail.** Let the first instruction
of each function, if there is any, stand at the address of its symbol. Functions may overlap. Then
the nodes of the graph are the addresses with a block; every block that a function lists is there
and can be entered by the walker; and a function begins with its own block unless no instruction of
it was decoded, which is the only case in which its address need not be a node. The dump returns an
artifact if it is lenient, or if it explores tracelets. A strict dump that explores in full returns,
too, and what it returns is an error exactly if the address of a chosen function is not a node. -/
theorem dump_ofDecoded (decoded : List DecodedFunction)
    (hfirst : ∀ d ∈ decoded, ∀ f ∈ d.flows.head?, f.address = d.symbol.address)
    (info : BinaryInfo) (o : Options) :
    let p := (ofDecoded decoded).toProject info
    (∀ a, p.graph.contains a = true ↔ a ∈ p.blocks) ∧
    (∀ f ∈ p.functions, ∀ a ∈ f.blocks,
      (∃ b, p.block a = .ok b) ∧ ∃ e s, p.engine = .ok e ∧ e.entry a = .ok s) ∧
    List.Forall₂ (fun d f => f.address = d.symbol.address ∧
        (d.flows ≠ [] → f.blocks.head? = some f.address) ∧
        (p.graph.contains f.address = false → d.flows = [])) decoded p.functions ∧
    (o.verbosity ≤ 1 ∨ o.mode ≠ .full → ∃ artifact, p.Returns o (.ok artifact)) ∧
    (2 ≤ o.verbosity → o.mode = .full → ∃ result, p.Returns o result ∧
      ((∃ err, result = .error err) ↔
        ∃ f ∈ selectFunctions p.functions o.functions, p.graph.contains f.address = false)) := by
  intro p
  have hconsistent := consistent_ofDecoded decoded
  have hreturns := hconsistent.exists_returns_iff info o
  refine ⟨fun a => (hconsistent.mem_blocks_iff a).symm, fun f hf a ha => ?_, ?_, fun ho => ?_,
    fun ho hmode => ?_⟩
  · have hnode := hconsistent.contains_of_mem f hf a ha
    exact ⟨Project.exists_block_iff.mpr ((hconsistent.mem_blocks_iff a).mpr hnode), _, _, rfl,
      Graph.walker_entry hnode⟩
  · have hfunctions := (List.forall₂_and_left _ _).mpr
      ⟨fun d (hd : d ∈ decoded) => hd, functions_ofDecoded decoded⟩
    refine hfunctions.imp ?_
    rintro d - ⟨hd, g, rfl⟩
    refine ⟨rfl, fun hflows => head?_blocks_function g hflows (hfirst d hd), fun hnode => ?_⟩
    by_contra hflows
    exact Bool.eq_false_iff.mp hnode (contains_address hd hflows (hfirst d hd))
  · refine hreturns.mpr fun hstrict hmode => ?_
    rcases ho with ho | ho
    · rw [Options.strict_eq_false ho] at hstrict
      cases hstrict
    · exact absurd hmode ho
  · have hterminates : p.Terminates o := toProject_terminates _ info o
    refine ⟨_, ⟨hterminates, rfl⟩, ?_⟩
    -- strictness and mode are as required, so that only the nodes are left to decide
    rw [hterminates.exists_error_iff, hreturns]
    simp [Options.strict_eq_true ho, hmode, p, toProject]

/-- Functions that overlap, and one of which nothing could be decoded. -/
def overlapping : List DecodedFunction :=
  [⟨⟨"count", 1, none, none⟩, countdown⟩, ⟨⟨"again", 2, none, none⟩, countdown.tail⟩,
    ⟨⟨"stub", 9, some 4, none⟩, []⟩]

/-- The stub is not a node, so that only a lenient dump comes through. -/
theorem dump_ofDecoded_overlapping :
    (∀ d ∈ overlapping, ∀ f ∈ d.flows.head?, f.address = d.symbol.address) ∧
    (∃ artifact, ((ofDecoded overlapping).toProject ⟨⟨"x86_64", 64, .little⟩, 1, ∅⟩).Returns {}
      (.ok artifact)) ∧
    ∃ err, ((ofDecoded overlapping).toProject ⟨⟨"x86_64", 64, .little⟩, 1, ∅⟩).Returns
      { verbosity := 2 } (.error err) := by
  have hfirst : ∀ d ∈ overlapping, ∀ f ∈ d.flows.head?, f.address = d.symbol.address := by decide
  refine ⟨hfirst, ?_, ?_⟩
  · obtain ⟨-, -, -, hlenient, -⟩ :=
      dump_ofDecoded overlapping hfirst ⟨⟨"x86_64", 64, .little⟩, 1, ∅⟩ {}
    exact hlenient (Or.inl (by decide))
  · obtain ⟨-, -, -, -, hstrict⟩ :=
      dump_ofDecoded overlapping hfirst ⟨⟨"x86_64", 64, .little⟩, 1, ∅⟩ { verbosity := 2 }
    obtain ⟨result, hreturns, herror⟩ := hstrict (by decide) rfl
    have hstub : (ofDecoded overlapping).graph.contains 9 = false := by
      rw [Bool.eq_false_iff, Ne, contains_ofDecoded]
      decide
    obtain ⟨err, rfl⟩ := herror.mpr ⟨_, List.mem_append_right _ (List.mem_singleton_self _), hstub⟩
    exact ⟨err, hreturns⟩

end Recovered

end SymbolicPaths
