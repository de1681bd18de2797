import Mathlib.Data.List.Chain
import Mathlib.Data.List.Nodup
import SymbolicPaths.Proofs.BlockSplitting
import SymbolicPaths.Proofs.GraphLaws

/-!
# The block graph is a quotient of the instruction flow

Entering a function into a graph adds its blocks as nodes (`Graph.contains_addFlows`) and an edge
for each way from a block start to a block start that passes no other block start
(`Graph.addFlows_quotient`). Ways are ways of instructions: `FlowStep` says where control may go
after a single instruction, without any notion of a block.

The edges are first read off the runs (`Graph.edge_addFlows`): they lead from the start of a run to
where control may go after its last instruction, which is a single step (`Run.mem_successors`). What
is left is a fact about one run. All its instructions but the last simply go on to the next one,
which is no block start, so that the ways out of a run are the steps of its last instruction
(`directWay_iff_flowStep`). This is an induction on the rest of the run.
-/

namespace SymbolicPaths

variable {flows : List Flow} {r : Run} {f g : Flow} {a b c : Address}

/-! ### Steps of instructions -/

/-- Whether control may go on to the next instruction. -/
def Transfer.fallsThrough : Transfer → Bool
  | .plain | .call => true
  | .ret => false
  | .jump _ conditional => conditional

theorem Transfer.target?_eq_some_iff {t : Transfer} :
    t.target? = some c ↔ ∃ conditional, t = .jump (some c) conditional := by
  cases t with
  | plain => simp [target?]
  | call => simp [target?]
  | ret => simp [target?]
  | jump target conditional => simp [target?]

/-- Where control may go after a run: what comes next, if its last instruction goes on, and the
target of its last instruction, if that is known. -/
theorem Run.mem_successors {known : AddressSet} {next : Option Address} :
    c ∈ r.successors known next ↔
      (r.last.transfer.fallsThrough = true ∧ next = some c) ∨
      (r.last.transfer.target? = some c ∧ c ∈ known) := by
  have htransfer : r.transfer = r.last.transfer := rfl
  unfold successors
  rw [htransfer]
  cases r.last.transfer with
  | plain => simp [Transfer.fallsThrough, Transfer.target?]
  | call => simp [Transfer.fallsThrough, Transfer.target?]
  | ret => simp [Transfer.fallsThrough, Transfer.target?]
  | jump target conditional =>
    cases conditional with
    | true => simp [Transfer.fallsThrough, Transfer.target?, Option.filter_eq_some_iff, or_comm]
    | false => simp [Transfer.fallsThrough, Transfer.target?, Option.filter_eq_some_iff]

/-- Control may go from the instruction at one address to the instruction at another: to the one
that follows, or to the target of a jump. -/
inductive FlowStep (flows : List Flow) : Address → Address → Prop
  | next {f g : Flow} : [f, g] <:+: flows → f.transfer.fallsThrough = true →
    FlowStep flows f.address g.address
  | jump {f g : Flow} {conditional : Bool} : f ∈ flows → g ∈ flows →
    f.transfer = .jump (some g.address) conditional → FlowStep flows f.address g.address

/-- Instructions at different addresses can be told apart by what stands around them. -/
theorem eq_of_append_eq (hdistinct : (flows.map (·.address)).Nodup)
    {before after before' after' : List Flow} (h : flows = before ++ f :: after)
    (h' : flows = before' ++ g :: after') (haddress : f.address = g.address) :
    f = g ∧ after = after' := by
  have hmem : f ∈ flows := by
    rw [h]
    simp
  have hmem' : g ∈ flows := by
    rw [h']
    simp
  obtain rfl : f = g := List.inj_on_of_nodup_map hdistinct hmem hmem' haddress
  have hnodup : flows.Nodup := hdistinct.of_map
  rw [h', List.nodup_append_comm, List.cons_append, List.nodup_cons, List.mem_append,
    not_or] at hnodup
  have hsame := (List.append_cons_inj_of_notMem hnodup.1.2 hnodup.1.1).mp (h'.symm.trans h)
  exact ⟨rfl, hsame.2.2.symm⟩

/-- **The steps of one instruction**, given what follows it. -/
theorem flowStep_iff (hdistinct : (flows.map (·.address)).Nodup) {before after : List Flow}
    (h : flows = before ++ f :: after) :
    FlowStep flows f.address c ↔
      (f.transfer.fallsThrough = true ∧ after.head?.map (·.address) = some c) ∨
      (f.transfer.target? = some c ∧ c ∈ instructionSet flows) := by
  rw [mem_instructionSet, Transfer.target?_eq_some_iff]
  constructor
  · generalize ha : f.address = a
    intro hstep
    cases hstep with
    | @next f' g hadjacent hfalls =>
      obtain ⟨before', after', h'⟩ := hadjacent
      rw [List.append_assoc] at h'
      obtain ⟨rfl, rfl⟩ := eq_of_append_eq hdistinct h h'.symm ha
      exact Or.inl ⟨hfalls, rfl⟩
    | @jump f' g conditional hf' hg hjump =>
      obtain ⟨before', after', h'⟩ := List.append_of_mem hf'
      obtain ⟨rfl, -⟩ := eq_of_append_eq hdistinct h h' ha
      exact Or.inr ⟨⟨conditional, hjump⟩, g, hg, rfl⟩
  · rintro (⟨hfalls, hnext⟩ | ⟨⟨conditional, hjump⟩, g, hg, rfl⟩)
    · obtain ⟨g, hg, rfl⟩ := Option.map_eq_some_iff.mp hnext
      obtain ⟨after', rfl⟩ := List.head?_eq_some_iff.mp hg
      refine .next ⟨before, after', ?_⟩ hfalls
      rw [h, List.append_assoc]
      rfl
    · refine .jump ?_ hg hjump
      rw [h]
      simp

/-! ### Edges between runs -/

/-- Control may go from the start of one of the runs to `v` when that run is over. -/
def RunEdge (known : AddressSet) (rs : List Run) (u v : Address) : Prop :=
  ∃ before r after, rs = before ++ r :: after ∧ r.address = u ∧
    v ∈ r.successors known (after.head?.map (·.address))

theorem runEdge_cons {known : AddressSet} {rest : List Run} {u v : Address} :
    RunEdge known (r :: rest) u v ↔
      (r.address = u ∧ v ∈ r.successors known (rest.head?.map (·.address))) ∨
      RunEdge known rest u v := by
  constructor
  · rintro ⟨before, s, after, h, hs, hv⟩
    cases before with
    | nil =>
      obtain ⟨rfl, rfl⟩ := List.cons.inj h
      exact Or.inl ⟨hs, hv⟩
    | cons _ before =>
      obtain ⟨rfl, rfl⟩ := List.cons.inj h
      exact Or.inr ⟨before, s, after, rfl, hs, hv⟩
  · rintro (⟨hs, hv⟩ | ⟨before, s, after, rfl, hs, hv⟩)
    · exact ⟨[], r, rest, rfl, hs, hv⟩
    · exact ⟨r :: before, s, after, rfl, hs, hv⟩

theorem address_mem_blockStarts_of_next {before after : List Run} {s : Run}
    (hruns : runs flows = before ++ r :: after) (hs : after.head? = some s) :
    s.address ∈ blockStarts flows := by
  refine List.mem_map_of_mem (f := Run.address) ?_
  rw [hruns]
  exact List.mem_append_right _ (List.mem_cons_of_mem _ (List.mem_of_head? hs))

theorem RunEdge.source_mem {known : AddressSet} {u v : Address}
    (h : RunEdge known (runs flows) u v) : u ∈ blockStarts flows := by
  obtain ⟨before, r, after, hruns, rfl, -⟩ := h
  refine List.mem_map_of_mem (f := Run.address) ?_
  rw [hruns]
  simp

/-- What an instruction jumps to is the start of a block, if it is an instruction at all. -/
theorem mem_blockStarts_of_target (hf : f ∈ flows) (htarget : f.transfer.target? = some c)
    (hknown : c ∈ instructionSet flows) : c ∈ blockStarts flows := by
  rw [mem_blockStarts, mem_leaders]
  exact Or.inr (Or.inl ⟨f, hf, htarget, mem_instructionSet.mp hknown⟩)

/-- Runs lead to block starts: on to the next run, or to a leader that the last instruction jumps
to. -/
theorem RunEdge.target_mem {u v : Address} (h : RunEdge (instructionSet flows) (runs flows) u v) :
    v ∈ blockStarts flows := by
  obtain ⟨before, r, after, hruns, -, hv⟩ := h
  rcases Run.mem_successors.mp hv with ⟨-, hnext⟩ | ⟨htarget, hknown⟩
  · obtain ⟨s, hs, rfl⟩ := Option.map_eq_some_iff.mp hnext
    exact address_mem_blockStarts_of_next hruns hs
  · have hlast : r.last ∈ flows := by
      rw [flows_eq_of_runs hruns, ← r.dropLast_append_last]
      simp
    exact mem_blockStarts_of_target hlast htarget hknown

namespace Graph

variable {g : Graph} {known : AddressSet} {u v : Address}

theorem edge_foldl_addEdge (targets : List Address) :
    (targets.foldl (fun g b => g.addEdge a b) g).Edge u v ↔ g.Edge u v ∨ u = a ∧ v ∈ targets := by
  induction targets generalizing g with
  | nil => simp
  | cons b targets ih =>
    rw [List.foldl_cons, ih, edge_addEdge, List.mem_cons, and_or_left, or_assoc, or_left_comm]

theorem contains_foldl_addEdge (targets : List Address) (ha : g.contains a = true) :
    (targets.foldl (fun g b => g.addEdge a b) g).contains u = true ↔
      g.contains u = true ∨ u ∈ targets := by
  induction targets generalizing g with
  | nil => simp
  | cons b targets ih =>
    have hu : u = a → g.contains u = true := fun hu => hu ▸ ha
    rw [List.foldl_cons, ih (contains_addEdge.mpr (Or.inr (Or.inr ha))), contains_addEdge,
      List.mem_cons]
    tauto

theorem edge_addRuns (rs : List Run) :
    (g.addRuns known rs).Edge u v ↔ g.Edge u v ∨ RunEdge known rs u v := by
  induction rs generalizing g with
  | nil => simp [addRuns, RunEdge]
  | cons r rest ih =>
    rw [addRuns, ih, edge_foldl_addEdge, edge_addNode, runEdge_cons, or_assoc, eq_comm]

theorem contains_addRuns (rs : List Run) :
    (g.addRuns known rs).contains u = true ↔
      g.contains u = true ∨ u ∈ rs.map (·.address) ∨ ∃ a, RunEdge known rs a u := by
  induction rs generalizing g with
  | nil => simp [addRuns, RunEdge]
  | cons r rest ih =>
    rw [addRuns, ih, contains_foldl_addEdge _ (contains_addNode.mpr (Or.inl rfl)), contains_addNode,
      List.map_cons, List.mem_cons]
    simp only [runEdge_cons, exists_or, exists_eq_left']
    tauto

/-- Entering a function adds the edges between its runs. -/
theorem edge_addFlows :
    (g.addFlows flows).Edge u v ↔ g.Edge u v ∨ RunEdge (instructionSet flows) (runs flows) u v :=
  edge_addRuns (runs flows)

/-- **Entering a function adds its blocks**, and no other node. -/
theorem contains_addFlows :
    (g.addFlows flows).contains u = true ↔ g.contains u = true ∨ u ∈ blockStarts flows := by
  rw [addFlows, contains_addRuns, ← blockStarts]
  refine or_congr_right ⟨?_, Or.inl⟩
  rintro (hu | ⟨a, ha⟩)
  · exact hu
  · exact ha.target_mem

end Graph

/-! ### Ways through a run -/

/-- Control may go from the instruction at `a` to the one at `c`, in one step or more, without
passing the start of a block in between. -/
def DirectWay (flows : List Flow) (a c : Address) : Prop :=
  ∃ inner, (∀ b ∈ inner, b ∉ blockStarts flows) ∧ (a :: (inner ++ [c])).IsChain (FlowStep flows)

/-- The first step of a way leads to its end, or to an instruction within a block. -/
theorem directWay_iff :
    DirectWay flows a c ↔
      FlowStep flows a c ∨ ∃ b, FlowStep flows a b ∧ b ∉ blockStarts flows ∧
        DirectWay flows b c := by
  constructor
  · rintro ⟨inner, hinner, hchain⟩
    cases inner with
    | nil => exact Or.inl (List.isChain_pair.mp hchain)
    | cons b inner =>
      obtain ⟨hstep, hchain⟩ := List.isChain_cons_cons.mp hchain
      obtain ⟨hb, hinner⟩ := List.forall_mem_cons.mp hinner
      exact Or.inr ⟨b, hstep, hb, inner, hinner, hchain⟩
  · rintro (hstep | ⟨b, hstep, hb, inner, hinner, hchain⟩)
    · exact ⟨[], by simp, List.isChain_pair.mpr hstep⟩
    · exact ⟨b :: inner, List.forall_mem_cons.mpr ⟨hb, hinner⟩,
        List.isChain_cons_cons.mpr ⟨hstep, hchain⟩⟩

/-- Before the start of a block control can go to block starts only. -/
theorem mem_blockStarts_of_flowStep (hdistinct : (flows.map (·.address)).Nodup)
    {before after : List Flow} (h : flows = before ++ f :: after)
    (hafter : ∀ g ∈ after.head?, g.address ∈ blockStarts flows)
    (hstep : FlowStep flows f.address c) : c ∈ blockStarts flows := by
  rcases (flowStep_iff hdistinct h).mp hstep with ⟨-, hnext⟩ | ⟨htarget, hknown⟩
  · obtain ⟨g, hg, rfl⟩ := Option.map_eq_some_iff.mp hnext
    exact hafter g hg
  · have hf : f ∈ flows := by
      rw [h]
      simp
    exact mem_blockStarts_of_target hf htarget hknown

/-- Within a block control can go to the next instruction only. -/
theorem flowStep_iff_eq (hdistinct : (flows.map (·.address)).Nodup) {before after : List Flow}
    (h : flows = before ++ f :: g :: after) (hg : g.address ∉ blockStarts flows) :
    FlowStep flows f.address c ↔ c = g.address := by
  have hadjacent : [f, g] <:+: flows := ⟨before, after, by rw [h, List.append_assoc]; rfl⟩
  have hplain := transfer_eq_plain hadjacent fun hleader => hg (mem_blockStarts.mpr hleader)
  rw [flowStep_iff hdistinct h, hplain]
  simp [Transfer.fallsThrough, Transfer.target?, eq_comm]

/-- **The ways out of a run.** From anywhere in a run, the ways to block starts that pass none are
the steps of its last instruction. -/
theorem directWay_iff_flowStep (hdistinct : (flows.map (·.address)).Nodup)
    {rest before after : List Flow} (h : flows = before ++ f :: (rest ++ after))
    (hrest : ∀ g ∈ rest, g.address ∉ blockStarts flows)
    (hafter : ∀ g ∈ after.head?, g.address ∈ blockStarts flows) :
    c ∈ blockStarts flows ∧ DirectWay flows f.address c ↔
      FlowStep flows (rest.getLastD f).address c := by
  induction rest generalizing f before with
  | nil =>
    -- the last instruction steps to block starts only, so that there is no way but a single step
    have hexit : ∀ b, FlowStep flows f.address b → b ∈ blockStarts flows := fun b =>
      mem_blockStarts_of_flowStep hdistinct h hafter
    rw [directWay_iff, List.getLastD_nil]
    constructor
    · rintro ⟨-, hstep | ⟨b, hstep, hb, -⟩⟩
      · exact hstep
      · exact absurd (hexit b hstep) hb
    · exact fun hstep => ⟨hexit c hstep, Or.inl hstep⟩
  | cons g rest ih =>
    obtain ⟨hg, hrest⟩ := List.forall_mem_cons.mp hrest
    have hnext : ∀ b, FlowStep flows f.address b ↔ b = g.address := fun b =>
      flowStep_iff_eq hdistinct h hg
    have hlater : flows = before ++ [f] ++ g :: (rest ++ after) := by
      rw [h, List.append_assoc]
      rfl
    rw [List.getLastD_cons, ← ih hlater hrest, directWay_iff]
    simp only [hnext]
    constructor
    · rintro ⟨hc, rfl | ⟨b, rfl, -, hway⟩⟩
      · exact absurd hc hg
      · exact ⟨hc, hway⟩
    · rintro ⟨hc, hway⟩
      exact ⟨hc, Or.inr ⟨g.address, rfl, hg, hway⟩⟩

/-- A run leads to where there is a way from its start. -/
theorem Run.mem_successors_iff_directWay (hdistinct : (flows.map (·.address)).Nodup)
    {before after : List Run} (hruns : runs flows = before ++ r :: after) :
    c ∈ r.successors (instructionSet flows) (after.head?.map (·.address)) ↔
      c ∈ blockStarts flows ∧ DirectWay flows r.address c := by
  have hflows := flows_eq_of_runs hruns
  -- the instructions, as seen from the start of the run and from its last instruction
  have hfirst : flows = before.flatMap Run.flows ++ r.first ::
      (r.rest ++ after.flatMap Run.flows) := by
    conv_lhs => rw [hflows]
    rw [List.append_assoc]
    rfl
  have hlast : flows =
      before.flatMap Run.flows ++ r.flows.dropLast ++ r.last :: after.flatMap Run.flows := by
    conv_lhs => rw [hflows, ← r.dropLast_append_last]
    simp only [List.append_assoc, List.singleton_append]
  have hrest : ∀ g ∈ r.rest, g.address ∉ blockStarts flows := by
    intro g hg hstart
    have hr : r ∈ runs flows := by
      rw [hruns]
      simp
    exact address_notMem_of_mem_rest hr hg (mem_blockStarts.mp hstart)
  have hafter : ∀ g ∈ (after.flatMap Run.flows).head?, g.address ∈ blockStarts flows := by
    intro g hg
    rw [head?_flatMap_flows] at hg
    obtain ⟨s, hs, rfl⟩ := Option.map_eq_some_iff.mp hg
    exact address_mem_blockStarts_of_next hruns hs
  have hnext : (after.flatMap Run.flows).head?.map (·.address) = after.head?.map (·.address) := by
    rw [head?_flatMap_flows, Option.map_map]
    rfl
  rw [Run.address, directWay_iff_flowStep hdistinct hfirst hrest hafter, ← Run.last,
    flowStep_iff hdistinct hlast, hnext, Run.mem_successors]

theorem runEdge_iff (hdistinct : (flows.map (·.address)).Nodup) :
    RunEdge (instructionSet flows) (runs flows) a c ↔
      a ∈ blockStarts flows ∧ c ∈ blockStarts flows ∧ DirectWay flows a c := by
  constructor
  · intro hedge
    refine ⟨hedge.source_mem, ?_⟩
    obtain ⟨before, r, after, hruns, rfl, hc⟩ := hedge
    exact (Run.mem_successors_iff_directWay hdistinct hruns).mp hc
  · rintro ⟨ha, hway⟩
    obtain ⟨r, hr, rfl⟩ := List.mem_map.mp ha
    obtain ⟨before, after, hruns⟩ := List.append_of_mem hr
    exact ⟨before, r, after, hruns, rfl,
      (Run.mem_successors_iff_directWay hdistinct hruns).mpr hway⟩

/-- **The block graph is the exact quotient of the instruction flow.** Let the instructions have
different addresses. Entering them into a graph adds an edge from `a` to `c` exactly if both are
starts of their blocks and control may go from the instruction at `a` to the one at `c` without
passing another block start in between. It adds the starts of the blocks as nodes, and no other
node. -/
theorem Graph.addFlows_quotient (g : Graph) (flows : List Flow)
    (hdistinct : (flows.map (·.address)).Nodup) :
    (∀ a c, (g.addFlows flows).hasEdge a c = true ↔
      g.hasEdge a c = true ∨
        a ∈ blockStarts flows ∧ c ∈ blockStarts flows ∧ DirectWay flows a c) ∧
    ∀ a, (g.addFlows flows).contains a = true ↔ g.contains a = true ∨ a ∈ blockStarts flows := by
  refine ⟨fun a c => ?_, fun a => contains_addFlows⟩
  rw [hasEdge_iff, hasEdge_iff, edge_addFlows, runEdge_iff hdistinct]

/-- A loop of two instructions, and the return that it leads to. -/
def countdown : List Flow :=
  [⟨⟨1, "mov", "ecx, 9"⟩, 1, .plain⟩, ⟨⟨2, "dec", "ecx"⟩, 1, .plain⟩,
    ⟨⟨3, "jne", "2"⟩, 1, .jump (some 2) true⟩, ⟨⟨4, "ret", ""⟩, 1, .ret⟩]

/-- The jump goes back to the middle of what would be one run otherwise. The loop has a way to
itself, and from the first block there is none to the return that would not pass the loop. -/
theorem Graph.addFlows_quotient_countdown :
    (countdown.map (·.address)).Nodup ∧ blockStarts countdown = [1, 2, 4] ∧
      DirectWay countdown 2 2 ∧ ¬ DirectWay countdown 1 4 := by
  have hdistinct : (countdown.map (·.address)).Nodup := by decide
  have hstarts : blockStarts countdown = [1, 2, 4] := by decide
  obtain ⟨hedge, -⟩ := addFlows_quotient empty countdown hdistinct
  refine ⟨hdistinct, hstarts, ?_, fun hway => ?_⟩
  · rcases (hedge 2 2).mp (by decide) with hempty | ⟨-, -, hway⟩
    · exact absurd hempty (by decide)
    · exact hway
  · have h : (empty.addFlows countdown).hasEdge 1 4 = true :=
      (hedge 1 4).mpr (Or.inr ⟨by decide, by decide, hway⟩)
    exact absurd h (by decide)

end SymbolicPaths
