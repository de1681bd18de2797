import Mathlib.Data.List.SplitLengths
import SymbolicPaths.Proofs.DumpLaws

/-!
# A filter selects from the whole dump

The dump of the functions whose names are in a filter is a part of the dump of all functions
(`Project.dump_filter`). It cannot fail, or go on forever, if the whole dump succeeds, and what it
holds about a function is what the whole dump holds about it.

The reason is that functions are dumped independently of each other: the explorer is the same
whichever functions are chosen, since its loop bound is made from all of them, and it keeps nothing
from one function for the next. The records of a dump are therefore one list of results, function by
function, and a filter on names is a filter on that list.
-/

namespace SymbolicPaths

/-- Lists that are put together can be taken apart if their lengths are known. -/
theorem splitLengths_flatten {α : Type} (groups : List (List α)) :
    (groups.map List.length).splitLengths groups.flatten = groups := by
  induction groups with
  | nil => rfl
  | cons group groups ih =>
    rw [List.map_cons, List.splitLengths_cons, List.flatten_cons, List.take_left,
      List.drop_left, ih]

/-- The block records of each function: consecutive ones, as many as the function has blocks. -/
def Artifact.blockGroups (a : Artifact) : List (List BlockRecord) :=
  (a.functions.map (·.blocks.length)).splitLengths a.blocks

namespace Project

/-- If each function has a record for each of its blocks, then the groups are these. -/
theorem blockGroups_of_records (info : BinaryInfo)
    {records : List (FunctionRecord × List BlockRecord)}
    (h : ∀ r ∈ records, r.2.length = r.1.blocks.length) :
    Artifact.blockGroups ⟨info, records.map (·.1), records.flatMap (·.2)⟩ = records.map (·.2) := by
  have hlengths : (records.map (·.1)).map (·.blocks.length) =
      (records.map (·.2)).map List.length := by
    rw [List.map_map, List.map_map]
    exact List.map_congr_left fun r hr => (h r hr).symm
  rw [Artifact.blockGroups, hlengths, List.flatMap_def, splitLengths_flatten]

variable {σ : Type} [SymbolicState σ]

/-- **A filter selects from the whole dump and changes nothing else.** Let the dump of all functions
return an artifact. Then the dump of the functions with the given names returns one, too, with the
same information about the binary. Its functions are those of the whole artifact whose names are
given, in order, with everything that is recorded about them; its blocks are the groups of blocks of
just these functions. In the whole artifact the groups make up all blocks, and each holds as many as
its function counts. -/
theorem dump_filter (p : Project σ) (o : Options) (whole : Artifact) (names : NameSet)
    (h : p.Returns { o with functions := none } (.ok whole)) :
    ∃ part, p.Returns { o with functions := some names } (.ok part) ∧
      part.binary = whole.binary ∧
      part.functions = whole.functions.filter (fun r => names.contains r.name) ∧
      part.blocks = ((whole.functions.zip whole.blockGroups).filter
        fun group => names.contains group.1.name).flatMap (·.2) ∧
      whole.blockGroups.flatten = whole.blocks ∧
      whole.blockGroups.map (·.length) = whole.functions.map (·.blocks.length) ∧
      ∀ r ∈ whole.functions, r.blockCount = .ofNat r.blocks.length := by
  obtain ⟨hterminates, h⟩ := h
  obtain ⟨e, records, he, hrecords, rfl⟩ := dump_eq_ok_iff.mp h
  -- a record has the name of its function, so that both can be filtered alike
  have hpart : List.Forall₂
      (fun f r => outcome (p.dumpFunction (p.explorer { o with functions := some names } e) f) =
        .ok r)
      (p.functions.filter fun f => names.contains f.name)
      (records.filter fun r => names.contains r.1.name) := by
    refine List.rel_filter (fun {f r} hr => ?_) hrecords
    dsimp only
    rw [(of_dumpFunction hr).1]
  -- every record comes from some function, which fixes how many blocks it has
  have hgroup : ∀ r ∈ records, r.2.length = r.1.blocks.length ∧
      r.1.blockCount = .ofNat r.1.blocks.length := by
    intro r hr
    obtain ⟨f, -, hf⟩ := exists_of_mem_mapM (mapM_eq_ok_iff.mpr hrecords) r hr
    obtain ⟨-, hblocks, hcount, hlength⟩ := of_dumpFunction hf
    rw [hblocks]
    exact ⟨hlength, hcount⟩
  have hgroups := blockGroups_of_records p.info fun r hr => (hgroup r hr).1
  refine ⟨⟨p.info, _, _⟩, ⟨fun e' he' f hf => hterminates e' he' f (List.mem_of_mem_filter hf),
    dump_eq_ok_iff.mpr ⟨e, _, he, hpart, rfl⟩⟩, rfl, ?_, ?_, ?_, ?_, ?_⟩
  · rw [List.filter_map]
    rfl
  · rw [hgroups, List.zip_map', List.map_id']
  · rw [hgroups, List.flatMap_def]
  · rw [hgroups, List.map_map, List.map_map]
    exact List.map_congr_left fun r hr => (hgroup r hr).1
  · intro r hr
    obtain ⟨pair, hpair, rfl⟩ := List.mem_map.mp hr
    exact (hgroup pair hpair).2

/-- Two rounds from each block of a loop, and a function that cannot be explored. Without the loop,
the second function is left with the fourth of the four blocks. -/
theorem dump_filter_lasso :
    let o : Options := { tracelet := 2 }
    let loop : FunctionRecord :=
      ⟨1, "loop", 3, 0, [1, 2, 3], [3], [⟨[], [], [1, 2]⟩, ⟨[], [], [1, 2]⟩, ⟨[], [], [3]⟩]⟩
    let stray : FunctionRecord := ⟨4, "stray", 1, 0, [4], [], []⟩
    let blocks : List BlockRecord := [⟨1, 1, 4, []⟩, ⟨2, 1, 4, []⟩, ⟨3, 1, 4, []⟩, ⟨4, 4, 4, []⟩]
    lasso.Returns { o with functions := none } (.ok ⟨lasso.info, [loop, stray], blocks⟩) ∧
    lasso.Returns { o with functions := some (.ofList ["stray"]) }
      (.ok ⟨lasso.info, [stray], [⟨4, 4, 4, []⟩]⟩) := by
  intro o loop stray blocks
  have hwhole : lasso.Returns { o with functions := none }
      (.ok ⟨lasso.info, [loop, stray], blocks⟩) := by
    -- in this mode there is nothing to terminate
    refine ⟨fun e he f _ hmode => ?_, rfl⟩
    cases hmode
  obtain ⟨⟨binary, functions, rest⟩, hpart, hbinary, hfunctions, hblocks, -⟩ :=
    dump_filter lasso o _ (.ofList ["stray"]) hwhole
  obtain rfl : binary = lasso.info := hbinary
  obtain rfl : functions = [stray] := hfunctions.trans (by decide)
  obtain rfl : rest = [⟨4, 4, 4, []⟩] := hblocks.trans (by decide)
  exact ⟨hwhole, hpart⟩

end Project

end SymbolicPaths
