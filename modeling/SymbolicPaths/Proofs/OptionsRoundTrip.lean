import SymbolicPaths.OptionsFile
import SymbolicPaths.Proofs.JsonReading

/-!
# Options survive being written

Options are read back from their JSON text (`Options.json_lossless`), although members that say
nothing are not written. A member is left out for one value only, the one that its absence stands
for. So no filter stays apart from an empty one, which is written.

The members that are written fill a draft (`Options.fills_functions` to `Options.fills_jobs`, in the
order in which they are written), and completing the draft brings back what was left out
(`Options.complete_draft`).
-/

namespace SymbolicPaths

open Json Json.Reader

namespace Options

theorem ofList_toList (names : NameSet) : Std.ExtTreeSet.ofList names.toList = names := by
  refine Std.ExtTreeSet.ext_contains fun name => ?_
  rw [Std.ExtTreeSet.contains_ofList, Std.ExtTreeSet.contains_toList]

theorem takes_readNames (names : NameSet) : readNames.Takes (texts names.toList) names := by
  have h := (takes_texts names.toList).return fun l => (Std.ExtTreeSet.ofList l : NameSet)
  rwa [ofList_toList] at h

/-! ### Members and drafts -/

variable (o : Options)

/-- What the written members of options are read into. -/
def draft : Draft where
  functions := o.functions.map some
  tracelet := some o.tracelet
  allowOverlap := some o.allowOverlap
  loopBound := some o.loopBound
  verbosity := some o.verbosity
  registerExclusions := if o.registerExclusions.isEmpty then none else some o.registerExclusions
  jobs := o.jobs.map some

/-- What was left out is what its absence stands for. -/
theorem complete_draft : o.draft.complete = o := by
  obtain ⟨functions, tracelet, allowOverlap, loopBound, verbosity, exclusions, jobs⟩ := o
  have hfunctions : (functions.map some).getD none = functions := by cases functions <;> rfl
  have hjobs : (jobs.map some).getD none = jobs := by cases jobs <;> rfl
  have hexclusions : (if exclusions.isEmpty then none else some exclusions).getD ∅ =
      exclusions := by
    by_cases h : exclusions.isEmpty = true
    · rw [if_pos h, Option.getD_none, Std.ExtTreeMap.isEmpty_iff.mp h]
    · rw [if_neg h, Option.getD_some]
  simp only [draft, Draft.complete, hfunctions, hjobs, hexclusions, Option.getD_some]

theorem fills_functions :
    Fills fields {} (o.functions.map fun names => ("functions", texts names.toList)).toList
      { functions := o.functions.map some } := by
  cases o.functions with
  | none => exact .nil _
  | some names => exact .cons rfl rfl ((takes_readNames names).optional nofun |>.return _) (.nil _)

theorem fills_settings (functions : Option (Option NameSet)) :
    Fills fields { functions }
      [("tracelet", [.int o.tracelet.toInt]), ("allow_overlap", [.bool o.allowOverlap]),
        ("loop_bound", [.int o.loopBound.toNat]), ("verbosity", [.int o.verbosity.toNat])]
      { functions, tracelet := some o.tracelet, allowOverlap := some o.allowOverlap,
        loopBound := some o.loopBound, verbosity := some o.verbosity } := by
  refine .cons rfl rfl ((takes_signed _).return _) ?_
  refine .cons rfl rfl ((takes_bool _).return _) ?_
  refine .cons rfl rfl ((takes_halfWord _).return _) ?_
  exact .cons rfl rfl ((takes_byte _).return _) (.nil _)

theorem fills_registerExclusions :
    Fills fields { o.draft with registerExclusions := none, jobs := none }
      (if o.registerExclusions.isEmpty then []
        else [("register_exclusions",
          object (o.registerExclusions.toList.map fun e => (e.1, words e.2)))])
      { o.draft with jobs := none } := by
  rw [draft]
  split
  · exact .nil _
  · exact .cons rfl rfl ((takes_map takes_key takes_words o.registerExclusions).return _) (.nil _)

theorem fills_jobs :
    Fills fields { o.draft with jobs := none }
      (o.jobs.map fun n => ("jobs", Json.word n)).toList o.draft := by
  rw [draft]
  cases o.jobs with
  | none => exact .nil _
  | some n =>
    have hnull : Token.int n.toNat ≠ .null := nofun
    exact .cons rfl rfl ((takes_word n).optional hnull |>.return _) (.nil _)

theorem takes_read : Options.read.Takes o.tokens o :=
  takes_record
    ((o.fills_functions.append (o.fills_settings _)).append o.fills_registerExclusions
      |>.append o.fills_jobs)
    (congrArg some o.complete_draft)

theorem isValue_tokens : IsValue o.tokens := by
  refine isValue_object ?_
  simp only [List.forall_mem_append, List.forall_mem_cons]
  refine ⟨⟨⟨?_, isValue_int _, isValue_singleton trivial rfl, isValue_int _,
    isValue_int _, by simp⟩, ?_⟩, ?_⟩
  · cases o.functions with
    | none => simp
    | some names => simpa using isValue_texts names.toList
  · split
    · simp
    · simp only [List.forall_mem_singleton]
      refine isValue_object fun m hm => ?_
      obtain ⟨e, -, rfl⟩ := List.mem_map.mp hm
      exact isValue_words e.2
  · cases o.jobs with
    | none => simp
    | some n => simpa [Json.word] using isValue_int n.toNat

theorem ofJson_compactText : ofJson o.compactText = .ok o :=
  o.takes_read.readText (lex_compact o.isValue_tokens.toLegible (isNumeral_getLast?_object _))

/-! ### Options in a file -/

theorem readable_compactText : Text.Readable o.compactText :=
  Text.readable_flatMap fun t ht => Token.readable_bytes (o.isValue_tokens.isWritten t ht)

theorem ofContent_compactText {p : Path} (h : p.extension? = some "json") :
    ofContent p o.compactText = .ok o := by
  obtain ⟨cs, hcs, -⟩ := o.readable_compactText
  have htext : String.fromUTF8? ⟨o.compactText.toArray⟩ = some (String.ofList cs) := by
    rw [← Text.fromUTF8?_toUTF8, Text.toList_toUTF8, String.toList_ofList, ← hcs]
  simp only [ofContent, htext, h, o.ofJson_compactText]

theorem run_readFrom {p : Path} (h : p.extension? = some "json") {t : FileTree}
    (hread : t.read p = .content o.compactText) : (readFrom p).run.run t = pure (.ok o, t) := by
  have hrun : (Script.read p).run t = pure (.content o.compactText, t) := by
    rw [← hread]
    rfl
  simp [readFrom, hrun, o.ofContent_compactText h, ExceptT.run_bind, ofExcept]

/-- **Nothing of options is lost when they are written.** They are read back from their JSON text,
also from a file with that text whose extension says that it is JSON. So all that they stand for is
the same: how functions are explored, whether failures abort, and which registers are left out. -/
theorem json_lossless :
    ofJson o.compactText = .ok o ∧
    (∀ p : Path, p.extension? = some "json" → ofContent p o.compactText = .ok o ∧
      ∀ t : FileTree, t.read p = .content o.compactText →
        ((readFrom p).run.run t).value = (.ok o, t)) ∧
    ∀ o', ofJson o.compactText = .ok o' →
      o'.mode = o.mode ∧ o'.strict = o.strict ∧ o'.exclusionTable = o.exclusionTable := by
  refine ⟨o.ofJson_compactText, fun p hp => ⟨o.ofContent_compactText hp, fun t hread => ?_⟩,
    fun o' ho' => ?_⟩
  · rw [o.run_readFrom hp hread]
    rfl
  · obtain rfl : o = o' := Except.ok.inj (o.ofJson_compactText.symm.trans ho')
    exact ⟨rfl, rfl, rfl⟩

/-- Options with an empty filter, the least and greatest numbers, and names that have to be escaped,
two of which name one architecture. -/
def extreme : Options where
  functions := some ∅
  tracelet := -9223372036854775808
  allowOverlap := true
  loopBound := 0xffffffff
  verbosity := 0xff
  registerExclusions :=
    .ofList [("", ([] : List UInt64)), ("X86", [0xffffffffffffffff]), ("x86", [0]),
      ("\"\\\n\x00é", [1, 1])]
  jobs := some 0xffffffffffffffff

theorem json_lossless_extreme :
    ∃ t : FileTree, t.read ⟨"/o.json"⟩ = .content extreme.compactText ∧
      ((readFrom ⟨"/o.json"⟩).run.run t).value = (.ok extreme, t) := by
  have hread : ((⟨∅, []⟩ : FileTree).putFile ["o.json"] extreme.compactText).read ⟨"/o.json"⟩ =
      .content extreme.compactText := by
    decide +kernel
  have hextension : (⟨"/o.json"⟩ : Path).extension? = some "json" := by decide
  obtain ⟨-, hfile, -⟩ := extreme.json_lossless
  exact ⟨_, hread, (hfile ⟨"/o.json"⟩ hextension).2 _ hread⟩

end Options

end SymbolicPaths
