import SymbolicPaths.Text.CaseTable

/-!
# Lower-case text

Architecture names are compared without regard to case, over all of Unicode. A letter maps to its
lower-case partner. Two letters need more than a partner: `İ` becomes an `i` with a combining dot,
and `Σ` becomes the final form `ς` at the end of a word and `σ` elsewhere.
-/

namespace SymbolicPaths.Case

/-- Whether a code point lies in one of the given ranges. -/
def inRanges (ranges : Array (Nat × Nat)) (code : Nat) : Bool :=
  ranges.any fun (first, last) => first ≤ code && code ≤ last

/-- Whether a run of the mapping table holds the code point. -/
def inRun (run : Nat × Nat × Nat × Int) (code : Nat) : Bool :=
  let (first, last, distance, _) := run
  first ≤ code && code ≤ last && (code - first) % distance == 0

/-- The lower-case partner of a letter. Any other character is its own. -/
def lowercaseChar (c : Char) : Char :=
  match lowercaseRuns.find? (inRun · c.toNat) with
  | some (_, _, _, shift) => Char.ofNat ((c.toNat : Int) + shift).toNat
  | none => c

/-- Whether the first character that case rules do not ignore is a letter with case. -/
def leadsToCased (cs : List Char) : Bool :=
  match cs.find? (!inRanges ignorableRanges ·.toNat) with
  | some c => inRanges casedRanges c.toNat
  | none => false

/-- The lower-case form of `c` between the characters before it, nearest first, and those after
it. -/
def lowercaseAt (before : List Char) (c : Char) (after : List Char) : List Char :=
  if c = 'İ' then ['i', '\u0307']
  else if c = 'Σ' then
    if leadsToCased before && !leadsToCased after then ['ς'] else ['σ']
  else [lowercaseChar c]

/-- Lower-cases the characters `after`, which follow `before`, nearest first. -/
def lowercaseFrom (before : List Char) : (after : List Char) → List Char
  | [] => []
  | c :: after => lowercaseAt before c after ++ lowercaseFrom (c :: before) after

/-- A text in lower case. -/
def lowercase (s : String) : String :=
  String.ofList (lowercaseFrom [] s.toList)

end SymbolicPaths.Case
