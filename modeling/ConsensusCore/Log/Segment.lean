import ConsensusCore.Log.Config
import ConsensusCore.Log.Disk
import ConsensusCore.Saturating

/-!
# Segments

A log is kept in segments, which are numbered from the oldest on. The newest one
is the head, the only one written to; the others, the tails, have their number,
of at least three digits, after the name of the head.

The number of a tail is read more liberally than it is written
(`Segment.index?`): any digits that make a 64-bit number, and a plus sign before
them, will do.
-/

namespace ConsensusCore.Segment

/-- A number with at least three digits. -/
def digits (index : Nat) : String :=
  let ds := Nat.toDigits 10 index
  String.ofList (List.replicate (3 - ds.length) '0' ++ ds)

/-- The name of the tail with a number. -/
def tailName (index : Nat) : String := LogConfig.headName ++ "." ++ digits index

/-- The number that decimal digits make, if there are any and nothing else. -/
def decimal? (cs : List Char) : Option Nat :=
  if cs.isEmpty || !cs.all Char.isDigit then none
  else some (cs.foldl (fun n c => 10 * n + (c.toNat - '0'.toNat)) 0)

/-- The 64-bit number that a text denotes. -/
def number? (cs : List Char) : Option Nat :=
  match decimal? (if cs.head? = some '+' then cs.drop 1 else cs) with
  | some n => if n ≤ Saturating.ceiling then some n else none
  | none => none

/-- The number of the tail that a name is recognised as. -/
def index? (name : String) : Option Nat :=
  let start := (LogConfig.headName ++ ".").toList
  if start.isPrefixOf name.toList then number? (name.toList.drop start.length) else none

end ConsensusCore.Segment
