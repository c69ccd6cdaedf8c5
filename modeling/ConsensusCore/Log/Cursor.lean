import ConsensusCore.Log.Disk
import ConsensusCore.Log.Record

/-!
# Cursors

A file that is open for reading: which file it is, from where it is read next,
and what has been read ahead of need. A file is read in blocks, of which a cursor
keeps what has not been asked for yet; it sees changes of the file from the end
of that on.

* `Cursor.Agrees.read`: as long as what was read ahead is still what the file
  holds there, a cursor gives the bytes of the file from its position on.
-/

namespace ConsensusCore

/-- A file open for reading. -/
structure Cursor where
  node : Node
  /-- Where the next block is read from. -/
  next : Nat
  /-- What was read before that, and not asked for yet. -/
  ahead : Bytes
deriving DecidableEq

namespace Cursor

/-- The number of bytes that are read at once. -/
def blockSize : Nat := 8192

/-- A cursor at a position of a file. -/
def atPosition (node : Node) (position : Nat) : Cursor := ⟨node, position, []⟩

/-- The cursor moved to a position, with nothing read ahead. -/
def seek (c : Cursor) (position : Nat) : Cursor := atPosition c.node position

/-- Where the next byte that is asked for comes from. -/
def position (c : Cursor) : Nat := c.next - c.ahead.length

/-- The next `n` bytes of a file with some content, or all if there are fewer. -/
def read (content : Bytes) (n : Nat) (c : Cursor) : Bytes × Cursor :=
  if n ≤ c.ahead.length then (c.ahead.take n, { c with ahead := c.ahead.drop n })
  else
    let need := n - c.ahead.length
    let block := (content.drop c.next).take (max need blockSize)
    (c.ahead ++ block.take need,
      { c with next := c.next + block.length, ahead := block.drop need })

/-- What was read ahead is what the content holds before the next block. -/
def Agrees (c : Cursor) (content : Bytes) : Prop :=
  c.ahead.length ≤ c.next ∧ c.ahead = (content.drop c.position).take c.ahead.length

theorem agrees_atPosition (node : Node) (position : Nat) (content : Bytes) :
    (atPosition node position).Agrees content := by
  simp [Agrees, atPosition]

theorem Agrees.drop_position {c : Cursor} {content : Bytes} (h : c.Agrees content) :
    content.drop c.position = c.ahead ++ content.drop c.next := by
  have hnext : c.position + c.ahead.length = c.next := by
    have := h.1
    simp only [position]
    omega
  have := List.take_append_drop c.ahead.length (content.drop c.position)
  rw [← h.2, List.drop_drop, hnext] at this
  exact this.symm

/-- What is left of a block is what the content holds before the next block. -/
theorem drop_take_drop (content : Bytes) (next size need : Nat) :
    let block := (content.drop next).take size
    block.drop need =
      (content.drop (next + block.length - (block.drop need).length)).take
        (block.drop need).length := by
  simp only [List.length_drop, List.length_take]
  generalize hl : min size (content.length - next) = l
  by_cases hc : need ≤ l
  · have hp : next + l - (l - need) = next + need := by omega
    rw [hp, ← List.drop_drop, List.drop_take, List.take_eq_take_iff, List.length_drop,
      List.length_drop]
    omega
  · have h0 : l - need = 0 := by omega
    rw [h0, List.take_zero, List.drop_eq_nil_of_le]
    simp only [List.length_take, List.length_drop]
    omega

/-- A cursor that agrees with the content gives its next bytes, moves past them
    and goes on to agree with it. -/
theorem Agrees.read {c : Cursor} {content : Bytes} (h : c.Agrees content) (n : Nat) :
    (c.read content n).1 = (content.drop c.position).take n ∧
      (c.read content n).2.Agrees content ∧
      (c.read content n).2.position = c.position + (c.read content n).1.length := by
  have hdrop := h.drop_position
  have hpos : c.position + c.ahead.length = c.next := by
    have := h.1
    simp only [position]
    omega
  unfold Cursor.read
  split
  · next hn =>
    refine ⟨by rw [hdrop, List.take_append_of_le_length hn], ⟨?_, ?_⟩, ?_⟩
    · simp only [List.length_drop]; omega
    · have hp : c.next - (c.ahead.length - n) = c.position + n := by omega
      simp only [position, List.length_drop] at hp hdrop ⊢
      rw [hp, ← List.drop_drop, hdrop, List.drop_append_of_le_length hn, ← List.length_drop,
        List.take_left]
    · simp only [position, List.length_drop, List.length_take]; omega
  · next hn =>
    have hle : n - c.ahead.length ≤ max (n - c.ahead.length) blockSize := Nat.le_max_left _ _
    refine ⟨?_, ⟨?_, drop_take_drop ..⟩, ?_⟩
    · simp only [hdrop, List.take_append, List.take_take, Nat.min_eq_left hle]
      rw [List.take_of_length_le (show c.ahead.length ≤ n by omega)]
    · simp only [List.length_drop]; omega
    · simp only [position, List.length_append, List.length_take, List.length_drop]
      omega

end Cursor

end ConsensusCore
