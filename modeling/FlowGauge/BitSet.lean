import FlowGauge.Word

/-!
# Bit sets

A bit set holds small natural numbers as the bits of one natural number. It has a capacity:
insertion and removal ignore indices from the capacity on, and membership denies them. Sets of
different capacity can be combined; storage is rounded up to whole 64-bit words, and a union takes
over every bit that lies within the words of the receiving set.
-/

namespace FlowGauge

/-- A set of small natural numbers. -/
structure BitSet where
  /-- How many indices the set is meant for. -/
  capacity : Nat
  /-- Bit `i` is set when `i` is stored. -/
  bits : Nat := 0
deriving DecidableEq, Repr

namespace BitSet

/-- The empty set for indices below `capacity`. -/
def empty (capacity : Nat) : BitSet :=
  { capacity }

/-- The number of stored bits: the capacity rounded up to whole words. -/
def width (s : BitSet) : Nat :=
  64 * ((s.capacity + 63) / 64)

/-- Whether an index is in the set. -/
def contains (s : BitSet) (i : Nat) : Bool :=
  i < s.capacity && s.bits.testBit i

/-- Add an index below the capacity. -/
def insert (s : BitSet) (i : Nat) : BitSet :=
  if i < s.capacity then { s with bits := s.bits ||| 1 <<< i } else s

/-- Remove an index below the capacity. -/
def erase (s : BitSet) (i : Nat) : BitSet :=
  if i < s.capacity then { s with bits := s.bits ^^^ (s.bits &&& 1 <<< i) } else s

/-- Add what another set stores within the words of this one. -/
def union (s t : BitSet) : BitSet :=
  { s with bits := s.bits ||| t.bits % Word.bound s.width }

/-- Remove what another set stores. -/
def difference (s t : BitSet) : BitSet :=
  { s with bits := s.bits ^^^ (s.bits &&& t.bits) }

/-- The stored indices in ascending order. -/
def toList (s : BitSet) : List Nat :=
  (List.range s.width).filter s.bits.testBit

/-- The number of stored indices. -/
def size (s : BitSet) : Nat :=
  s.toList.length

/-- Whether nothing is stored. -/
def isEmpty (s : BitSet) : Bool :=
  s.bits == 0

/-- The set of the given indices that lie below the capacity. -/
def ofList (capacity : Nat) (indices : List Nat) : BitSet :=
  indices.foldl insert (empty capacity)

/-- The stored indices in braces. -/
def text (s : BitSet) : String :=
  "\x7b" ++ ", ".intercalate (s.toList.map toString) ++ "\x7d"

/-! ### Reports of changes -/

/-- Whether an insertion adds its index. -/
def adds (s : BitSet) (i : Nat) : Bool :=
  i < s.capacity && !s.bits.testBit i

/-- Whether a union adds a bit. -/
def grows (s t : BitSet) : Bool :=
  (s.union t).bits != s.bits

/-- Whether a difference takes a bit away. -/
def shrinks (s t : BitSet) : Bool :=
  (s.difference t).bits != s.bits

/-! ### Membership after each operation -/

theorem contains_insert (s : BitSet) (i j : Nat) :
    (s.insert i).contains j = (s.contains j || (decide (j < s.capacity) && j == i)) := by
  unfold insert contains
  split
  · next h =>
    by_cases hj : j < s.capacity
    · by_cases hij : j = i
      · simp [hij, h, Nat.testBit_or, Nat.one_shiftLeft]
      · simp [hij, Ne.symm hij, Nat.testBit_or, Nat.one_shiftLeft]
    · simp [hj]
  · next h =>
    by_cases hij : j = i
    · subst hij; simp [h]
    · simp [hij]

theorem contains_difference (s t : BitSet) (i : Nat) :
    (s.difference t).contains i = (s.contains i && !t.bits.testBit i) := by
  unfold difference contains
  simp [Nat.testBit_xor, Nat.testBit_and]
  cases s.bits.testBit i <;> cases t.bits.testBit i <;> simp

end BitSet

end FlowGauge
