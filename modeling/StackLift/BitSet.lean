/-!
# Bit sets

Sets of indices below a fixed `capacity`, packed into 64-bit words. Blocks keep the loops around
them in such sets, and liveness keeps the live slots of every block.

Words past the capacity do not exist, and no operation sets a padding bit of the last word.
`insert`, `erase`, `union` and `difference` are total. The forms with a question mark also say
whether the request made sense: the index has to be below the capacity, and two sets that are
combined need the same capacity.
-/
namespace StackLift

structure BitSet where
  capacity : Nat
  words : Array UInt64
deriving DecidableEq, Repr, Inhabited

namespace BitSet

def empty (capacity : Nat) : BitSet :=
  ⟨capacity, Array.replicate ((capacity + 63) / 64) 0⟩

/-- The word with only bit `i % 64` set. -/
def mask (i : Nat) : UInt64 := 1 <<< UInt64.ofNat (i % 64)

def word (s : BitSet) (i : Nat) : UInt64 := s.words[i]?.getD 0

def contains (s : BitSet) (i : Nat) : Bool :=
  decide (i < s.capacity) && s.word (i / 64) &&& mask i != 0

def insert (s : BitSet) (i : Nat) : BitSet :=
  if i < s.capacity then { s with words := s.words.modify (i / 64) (· ||| mask i) } else s

def erase (s : BitSet) (i : Nat) : BitSet :=
  if i < s.capacity then { s with words := s.words.modify (i / 64) (· &&& ~~~mask i) } else s

def insert? (s : BitSet) (i : Nat) : Option BitSet :=
  if i < s.capacity then some (s.insert i) else none

def erase? (s : BitSet) (i : Nat) : Option BitSet :=
  if i < s.capacity then some (s.erase i) else none

def isEmpty (s : BitSet) : Bool := s.words.all (· == 0)

/-- The number of set bits of one word. -/
def onesIn (w : UInt64) : Nat := (List.range 64).countP fun i => w &&& mask i != 0

def count (s : BitSet) : Nat := s.words.foldl (fun n w => n + onesIn w) 0

/-- A place in a set: a word, and a bit of it. -/
structure Cursor where
  word : Nat := 0
  bit : Nat := 0
deriving DecidableEq, Repr, Inhabited

/-- The first member from the cursor on, and the place behind it. -/
def next? (s : BitSet) (c : Cursor) : Option (Nat × Cursor) :=
  if c.word < s.words.size then
    if c.bit < 64 then
      let i := 64 * c.word + c.bit
      if s.capacity ≤ i then none
      else if s.word c.word &&& mask c.bit != 0 then some (i, ⟨c.word, c.bit + 1⟩)
      else s.next? ⟨c.word, c.bit + 1⟩
    else s.next? ⟨c.word + 1, 0⟩
  else none
termination_by 65 * (s.words.size - c.word) + (64 - c.bit)

/-- The members in ascending order. -/
def toList (s : BitSet) : List Nat := (List.range s.capacity).filter s.contains

def union (s t : BitSet) : BitSet :=
  { s with words := s.words.zipWith (· ||| ·) t.words }

def difference (s t : BitSet) : BitSet :=
  { s with words := s.words.zipWith (fun a b => a &&& ~~~b) t.words }

def isSubset (s t : BitSet) : Bool :=
  (s.words.zipWith (fun a b => a &&& ~~~b) t.words).all (· == 0)

def isStrictSubset (s t : BitSet) : Bool := s.isSubset t && s != t

/-- The union, and whether it added anything. -/
def union? (s t : BitSet) : Option (Bool × BitSet) :=
  if s.capacity = t.capacity then some (s.union t != s, s.union t) else none

/-- What is left of `s` without `t`, and whether anything was taken away. -/
def difference? (s t : BitSet) : Option (Bool × BitSet) :=
  if s.capacity = t.capacity then some (s.difference t != s, s.difference t) else none

def isSubset? (s t : BitSet) : Option Bool :=
  if s.capacity = t.capacity then some (s.isSubset t) else none

def isStrictSubset? (s t : BitSet) : Option Bool :=
  if s.capacity = t.capacity then some (s.isStrictSubset t) else none

/-- The members in braces. -/
def text (s : BitSet) : String :=
  "\x7b" ++ ", ".intercalate (s.toList.map toString) ++ "\x7d"

end BitSet

end StackLift
