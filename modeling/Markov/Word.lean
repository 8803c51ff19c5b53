/-!
# Machine words

State and choice indices are 64-bit words, and the integers of a model are
signed 64-bit words.  Both are held here as unbounded numbers; an operation
that would leave the word is detected by the bounds below.
-/

namespace Markov.Word

/-- The first number that is no index. -/
def limit : Nat := UInt64.size

/-- The first number that is no signed word. -/
def signedLimit : Nat := limit / 2

/-- An index of a table. -/
def isIndex (n : Nat) : Bool := n < limit

/-- A signed word. -/
def isInteger (i : Int) : Bool := -(signedLimit : Int) ≤ i && i < signedLimit

/-- The most rows that a table can be laid out with. -/
def maxRows : Nat := (signedLimit - 1) / 24

/-- The most words that a vector can be laid out with. -/
def maxWords : Nat := (signedLimit - 1) / 8

/-- The signed word with the same bits as an index. -/
def toInteger (n : Nat) : Int := Int.bmod n limit

end Markov.Word
