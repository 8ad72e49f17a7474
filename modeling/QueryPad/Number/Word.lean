-- Integers that fit into words of so many bits.
namespace QueryPad.Number

-- How many words there are.
def wordCount (bits : Nat) : Nat := Nat.pow 2 bits

-- The largest word without a sign.
def maxWord (bits : Nat) : Nat := wordCount bits - 1

def fitsUnsigned (bits : Nat) (n : Nat) : Bool := n < wordCount bits

def fitsSigned (bits : Nat) (n : Int) : Bool :=
  -(wordCount (bits - 1) : Int) ≤ n && n < wordCount (bits - 1)

end QueryPad.Number
