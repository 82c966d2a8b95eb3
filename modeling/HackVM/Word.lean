/-!
# Machine words

The machine computes with sixteen-bit words. The same bits are read as an address (unsigned)
or as a value (two's complement).
-/

namespace HackVM

abbrev Word := BitVec 16

/-- Addresses in an instruction have fifteen bits. -/
def maxAddress : Nat := 32767

/-- The largest number that a word holds. -/
def maxWord : Nat := 65535

end HackVM
