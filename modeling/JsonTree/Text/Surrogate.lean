/-! Halves of a surrogate pair, by which sixteen-bit escapes reach the code points above `0xFFFF`. -/
namespace JsonTree.Surrogate

def isHigh (unit : UInt32) : Bool := 0xD800 ≤ unit && unit ≤ 0xDBFF

def isLow (unit : UInt32) : Bool := 0xDC00 ≤ unit && unit ≤ 0xDFFF

/-- Each half gives its low ten bits. The halves are not checked here. -/
def combine (high low : UInt32) : UInt32 :=
  (0x10000 : UInt32) + (((high &&& 0x3FF) <<< 10) ||| (low &&& 0x3FF))

end JsonTree.Surrogate
