/-! Signed words of 64 bits. -/

namespace Interleave

/-- Brings an integer into the range of signed 64-bit words. -/
def wrap (x : Int) : Int := x.bmod 0x10000000000000000

def IsWord (x : Int) : Prop := -0x8000000000000000 ≤ x ∧ x < 0x8000000000000000

instance (x : Int) : Decidable (IsWord x) := inferInstanceAs (Decidable (_ ∧ _))

end Interleave
