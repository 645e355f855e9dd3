set_option autoImplicit false

namespace OrderedChoice

/-- Words are the natural numbers below this bound, two to the 64. -/
def wordBound : Nat := 0x10000000000000000

def signedBound : Nat := 0x8000000000000000

end OrderedChoice
