/-!
# Powers and sums

Powers of natural numbers and of integers, and the sum of a list of them, are those of the core
library. A library of algebra brings powers and a zero of its own, which agree with them; inside
the namespace of this library they are not taken, so that a definition means the same with and
without such a library.
-/

namespace Octets

attribute [scoped instance (high)] instPowNat Zero.ofOfNat0

-- Where the exponent is a numeral, the default decides and not the instance.
attribute [default_instance high + 1] instPowNat

end Octets
