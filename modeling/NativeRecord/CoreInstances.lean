/-!
# Powers and zeros of the core library

The powers of numbers and the zero that a sum starts at come from the core library, and where an
algebraic hierarchy is imported they can also be found through its monoids.  The two ways lead to
the same numbers but not to the same expression, so that a lemma about one of them need not rewrite
the other.  Inside this library the instances of the core library come first, whatever else a module
imports, and all statements speak of the same powers and zeros.  They are scoped: code that uses the
library keeps the choice of its own.
-/

set_option autoImplicit false
namespace NativeRecord

attribute [scoped instance (10000)] instPowNat Zero.ofOfNat0

end NativeRecord
