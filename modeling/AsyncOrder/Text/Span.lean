/-!
# Source spans
-/

namespace AsyncOrder

/-- Half-open range of byte offsets into a UTF-8 source text. -/
structure Span where
  start : Nat
  stop : Nat
deriving DecidableEq, Repr

end AsyncOrder
