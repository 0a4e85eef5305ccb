/-!
# Ways to read a provider

A strict reading evaluates a provider for good: it may finalize properties that ask for it. A
lenient one only looks.
-/

namespace ProviderGraph

inductive Reading where
  | strict
  | lenient
deriving DecidableEq

def Reading.name : Reading → String
  | .strict => "strict"
  | .lenient => "lenient"

end ProviderGraph
