import NwScript.Flow.Table

/-!
# Positions

The first pass records the position of every instruction.  Positions must increase over the whole
program.
-/

namespace NwScript
namespace Positions

/-- Record the positions of consecutive instructions that follow position `previous`. -/
def recordFrom (program : Program) (previous : Option Nat) : List Nat → FlowPass Unit
  | [] => pure ()
  | command :: rest => do
      let position := program.position command
      match previous with
      | some earlier =>
          if position ≤ earlier then
            throw (.malformed (.outOfOrder command position earlier))
      | none => pure ()
      modify fun table => table.visit command position
      recordFrom program (some position) rest

/-- Record the positions of all instructions. -/
def record (program : Program) : FlowPass Unit :=
  recordFrom program none program.commandNumbers

end Positions
end NwScript
