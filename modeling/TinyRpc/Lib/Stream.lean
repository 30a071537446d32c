import Mathlib.Data.List.Basic
import Mathlib.Tactic.Common

/-!
# Loops over an endless stream of results

A loop asks for one result after the other, and leaves at some of them. On a
stream it returns when one of the results is such a one.
-/

namespace TinyRpc.Lib

variable {σ ρ α : Type}

/-- The first results of a stream. -/
def first (rts : Nat → ρ) (n : Nat) : List ρ := (List.range n).map rts

namespace Loops

variable {loop : σ → List ρ → Option α} {I : σ → Prop} {possible ends : ρ → Prop}

end Loops

end TinyRpc.Lib
