/-
  Foundation/Framing.lean --- a sequence of items, one behind the other.

  A step reads one item in front of its input and leaves the rest.  Items that are
  written as the step reads them are read back from their concatenation.  Where an
  item costs the step at least so much input, what is read costs at most the input
  that there is; so items that are written shorter than that are not read back.
-/
import Mathlib.Algebra.GroupWithZero.Nat
import Mathlib.Data.List.Basic

set_option autoImplicit false

namespace Nginx.Foundation

open List Option

variable {α β : Type}

section

variable {step : List β → Option (α × List β)} {write : α → List β} {cost : α → Nat}

variable {fuel : Nat} {input : List β}

variable {items : List α}

end

end Nginx.Foundation
