/-
Constraints: formulas with an explanation.

The formula is what a constraint says; the explanation tells a reader why it was
recorded, and where.  Two constraints with the same formula are the same constraint.
-/
import PointerKinds.Location
import PointerKinds.Constraint.Atom
import PointerKinds.Constraint.Formula

namespace PointerKinds

/-- Why something was recorded, and where. -/
structure Explanation where
  /-- Without a better reason, this one. -/
  reason : String := "DEFAULT"
  location : Option Location := none
deriving DecidableEq

namespace Explanation

/-- Whether nothing better than the default reason is known. -/
def isDefault (e : Explanation) : Bool := e.reason == ({} : Explanation).reason

/-- The later explanation, if it is the first with a reason of its own. -/
def orLater (e later : Explanation) : Explanation :=
  if e.isDefault && !later.isDefault then later else e

end Explanation

/-- A formula and why it was recorded. -/
structure Constraint where
  formula : Formula
  why : Explanation := {}
deriving DecidableEq

/-- A constraint without a reason of its own takes the explanation of a later one. -/
def Constraint.explainedBy (c later : Constraint) : Constraint :=
  { c with why := c.why.orLater later.why }

end PointerKinds
