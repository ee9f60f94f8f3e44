/-!
# Bounded decimal text

Integers have no bound, but their decimal text has: a number of more than `digitLimit` digits is
neither written nor read.
-/

namespace BrainPiet.Text

/-- The most digits that a decimal text may have. -/
def digitLimit : Nat := 4300

/-- The least number with too many digits to be written. -/
def unwritableBound : Nat := Nat.pow 10 digitLimit

/-- The decimal text of an integer, unless it has too many digits. -/
def decimal? (n : Int) : Option String :=
  if n.natAbs < unwritableBound then some (toString n) else none

end BrainPiet.Text
