import Mathlib.Data.Rat.Floor
import SslAutoref.Lib.Rounding
import SslAutoref.Model.Evaluate

/-!
# The report

The three quotients `MergeEvaluations` prints of the counts, in exact arithmetic and as the
source computes them, with every result rounded to a `float` or a `double`. A quotient by zero
is zero here; the source gets a `float` that is no number.
-/

namespace SslAutoref

/-! ## Exact quotients -/

def Counts.precision (c : Counts) : ℚ :=
  (c.truePositives : ℚ) / ((c.truePositives : ℚ) + (c.falsePositives : ℚ))

def Counts.recall (c : Counts) : ℚ :=
  (c.truePositives : ℚ) / ((c.truePositives : ℚ) + (c.falseNegatives : ℚ))

def Counts.f1Score (c : Counts) : ℚ :=
  2 * c.precision * c.recall / (c.precision + c.recall)

/-! ## Floating point -/

/-- A `float`. The counts are `int`s, so no exponent here gets near its bounds. -/
def toFloat (x : ℚ) : ℚ := Rounding.nearest 24 x

def toDouble (x : ℚ) : ℚ := Rounding.nearest 53 x

/-- `static_cast<float>(right) / (static_cast<float>(right) + static_cast<float>(wrong))` -/
def floatQuotient (right wrong : Nat) : ℚ :=
  toFloat (toFloat right / toFloat (toFloat right + toFloat wrong))

def Counts.floatPrecision (c : Counts) : ℚ := floatQuotient c.truePositives c.falsePositives

def Counts.floatRecall (c : Counts) : ℚ := floatQuotient c.truePositives c.falseNegatives

/-- `2.0 * precision * recall / (precision + recall)`: the literal makes the product and the
quotient a `double`, and the sum is one of `float`s. -/
def floatF1 (p r : ℚ) : ℚ := toFloat (toDouble (toDouble (toDouble (2 * p) * r) / toFloat (p + r)))

def Counts.floatF1Score (c : Counts) : ℚ := floatF1 c.floatPrecision c.floatRecall

end SslAutoref
