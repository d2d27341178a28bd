import Rds.Decimal.Layout
import Rds.Json.OfValue

namespace Rds.Json

/-- Numbers with a leading digit between the fifth decimal place and the sixteenth digit
are written without an exponent, and whole ones end in `.0`. A tie goes to the even
digit. -/
def numberLayout : Decimal.Layout := ⟨some (-5, 15), true, .toEven⟩

instance : Numerals := ⟨numberLayout.text⟩

end Rds.Json
