import Lexing.Report
import Lexing.Text.Printable
import Lexing.Wire.Message

/-! What the library leaves to the process that runs it: how deep it can follow values that nest, and which characters
beyond ASCII it shows as they are. -/

namespace Lexing.Runtime

/-- How deep a value that is skipped may nest. Of a thousand levels in all, what surrounds the value takes some. -/
def nestingLimit : Nat := 980

def decode {α : Type} [Wire.Record α] (bs : List UInt8) : Except Wire.Failure (List α) := Wire.decode nestingLimit bs

def failureMessage (failure : Wire.Failure) : String := failure.message Text.isPrintable

def logLines (threshold : Level) (report : Report) : List (Level × String) :=
  Lexing.logLines Text.isPrintable threshold report.events

end Lexing.Runtime
