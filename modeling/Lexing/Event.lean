import Lexing.Position
import Lexing.Text.Quoted

/-! What a scan writes to its log. -/

namespace Lexing

inductive Level
  | debug | info | warning
deriving DecidableEq

namespace Level

def name : Level → String
  | debug => "DEBUG"
  | info => "INFO"
  | warning => "WARNING"

def reaches (l threshold : Level) : Bool := rank threshold ≤ rank l
where
  rank : Level → Nat
    | debug => 0
    | info => 1
    | warning => 2

end Level

inductive Event
  | dropped (c : Char) (start : Position)
  | leftOpen (start : Position)
  | finished (characters tokens diagnostics : Nat)
deriving DecidableEq

namespace Event

/-- Nothing that a scan meets is worth more than the attention of a developer. -/
def level (_ : Event) : Level := .debug

/-- The text of an event. `shown` decides for a dropped character beyond ASCII whether it stands for itself. -/
def message (shown : Char → Bool) : Event → String
  | dropped c p =>
      "Dropping unrecognized character " ++ Text.quote shown c.toString ++ " at " ++ place p
  | leftOpen p => "Unterminated string literal starting at " ++ place p
  | finished characters tokens diagnostics =>
      "Scanned " ++ toString characters ++ " chars into " ++ toString tokens ++ " tokens, " ++
        toString diagnostics ++ " errors"
where
  place (p : Position) : String := toString p.line ++ ":" ++ toString p.column

end Event

def logLines (shown : Char → Bool) (threshold : Level) (es : List Event) : List (Level × String) :=
  (es.filter (·.level.reaches threshold)).map fun e => (e.level, e.message shown)

theorem logLines_debug (shown : Char → Bool) (es : List Event) :
    logLines shown .debug es = es.map fun e => (.debug, e.message shown) := by
  have h : ∀ e ∈ es, e.level.reaches .debug = true := fun _ _ => rfl
  rw [logLines, List.filter_eq_self.mpr h]
  rfl

theorem logLines_of_ne_debug (shown : Char → Bool) {threshold : Level} (es : List Event) (h : threshold ≠ .debug) :
    logLines shown threshold es = [] := by
  have h' : es.filter (·.level.reaches threshold) = [] := by
    apply List.filter_eq_nil_iff.mpr
    intro e _
    cases threshold with
    | debug => exact absurd rfl h
    | info => exact Bool.false_ne_true
    | warning => exact Bool.false_ne_true
  rw [logLines, h']
  rfl

end Lexing
