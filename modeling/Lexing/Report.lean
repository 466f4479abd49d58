import Lexing.Pass

/-! What a scan of a text yields: its tokens, its diagnostics, and the events for the log. -/

namespace Lexing

structure Report where
  tokens : List Token
  diagnostics : List Diagnostic
  events : List Event

/-- The report on a text. A pass that reports closes its log with the totals. -/
def Report.of (mode : Mode) (source : String) : Report :=
  let cs := source.toList
  let s := Pass.ofText mode cs
  let totals :=
    match mode with
    | .quiet => []
    | .reporting => [Event.finished cs.length s.tokens.size s.diagnostics.size]
  ⟨s.tokens.toList, s.diagnostics.toList, s.events.toList ++ totals⟩

/-- The tokens of a text, in order. A character that begins no token is left out, and a literal that is
never closed runs to the end. A text is a sequence of Unicode scalar values, so no surrogate stands alone in one. -/
def tokenize (source : String) : List Token := (Report.of .quiet source).tokens

/-- The report on a text of scalar values: the same tokens, with a diagnostic for each character left out and for a
literal left open. -/
def analyze (source : String) : Report := Report.of .reporting source

/-- A pass that reports finds the same tokens as one that does not. -/
theorem Report.tokens_of (mode : Mode) (source : String) :
    (Report.of mode source).tokens = tokenize source :=
  congrArg Array.toList (Pass.foldl_step_tokens mode _ rfl rfl)

end Lexing
