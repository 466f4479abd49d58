import Lexing.Diagnostic
import Lexing.Event
import Lexing.Piece

/-! One pass over the pieces of a text: what it has met so far, and where it stands. -/

namespace Lexing

/-- Whether a pass keeps what goes wrong or stays silent about it. -/
inductive Mode
  | quiet | reporting
deriving DecidableEq

structure Pass where
  offset : Nat
  position : Position
  tokens : Array Token
  diagnostics : Array Diagnostic
  events : Array Event

namespace Pass

def start : Pass := ⟨0, .start, #[], #[], #[]⟩

def lastToken (s : Pass) : Option Int :=
  if s.tokens.size = 0 then none else some (s.tokens.size - 1)

def advance (s : Pass) (cs : List Char) : Pass :=
  { s with offset := s.offset + cs.length, position := s.position.jump cs }

/-- Moves past a character that is left out. It is no line feed, which is a blank. -/
def skip (s : Pass) : Pass :=
  { s with offset := s.offset + 1, position := s.position.right }

def push (s : Pass) (kind : Token.Kind) (text : List Char) : Pass :=
  { s with tokens := s.tokens.push ⟨kind, String.ofList text, s.position⟩ }

def note (mode : Mode) (kind : Diagnostic.Kind) (event : Event) (s : Pass) : Pass :=
  match mode with
  | .quiet => s
  | .reporting =>
      { s with
        diagnostics := s.diagnostics.push ⟨kind, s.offset, s.position, s.lastToken⟩
        events := s.events.push event }

/-- Takes one piece. A literal left open is noted after its token, and so names itself as the last one. -/
def step (mode : Mode) (s : Pass) : Piece → Pass
  | .token kind text => (s.push kind text).advance text
  | .openLiteral text =>
      ((s.push .string text).note mode .unterminatedString (.leftOpen s.position)).advance text
  | .stray c => (s.note mode .unrecognizedCharacter (.dropped c s.position)).skip

def ofText (mode : Mode) (cs : List Char) : Pass := (pieces cs).foldl (step mode) start

/-- Whether anything is noted does not matter to the position. -/
theorem step_position {s t : Pass} (mode : Mode) (p : Piece) (hp : s.position = t.position) :
    (s.step mode p).position = (t.step .quiet p).position := by
  cases mode <;> cases p <;> simp [step, push, note, advance, skip, hp]

/-- What is noted decides nothing about the tokens. -/
theorem step_tokens {s t : Pass} (mode : Mode) (p : Piece) (ht : s.tokens = t.tokens)
    (hp : s.position = t.position) :
    (s.step mode p).tokens = (t.step .quiet p).tokens := by
  cases mode <;> cases p <;> simp [step, push, note, advance, skip, ht, hp]

theorem foldl_step_tokens {s t : Pass} (mode : Mode) (ps : List Piece) (ht : s.tokens = t.tokens)
    (hp : s.position = t.position) :
    (ps.foldl (step mode) s).tokens = (ps.foldl (step .quiet) t).tokens := by
  induction ps generalizing s t with
  | nil => exact ht
  | cons p ps ih => exact ih (step_tokens mode p ht hp) (step_position mode p hp)

end Pass
end Lexing
