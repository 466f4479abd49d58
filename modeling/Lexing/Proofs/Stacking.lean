import Lexing.Proofs.Fusion

/-! A text on the lines below another one. Unless a literal is left open in the upper text, a line feed ends whatever
stands before it, so the two texts have the same tokens and the same faults as each has alone; those of the lower
text are only some lines further down. -/

namespace Lexing

def Position.down (lines : Nat) (p : Position) : Position := { p with line := p.line + lines }

def Token.down (lines : Nat) (t : Token) : Token := { t with start := t.start.down lines }

/-- A diagnostic of a text that stands behind so many characters, all of them on lines of their own. -/
def Diagnostic.down (characters lines : Nat) (d : Diagnostic) : Diagnostic :=
  { d with offset := d.offset + characters, start := d.start.down lines }

/-- How many lines further down a text stands that is written below the other. -/
def linesOver (upper : String) : Nat := 1 + upper.toList.count '\n'

/-- Two texts, one below the other, that are scanned as each alone. Which blanks stand between tokens, and so which
index the last token has, is left aside. -/
structure Stacked (upper lower : String) : Prop where
  tokens : Token.dropWhitespace (tokenize (upper ++ "\n" ++ lower)) = Token.dropWhitespace (tokenize upper) ++
    (Token.dropWhitespace (tokenize lower)).map (Token.down (linesOver upper))
  diagnostics : (analyze (upper ++ "\n" ++ lower)).diagnostics.map Diagnostic.unindexed =
    ((analyze upper).diagnostics ++
      (analyze lower).diagnostics.map (Diagnostic.down (upper.length + 1) (linesOver upper))).map Diagnostic.unindexed

/-- From the first column on, a shift leaves columns as they are. -/
theorem Position.shift_lineStart (lines : Nat) (p : Position) : shift ⟨1 + lines, 1⟩ p = p.down lines := by
  have hline : p.line + (1 + (lines : Int) - 1) = p.line + lines := by omega
  have hcolumn : p.column + (1 - 1) = p.column := Int.add_zero _
  simp only [shift, down, hline, hcolumn, ite_self]

theorem advance_linesOver (upper : String) :
    Position.start.advance (upper.toList ++ ['\n']) = ⟨1 + linesOver upper, 1⟩ := by
  have hline : (Position.start.advance upper.toList).line = 1 + upper.toList.count '\n' := by
    rw [← Position.jump_eq_advance, Position.line_jump]
    rfl
  rw [Position.advance_append, Position.advance_cons, Position.after_lineFeed, hline, Position.advance_nil, linesOver]
  exact congrArg (Position.mk · 1) (by omega)

theorem pieces_stacked {upper : String} (lower : String)
    (h : ∀ d ∈ (analyze upper).diagnostics, d.kind ≠ .unterminatedString) :
    pieces (upper ++ "\n" ++ lower).toList = fuse (pieces upper.toList ++ Piece.lineFeed :: pieces lower.toList) := by
  have hlower : Loose (Piece.lineFeed :: pieces lower.toList) :=
    .cons Piece.lineFeed_solid (fun hblank => absurd rfl hblank) (parted_pieces _).loose
  have hloose : Loose (pieces upper.toList ++ Piece.lineFeed :: pieces lower.toList) := by
    apply Loose.append (parted_pieces upper.toList) hlower
    intro p hp hblank
    rw [List.flatMap_cons]
    apply Piece.endsBefore_lineFeed _ hblank
    rintro text rfl
    obtain ⟨d, hd, hkind⟩ := (unterminated_iff upper).mpr ⟨text, List.mem_of_getLast? hp⟩
    exact h d hd hkind
  rw [← hloose.pieces_eq, List.flatMap_append, List.flatMap_cons, pieces_text, pieces_text, String.toList_append,
    String.toList_append, List.append_assoc]
  rfl

/-- Pieces behind a text and a line feed have the tokens that they have alone, further down. -/
theorem tokensFrom_below (upper : String) (ps : List Piece) :
    tokensFrom (Position.start.advance (upper.toList ++ ['\n'])) ps =
      (tokensFrom .start ps).map (Token.down (linesOver upper)) := by
  rw [advance_linesOver, tokensFrom_eq_shift]
  apply List.map_congr_left
  intro t _
  rw [Token.shift, Position.shift_lineStart]
  rfl

theorem faultsFrom_below (upper : String) (ps : List Piece) :
    faultsFrom (upper.length + 1) (Position.start.advance (upper.toList ++ ['\n'])) ps =
      (faultsFrom 0 .start ps).map fun d => (d.down (upper.length + 1) (linesOver upper)).unindexed := by
  rw [advance_linesOver, faultsFrom_eq_shift]
  apply List.map_congr_left
  intro d _
  rw [Position.shift_lineStart]
  rfl

theorem dropWhitespace_map {f : Token → Token} (ts : List Token) (h : ∀ t, (f t).kind = t.kind) :
    Token.dropWhitespace (ts.map f) = (Token.dropWhitespace ts).map f := by
  rw [Token.dropWhitespace, Token.dropWhitespace, List.filter_map]
  congr 1
  apply List.filter_congr
  intro t _
  rw [Function.comp_apply, h]

/-- A line feed parts two texts, unless it stands in a literal that the upper one leaves open. -/
theorem stacked_of_closed {upper : String} (lower : String)
    (h : ∀ d ∈ (analyze upper).diagnostics, d.kind ≠ .unterminatedString) : Stacked upper lower := by
  have hpieces := pieces_stacked lower h
  constructor
  · rw [tokenize_of_pieces hpieces, dropWhitespace_fuse, tokensFrom_append, pieces_text,
      Token.dropWhitespace_append, tokensFrom_cons _ _ rfl, Token.dropWhitespace_cons_of_eq _ rfl,
      ← Position.advance_append]
    change _ ++ Token.dropWhitespace (tokensFrom (Position.start.advance (upper.toList ++ ['\n'])) _) = _
    have hmap := dropWhitespace_map (f := Token.down (linesOver upper)) (tokensFrom .start (pieces lower.toList))
      fun _ => rfl
    rw [tokensFrom_below, hmap, ← tokenize_eq upper, ← tokenize_eq lower]
  · rw [faults_of_pieces hpieces, faultsFrom_fuse, faultsFrom_append, pieces_text, String.length_toList, Nat.zero_add,
      ← faults_eq upper, List.map_append, List.map_map]
    congr 1
    change faultsFrom (upper.length + 1) ((Position.start.advance upper.toList).advance ['\n']) _ = _
    rw [← Position.advance_append, faultsFrom_below, ← faults_eq lower, List.map_map]
    rfl

/-- A literal over two lines, a dropped character and a comment, above blanks, a dropped character and an open
literal. -/
theorem stacked_below_comment :
    (∀ d ∈ (analyze "'x\n' ! //y").diagnostics, d.kind ≠ .unterminatedString) ∧
    Stacked "'x\n' ! //y" " &\n\"z" ∧
    Token.dropWhitespace (tokenize "'x\n' ! //y\n &\n\"z") =
      [⟨.string, "'x\n'", ⟨1, 1⟩⟩, ⟨.comment, "//y", ⟨2, 5⟩⟩, ⟨.string, "\"z", ⟨4, 1⟩⟩] := by
  have hclosed : ∀ d ∈ (analyze "'x\n' ! //y").diagnostics, d.kind ≠ .unterminatedString := by decide +kernel
  have hstacked := stacked_of_closed " &\n\"z" hclosed
  have hlines : Token.dropWhitespace (tokenize "'x\n' ! //y") ++
      (Token.dropWhitespace (tokenize " &\n\"z")).map (Token.down (linesOver "'x\n' ! //y")) =
        [⟨.string, "'x\n'", ⟨1, 1⟩⟩, ⟨.comment, "//y", ⟨2, 5⟩⟩, ⟨.string, "\"z", ⟨4, 1⟩⟩] := by decide +kernel
  exact ⟨hclosed, hstacked, hstacked.tokens.trans hlines⟩

end Lexing
