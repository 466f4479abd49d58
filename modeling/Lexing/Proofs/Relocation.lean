import Lexing.Proofs.Diagnostics

/-! A text behind another one. What is recorded about it is what is recorded about the text alone, with every offset,
position and index moved by what stands before it. -/

namespace Lexing

/-- The position `p` of a text that begins at `origin`. Only its first line is moved to the right. -/
def Position.shift (origin p : Position) : Position :=
  ⟨p.line + (origin.line - 1), if p.line = 1 then p.column + (origin.column - 1) else p.column⟩

def Token.shift (origin : Position) (t : Token) : Token := { t with start := origin.shift t.start }

/-- The index of a token that stands behind so many others; where there is none, that of the last of those. -/
def indexBehind (tokens : Nat) : Option Int → Option Int
  | some i => some (i + tokens)
  | none => lastIndex tokens

/-- A diagnostic of a text that begins at `origin`, behind so many characters and so many tokens. -/
def Diagnostic.shift (characters : Nat) (origin : Position) (tokens : Nat) (d : Diagnostic) : Diagnostic :=
  ⟨d.kind, d.offset + characters, origin.shift d.start, indexBehind tokens d.lastToken⟩

def Place.shift (s t : Place) : Place := ⟨s.offset + t.offset, s.position.shift t.position, s.index + t.index⟩

def Span.shift (s : Place) (x : Span) : Span := ⟨s.offset + x.offset, x.token.shift s.position⟩

namespace Position

theorem shift_of_first (origin : Position) {p : Position} (h : p.line = 1) :
    origin.shift p = ⟨origin.line, p.column + (origin.column - 1)⟩ := by
  rw [shift, if_pos h, h]
  exact congrArg (mk · _) (by omega)

theorem shift_of_later (origin : Position) {p : Position} (h : p.line ≠ 1) :
    origin.shift p = ⟨p.line + (origin.line - 1), p.column⟩ := by
  rw [shift, if_neg h]

theorem shift_start (origin : Position) : origin.shift start = origin := by
  rw [shift_of_first origin rfl]
  exact congrArg (mk origin.line) (by simp only [start]; omega)

theorem line_le_after (p : Position) (c : Char) : p.line ≤ (p.after c).line := by
  by_cases hc : c = '\n'
  · rw [hc, after_lineFeed]
    exact Int.le_add_one (Int.le_refl _)
  · rw [after_of_ne p hc]
    exact Int.le_refl _

theorem line_le_advance (p : Position) (cs : List Char) : p.line ≤ (p.advance cs).line := by
  induction cs generalizing p with
  | nil => exact Int.le_refl _
  | cons c cs ih => exact Int.le_trans (line_le_after p c) (ih (p.after c))

/-- A line feed leads to a line that is not the first, and so to a column that stays. -/
theorem shift_after (origin : Position) {p : Position} (c : Char) (h : 1 ≤ p.line) :
    origin.shift (p.after c) = (origin.shift p).after c := by
  by_cases hc : c = '\n'
  · have hline : p.line + 1 ≠ 1 := by omega
    rw [hc, after_lineFeed, after_lineFeed, shift_of_later origin hline, shift]
    exact congrArg (mk · 1) (by dsimp only; omega)
  · rw [after_of_ne p hc, after_of_ne _ hc]
    by_cases hfirst : p.line = 1
    · rw [shift_of_first origin hfirst, shift_of_first origin (p := p.right) hfirst]
      exact congrArg (mk origin.line) (by simp only [right]; omega)
    · rw [shift_of_later origin hfirst, shift_of_later origin (p := p.right) hfirst]
      rfl

theorem shift_advance (origin : Position) {p : Position} (cs : List Char) (h : 1 ≤ p.line) :
    origin.shift (p.advance cs) = (origin.shift p).advance cs := by
  induction cs generalizing p with
  | nil => rfl
  | cons c cs ih => rw [advance_cons, advance_cons, ih (Int.le_trans h (line_le_after p c)), shift_after origin c h]

end Position

namespace Place

theorem shift_start (s : Place) : s.shift start = s := by
  obtain ⟨offset, position, index⟩ := s
  exact congrArg (mk offset · index) position.shift_start

theorem shift_next (s : Place) {t : Place} (p : Piece) (h : 1 ≤ t.position.line) :
    s.shift (t.next p) = (s.shift t).next p := by
  simp only [shift, next, Position.shift_advance _ _ h, Nat.add_assoc]

end Place

theorem places_shift (s : Place) {t : Place} (ps : List Piece) (h : 1 ≤ t.position.line) :
    places (s.shift t) ps = (places t ps).map fun x => (s.shift x.1, x.2) := by
  induction ps generalizing t with
  | nil => rfl
  | cons p ps ih =>
      have hnext : 1 ≤ (t.next p).position.line := Int.le_trans h (Position.line_le_advance _ _)
      rw [places, places, List.map_cons, ← s.shift_next p h, ih hnext]

theorem places_eq_shift (s : Place) (ps : List Piece) :
    places s ps = (places .start ps).map fun x => (s.shift x.1, x.2) := by
  have h := places_shift s (t := .start) ps (Int.le_refl 1)
  rwa [s.shift_start] at h

theorem span?_shift (s t : Place) (p : Piece) : span? (s.shift t, p) = (span? (t, p)).map (Span.shift s) := by
  cases p <;> rfl

theorem lastIndex_add (m n : Nat) : lastIndex (m + n) = indexBehind m (lastIndex n) := by
  cases n with
  | zero => rfl
  | succ n =>
      rw [lastIndex, lastIndex, if_neg (by omega), if_neg (Nat.succ_ne_zero n)]
      exact congrArg some (by omega)

theorem diagnostic?_shift (s t : Place) (p : Piece) :
    diagnostic? (s.shift t, p) = (diagnostic? (t, p)).map (Diagnostic.shift s.offset s.position s.index) := by
  have hoffset : ((s.offset + t.offset : Nat) : Int) = t.offset + s.offset := by omega
  cases p with
  | token kind text => rfl
  | openLiteral text =>
      have hindex : ((s.index + t.index : Nat) : Int) = t.index + s.index := by omega
      simp only [diagnostic?, Place.shift, Option.map_some, Diagnostic.shift, indexBehind, hoffset, hindex]
  | stray c =>
      change some (Diagnostic.mk _ _ _ (lastIndex (s.index + t.index))) =
        some (Diagnostic.mk _ _ _ (indexBehind s.index (lastIndex t.index)))
      rw [lastIndex_add]
      simp only [Place.shift, hoffset]

theorem spans_places (s : Place) (ps : List Piece) :
    (places s ps).filterMap span? = ((places .start ps).filterMap span?).map (Span.shift s) := by
  rw [places_eq_shift, List.filterMap_map, List.map_filterMap]
  congr 1
  funext x
  exact span?_shift s x.1 x.2

theorem diagnostics_places (s : Place) (ps : List Piece) :
    (places s ps).filterMap diagnostic? =
      ((places .start ps).filterMap diagnostic?).map (Diagnostic.shift s.offset s.position s.index) := by
  rw [places_eq_shift, List.filterMap_map, List.map_filterMap]
  congr 1
  funext x
  exact diagnostic?_shift s x.1 x.2

end Lexing
