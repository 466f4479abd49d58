import Lexing.Report
import Lexing.Proofs.Dispatch
import Lexing.Proofs.LineColumn

/-! Pieces in their places. All that a pass collects is a selection from them: the tokens and the diagnostics of
a text are two lists over the one list of its placed pieces. -/

namespace Lexing

def Piece.kind? : Piece → Option Token.Kind
  | token kind _ => some kind
  | openLiteral _ => some .string
  | stray _ => none

/-- Where a piece stands: its offset, its position, and how many tokens are before it. -/
structure Place where
  offset : Nat
  position : Position
  index : Nat

namespace Place

def start : Place := ⟨0, .start, 0⟩

def next (s : Place) (p : Piece) : Place :=
  ⟨s.offset + p.text.length, s.position.advance p.text, s.index + p.kind?.toList.length⟩

end Place

/-- Pieces, each with its place, where the first of them stands at `s`. -/
def places (s : Place) : List Piece → List (Place × Piece)
  | [] => []
  | p :: ps => (s, p) :: places (s.next p) ps

def placed (cs : List Char) : List (Place × Piece) := places .start (pieces cs)

structure Span where
  offset : Nat
  token : Token

/-- The token that a placed piece becomes, at its offset. -/
def span? (x : Place × Piece) : Option Span :=
  x.2.kind?.map fun kind => ⟨x.1.offset, kind, String.ofList x.2.text, x.1.position⟩

def diagnostic? : Place × Piece → Option Diagnostic
  | (_, .token ..) => none
  | (s, .openLiteral _) => some ⟨.unterminatedString, s.offset, s.position, some s.index⟩
  | (s, .stray _) =>
      some ⟨.unrecognizedCharacter, s.offset, s.position,
        if s.index = 0 then none else some (s.index - 1)⟩

theorem offset_foldl_next (s : Place) (ps : List Piece) :
    (ps.foldl Place.next s).offset = s.offset + (ps.flatMap Piece.text).length := by
  induction ps generalizing s with
  | nil => rfl
  | cons p ps ih =>
      rw [List.foldl_cons, ih, Place.next, List.flatMap_cons, List.length_append, Nat.add_assoc]

theorem position_foldl_next (s : Place) (ps : List Piece) :
    (ps.foldl Place.next s).position = s.position.advance (ps.flatMap Piece.text) := by
  induction ps generalizing s with
  | nil => rfl
  | cons p ps ih =>
      rw [List.foldl_cons, ih, Place.next, List.flatMap_cons, Position.advance_append]

theorem index_foldl_next (s : Place) (ps : List Piece) :
    (ps.foldl Place.next s).index = s.index + ((places s ps).filterMap span?).length := by
  induction ps generalizing s with
  | nil => rfl
  | cons p ps ih =>
      rw [List.foldl_cons, ih, places, List.filterMap_cons]
      cases hp : p.kind? with
      | none => simp [span?, Place.next, hp]
      | some kind =>
          simp only [span?, Place.next, hp, Option.map_some, List.length_cons, Option.toList_some, List.length_nil]
          omega

theorem places_append (s : Place) (ps qs : List Piece) :
    places s (ps ++ qs) = places s ps ++ places (ps.foldl Place.next s) qs := by
  induction ps generalizing s with
  | nil => rfl
  | cons p ps ih => exact congrArg (_ :: ·) (ih (s.next p))

/-- A placed piece stands after the pieces before it. -/
theorem mem_places {s : Place} {ps : List Piece} {x : Place × Piece} (h : x ∈ places s ps) :
    ∃ before after, ps = before ++ x.2 :: after ∧ x.1 = before.foldl Place.next s := by
  induction ps generalizing s with
  | nil => cases h
  | cons p ps ih =>
      cases h with
      | head => exact ⟨[], ps, rfl, rfl⟩
      | tail _ h =>
          obtain ⟨before, after, hps, hs⟩ := ih h
          exact ⟨p :: before, after, congrArg (p :: ·) hps, hs⟩

theorem mem_placed {cs : List Char} {x : Place × Piece} (h : x ∈ placed cs) :
    ∃ before after, cs = before ++ x.2.text ++ after ∧ x.1.offset = before.length ∧
      x.1.position = Position.start.advance before := by
  obtain ⟨before, after, hps, hs⟩ := mem_places h
  refine ⟨before.flatMap Piece.text, after.flatMap Piece.text, ?_, ?_, ?_⟩
  · rw [← pieces_text cs, hps, List.flatMap_append, List.flatMap_cons, List.append_assoc]
  · rw [hs, offset_foldl_next]
    exact Nat.zero_add _
  · rw [hs, position_foldl_next]
    rfl

/-- Induction along the rests that the pieces leave. -/
theorem pieces_induction {motive : List Char → Prop} (nil : motive [])
    (cons : ∀ c cs, motive (Piece.next c cs).2 → motive (c :: cs)) (cs : List Char) : motive cs := by
  match cs with
  | [] => exact nil
  | c :: cs => exact cons c cs (pieces_induction nil cons _)
termination_by cs.length
decreasing_by exact Piece.next_rest_lt c cs

/-- What holds of the first piece of every text holds of every piece. -/
theorem forall_mem_pieces {P : Piece → Prop} (h : ∀ c cs, P (Piece.next c cs).1) (cs : List Char) :
    ∀ p ∈ pieces cs, P p := by
  induction cs using pieces_induction with
  | nil =>
      intro p hp
      rw [pieces_nil] at hp
      cases hp
  | cons c cs ih =>
      intro p hp
      rw [pieces_cons] at hp
      cases hp with
      | head => exact h c cs
      | tail _ hp => exact ih p hp

/-- A line feed is a blank and never left out. -/
theorem next_ne_stray_lineFeed (c : Char) (cs : List Char) : (Piece.next c cs).1 ≠ .stray '\n' := by
  intro h
  have ht := Piece.next_text c cs
  rw [h] at ht
  obtain rfl : '\n' = c := (List.cons.inj ht).1
  rw [Piece.next_of_blank cs (by decide)] at h
  cases h

namespace Pass

def place (s : Pass) : Place := ⟨s.offset, s.position, s.tokens.size⟩

theorem step_place (mode : Mode) (s : Pass) {p : Piece} (h : p ≠ .stray '\n') :
    (s.step mode p).place = s.place.next p := by
  cases p with
  | token kind text =>
      simp [step, push, advance, place, Place.next, Piece.kind?, Piece.text, Position.jump_eq_advance]
  | openLiteral text =>
      cases mode <;>
        simp [step, push, note, advance, place, Place.next, Piece.kind?, Piece.text,
          Position.jump_eq_advance]
  | stray c =>
      have hc : c ≠ '\n' := fun e => h (congrArg _ e)
      cases mode <;>
        simp [step, note, skip, place, Place.next, Piece.kind?, Piece.text, Position.after_of_ne _ hc]

theorem step_tokens_toList (mode : Mode) (s : Pass) (p : Piece) :
    (s.step mode p).tokens.toList =
      s.tokens.toList ++ ((span? (s.place, p)).map (·.token)).toList := by
  cases mode <;> cases p <;> simp [step, push, note, advance, skip, place, span?, Piece.kind?, Piece.text]

theorem step_diagnostics_toList (s : Pass) (p : Piece) :
    (s.step .reporting p).diagnostics.toList =
      s.diagnostics.toList ++ (diagnostic? (s.place, p)).toList := by
  cases p <;> simp [step, push, note, advance, skip, place, diagnostic?, lastToken]

/-- A run collects piece by piece what its steps collect. -/
theorem foldl_step_collects {β : Type} {mode : Mode} (list : Pass → List β)
    (pick : Place × Piece → Option β)
    (hstep : ∀ s p, list (step mode s p) = list s ++ (pick (s.place, p)).toList)
    (s : Pass) {ps : List Piece} (h : ∀ p ∈ ps, p ≠ .stray '\n') :
    list (ps.foldl (step mode) s) = list s ++ (places s.place ps).filterMap pick := by
  induction ps generalizing s with
  | nil => exact (List.append_nil _).symm
  | cons p ps ih =>
      have hp := step_place mode s (h p (List.mem_cons_self ..))
      have hps : ∀ q ∈ ps, q ≠ .stray '\n' := fun q hq => h q (List.mem_cons_of_mem p hq)
      rw [List.foldl_cons, ih (s.step mode p) hps, hstep, hp, places, List.filterMap_cons, List.append_assoc]
      cases pick (s.place, p) <;> rfl

theorem foldl_step_place (mode : Mode) (s : Pass) {ps : List Piece} (h : ∀ p ∈ ps, p ≠ .stray '\n') :
    (ps.foldl (step mode) s).place = ps.foldl Place.next s.place := by
  induction ps generalizing s with
  | nil => rfl
  | cons p ps ih =>
      have hp := step_place mode s (h p (List.mem_cons_self ..))
      rw [List.foldl_cons, List.foldl_cons, ← hp]
      exact ih _ fun q hq => h q (List.mem_cons_of_mem p hq)

end Pass

def spans (cs : List Char) : List Span := (placed cs).filterMap span?

theorem Report.tokens_eq (mode : Mode) (source : String) :
    (Report.of mode source).tokens = (spans source.toList).map (·.token) := by
  have h := Pass.foldl_step_collects (fun s => s.tokens.toList)
    (fun x => (span? x).map (·.token)) (Pass.step_tokens_toList mode) Pass.start
    (forall_mem_pieces next_ne_stray_lineFeed source.toList)
  rw [spans, List.map_filterMap]
  exact h

theorem analyze_diagnostics (source : String) :
    (analyze source).diagnostics = (placed source.toList).filterMap diagnostic? :=
  Pass.foldl_step_collects (fun s => s.diagnostics.toList) diagnostic? Pass.step_diagnostics_toList
    Pass.start (forall_mem_pieces next_ne_stray_lineFeed source.toList)

end Lexing
