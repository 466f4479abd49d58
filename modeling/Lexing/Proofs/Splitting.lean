import Lexing.Proofs.Adjacency
import Lexing.Proofs.Relocation

/-! Scanning a text in two parts. Cut where a token or a dropped character begins, a text has the tokens and the
diagnostics of its two parts, those of the second part moved behind the first. -/

namespace Lexing

/-- The offsets at which a scan of a text stands between two steps. -/
inductive Boundary (source : String) : Nat → Prop
  | token {xs gaps x} : Division source xs gaps → x ∈ xs → Boundary source x.offset
  | dropped {d} {o : Nat} : d ∈ (analyze source).dropped → d.offset = o → Boundary source o
  | stop : Boundary source source.length

/-- The report on a text whose second part begins behind so many characters, at `origin`. -/
structure Report.Joins (whole left right : Report) (characters : Nat) (origin : Position) : Prop where
  tokens : whole.tokens = left.tokens ++ right.tokens.map (Token.shift origin)
  diagnostics : whole.diagnostics =
    left.diagnostics ++ right.diagnostics.map (Diagnostic.shift characters origin left.tokens.length)

theorem tokens_of_pieces {source : String} {ps : List Piece} (h : pieces source.toList = ps) :
    (analyze source).tokens = ((places .start ps).filterMap span?).map (·.token) := by
  rw [analyze, Report.tokens_eq, spans, placed, h]

theorem diagnostics_of_pieces {source : String} {ps : List Piece} (h : pieces source.toList = ps) :
    (analyze source).diagnostics = (places .start ps).filterMap diagnostic? := by
  rw [analyze_diagnostics, placed, h]

/-- Where a pass over a text ends. -/
theorem foldl_next_of_pieces {source : String} {ps : List Piece} (h : pieces source.toList = ps) :
    ps.foldl Place.next .start = ⟨source.length, Position.start.advance source.toList,
      (analyze source).tokens.length⟩ := by
  have htext : ps.flatMap Piece.text = source.toList := by rw [← h, pieces_text]
  have hoffset : (ps.foldl Place.next .start).offset = source.length := by
    rw [offset_foldl_next, htext, String.length_toList]
    exact Nat.zero_add _
  have hposition : (ps.foldl Place.next .start).position = Position.start.advance source.toList := by
    rw [position_foldl_next, htext]
    rfl
  have hindex : (ps.foldl Place.next .start).index = (analyze source).tokens.length := by
    rw [index_foldl_next, tokens_of_pieces h, List.length_map]
    exact Nat.zero_add _
  rw [← hoffset, ← hposition, ← hindex]

/-- Pieces behind others are recorded as on their own, moved to the place where the others end. -/
theorem joins_of_pieces {whole left right : String} {ps qs : List Piece} (hwhole : pieces whole.toList = ps ++ qs)
    (hleft : pieces left.toList = ps) (hright : pieces right.toList = qs) :
    (analyze whole).Joins (analyze left) (analyze right) left.length (Position.start.advance left.toList) := by
  have hplaces := places_append .start ps qs
  rw [foldl_next_of_pieces hleft] at hplaces
  constructor
  · rw [tokens_of_pieces hwhole, hplaces, List.filterMap_append, List.map_append, ← tokens_of_pieces hleft,
      spans_places, tokens_of_pieces hright, List.map_map, List.map_map]
    rfl
  · rw [diagnostics_of_pieces hwhole, hplaces, List.filterMap_append, ← diagnostics_of_pieces hleft,
      diagnostics_places, diagnostics_of_pieces hright]

theorem cut_of_placed {cs : List Char} {x : Place × Piece} (h : x ∈ placed cs) :
    ∃ ps qs, pieces cs = ps ++ qs ∧ (ps.flatMap Piece.text).length = x.1.offset := by
  obtain ⟨before, after, hpieces, hplace⟩ := mem_places h
  refine ⟨before, x.2 :: after, hpieces, ?_⟩
  rw [hplace, offset_foldl_next]
  exact (Nat.zero_add _).symm

theorem Boundary.cut {source : String} {o : Nat} (h : Boundary source o) :
    ∃ ps qs, pieces source.toList = ps ++ qs ∧ (ps.flatMap Piece.text).length = o := by
  cases h with
  | token hdivision hx =>
      obtain ⟨rfl, -⟩ := hdivision.unique (division_spans source)
      obtain ⟨y, hy, hspan⟩ := mem_spans hx
      rw [(span?_eq_some hspan).1]
      exact cut_of_placed hy
  | dropped hd ho =>
      have hd := (List.mem_filter.mp hd).1
      rw [analyze_diagnostics] at hd
      obtain ⟨y, hy, hdiagnostic⟩ := List.mem_filterMap.mp hd
      obtain rfl : y.1.offset = o := Int.ofNat.inj ((diagnostic?_eq_some hdiagnostic).1.symm.trans ho)
      exact cut_of_placed hy
  | stop => exact ⟨_, [], (List.append_nil _).symm, by rw [pieces_text, String.length_toList]⟩

/-- A scan keeps nothing in mind at a boundary, and looks no farther back or ahead. -/
theorem analyze_split {source : String} {o : Nat} (h : Boundary source o) :
    (analyze source).Joins (analyze (String.ofList (source.toList.take o)))
      (analyze (String.ofList (source.toList.drop o))) o (Position.ofOffset source.toList o) := by
  obtain ⟨ps, qs, hpieces, ho⟩ := h.cut
  obtain ⟨hps, hqs⟩ := pieces_of_append hpieces
  have htext : source.toList = ps.flatMap Piece.text ++ qs.flatMap Piece.text := by
    rw [← List.flatMap_append, ← hpieces, pieces_text]
  have hle : o ≤ source.toList.length := by
    rw [htext, List.length_append, ho]
    exact Nat.le_add_right ..
  have hleft : pieces (String.ofList (source.toList.take o)).toList = ps := by
    rw [String.toList_ofList, htext, ← ho, List.take_left, hps]
  have hright : pieces (String.ofList (source.toList.drop o)).toList = qs := by
    rw [String.toList_ofList, htext, ← ho, List.drop_left, hqs]
  have hjoins := joins_of_pieces hpieces hleft hright
  rwa [String.length_ofList, List.length_take_of_le hle, String.toList_ofList, Position.advance_take _ hle] at hjoins

/-- A cut before a dropped character, on a later line and behind other tokens, with an open literal in the second
part. -/
theorem analyze_split_at_dropped : Boundary "x\n y!'z" 4 ∧
    (analyze "x\n y!'z").Joins (analyze "x\n y") (analyze "!'z") 4 ⟨2, 3⟩ := by
  have hdropped : ⟨.unrecognizedCharacter, 4, ⟨2, 3⟩, some 2⟩ ∈ (analyze "x\n y!'z").dropped := by decide +kernel
  have hboundary : Boundary "x\n y!'z" 4 := .dropped hdropped rfl
  refine ⟨hboundary, ?_⟩
  have hleft : String.ofList ("x\n y!'z".toList.take 4) = "x\n y" := by decide
  have hright : String.ofList ("x\n y!'z".toList.drop 4) = "!'z" := by decide
  have hposition : Position.ofOffset "x\n y!'z".toList 4 = ⟨2, 3⟩ := by decide
  have hjoins := analyze_split hboundary
  rwa [hleft, hright, hposition] at hjoins

end Lexing
