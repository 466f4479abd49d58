import Lexing.Proofs.CommentStripping

/-! The body of a comment. No scan looks into it: another body moves the blanks behind the comment to another column,
and the offsets from there on, and changes nothing else before or behind. -/

namespace Lexing
open Alphabet

def Token.slide (columns : Int) (t : Token) : Token :=
  { t with start := ⟨t.start.line, t.start.column + columns⟩ }

def Diagnostic.slide (characters : Int) (d : Diagnostic) : Diagnostic := { d with offset := d.offset + characters }

/-- Moves a diagnostic that is about what stands behind an offset. -/
def Diagnostic.slideBehind (offset : Nat) (characters : Int) (d : Diagnostic) : Diagnostic :=
  if (offset : Int) < d.offset then d.slide characters else d

def commented (front body rest : String) : String := front ++ "//" ++ body ++ rest

/-- How a scan changes with the body of the comment `t`. Of the tokens behind it only the first stands on its line. -/
structure Reworded (front body other rest : String) (t : Token) : Prop where
  comment : t = ⟨.comment, "//" ++ body, Position.start.advance front.toList⟩
  tokens : ∃ after, tokenize (commented front body rest) = tokenize front ++ t :: after ∧
    tokenize (commented front other rest) = tokenize front ++ { t with text := "//" ++ other } ::
      after.modifyHead (Token.slide ((other.length : Int) - body.length)) ∧
    ∀ blank ∈ after.head?, blank.kind = .whitespace ∧ blank.text.toList.head? = some '\n'
  diagnostics : (analyze (commented front other rest)).diagnostics =
    (analyze (commented front body rest)).diagnostics.map
      (Diagnostic.slideBehind front.length ((other.length : Int) - body.length))

/-- A comment up to the end of its line. -/
def slashes (body : List Char) : List Char := '/' :: '/' :: body

theorem not_mem_slashes {body : List Char} (h : '\n' ∉ body) : '\n' ∉ slashes body := by
  simpa [slashes] using h

theorem toList_commented (front body rest : String) :
    (commented front body rest).toList = front.toList ++ (slashes body.toList ++ rest.toList) := by
  simp only [commented, String.toList_append, List.append_assoc]
  rfl

section Pieces

variable {front body rest : List Char}

theorem next_slashes (hbody : '\n' ∉ body) (hrest : ∀ d ∈ rest.head?, d = '\n') :
    Piece.next '/' ('/' :: body ++ rest) = (.token .comment (slashes body), rest) := by
  have hline : ∀ d ∈ '/' :: body, decide (d ≠ '\n') := by
    intro d hd
    apply decide_eq_true
    rintro rfl
    exact not_mem_slashes hbody (List.mem_cons_of_mem _ hd)
  have hend : ∀ d ∈ rest.head?, ¬decide (d ≠ '\n') := by
    intro d hd hne
    exact of_decide_eq_true hne (hrest d hd)
  rw [List.cons_append, Piece.next_of_slashes]
  exact Piece.run_exact '/' hline hend

/-- Where a piece begins behind `front`, the pieces before it are those of `front`. -/
theorem cut_at_length {ps qs : List Piece} {back : List Char} (h : pieces (front ++ back) = ps ++ qs)
    (hlength : (ps.flatMap Piece.text).length = front.length) :
    ps = pieces front ∧ qs.flatMap Piece.text = back := by
  have htext : ps.flatMap Piece.text ++ qs.flatMap Piece.text = front ++ back := by
    rw [← List.flatMap_append, ← h, pieces_text]
  obtain ⟨hfront, hback⟩ := List.append_inj htext hlength
  have hps := (pieces_of_append h).1
  rw [hfront] at hps
  exact ⟨hps.symm, hback⟩

/-- What stands before a piece ends before its first character. -/
theorem seam_of_cut {back : List Char} {qs : List Piece} (h : pieces (front ++ back) = pieces front ++ qs)
    (hback : qs.flatMap Piece.text = back) : ∀ p ∈ (pieces front).getLast?, p.EndsBefore back := by
  intro p hp
  obtain ⟨hsolid, hends⟩ := h ▸ parted_pieces (front ++ back)
  obtain ⟨-, -, hseam⟩ := List.isChain_append.mp hends
  rw [← hback, endsBefore_flatMap fun q hq => (hsolid q (List.mem_append_right _ hq)).text_ne_nil]
  exact hseam p hp

theorem pieces_lineFeed (rest : List Char) :
    ∃ blank qs, pieces ('\n' :: rest) = .token .whitespace ('\n' :: blank) :: qs := by
  rw [pieces_cons, Piece.next_of_blank rest (by decide)]
  exact ⟨_, _, rfl⟩

/-- From the end of a line on, tokens depend on the column only where the first of them stands. -/
theorem tokensFrom_lineEnd (p : Position) (columns : Int) (hrest : ∀ d ∈ rest.head?, d = '\n') :
    tokensFrom ⟨p.line, p.column + columns⟩ (pieces rest) =
      (tokensFrom p (pieces rest)).modifyHead (Token.slide columns) ∧
    ∀ blank ∈ (tokensFrom p (pieces rest)).head?,
      blank.kind = .whitespace ∧ blank.text.toList.head? = some '\n' := by
  cases rest with
  | nil =>
      rw [pieces_nil]
      exact ⟨rfl, fun _ h => by cases h⟩
  | cons d rest =>
      obtain rfl := hrest d rfl
      obtain ⟨blank, qs, hpieces⟩ := pieces_lineFeed rest
      have hadvance := Position.advance_lineFeed (p := ⟨p.line, p.column + columns⟩) (q := p) blank rfl
      rw [hpieces, tokensFrom_cons _ _ rfl, tokensFrom_cons _ _ rfl]
      constructor
      · rw [List.modifyHead_cons, Piece.text, hadvance]
        rfl
      · rintro _ ⟨⟩
        exact ⟨rfl, congrArg List.head? (String.toList_ofList ..)⟩

/-- From the end of a line on, diagnostics depend on the place only by the offset. -/
theorem diagnostics_lineEnd {s t : Place} (hline : t.position.line = s.position.line) (hindex : t.index = s.index)
    (hrest : ∀ d ∈ rest.head?, d = '\n') : (places t (pieces rest)).filterMap diagnostic? =
      ((places s (pieces rest)).filterMap diagnostic?).map (Diagnostic.slide ((t.offset : Int) - s.offset)) := by
  cases rest with
  | nil =>
      rw [pieces_nil]
      rfl
  | cons d rest =>
      obtain rfl := hrest d rfl
      obtain ⟨blank, qs, hpieces⟩ := pieces_lineFeed rest
      have hposition := Position.advance_lineFeed blank hline
      rw [hpieces, places, places, List.filterMap_cons_none rfl, List.filterMap_cons_none rfl, diagnostics_places,
        diagnostics_places (s.next _), List.map_map]
      apply List.map_congr_left
      intro d _
      have hoffset : d.offset + ((t.offset + (blank.length + 1) : Nat) : Int) =
          d.offset + ((s.offset + (blank.length + 1) : Nat) : Int) + ((t.offset : Int) - s.offset) := by
        omega
      simp only [Function.comp_apply, Diagnostic.shift, Diagnostic.slide, Place.next, Piece.text, Piece.kind?,
        hposition, hindex, List.length_cons, hoffset]

end Pieces

theorem offset_lt_of_diagnostic {source : String} {d : Diagnostic} (h : d ∈ (analyze source).diagnostics) :
    d.offset < source.length := by
  rw [analyze_diagnostics] at h
  obtain ⟨x, hx, hd⟩ := List.mem_filterMap.mp h
  rw [(diagnostic?_eq_some hd).1, ← String.length_toList]
  exact Int.ofNat_lt.mpr (offset_lt_length hx)

/-- Nothing in a text is behind it. -/
theorem slideBehind_diagnostics (source : String) (characters : Int) :
    (analyze source).diagnostics.map (Diagnostic.slideBehind source.length characters) =
      (analyze source).diagnostics := by
  have hid : ∀ d ∈ (analyze source).diagnostics, d.slideBehind source.length characters = id d := by
    intro d hd
    exact if_neg (Int.not_lt.mpr (Int.le_of_lt (offset_lt_of_diagnostic hd)))
  rw [List.map_congr_left hid, List.map_id]

theorem text_slashes (body : String) : String.ofList (slashes body.toList) = "//" ++ body := by
  apply String.toList_inj.mp
  rw [String.toList_ofList, String.toList_append]
  rfl

/-- The place behind a comment that stands behind `front`. -/
def behindComment (front body : String) : Place :=
  ⟨front.length + (slashes body.toList).length,
    (Position.start.advance front.toList).advance (slashes body.toList), (analyze front).tokens.length + 1⟩

theorem offset_behindComment (front body : String) :
    (behindComment front body).offset = front.length + (body.length + 2) := by
  rw [behindComment, slashes, List.length_cons, List.length_cons, String.length_toList]

/-- Behind another body, the line ends in another column. -/
theorem position_behindComment (front : String) {body other : String} (hbody : '\n' ∉ body.toList)
    (hother : '\n' ∉ other.toList) : (behindComment front other).position =
      ⟨(behindComment front body).position.line,
        (behindComment front body).position.column + ((other.length : Int) - body.length)⟩ := by
  simp only [behindComment]
  rw [Position.advance_of_not_mem _ (not_mem_slashes hbody), Position.advance_of_not_mem _ (not_mem_slashes hother)]
  simp only [slashes, List.length_cons, String.length_toList, Position.mk.injEq, true_and]
  omega

section Rewording

variable {front body other rest : String} (hseam : ∀ p ∈ (pieces front.toList).getLast?, ¬p.absorbs '/')
  (hrest : ∀ d ∈ rest.toList.head?, d = '\n')
include hseam hrest

/-- A comment that stands behind the pieces of `front` does so with every body. -/
theorem pieces_commented (hbody : '\n' ∉ body.toList) : pieces (commented front body rest).toList =
    pieces front.toList ++ .token .comment (slashes body.toList) :: pieces rest.toList := by
  have hends : ∀ p ∈ (pieces front.toList).getLast?, p.EndsBefore (slashes body.toList ++ rest.toList) := by
    intro p hp
    exact (Piece.endsBefore_cons _).mpr (hseam p hp)
  have hpieces := (parted_pieces front.toList).pieces_append hends
  rw [pieces_text] at hpieces
  rw [toList_commented, hpieces]
  change _ ++ pieces ('/' :: ('/' :: body.toList ++ rest.toList)) = _
  rw [pieces_cons, next_slashes hbody hrest]

theorem tokens_commented (hbody : '\n' ∉ body.toList) : tokenize (commented front body rest) =
    tokenize front ++ ⟨.comment, "//" ++ body, Position.start.advance front.toList⟩ ::
      tokensFrom (behindComment front body).position (pieces rest.toList) := by
  rw [tokenize_of_pieces (pieces_commented hseam hrest hbody), tokensFrom_append, pieces_text, ← tokenize_eq,
    tokensFrom_cons _ _ rfl, Piece.text, text_slashes]
  rfl

theorem diagnostics_commented (hbody : '\n' ∉ body.toList) : (analyze (commented front body rest)).diagnostics =
    (analyze front).diagnostics ++
      (places (behindComment front body) (pieces rest.toList)).filterMap diagnostic? := by
  rw [diagnostics_of_pieces (pieces_commented hseam hrest hbody), places_append, foldl_next_of_pieces rfl,
    List.filterMap_append, ← diagnostics_of_pieces rfl, places, List.filterMap_cons_none rfl]
  rfl

theorem reworded_of_seam (hbody : '\n' ∉ body.toList) (hother : '\n' ∉ other.toList) :
    Reworded front body other rest ⟨.comment, "//" ++ body, Position.start.advance front.toList⟩ := by
  have hposition := position_behindComment front hbody hother
  constructor
  · rfl
  · obtain ⟨hafter, hblank⟩ :=
      tokensFrom_lineEnd (behindComment front body).position ((other.length : Int) - body.length) hrest
    refine ⟨_, tokens_commented hseam hrest hbody, ?_, hblank⟩
    rw [tokens_commented hseam hrest hother, hposition, hafter]
  · have hline : (behindComment front other).position.line = (behindComment front body).position.line := by
      rw [hposition]
    have hbehind := diagnostics_lineEnd hline rfl hrest
    rw [diagnostics_commented hseam hrest hbody, diagnostics_commented hseam hrest hother, List.map_append,
      slideBehind_diagnostics front, hbehind]
    congr 1
    apply List.map_congr_left
    intro d hd
    have hle := le_offset_of_diagnostic hd
    have hcharacters : ((behindComment front other).offset : Int) - (behindComment front body).offset =
        (other.length : Int) - body.length := by
      rw [offset_behindComment, offset_behindComment]
      omega
    have hlt : (front.length : Int) < d.offset := by
      rw [offset_behindComment] at hle
      omega
    rw [Diagnostic.slideBehind, if_pos hlt, hcharacters]

/-- A token that begins behind `front` is the comment. -/
theorem token_of_seam {x : Span} (hbody : '\n' ∉ body.toList) (hx : x ∈ spans (commented front body rest).toList)
    (hoffset : x.offset = front.length) :
    x.token = ⟨.comment, "//" ++ body, Position.start.advance front.toList⟩ := by
  obtain ⟨y, hy, hspan⟩ := mem_spans hx
  obtain ⟨before, after, hpieces, hplace⟩ := mem_places hy
  have hlength : (before.flatMap Piece.text).length = front.toList.length := by
    rw [String.length_toList, ← hoffset, (span?_eq_some hspan).1, hplace, offset_foldl_next]
    exact (Nat.zero_add _).symm
  obtain ⟨rfl, -⟩ := cut_at_length (toList_commented front body rest ▸ hpieces) hlength
  rw [pieces_commented hseam hrest hbody] at hpieces
  obtain ⟨hpiece, -⟩ := List.cons.inj (List.append_cancel_left hpieces)
  obtain ⟨place, piece⟩ := y
  obtain rfl : _ = piece := hpiece
  rw [foldl_next_of_pieces rfl] at hplace
  obtain rfl : place = _ := hplace
  cases hspan
  rw [Piece.text, text_slashes]

end Rewording

theorem seam_of_division {front body rest : String} {xs : List Span} {gaps : List Nat} {x : Span}
    (hdivision : Division (commented front body rest) xs gaps) (hx : x ∈ xs) (hoffset : x.offset = front.length) :
    ∀ p ∈ (pieces front.toList).getLast?, ¬p.absorbs '/' := by
  obtain ⟨ps, qs, hpieces, hlength⟩ := (Boundary.token hdivision hx).cut
  rw [hoffset, ← String.length_toList] at hlength
  rw [toList_commented] at hpieces
  obtain ⟨rfl, hback⟩ := cut_at_length hpieces hlength
  intro p hp
  exact (Piece.endsBefore_cons _).mp (seam_of_cut hpieces hback p hp)

/-- A comment that a scan of the text finds behind `front` it finds there with every other body on the line, and what
is before and behind it does not depend on the body. -/
theorem analyze_reworded {front body other rest : String} {xs : List Span} {gaps : List Nat} {x : Span}
    (hbody : '\n' ∉ body.toList) (hother : '\n' ∉ other.toList) (hrest : ∀ d ∈ rest.toList.head?, d = '\n')
    (hdivision : Division (commented front body rest) xs gaps) (hx : x ∈ xs) (hoffset : x.offset = front.length) :
    Reworded front body other rest x.token := by
  have hseam := seam_of_division hdivision hx hoffset
  obtain ⟨rfl, -⟩ := hdivision.unique (division_spans _)
  rw [token_of_seam hseam hrest hbody hx hoffset]
  exact reworded_of_seam hseam hrest hbody hother

/-- A body with quotes and slashes in it, between dropped characters and above a literal left open. -/
theorem analyze_reworded_behind_dropped : '\n' ∉ "'a".toList ∧ '\n' ∉ "\"// é".toList ∧
    (∀ d ∈ "\n@'z".toList.head?, d = '\n') ∧
    Division (commented "x !" "'a" "\n@'z") (spans (commented "x !" "'a" "\n@'z").toList)
      (gaps (commented "x !" "'a" "\n@'z").toList) ∧
    ∃ x ∈ spans (commented "x !" "'a" "\n@'z").toList, x.offset = "x !".length ∧
      Reworded "x !" "'a" "\"// é" "\n@'z" x.token := by
  have hbody : '\n' ∉ "'a".toList := by decide
  have hother : '\n' ∉ "\"// é".toList := by decide
  have hrest : ∀ d ∈ "\n@'z".toList.head?, d = '\n' := by
    rintro d ⟨⟩
    rfl
  have hdivision := division_spans (commented "x !" "'a" "\n@'z")
  have hoffsets : ((spans (commented "x !" "'a" "\n@'z").toList).map (·.offset))[2]? = some "x !".length := by
    decide +kernel
  rw [List.getElem?_map] at hoffsets
  obtain ⟨x, hget, hoffset⟩ := Option.map_eq_some_iff.mp hoffsets
  have hx := List.mem_of_getElem? hget
  exact ⟨hbody, hother, hrest, hdivision, x, hx, hoffset,
    analyze_reworded hbody hother hrest hdivision hx hoffset⟩

/-- It is not the comment alone that changes: the line feed behind it stands at another column. -/
theorem column_behind_comment : '\n' ∉ "a".toList ∧ '\n' ∉ "bb".toList ∧ (∀ d ∈ "\n".toList.head?, d = '\n') ∧
    Division (commented "" "a" "\n") (spans (commented "" "a" "\n").toList) (gaps (commented "" "a" "\n").toList) ∧
    (spans (commented "" "a" "\n").toList).map (fun x => (x.offset, x.token)) =
      [(0, ⟨.comment, "//a", ⟨1, 1⟩⟩), (3, ⟨.whitespace, "\n", ⟨1, 4⟩⟩)] ∧
    tokenize (commented "" "bb" "\n") = [⟨.comment, "//bb", ⟨1, 1⟩⟩, ⟨.whitespace, "\n", ⟨1, 5⟩⟩] ∧
    tokenize (commented "" "bb" "\n") ≠
      (tokenize (commented "" "a" "\n")).modify 0 fun t => { t with text := "//" ++ "bb" } := by
  refine ⟨by decide, by decide, ?_, division_spans _, ?_, ?_, ?_⟩
  · rintro d ⟨⟩
    rfl
  · decide +kernel
  · decide +kernel
  · decide +kernel

end Lexing
