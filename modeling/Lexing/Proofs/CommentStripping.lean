import Lexing.Proofs.Fusion

/-! A text without its comments. Where a comment stood, the line ends or the text does, so nothing that was apart comes
together but blanks; and the line feed leads to the same position with the comment or without it. -/

namespace Lexing
open Alphabet

namespace Position

theorem advance_of_not_mem (p : Position) {cs : List Char} (h : '\n' ∉ cs) :
    p.advance cs = ⟨p.line, p.column + cs.length⟩ := by
  rw [← jump_eq_advance, jump_of_count_eq_zero p (List.count_eq_zero.mpr h)]

theorem line_advance_of_not_mem (p : Position) {cs : List Char} (h : '\n' ∉ cs) : (p.advance cs).line = p.line := by
  rw [advance_of_not_mem p h]

/-- A line feed leaves nothing of a position but its line. -/
theorem advance_lineFeed {p q : Position} (cs : List Char) (h : p.line = q.line) :
    p.advance ('\n' :: cs) = q.advance ('\n' :: cs) := by
  rw [advance_cons, advance_cons, after_lineFeed, after_lineFeed, h]

end Position

namespace Piece

def IsComment (p : Piece) : Prop := p.kind? = some .comment

instance (p : Piece) : Decidable p.IsComment := inferInstanceAs (Decidable (_ = _))

theorem IsComment.exists_text {p : Piece} (h : p.IsComment) : ∃ cs, p = token .comment cs :=
  Piece.exists_text h (by decide)

end Piece

/-- The pieces without the comments among them. -/
def strip (ps : List Piece) : List Piece := ps.filter fun p => ¬p.IsComment

theorem strip_of_comment {p : Piece} (ps : List Piece) (h : p.IsComment) : strip (p :: ps) = strip ps :=
  List.filter_cons_of_neg (by simpa using h)

theorem strip_of_not_comment {p : Piece} (ps : List Piece) (h : ¬p.IsComment) : strip (p :: ps) = p :: strip ps :=
  List.filter_cons_of_pos (by simpa using h)

/-- Behind a comment the text ends, or blanks begin with a line feed. -/
theorem after_comment {p : Piece} {ps : List Piece} (h : Parted (p :: ps)) (hp : p.IsComment) :
    ps = [] ∨ ∃ cs qs, ps = .token .whitespace ('\n' :: cs) :: qs := by
  obtain ⟨text, rfl⟩ := hp.exists_text
  obtain ⟨-, hends, hps⟩ := parted_cons.mp h
  cases ps with
  | nil => exact .inl rfl
  | cons q qs =>
      have hq := hps.solid q (List.mem_cons_self ..)
      obtain ⟨c, cs, htext⟩ := List.exists_cons_of_ne_nil hq.text_ne_nil
      rw [List.flatMap_cons, htext, List.cons_append, Piece.endsBefore_cons] at hends
      obtain rfl : c = '\n' := by simpa [Piece.absorbs] using hends
      have hblank : q.IsBlank := by
        by_contra hnot
        exact hq.not_blank_head htext hnot (by decide)
      obtain ⟨ds, rfl⟩ := hblank.exists_text
      obtain rfl : ds = '\n' :: cs := htext
      exact .inr ⟨cs, qs, rfl⟩

/-- A piece before a comment ends before what comes behind the comment, too. -/
theorem endsBefore_strip {p : Piece} {ps : List Piece} (hp : ¬p.IsBlank) (hps : Parted ps)
    (h : p.EndsBefore (ps.flatMap Piece.text)) : p.EndsBefore ((strip ps).flatMap Piece.text) := by
  cases ps with
  | nil => exact h
  | cons q qs =>
      have hq := hps.solid q (List.mem_cons_self ..)
      obtain ⟨c, cs, htext⟩ := List.exists_cons_of_ne_nil hq.text_ne_nil
      rw [List.flatMap_cons, htext, List.cons_append, Piece.endsBefore_cons] at h
      by_cases hcomment : q.IsComment
      · rw [strip_of_comment _ hcomment]
        rcases after_comment hps hcomment with rfl | ⟨ds, rs, rfl⟩
        · exact p.endsBefore_nil
        · rw [strip_of_not_comment _ (fun hnot => by cases hnot), List.flatMap_cons]
          apply (Piece.endsBefore_cons _).mpr
          intro habsorbs
          -- an open literal would have taken the comment in as well
          rcases Piece.absorbs_lineFeed habsorbs with hblank | ⟨t, rfl⟩
          · exact hp hblank
          · exact h rfl
      · rw [strip_of_not_comment _ hcomment, List.flatMap_cons, htext, List.cons_append, Piece.endsBefore_cons]
        exact h

theorem Parted.loose_strip {ps : List Piece} (h : Parted ps) : Loose (strip ps) := by
  induction ps with
  | nil => exact .nil
  | cons p ps ih =>
      obtain ⟨hp, hends, hps⟩ := parted_cons.mp h
      by_cases hcomment : p.IsComment
      · rw [strip_of_comment _ hcomment]
        exact ih hps
      · rw [strip_of_not_comment _ hcomment]
        exact .cons hp (fun hblank => endsBefore_strip hblank hps hends) (ih hps)

/-- Behind a comment, no token that counts tells whether the comment was there. -/
theorem significant_after_comment {p : Piece} {ps : List Piece} (origin : Position) (h : Parted (p :: ps))
    (hp : p.IsComment) :
    Token.significant (tokensFrom (origin.advance p.text) ps) = Token.significant (tokensFrom origin ps) := by
  rcases after_comment h hp with rfl | ⟨cs, qs, rfl⟩
  · rfl
  · obtain ⟨text, rfl⟩ := hp.exists_text
    have hline : (origin.advance text).line = origin.line := by
      cases (parted_cons.mp h).1 with
      | comment hds =>
          apply Position.line_advance_of_not_mem
          simpa using hds
    have hadvance : (origin.advance text).advance ('\n' :: cs) = origin.advance ('\n' :: cs) :=
      Position.advance_lineFeed cs hline
    rw [tokensFrom_cons _ _ rfl, tokensFrom_cons _ _ rfl]
    simp only [Piece.text, hadvance]
    rfl

theorem significant_strip (origin : Position) {ps : List Piece} (h : Parted ps) :
    Token.significant (tokensFrom origin (strip ps)) = Token.significant (tokensFrom origin ps) := by
  induction ps generalizing origin with
  | nil => rfl
  | cons p ps ih =>
      obtain ⟨-, -, hps⟩ := parted_cons.mp h
      by_cases hcomment : p.IsComment
      · obtain ⟨text, rfl⟩ := hcomment.exists_text
        rw [strip_of_comment _ hcomment, ih origin hps, tokensFrom_cons _ _ rfl,
          ← significant_after_comment origin h hcomment]
        rfl
      · rw [strip_of_not_comment _ hcomment, tokensFrom, tokensFrom, Token.significant_append, Token.significant_append,
          ih _ hps]

/-- What the tokens spell that are no comments. -/
def withoutComments (source : String) : String := Token.spell (Token.dropComments (tokenize source))

theorem toList_withoutComments {source : String} (h : ∀ p ∈ pieces source.toList, p.kind? ≠ none) :
    (withoutComments source).toList = (strip (pieces source.toList)).flatMap Piece.text := by
  rw [withoutComments, Token.toList_spell, tokenize_of_pieces rfl]
  -- which characters are spelled does not hang on where they stand
  generalize Position.start = origin
  generalize pieces source.toList = ps at h ⊢
  induction ps generalizing origin with
  | nil => rfl
  | cons p ps ih =>
      obtain ⟨hp, hps⟩ := List.forall_mem_cons.mp h
      obtain ⟨kind, hkind⟩ := Option.ne_none_iff_exists'.mp hp
      have hrest := ih (origin.advance p.text) hps
      rw [tokensFrom_cons _ _ hkind]
      by_cases hcomment : p.IsComment
      · obtain rfl : kind = .comment := Option.some.inj (hkind.symm.trans hcomment)
        rw [strip_of_comment _ hcomment, Token.dropComments_cons_of_eq _ rfl, hrest]
      · have hkeep : kind ≠ .comment := by
          rintro rfl
          exact hcomment hkind
        rw [strip_of_not_comment _ hcomment, Token.dropComments_cons_of_ne _ hkeep, List.flatMap_cons,
          List.flatMap_cons, String.toList_ofList, hrest]

/-- A text that says the same as another one to whoever reads past comments and blanks. -/
structure Stripped (source text : String) : Prop where
  significant : Token.significant (tokenize text) = Token.significant (tokenize source)
  no_comment : ∀ t ∈ tokenize text, t.kind ≠ .comment
  no_dropped : (analyze text).dropped = []
  open_iff : (∃ d ∈ (analyze text).diagnostics, d.kind = .unterminatedString) ↔
    ∃ d ∈ (analyze source).diagnostics, d.kind = .unterminatedString

/-- Taking the comments out of a text in which every character counts takes out nothing else. -/
theorem stripped_withoutComments (source : String) (h : (analyze source).dropped = []) :
    Stripped source (withoutComments source) := by
  have htokens := (dropped_eq_nil_iff source).mp h
  have hparted := parted_pieces source.toList
  have hpieces : pieces (withoutComments source).toList = fuse (strip (pieces source.toList)) := by
    rw [toList_withoutComments htokens, hparted.loose_strip.pieces_eq]
  have hmem {p : Piece} (hp : ¬p.IsBlank) :
      p ∈ pieces (withoutComments source).toList ↔ p ∈ pieces source.toList ∧ ¬p.IsComment := by
    rw [hpieces, mem_fuse_iff hp, strip, List.mem_filter, decide_eq_true_eq]
  constructor
  · rw [tokenize_of_pieces hpieces, tokenize_of_pieces (Eq.refl (pieces source.toList)), ← significant_strip _ hparted,
      Token.significant, Token.significant_comm, dropWhitespace_fuse, ← Token.significant_comm, ← Token.significant]
  · intro t ht hkind
    rw [tokenize_of_pieces rfl] at ht
    obtain ⟨p, hp, hpkind⟩ := kind_of_mem_tokensFrom ht
    rw [hkind] at hpkind
    have hblank : ¬p.IsBlank := by
      intro hblank
      cases hpkind.symm.trans hblank
    exact ((hmem hblank).mp hp).2 hpkind
  · apply (dropped_eq_nil_iff _).mpr
    intro p hp hkind
    have hblank : ¬p.IsBlank := by
      intro hblank
      cases hkind.symm.trans hblank
    exact htokens p ((hmem hblank).mp hp).1 hkind
  · rw [unterminated_iff, unterminated_iff]
    apply exists_congr
    intro text
    rw [hmem (fun hblank => by cases hblank)]
    exact and_iff_left fun hcomment => by cases hcomment

/-- Blanks on both sides of a comment, and a literal left open on a later line. -/
theorem stripped_before_open_literal : (analyze "/ //x\n\"y//").dropped = [] ∧
    withoutComments "/ //x\n\"y//" = "/ \n\"y//" ∧ Stripped "/ //x\n\"y//" "/ \n\"y//" := by
  have hdropped : (analyze "/ //x\n\"y//").dropped = [] := by decide +kernel
  have htext : withoutComments "/ //x\n\"y//" = "/ \n\"y//" := by decide +kernel
  have hstripped := stripped_withoutComments "/ //x\n\"y//" hdropped
  rw [htext] at hstripped
  exact ⟨hdropped, htext, hstripped⟩

end Lexing
