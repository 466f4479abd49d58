import Lexing.Proofs.Recorded

/-! Blanks side by side. Where pieces are taken out of a text, blanks may come to stand before blanks; these become
one piece, and nothing else about the pieces changes. -/

namespace Lexing
open Alphabet

theorem pairs_end_in_line : ∀ p ∈ pairOperators, p.2 ≠ '\n' := by decide

namespace Piece

def IsBlank (p : Piece) : Prop := p.kind? = some .whitespace

instance (p : Piece) : Decidable p.IsBlank := inferInstanceAs (Decidable (_ = _))

/-- Of strings alone there are open ones. -/
theorem exists_text {p : Piece} {kind : Token.Kind} (h : p.kind? = some kind) (hkind : kind ≠ .string) :
    ∃ cs, p = token kind cs := by
  cases p with
  | token kind' text =>
      obtain rfl : kind' = kind := Option.some.inj h
      exact ⟨text, rfl⟩
  | openLiteral text => exact absurd (Option.some.inj h).symm hkind
  | stray c => cases h

theorem IsBlank.exists_text {p : Piece} (h : p.IsBlank) : ∃ cs, p = token .whitespace cs :=
  Piece.exists_text h (by decide)

/-- Blanks and open literals alone go on over a line feed. -/
theorem absorbs_lineFeed {p : Piece} (h : p.absorbs '\n') : p.IsBlank ∨ ∃ cs, p = openLiteral cs := by
  have hpair (c : Char) : ¬isPairOperator c '\n' := by
    intro hc
    exact pairs_end_in_line _ (List.contains_iff_mem.mp hc) rfl
  cases p with
  | token kind text =>
      cases kind with
      | whitespace => exact .inl rfl
      | operator =>
          match text with
          | [] => cases h
          | [c] => exact absurd h (by simp [absorbs, hpair c])
          | _ :: _ :: _ => cases h
      | _ => cases h
  | openLiteral text => exact .inr ⟨text, rfl⟩
  | stray c => exact absurd h (hpair c)

theorem endsBefore_lineFeed {p : Piece} (rest : List Char) (hblank : ¬p.IsBlank) (hopen : ∀ cs, p ≠ openLiteral cs) :
    p.EndsBefore ('\n' :: rest) := by
  apply (endsBefore_cons rest).mpr
  intro habsorbs
  rcases absorbs_lineFeed habsorbs with h | ⟨cs, h⟩
  · exact hblank h
  · exact hopen cs h

/-- A line feed by itself. -/
def lineFeed : Piece := token .whitespace ['\n']

theorem lineFeed_solid : lineFeed.Solid := .whitespace (by decide) fun _ h => absurd h List.not_mem_nil

/-- Puts a piece before others. A blank before a blank is one with it. -/
def onto : Piece → List Piece → List Piece
  | token .whitespace cs, token .whitespace ds :: ps => token .whitespace (cs ++ ds) :: ps
  | p, ps => p :: ps

theorem onto_cases (p : Piece) (ps : List Piece) :
    (p.onto ps = p :: ps ∧ (p.IsBlank → ∀ q ∈ ps.head?, ¬q.IsBlank)) ∨
      ∃ cs ds qs, p = token .whitespace cs ∧ ps = token .whitespace ds :: qs ∧
        p.onto ps = token .whitespace (cs ++ ds) :: qs := by
  unfold onto
  split
  · exact .inr ⟨_, _, _, rfl, rfl, rfl⟩
  · next hapart =>
      refine .inl ⟨rfl, ?_⟩
      intro hp q hq hblank
      obtain ⟨cs, rfl⟩ := hp.exists_text
      obtain ⟨ds, rfl⟩ := hblank.exists_text
      obtain ⟨qs, rfl⟩ := List.head?_eq_some_iff.mp hq
      exact hapart _ _ _ rfl rfl

theorem text_onto (p : Piece) (ps : List Piece) : (p.onto ps).flatMap text = p.text ++ ps.flatMap text := by
  rcases onto_cases p ps with ⟨h, -⟩ | ⟨cs, ds, qs, rfl, rfl, h⟩
  · rw [h, List.flatMap_cons]
  · simp only [h, List.flatMap_cons, text, List.append_assoc]

theorem mem_onto_iff {p q : Piece} {ps : List Piece} (hq : ¬q.IsBlank) : q ∈ p.onto ps ↔ q ∈ p :: ps := by
  rcases onto_cases p ps with ⟨h, -⟩ | ⟨cs, ds, qs, rfl, rfl, h⟩
  · rw [h]
  · have hne (es : List Char) : q ≠ token .whitespace es := by
      rintro rfl
      exact hq rfl
    simp only [h, List.mem_cons, hne, false_or]

/-- Only blanks begin with a blank. -/
theorem Solid.not_blank_head {p : Piece} {c : Char} {ds : List Char} (h : p.Solid) (htext : p.text = c :: ds)
    (hp : ¬p.IsBlank) : ¬isBlank c := by
  intro hc
  have hnext := next_of_solid h htext p.endsBefore_nil
  rw [next_of_blank _ hc] at hnext
  exact hp (congrArg kind? (congrArg Prod.fst hnext)).symm

end Piece

/-- The pieces with all blanks that stand side by side as one. -/
def fuse (ps : List Piece) : List Piece := ps.foldr Piece.onto []

theorem fuse_cons (p : Piece) (ps : List Piece) : fuse (p :: ps) = p.onto (fuse ps) := rfl

theorem text_fuse (ps : List Piece) : (fuse ps).flatMap Piece.text = ps.flatMap Piece.text := by
  induction ps with
  | nil => rfl
  | cons p ps ih => rw [fuse_cons, Piece.text_onto, ih, List.flatMap_cons]

theorem mem_fuse_iff {q : Piece} {ps : List Piece} (hq : ¬q.IsBlank) : q ∈ fuse ps ↔ q ∈ ps := by
  induction ps with
  | nil => rfl
  | cons p ps ih => rw [fuse_cons, Piece.mem_onto_iff hq, List.mem_cons, List.mem_cons, ih]

/-- Pieces of which none goes on into the next one, blanks before blanks aside. -/
inductive Loose : List Piece → Prop
  | nil : Loose []
  | cons {p ps} : p.Solid → (¬p.IsBlank → p.EndsBefore (ps.flatMap Piece.text)) → Loose ps → Loose (p :: ps)

/-- Pieces that keep apart may stand before loose ones, if the last of them is a blank or keeps apart from these. -/
theorem Loose.append {ps qs : List Piece} (hps : Parted ps) (hqs : Loose qs)
    (hseam : ∀ p ∈ ps.getLast?, ¬p.IsBlank → p.EndsBefore (qs.flatMap Piece.text)) : Loose (ps ++ qs) := by
  induction ps with
  | nil => exact hqs
  | cons p ps ih =>
      obtain ⟨hp, hends, hparted⟩ := parted_cons.mp hps
      cases ps with
      | nil => exact .cons hp (hseam p rfl) hqs
      | cons q ps =>
          refine .cons hp (fun _ => ?_) (ih hparted hseam)
          have hne : (q :: ps).flatMap Piece.text ≠ [] := by
            rw [List.flatMap_cons]
            exact List.append_ne_nil_of_left_ne_nil (hparted.solid q (List.mem_cons_self ..)).text_ne_nil _
          have hmore := hends.append hne (qs.flatMap Piece.text)
          rwa [← List.flatMap_append] at hmore

theorem Parted.loose {ps : List Piece} (h : Parted ps) : Loose ps := by
  have happend := Loose.append h .nil fun p _ _ => p.endsBefore_nil
  rwa [List.append_nil] at happend

/-- Blanks end before all that is no blank. -/
theorem blank_ends {cs : List Char} {ps : List Piece} (hps : Parted ps) (h : ∀ q ∈ ps.head?, ¬q.IsBlank) :
    (Piece.token .whitespace cs).EndsBefore (ps.flatMap Piece.text) := by
  apply (endsBefore_flatMap fun q hq => (hps.solid q hq).text_ne_nil).mpr
  intro q hq
  have hsolid := hps.solid q (List.mem_of_head? hq)
  obtain ⟨d, ds, htext⟩ := List.exists_cons_of_ne_nil hsolid.text_ne_nil
  rw [htext, Piece.endsBefore_cons]
  exact hsolid.not_blank_head htext (h q hq)

theorem lexeme_blanks_append {cs ds : List Char} (hcs : Lexeme .whitespace cs) (hds : Lexeme .whitespace ds) :
    Lexeme .whitespace (cs ++ ds) := by
  cases hcs with
  | whitespace hc hcs =>
      cases hds with
      | whitespace hd hds =>
          apply Lexeme.whitespace hc
          exact List.forall_mem_append.mpr ⟨hcs, List.forall_mem_cons.mpr ⟨hd, hds⟩⟩

theorem parted_onto {p : Piece} {ps : List Piece} (hp : p.Solid) (hps : Parted ps)
    (hends : ¬p.IsBlank → p.EndsBefore (ps.flatMap Piece.text)) : Parted (p.onto ps) := by
  rcases Piece.onto_cases p ps with ⟨h, hapart⟩ | ⟨cs, ds, qs, rfl, rfl, h⟩
  · rw [h, parted_cons]
    refine ⟨hp, ?_, hps⟩
    by_cases hblank : p.IsBlank
    · obtain ⟨cs, rfl⟩ := hblank.exists_text
      exact blank_ends hps (hapart rfl)
    · exact hends hblank
  · obtain ⟨hds, hrest, hqs⟩ := parted_cons.mp hps
    rw [h, parted_cons]
    exact ⟨lexeme_blanks_append hp hds, hrest, hqs⟩

/-- With their blanks as one, loose pieces are those of their text. -/
theorem Loose.pieces_eq {ps : List Piece} (h : Loose ps) : pieces (ps.flatMap Piece.text) = fuse ps := by
  have hparted : Parted (fuse ps) := by
    induction h with
    | nil => exact ⟨fun _ hp => absurd hp List.not_mem_nil, .nil⟩
    | @cons p ps hp hends hps ih =>
        apply parted_onto hp ih
        rwa [text_fuse]
  rw [← text_fuse, hparted.pieces_eq]

theorem dropWhitespace_onto (origin : Position) (p : Piece) (ps : List Piece) :
    Token.dropWhitespace (tokensFrom origin (p.onto ps)) = Token.dropWhitespace (tokensFrom origin (p :: ps)) := by
  rcases Piece.onto_cases p ps with ⟨h, -⟩ | ⟨cs, ds, qs, rfl, rfl, h⟩
  · rw [h]
  · rw [h, tokensFrom_cons _ _ rfl, tokensFrom_cons _ _ rfl, tokensFrom_cons _ _ rfl]
    rw [Token.dropWhitespace_cons_of_eq _ rfl, Token.dropWhitespace_cons_of_eq _ rfl,
      Token.dropWhitespace_cons_of_eq _ rfl]
    simp only [Piece.text, Position.advance_append]

/-- That blanks become one is seen in no other token. -/
theorem dropWhitespace_fuse (origin : Position) (ps : List Piece) :
    Token.dropWhitespace (tokensFrom origin (fuse ps)) = Token.dropWhitespace (tokensFrom origin ps) := by
  induction ps generalizing origin with
  | nil => rfl
  | cons p ps ih =>
      rw [fuse_cons, dropWhitespace_onto, tokensFrom, tokensFrom, Token.dropWhitespace_append,
        Token.dropWhitespace_append, ih]

theorem faultsFrom_onto (offset : Nat) (origin : Position) (p : Piece) (ps : List Piece) :
    faultsFrom offset origin (p.onto ps) = faultsFrom offset origin (p :: ps) := by
  rcases Piece.onto_cases p ps with ⟨h, -⟩ | ⟨cs, ds, qs, rfl, rfl, h⟩
  · rw [h]
  · rw [h]
    simp only [faultsFrom, Piece.faultAt?, Piece.text, Position.advance_append, List.length_append, Nat.add_assoc,
      Option.toList_none, List.nil_append]

/-- Nothing is wrong with blanks, whether they are one piece or more. -/
theorem faultsFrom_fuse (offset : Nat) (origin : Position) (ps : List Piece) :
    faultsFrom offset origin (fuse ps) = faultsFrom offset origin ps := by
  induction ps generalizing offset origin with
  | nil => rfl
  | cons p ps ih => rw [fuse_cons, faultsFrom_onto, faultsFrom, faultsFrom, ih]

end Lexing
