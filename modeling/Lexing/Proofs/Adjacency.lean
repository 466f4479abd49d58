import Lexing.Proofs.LongestMatch
import Mathlib.Data.List.Chain

/-! Which pieces may stand side by side. A piece is split off by its own text and by the one character after it, so
pieces that keep apart can be cut and joined anywhere between them, and are again the pieces of their text. -/

namespace Lexing
open Alphabet

/-- Whether `c` begins a token whatever comes after it. -/
def Alphabet.beginsToken (c : Char) : Bool :=
  isBlank c || isQuote c || c.isDigit || beginsWord c || isOperator c || isPunctuation c

namespace Piece

/-- A piece that a text may be made of: a well-formed token, or a character that is none by itself. -/
def Solid : Piece → Prop
  | token kind text => Lexeme kind text
  | openLiteral text => OpenLexeme text
  | stray c => ¬beginsToken c

/-- Whether the piece would not end before `d`. A literal left open ends before no character. -/
def absorbs : Piece → Char → Bool
  | token .whitespace _, d => isBlank d
  | token .comment _, d => d ≠ '\n'
  | token .number _, d => inNumber d
  | token .keyword _, d => inWord d
  | token .identifier _, d => inWord d
  | token .operator [c], d => isPairOperator c d || c == '/' && d == '/'
  | token _ _, _ => false
  | openLiteral _, _ => true
  | stray c, d => isPairOperator c d

def EndsBefore (p : Piece) (rest : List Char) : Prop := ∀ d ∈ rest.head?, ¬p.absorbs d

theorem endsBefore_nil (p : Piece) : p.EndsBefore [] := by
  intro d hd
  cases hd

theorem endsBefore_cons {p : Piece} {d : Char} (rest : List Char) : p.EndsBefore (d :: rest) ↔ ¬p.absorbs d := by
  simp [EndsBefore]

theorem EndsBefore.append {p : Piece} {rest : List Char} (h : p.EndsBefore rest) (hne : rest ≠ [])
    (more : List Char) : p.EndsBefore (rest ++ more) := by
  obtain ⟨d, ds, rfl⟩ := List.exists_cons_of_ne_nil hne
  rw [List.cons_append, endsBefore_cons]
  exact (endsBefore_cons ds).mp h

theorem Solid.text_ne_nil {p : Piece} (h : p.Solid) : p.text ≠ [] := by
  cases p with
  | token kind text => exact Lexeme.ne_nil h
  | openLiteral text => cases h <;> exact List.cons_ne_nil _ _
  | stray c => exact List.cons_ne_nil _ _

section Runs

variable {kind : Token.Kind} {p : Char → Bool} {ds rest : List Char}

theorem takeWhile_exact (hds : ∀ d ∈ ds, p d) (hrest : ∀ d ∈ rest.head?, ¬p d) :
    (ds ++ rest).takeWhile p = ds ∧ (ds ++ rest).dropWhile p = rest := by
  rw [List.takeWhile_append_of_pos hds, List.dropWhile_append_of_pos hds]
  cases rest with
  | nil => exact ⟨List.append_nil ds, rfl⟩
  | cons d rest =>
      have hd : ¬p d := hrest d rfl
      rw [List.takeWhile_cons_of_neg hd, List.dropWhile_cons_of_neg hd, List.append_nil]
      exact ⟨rfl, rfl⟩

theorem run_exact (c : Char) (hds : ∀ d ∈ ds, p d) (hrest : ∀ d ∈ rest.head?, ¬p d) :
    run kind p c (ds ++ rest) = (token kind (c :: ds), rest) := by
  obtain ⟨htake, hdrop⟩ := takeWhile_exact hds hrest
  rw [run, htake, hdrop]

theorem word_exact {c : Char} (hc : beginsWord c) (hds : ∀ d ∈ ds, inWord d) (hrest : ∀ d ∈ rest.head?, ¬inWord d)
    (hkind : wordKind (c :: ds) = kind) : next c (ds ++ rest) = (token kind (c :: ds), rest) := by
  obtain ⟨htake, hdrop⟩ := takeWhile_exact hds hrest
  rw [next_of_word _ hc, htake, hdrop, hkind]

end Runs

theorem mark_single {c : Char} {rest : List Char} (h : ∀ d ∈ rest.head?, ¬isPairOperator c d) :
    mark c rest = (mark.single c, rest) := by
  cases rest with
  | nil => rfl
  | cons d rest => exact if_neg (h d rfl)

theorem operator_exact {c : Char} {rest : List Char} (hc : isOperator c)
    (hrest : ∀ d ∈ rest.head?, ¬(isPairOperator c d || c == '/' && d == '/')) :
    next c rest = (token .operator [c], rest) := by
  have hbegins : beginsMark c := by simp [beginsMark, hc]
  have hslash : ¬(c = '/' ∧ rest.head? = some '/') := by
    rintro ⟨rfl, hd⟩
    exact hrest '/' hd (by simp)
  have hpair : ∀ d ∈ rest.head?, ¬isPairOperator c d := by
    intro d hd hp
    exact hrest d hd (by simp [hp])
  rw [next_of_mark _ hbegins hslash, mark_single hpair, single_of_operator hc]

theorem punctuation_exact {c : Char} (rest : List Char) (hc : isPunctuation c) :
    next c rest = (token .punctuation [c], rest) := by
  have hbegins : beginsMark c := by simp [beginsMark, hc]
  have hslash : ¬(c = '/' ∧ rest.head? = some '/') := by
    rintro ⟨rfl, -⟩
    exact absurd hc (by decide)
  have hpair : ∀ d ∈ rest.head?, ¬isPairOperator c d := by
    intro d _ hp
    exact punctuation_unpaired c (List.contains_iff_mem.mp hc) (List.mem_map_of_mem (List.contains_iff_mem.mp hp))
  rw [next_of_mark _ hbegins hslash, mark_single hpair, single_of_punctuation hc]

theorem stray_exact {c : Char} {rest : List Char} (hc : ¬beginsToken c)
    (hrest : ∀ d ∈ rest.head?, ¬isPairOperator c d) : next c rest = (stray c, rest) := by
  simp only [beginsToken, Bool.or_eq_true, not_or] at hc
  obtain ⟨⟨⟨⟨⟨hb, hq⟩, hd⟩, hw⟩, ho⟩, hp⟩ := hc
  have hslash : ¬(c = '/' ∧ rest.head? = some '/') := by
    rintro ⟨rfl, -⟩
    exact ho (by decide)
  rw [next, if_neg hb, if_neg hslash, if_neg hq, if_neg hd, if_neg hw, mark_single hrest, mark.single, if_neg ho,
    if_neg hp]

theorem lexeme_exact {kind : Token.Kind} {c : Char} {ds rest : List Char} (h : Lexeme kind (c :: ds))
    (hrest : (token kind (c :: ds)).EndsBefore rest) : next c (ds ++ rest) = (token kind (c :: ds), rest) := by
  cases h with
  | whitespace hc hds =>
      rw [next_of_blank _ hc]
      exact run_exact c hds hrest
  | comment hds =>
      rw [List.cons_append, next_of_slashes]
      exact run_exact '/' (slash_in_line hds) hrest
  | string hq hb => exact next_of_closed rest hq hb
  | number hc hds =>
      rw [next_of_digit _ hc]
      exact run_exact c hds hrest
  | keyword hc hds hk => exact word_exact hc hds hrest (if_pos hk)
  | identifier hc hds hk => exact word_exact hc hds hrest (if_neg hk)
  | pairOperator hp => exact next_of_pair rest hp
  | operator hc => exact operator_exact hc hrest
  | punctuation hc => exact punctuation_exact rest hc

/-- A solid piece is split off every text that it begins, unless the next character goes on with it. -/
theorem next_of_solid {p : Piece} {c : Char} {ds rest : List Char} (h : p.Solid) (htext : p.text = c :: ds)
    (hrest : p.EndsBefore rest) : next c (ds ++ rest) = (p, rest) := by
  cases p with
  | token kind text =>
      obtain rfl : text = c :: ds := htext
      exact lexeme_exact h hrest
  | openLiteral text =>
      obtain rfl : text = c :: ds := htext
      cases rest with
      | nil =>
          rw [List.append_nil]
          exact next_of_open h
      | cons d rest => exact absurd rfl ((endsBefore_cons rest).mp hrest)
  | stray d =>
      obtain ⟨rfl, rfl⟩ := List.cons.inj htext
      exact stray_exact h hrest

theorem run_ends {p : Char → Bool} (cs : List Char) : ∀ d ∈ (cs.dropWhile p).head?, ¬p d := by
  intro d hd
  have h := List.head?_dropWhile_not p cs
  rw [Option.mem_def.mp hd] at h
  exact Bool.eq_false_iff.mp h

theorem wordKind_cases (word : List Char) : wordKind word = .keyword ∨ wordKind word = .identifier := by
  rw [wordKind]
  split
  · exact .inl rfl
  · exact .inr rfl

theorem word_ends (word cs : List Char) : (token (wordKind word) word).EndsBefore (cs.dropWhile inWord) := by
  rcases wordKind_cases word with h | h
  · rw [h]
    exact run_ends cs
  · rw [h]
    exact run_ends cs

theorem literal_ends (q : Char) (cs : List Char) : (literal q cs).1.EndsBefore (literal q cs).2 := by
  unfold literal
  split
  · exact fun _ _ => Bool.false_ne_true
  · exact endsBefore_nil _

theorem single_ends {c d : Char} (rest : List Char) (hpair : ¬isPairOperator c d) (hslash : ¬(c = '/' ∧ d = '/')) :
    (mark.single c).EndsBefore (d :: rest) := by
  rw [endsBefore_cons, mark.single]
  split
  · simpa [absorbs, hpair] using hslash
  · split
    · exact Bool.false_ne_true
    · exact hpair

theorem mark_ends {c : Char} {cs : List Char} (hslash : ¬(c = '/' ∧ cs.head? = some '/')) :
    (mark c cs).1.EndsBefore (mark c cs).2 := by
  unfold mark
  split
  · next d ds =>
      split
      · exact fun _ _ => Bool.false_ne_true
      · next hpair => exact single_ends ds hpair fun h => hslash ⟨h.1, congrArg some h.2⟩
  · exact endsBefore_nil _

/-- What is left of a text begins with a character that does not go on with the piece before. -/
theorem next_ends (c : Char) (cs : List Char) : (next c cs).1.EndsBefore (next c cs).2 := by
  unfold next
  split
  · exact run_ends cs
  · split
    · exact run_ends cs
    · split
      · exact literal_ends c cs
      · split
        · exact run_ends cs
        · split
          · exact word_ends _ cs
          · next hslash _ _ _ => exact mark_ends hslash

theorem single_stray {c d : Char} (h : mark.single c = stray d) : ¬isOperator c ∧ ¬isPunctuation c := by
  rw [mark.single] at h
  split at h
  · cases h
  · next ho =>
      split at h
      · cases h
      · next hp => exact ⟨ho, hp⟩

theorem mark_stray {c d : Char} {cs : List Char} (h : (mark c cs).1 = stray d) : ¬isOperator c ∧ ¬isPunctuation c := by
  unfold mark at h
  split at h
  · split at h
    · cases h
    · exact single_stray h
  · exact single_stray h

theorem literal_ne_stray (q d : Char) (cs : List Char) : (literal q cs).1 ≠ stray d := by
  unfold literal
  split <;> exact fun h => by cases h

theorem not_beginsToken_of_stray {c d : Char} {cs : List Char} (h : (next c cs).1 = stray d) : ¬beginsToken d := by
  have htext := next_text c cs
  rw [h] at htext
  obtain rfl : d = c := (List.cons.inj htext).1
  unfold next at h
  split at h
  · cases h
  · next hb =>
      split at h
      · cases h
      · split at h
        · exact absurd h (literal_ne_stray _ _ _)
        · next hq =>
            split at h
            · cases h
            · next hd =>
                split at h
                · cases h
                · next hw =>
                    obtain ⟨ho, hp⟩ := mark_stray h
                    simp only [beginsToken, Bool.or_eq_true, not_or]
                    exact ⟨⟨⟨⟨⟨hb, hq⟩, hd⟩, hw⟩, ho⟩, hp⟩

theorem next_solid (c : Char) (cs : List Char) : (next c cs).1.Solid := by
  have hwell := next_wellFormed c cs
  cases hp : (next c cs).1 with
  | stray d => exact not_beginsToken_of_stray hp
  | _ =>
      rw [hp] at hwell
      exact hwell

end Piece

/-- Pieces of which none goes on into the next one. -/
structure Parted (ps : List Piece) : Prop where
  solid : ∀ p ∈ ps, p.Solid
  ends : ps.IsChain fun p q => p.EndsBefore q.text

theorem endsBefore_flatMap {p : Piece} {qs : List Piece} (hq : ∀ q ∈ qs, q.text ≠ []) :
    p.EndsBefore (qs.flatMap Piece.text) ↔ ∀ q ∈ qs.head?, p.EndsBefore q.text := by
  cases qs with
  | nil => exact iff_of_true p.endsBefore_nil fun _ h => by cases h
  | cons q qs =>
      obtain ⟨d, ds, htext⟩ := List.exists_cons_of_ne_nil (hq q (List.mem_cons_self ..))
      simp [htext, Piece.endsBefore_cons]

theorem parted_cons {p : Piece} {ps : List Piece} :
    Parted (p :: ps) ↔ p.Solid ∧ p.EndsBefore (ps.flatMap Piece.text) ∧ Parted ps := by
  constructor
  · rintro ⟨hsolid, hends⟩
    rw [List.forall_mem_cons] at hsolid
    rw [List.isChain_cons] at hends
    exact ⟨hsolid.1, (endsBefore_flatMap fun q hq => (hsolid.2 q hq).text_ne_nil).mpr hends.1, hsolid.2, hends.2⟩
  · rintro ⟨hp, hends, hps⟩
    rw [endsBefore_flatMap fun q hq => (hps.solid q hq).text_ne_nil] at hends
    exact ⟨List.forall_mem_cons.mpr ⟨hp, hps.solid⟩, List.isChain_cons.mpr ⟨hends, hps.ends⟩⟩

theorem parted_pieces (cs : List Char) : Parted (pieces cs) := by
  induction cs using pieces_induction with
  | nil =>
      rw [pieces_nil]
      exact ⟨fun _ hp => absurd hp List.not_mem_nil, .nil⟩
  | cons c cs ih =>
      rw [pieces_cons, parted_cons, pieces_text]
      exact ⟨Piece.next_solid c cs, Piece.next_ends c cs, ih⟩

/-- Pieces that keep apart are those of the text that they make up. -/
theorem Parted.pieces_eq {ps : List Piece} (h : Parted ps) : pieces (ps.flatMap Piece.text) = ps := by
  induction ps with
  | nil => exact pieces_nil
  | cons p ps ih =>
      obtain ⟨hp, hends, hps⟩ := parted_cons.mp h
      obtain ⟨c, ds, htext⟩ := List.exists_cons_of_ne_nil hp.text_ne_nil
      rw [List.flatMap_cons, htext, List.cons_append, pieces_cons, Piece.next_of_solid hp htext hends, ih hps]

theorem parted_singleton {p : Piece} (h : p.Solid) : Parted [p] := by
  rw [parted_cons]
  exact ⟨h, p.endsBefore_nil, fun _ hp => absurd hp List.not_mem_nil, .nil⟩

/-- A piece is found again in its own text. -/
theorem Piece.Solid.pieces_eq {p : Piece} (h : p.Solid) : pieces p.text = [p] := by
  have hpieces := (parted_singleton h).pieces_eq
  rwa [List.flatMap_singleton] at hpieces

theorem Parted.append {ps qs : List Piece} (hps : Parted ps) (hqs : Parted qs)
    (hseam : ∀ p ∈ ps.getLast?, p.EndsBefore (qs.flatMap Piece.text)) : Parted (ps ++ qs) := by
  constructor
  · exact List.forall_mem_append.mpr ⟨hps.solid, hqs.solid⟩
  · apply List.isChain_append.mpr
    refine ⟨hps.ends, hqs.ends, ?_⟩
    intro p hp
    exact (endsBefore_flatMap fun q hq => (hqs.solid q hq).text_ne_nil).mp (hseam p hp)

/-- Pieces that keep apart, also from the text behind them, are the first ones of the whole text. -/
theorem Parted.pieces_append {ps : List Piece} {rest : List Char} (h : Parted ps)
    (hrest : ∀ p ∈ ps.getLast?, p.EndsBefore rest) :
    pieces (ps.flatMap Piece.text ++ rest) = ps ++ pieces rest := by
  have hparted : Parted (ps ++ pieces rest) := by
    apply h.append (parted_pieces rest)
    rwa [pieces_text]
  have hpieces := hparted.pieces_eq
  rwa [List.flatMap_append, pieces_text] at hpieces

/-- A division into pieces can be cut between any two of them. -/
theorem pieces_of_append {cs : List Char} {ps qs : List Piece} (h : pieces cs = ps ++ qs) :
    pieces (ps.flatMap Piece.text) = ps ∧ pieces (qs.flatMap Piece.text) = qs := by
  obtain ⟨hsolid, hends⟩ := h ▸ parted_pieces cs
  obtain ⟨hps, hqs⟩ := List.forall_mem_append.mp hsolid
  obtain ⟨hleft, hright, -⟩ := List.isChain_append.mp hends
  exact ⟨Parted.pieces_eq ⟨hps, hleft⟩, Parted.pieces_eq ⟨hqs, hright⟩⟩

end Lexing
