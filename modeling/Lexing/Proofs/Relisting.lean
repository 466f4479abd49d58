import Lexing.Proofs.Fusion
import Mathlib.Data.List.Forall2

/-! Tokens written one below another. A line feed parts all tokens but blanks and a literal left open, and that one is
the last; so a list of tokens is scanned from their texts again, and what a token is depends on its text alone. -/

namespace Lexing

/-- The texts of tokens, with a line feed between any two. -/
def Token.listing (ts : List Token) : String := "\n".intercalate (ts.map (·.text))

/-- A token without its position. -/
def Token.entry (t : Token) : Token.Kind × String := (t.kind, t.text)

/-- Tokens of a text that are scanned again from their own texts. -/
structure Relisted (source : String) (ts : List Token) : Prop where
  entries : (tokenize (Token.listing ts)).map Token.entry = (ts.map Token.entry).intersperse (.whitespace, "\n")
  column : ∀ t ∈ tokenize (Token.listing ts), t.kind ≠ .whitespace → t.start.column = 1
  no_dropped : (analyze (Token.listing ts)).dropped = []
  open_iff : (∃ d ∈ (analyze (Token.listing ts)).diagnostics, d.kind = .unterminatedString) ↔
    ∃ d ∈ (analyze source).diagnostics, d.kind = .unterminatedString

section Interspersed

variable {α : Type} {a sep : α}

theorem head?_intersperse (as : List α) : (as.intersperse sep).head? = as.head? := by
  cases as with
  | nil => rfl
  | cons a as => cases as <;> rfl

theorem mem_intersperse_iff {as : List α} (h : a ≠ sep) : a ∈ as.intersperse sep ↔ a ∈ as := by
  induction as with
  | nil => rfl
  | cons b as ih =>
      cases as with
      | nil => rfl
      | cons c as => rw [List.intersperse_cons_cons, List.mem_cons, List.mem_cons, ih, or_iff_right h, ← List.mem_cons]

end Interspersed

theorem text_intersperse (ps : List Piece) :
    (ps.intersperse .lineFeed).flatMap Piece.text = ['\n'].intercalate (ps.map Piece.text) := by
  induction ps with
  | nil => rfl
  | cons p ps ih =>
      cases ps with
      | nil => simp only [List.intersperse_singleton, List.flatMap_singleton, List.map_cons, List.map_nil,
          List.intercalate_singleton]
      | cons q ps =>
          rw [List.intersperse_cons_cons, List.flatMap_cons, List.flatMap_cons, ih]
          simp only [List.map_cons, List.intercalate_cons_cons, List.append_assoc]
          rfl

/-- Nothing stands behind a literal that is left open. -/
theorem Parted.nil_of_openLiteral {text : List Char} {ps : List Piece} (h : Parted (.openLiteral text :: ps)) :
    ps = [] :=
  pieces_openLiteral (h.pieces_eq.trans (List.nil_append _).symm)

section Kept

variable (keep : Token.Kind → Bool)

/-- The pieces that become tokens of certain kinds. -/
def kept (ps : List Piece) : List Piece := ps.filter fun p => p.kind?.any keep

theorem kept_of_mem {p : Piece} {ps : List Piece} (h : p ∈ kept keep ps) :
    p ∈ ps ∧ ∃ kind, p.kind? = some kind ∧ keep kind := by
  obtain ⟨hp, hkeep⟩ := List.mem_filter.mp h
  exact ⟨hp, (Option.any_eq_true _ _).mp hkeep⟩

theorem becomes_kept (origin : Position) (ps : List Piece) :
    List.Forall₂ Piece.Becomes (kept keep ps) ((tokensFrom origin ps).filter (keep ·.kind)) := by
  induction ps generalizing origin with
  | nil => exact .nil
  | cons p ps ih =>
      have hps := ih (origin.advance p.text)
      cases hkind : p.kind? with
      | none =>
          rw [kept, List.filter_cons_of_neg (by simp [hkind]), tokensFrom, Piece.tokenAt?, hkind]
          exact hps
      | some kind =>
          rw [tokensFrom_cons _ _ hkind]
          by_cases hkeep : keep kind
          · rw [kept, List.filter_cons_of_pos (by simpa [hkind] using hkeep),
              List.filter_cons_of_pos (by simpa using hkeep)]
            exact .cons ⟨hkind, rfl⟩ hps
          · rw [kept, List.filter_cons_of_neg (by simpa [hkind] using hkeep),
              List.filter_cons_of_neg (by simpa using hkeep)]
            exact hps

/-- Kept pieces that are no blanks are apart with line feeds between them. -/
theorem parted_kept (hblank : keep .whitespace = false) {ps : List Piece} (h : Parted ps) :
    Parted ((kept keep ps).intersperse .lineFeed) := by
  have hnot {p : Piece} {ps : List Piece} (hp : p ∈ kept keep ps) : ¬p.IsBlank := by
    obtain ⟨-, kind, hkind, hkeep⟩ := kept_of_mem keep hp
    intro hp
    obtain rfl : kind = .whitespace := Option.some.inj (hkind.symm.trans hp)
    rw [hblank] at hkeep
    cases hkeep
  induction ps with
  | nil => exact h
  | cons p ps ih =>
      obtain ⟨hp, -, hps⟩ := parted_cons.mp h
      have hrest := ih hps
      by_cases hkeep : p.kind?.any keep
      · have hmem : p ∈ kept keep (p :: ps) := List.mem_filter.mpr ⟨List.mem_cons_self .., hkeep⟩
        have hcons : kept keep (p :: ps) = p :: kept keep ps := List.filter_cons_of_pos hkeep
        rw [hcons]
        cases hk : kept keep ps with
        | nil => exact parted_singleton hp
        | cons q qs =>
            have hq : q ∈ kept keep ps := hk ▸ List.mem_cons_self ..
            rw [hk] at hrest
            rw [List.intersperse_cons_cons, parted_cons, parted_cons]
            refine ⟨hp, ?_, Piece.lineFeed_solid, ?_, hrest⟩
            · apply Piece.endsBefore_lineFeed _ (hnot hmem)
              rintro text rfl
              have hmem := (kept_of_mem keep hq).1
              rw [h.nil_of_openLiteral] at hmem
              cases hmem
            · apply blank_ends hrest
              intro r hr
              rw [head?_intersperse] at hr
              obtain rfl := Option.some.inj hr
              exact hnot hq
      · have hskip : kept keep (p :: ps) = kept keep ps := List.filter_cons_of_neg hkeep
        rwa [hskip]

end Kept

section Entries

variable {ps : List Piece} {ts : List Token}

theorem texts_of_becomes (h : List.Forall₂ Piece.Becomes ps ts) :
    ps.map Piece.text = (ts.map (·.text)).map String.toList := by
  induction h with
  | nil => rfl
  | cons hp _ ih => rw [List.map_cons, List.map_cons, List.map_cons, ← ih, hp.2, String.toList_ofList]

theorem entries_of_becomes (origin : Position) (h : List.Forall₂ Piece.Becomes ps ts) :
    (tokensFrom origin (ps.intersperse .lineFeed)).map Token.entry =
      (ts.map Token.entry).intersperse (.whitespace, "\n") := by
  induction h generalizing origin with
  | nil => rfl
  | cons hp htail ih =>
      cases htail with
      | nil =>
          rw [List.intersperse_singleton, tokensFrom_cons _ _ hp.1, ← hp.2]
          rfl
      | cons hq hrest =>
          rw [List.intersperse_cons_cons, tokensFrom_cons _ _ hp.1, tokensFrom_cons _ _ rfl, List.map_cons,
            List.map_cons, ih, ← hp.2]
          rfl

theorem start_of_tokenAt? {origin : Position} {p : Piece} {t : Token} (h : t ∈ (p.tokenAt? origin).toList) :
    t.start = origin := by
  obtain ⟨kind, -, rfl⟩ := Option.map_eq_some_iff.mp (Option.mem_toList.mp h)
  rfl

/-- Behind a line feed stands the first column. -/
theorem column_of_mem {origin : Position} {t : Token} (horigin : origin.column = 1)
    (ht : t ∈ tokensFrom origin (ps.intersperse .lineFeed)) (hkind : t.kind ≠ .whitespace) : t.start.column = 1 := by
  induction ps generalizing origin with
  | nil => cases ht
  | cons p ps ih =>
      cases ps with
      | nil =>
          rcases List.mem_append.mp ht with h | h
          · rwa [start_of_tokenAt? h]
          · cases h
      | cons q ps =>
          rw [List.intersperse_cons_cons] at ht
          rcases List.mem_append.mp ht with h | h
          · rwa [start_of_tokenAt? h]
          · rw [tokensFrom_cons _ _ rfl] at h
            rcases List.mem_cons.mp h with rfl | h
            · exact absurd rfl hkind
            · exact ih (congrArg Position.column (Position.after_lineFeed _)) h

end Entries

/-- Tokens of certain kinds, without the blanks and with all strings, are scanned again from a list of them. -/
theorem relisted_filter (source : String) (keep : Token.Kind → Bool) (hblank : keep .whitespace = false)
    (hstring : keep .string = true) : Relisted source ((tokenize source).filter (keep ·.kind)) := by
  have hbecomes := becomes_kept keep .start (pieces source.toList)
  rw [← tokenize_eq] at hbecomes
  have hpieces : pieces (Token.listing ((tokenize source).filter (keep ·.kind))).toList =
      (kept keep (pieces source.toList)).intersperse .lineFeed := by
    rw [Token.listing, String.toList_intercalate, ← texts_of_becomes hbecomes]
    have htext := (parted_kept keep hblank (parted_pieces source.toList)).pieces_eq
    rwa [text_intersperse] at htext
  constructor
  · rw [tokenize_of_pieces hpieces]
    exact entries_of_becomes .start hbecomes
  · intro t ht
    rw [tokenize_of_pieces hpieces] at ht
    exact column_of_mem rfl ht
  · apply (dropped_eq_nil_iff _).mpr
    intro p hp hkind
    have hne : p ≠ .lineFeed := by
      rintro rfl
      cases hkind
    rw [hpieces, mem_intersperse_iff hne] at hp
    obtain ⟨-, kind, hsome, -⟩ := kept_of_mem keep hp
    rw [hkind] at hsome
    cases hsome
  · rw [unterminated_iff, unterminated_iff]
    apply exists_congr
    intro text
    have hne : Piece.openLiteral text ≠ .lineFeed := by
      intro h
      cases h
    rw [hpieces, mem_intersperse_iff hne, kept, List.mem_filter]
    exact and_iff_left hstring

theorem tokenize_text {source : String} {t : Token} (h : t ∈ tokenize source) :
    tokenize t.text = [{ t with start := .start }] := by
  rw [tokenize_eq] at h
  obtain ⟨p, hp, hkind, htext⟩ := becomes_of_mem_tokensFrom h
  have hpieces : pieces t.text.toList = [p] := by
    rw [htext, String.toList_ofList]
    exact ((parted_pieces source.toList).solid p hp).pieces_eq
  rw [tokenize_of_pieces hpieces, tokensFrom_cons _ _ hkind, ← htext]
  rfl

/-- A list of the tokens of a text, with or without its comments, is scanned to the same tokens; and so is each text
of a token by itself. -/
theorem tokenize_relisted (source : String) :
    Relisted source (Token.dropWhitespace (tokenize source)) ∧ Relisted source (Token.significant (tokenize source)) ∧
      ∀ t ∈ tokenize source, tokenize t.text = [{ t with start := .start }] := by
  have hblanks := relisted_filter source (fun kind => kind ≠ .whitespace) rfl rfl
  have hsignificant := relisted_filter source (fun kind => kind ≠ .whitespace ∧ kind ≠ .comment) rfl rfl
  refine ⟨hblanks, ?_, fun t ht => tokenize_text ht⟩
  rw [Token.significant, Token.dropWhitespace, Token.dropComments, List.filter_filter]
  simpa only [Bool.decide_and] using hsignificant

end Lexing
