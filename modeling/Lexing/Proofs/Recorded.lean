import Lexing.Proofs.Splitting

/-! What a scan records of pieces that begin somewhere in a text: their tokens, told by the position alone, what is
wrong with them, told by the offset and the position, and the diagnostics of the characters left out. -/

namespace Lexing

/-- The token that a piece becomes at a position. -/
def Piece.tokenAt? (origin : Position) (p : Piece) : Option Token :=
  p.kind?.map fun kind => ⟨kind, String.ofList p.text, origin⟩

/-- The kind and the text of a token are those of a piece. -/
def Piece.Becomes (p : Piece) (t : Token) : Prop := p.kind? = some t.kind ∧ t.text = String.ofList p.text

def tokensFrom (origin : Position) : List Piece → List Token
  | [] => []
  | p :: ps => (p.tokenAt? origin).toList ++ tokensFrom (origin.advance p.text) ps

/-- A diagnostic without the index of a token: what is wrong, and where. -/
def Diagnostic.unindexed (d : Diagnostic) : Diagnostic := { d with lastToken := none }

/-- What is wrong with a piece that stands at an offset and a position. -/
def Piece.faultAt? (offset : Nat) (origin : Position) : Piece → Option Diagnostic
  | token .. => none
  | openLiteral _ => some ⟨.unterminatedString, offset, origin, none⟩
  | stray _ => some ⟨.unrecognizedCharacter, offset, origin, none⟩

def faultsFrom (offset : Nat) (origin : Position) : List Piece → List Diagnostic
  | [] => []
  | p :: ps =>
      (p.faultAt? offset origin).toList ++ faultsFrom (offset + p.text.length) (origin.advance p.text) ps

/-- The diagnostics of the characters left out among pieces that begin at a place. -/
def strays (s : Place) (ps : List Piece) : List Diagnostic :=
  ((places s ps).filterMap diagnostic?).filter (·.kind = .unrecognizedCharacter)

theorem tokensFrom_append (origin : Position) (ps qs : List Piece) :
    tokensFrom origin (ps ++ qs) =
      tokensFrom origin ps ++ tokensFrom (origin.advance (ps.flatMap Piece.text)) qs := by
  induction ps generalizing origin with
  | nil => rfl
  | cons p ps ih =>
      simp only [List.cons_append, tokensFrom, ih, List.flatMap_cons, Position.advance_append, List.append_assoc]

theorem tokensFrom_cons {p : Piece} {kind : Token.Kind} (origin : Position) (ps : List Piece)
    (h : p.kind? = some kind) :
    tokensFrom origin (p :: ps) =
      ⟨kind, String.ofList p.text, origin⟩ :: tokensFrom (origin.advance p.text) ps := by
  simp only [tokensFrom, Piece.tokenAt?, h, Option.map_some, Option.toList_some, List.singleton_append]

theorem tokens_places (s : Place) (ps : List Piece) :
    ((places s ps).filterMap span?).map (·.token) = tokensFrom s.position ps := by
  induction ps generalizing s with
  | nil => rfl
  | cons p ps ih =>
      have hps : _ = tokensFrom (s.position.advance p.text) ps := ih (s.next p)
      rw [places, tokensFrom, ← hps, List.filterMap_cons, Piece.tokenAt?, span?]
      cases p.kind? <;> rfl

theorem tokenize_of_pieces {source : String} {ps : List Piece} (h : pieces source.toList = ps) :
    tokenize source = tokensFrom .start ps := by
  rw [← Report.tokens_of .reporting, ← analyze, tokens_of_pieces h, tokens_places]
  rfl

theorem tokenize_eq (source : String) : tokenize source = tokensFrom .start (pieces source.toList) :=
  tokenize_of_pieces rfl

theorem tokensFrom_eq_shift (origin : Position) (ps : List Piece) :
    tokensFrom origin ps = (tokensFrom .start ps).map (Token.shift origin) := by
  have horigin := tokens_places ⟨0, origin, 0⟩ ps
  have hstart : _ = tokensFrom .start ps := tokens_places .start ps
  rw [← horigin, ← hstart, spans_places, List.map_map, List.map_map]
  rfl

theorem faultsFrom_append (offset : Nat) (origin : Position) (ps qs : List Piece) :
    faultsFrom offset origin (ps ++ qs) = faultsFrom offset origin ps ++
      faultsFrom (offset + (ps.flatMap Piece.text).length) (origin.advance (ps.flatMap Piece.text)) qs := by
  induction ps generalizing offset origin with
  | nil => rfl
  | cons p ps ih =>
      simp only [List.cons_append, faultsFrom, ih, List.flatMap_cons, Position.advance_append, List.length_append,
        Nat.add_assoc, List.append_assoc]

theorem faults_places (s : Place) (ps : List Piece) :
    ((places s ps).filterMap diagnostic?).map Diagnostic.unindexed = faultsFrom s.offset s.position ps := by
  induction ps generalizing s with
  | nil => rfl
  | cons p ps ih =>
      have hps : _ = faultsFrom (s.offset + p.text.length) (s.position.advance p.text) ps := ih (s.next p)
      rw [places, faultsFrom, ← hps, List.filterMap_cons]
      cases p <;> rfl

theorem faults_of_pieces {source : String} {ps : List Piece} (h : pieces source.toList = ps) :
    (analyze source).diagnostics.map Diagnostic.unindexed = faultsFrom 0 .start ps := by
  rw [diagnostics_of_pieces h, faults_places]
  rfl

theorem faults_eq (source : String) :
    (analyze source).diagnostics.map Diagnostic.unindexed = faultsFrom 0 .start (pieces source.toList) :=
  faults_of_pieces rfl

theorem faultsFrom_eq_shift (offset : Nat) (origin : Position) (ps : List Piece) :
    faultsFrom offset origin ps = (faultsFrom 0 .start ps).map fun d =>
      ⟨d.kind, d.offset + offset, origin.shift d.start, none⟩ := by
  have horigin := faults_places ⟨offset, origin, 0⟩ ps
  have hstart : _ = faultsFrom 0 .start ps := faults_places .start ps
  rw [← horigin, ← hstart, diagnostics_places, List.map_map, List.map_map]
  rfl

theorem strays_append (s : Place) (ps qs : List Piece) :
    strays s (ps ++ qs) = strays s ps ++ strays (ps.foldl Place.next s) qs := by
  simp only [strays, places_append, List.filterMap_append, List.filter_append]

theorem dropped_of_pieces {source : String} {ps : List Piece} (h : pieces source.toList = ps) :
    (analyze source).dropped = strays .start ps := by
  rw [Report.dropped, diagnostics_of_pieces h, strays]

theorem le_offset_of_diagnostic {s : Place} {ps : List Piece} {d : Diagnostic}
    (h : d ∈ (places s ps).filterMap diagnostic?) : (s.offset : Int) ≤ d.offset := by
  obtain ⟨x, hx, hd⟩ := List.mem_filterMap.mp h
  obtain ⟨before, after, -, hplace⟩ := mem_places hx
  rw [(diagnostic?_eq_some hd).1, hplace, offset_foldl_next]
  exact Int.ofNat_le.mpr (Nat.le_add_right ..)

theorem strays_before {s : Place} {ps : List Piece} {n : Int} (h : n ≤ s.offset) :
    (strays s ps).filter (·.offset < n) = [] := by
  apply List.filter_eq_nil_iff.mpr
  intro d hd hlt
  have hle := le_offset_of_diagnostic (List.mem_filter.mp hd).1
  have hlt := of_decide_eq_true hlt
  omega

/-- A piece that is a token leaves no character out. -/
theorem strays_cons {s : Place} {p : Piece} {kind : Token.Kind} (ps : List Piece) (h : p.kind? = some kind) :
    strays s (p :: ps) = strays (s.next p) ps := by
  cases p with
  | token kind text => rfl
  | openLiteral text => rfl
  | stray c => cases h

theorem strays_eq_nil_iff {s : Place} {ps : List Piece} : strays s ps = [] ↔ ∀ p ∈ ps, p.kind? ≠ none := by
  induction ps generalizing s with
  | nil => exact iff_of_true rfl fun _ hp => absurd hp List.not_mem_nil
  | cons p ps ih =>
      rw [List.forall_mem_cons]
      cases hkind : p.kind? with
      | some kind => rw [strays_cons ps hkind, ih, and_iff_right (Option.some_ne_none kind)]
      | none =>
          cases p with
          | token kind text => cases hkind
          | openLiteral text => cases hkind
          | stray c => exact iff_of_false (List.cons_ne_nil _ _) fun h => h.1 rfl

theorem dropped_eq_nil_iff (source : String) :
    (analyze source).dropped = [] ↔ ∀ p ∈ pieces source.toList, p.kind? ≠ none := by
  rw [dropped_of_pieces rfl, strays_eq_nil_iff]

theorem exists_place {p : Piece} {ps : List Piece} (s : Place) (h : p ∈ ps) : ∃ t, (t, p) ∈ places s ps := by
  induction ps generalizing s with
  | nil => cases h
  | cons q qs ih =>
      cases h with
      | head => exact ⟨s, List.mem_cons_self ..⟩
      | tail _ h =>
          obtain ⟨t, ht⟩ := ih (s.next q) h
          exact ⟨t, List.mem_cons_of_mem _ ht⟩

/-- A diagnostic tells of an open literal exactly when there is one. -/
theorem unterminated_iff (source : String) :
    (∃ d ∈ (analyze source).diagnostics, d.kind = .unterminatedString) ↔
      ∃ text, .openLiteral text ∈ pieces source.toList := by
  constructor
  · rintro ⟨d, hd, hkind⟩
    obtain ⟨s, text, hx, -⟩ := mem_placed_of_unterminated hd hkind
    obtain ⟨before, after, hpieces, -⟩ := mem_places hx
    exact ⟨text, hpieces ▸ List.mem_append_right before (List.mem_cons_self ..)⟩
  · rintro ⟨text, h⟩
    obtain ⟨s, hx⟩ := exists_place .start h
    obtain ⟨-, ds, -, -, -, hds⟩ := ends_open hx
    exact ⟨_, hds ▸ List.mem_append_right ds (List.mem_singleton_self _), rfl⟩

theorem becomes_of_mem_tokensFrom {origin : Position} {ps : List Piece} {t : Token} (h : t ∈ tokensFrom origin ps) :
    ∃ p ∈ ps, p.Becomes t := by
  induction ps generalizing origin with
  | nil => cases h
  | cons p ps ih =>
      rcases List.mem_append.mp h with h | h
      · obtain ⟨kind, hkind, rfl⟩ := Option.map_eq_some_iff.mp (Option.mem_toList.mp h)
        exact ⟨p, List.mem_cons_self .., hkind, rfl⟩
      · obtain ⟨q, hq, hbecomes⟩ := ih h
        exact ⟨q, List.mem_cons_of_mem p hq, hbecomes⟩

theorem kind_of_mem_tokensFrom {origin : Position} {ps : List Piece} {t : Token} (h : t ∈ tokensFrom origin ps) :
    ∃ p ∈ ps, p.kind? = some t.kind := by
  obtain ⟨p, hp, hkind, -⟩ := becomes_of_mem_tokensFrom h
  exact ⟨p, hp, hkind⟩

end Lexing
