import Lexing.Proofs.Recorded

/-! A text with more text behind it. No piece but the last one can change: a token there goes on or stays, and a
character left out there may become one. -/

namespace Lexing

/-- More text is first given to the last piece. -/
theorem pieces_extend {cs : List Char} {ps : List Piece} {p : Piece} (h : pieces cs = ps ++ [p])
    (more : List Char) : pieces (cs ++ more) = ps ++ pieces (p.text ++ more) := by
  obtain ⟨hsolid, hends⟩ := h ▸ parted_pieces cs
  obtain ⟨hps, hp⟩ := List.forall_mem_append.mp hsolid
  obtain ⟨hleft, -, hseam⟩ := List.isChain_append.mp hends
  have htext : cs = ps.flatMap Piece.text ++ p.text := by
    rw [← pieces_text cs, h, List.flatMap_append, List.flatMap_singleton]
  have hne : p.text ≠ [] := (hp p (List.mem_singleton_self p)).text_ne_nil
  rw [htext, List.append_assoc]
  apply Parted.pieces_append ⟨hps, hleft⟩
  intro q hq
  exact (hseam q hq p rfl).append hne more

namespace Literal

/-- A literal that is open at the end of a text does not close before it with more text behind. -/
theorem le_closingFrom_append {q : Char} {n k : Nat} {b : Bool} {cs : List Char} (more : List Char)
    (h : closingFrom q n b cs = none) (hk : closingFrom q n b (cs ++ more) = some k) : n + cs.length ≤ k := by
  induction cs generalizing n b with
  | nil => exact Nat.le_of_lt (closingFrom_le hk).1
  | cons c cs ih =>
      rw [List.length_cons]
      cases b with
      | true =>
          have hle := ih h hk
          omega
      | false =>
          rw [List.cons_append] at hk
          simp only [closingFrom] at h hk
          split at h
          · cases h
          · next hc =>
              rw [if_neg hc] at hk
              have hle := ih h hk
              omega

end Literal

namespace Piece

theorem open_reaches {q : Char} {cs : List Char} (h : OpenLexeme (q :: cs)) (more : List Char) :
    (next q (cs ++ more)).1.Reaches .string (q :: cs) := by
  rw [next_of_quote _ (Literal.quote_of_open h), literal]
  cases hclose : Literal.closing? q (cs ++ more) with
  | none =>
      refine ⟨.string, rfl, ?_, fun _ => rfl⟩
      simp only [text, List.length_cons, List.length_append]
      omega
  | some n =>
      have hle := Literal.le_closingFrom_append more (Literal.closing?_open h) hclose
      have hlength := (Literal.closing?_le hclose).2
      refine ⟨.string, rfl, ?_, fun _ => rfl⟩
      simp only [text, List.length_cons, List.length_take]
      omega

/-- A token goes on with more text behind it, or stays. -/
theorem Solid.extends {p : Piece} {kind : Token.Kind} {c : Char} {ds : List Char} (h : p.Solid)
    (hkind : p.kind? = some kind) (htext : p.text = c :: ds) (more : List Char) :
    ∃ k, (next c (ds ++ more)).1.kind? = some k ∧ p.text <+: (next c (ds ++ more)).1.text := by
  have hreach : ∃ kind, (next c (ds ++ more)).1.Reaches kind (c :: ds) := by
    cases p with
    | token kind text =>
        obtain rfl : text = c :: ds := htext
        exact ⟨kind, Lexeme.reaches more h⟩
    | openLiteral text =>
        obtain rfl : text = c :: ds := htext
        exact ⟨.string, open_reaches h more⟩
    | stray d => cases hkind
  obtain ⟨_, k, hk, hle, -⟩ := hreach
  have hwhole : (next c (ds ++ more)).1.text <+: c :: ds ++ more := ⟨_, next_text c (ds ++ more)⟩
  refine ⟨k, hk, ?_⟩
  rw [htext]
  exact List.prefix_of_prefix_length_le (List.prefix_append _ more) hwhole hle

end Piece

/-- Tokens of which at most the last one goes on in the others. -/
structure Revised (ts us : List Token) : Prop where
  length_le : ts.length ≤ us.length
  init : ts.dropLast <+: us
  last : ∀ t ∈ ts.getLast?, ∃ u, us[ts.length - 1]? = some u ∧ u.start = t.start ∧ t.text.toList <+: u.text.toList

theorem revised_of_prefix {ts us : List Token} (h : ts <+: us) : Revised ts us where
  length_le := h.length_le
  init := (List.dropLast_prefix ts).trans h
  last t ht := by
    obtain ⟨init, rfl⟩ := List.getLast?_eq_some_iff.mp ht
    obtain ⟨more, rfl⟩ := h
    refine ⟨t, ?_, rfl, List.prefix_refl _⟩
    rw [List.length_append, List.length_singleton, Nat.add_sub_cancel, List.append_assoc,
      List.getElem?_append_right (Nat.le_refl _), Nat.sub_self]
    rfl

theorem revised_of_last {ts more : List Token} {t u : Token} (hstart : u.start = t.start)
    (htext : t.text.toList <+: u.text.toList) : Revised (ts ++ [t]) (ts ++ u :: more) where
  length_le := by simp
  init := by simp
  last := by
    intro t' ht'
    rw [List.getLast?_concat] at ht'
    obtain rfl := Option.some.inj ht'
    exact ⟨u, by simp, hstart, htext⟩

/-- What a scan of a text settles, whatever is written behind the text: all but the last token or, where the last
character is left out, all but that character. -/
structure Settled (source more : String) : Prop where
  tokens : Revised (tokenize source) (tokenize (source ++ more))
  whole : ∀ xs gaps, Division source xs gaps → (∀ x ∈ xs.getLast?, x.stop < source.length) →
    tokenize source <+: tokenize (source ++ more)
  dropped : (analyze (source ++ more)).dropped.filter (·.offset < (source.length : Int) - 1) =
    (analyze source).dropped.filter (·.offset < (source.length : Int) - 1)

theorem settled_of_no_pieces {source : String} (more : String) (h : pieces source.toList = []) :
    Settled source more := by
  have hnil : source.toList = [] := by rw [← pieces_text source.toList, h, List.flatMap_nil]
  have hlength : (source.length : Int) - 1 ≤ Place.start.offset := by
    rw [← String.length_toList, hnil]
    decide
  have htokens : tokenize source = [] := tokenize_of_pieces h
  constructor
  · rw [htokens]
    exact revised_of_prefix List.nil_prefix
  · intro _ _ _ _
    rw [htokens]
    exact List.nil_prefix
  · rw [dropped_of_pieces h, dropped_of_pieces rfl, strays_before hlength, strays_before hlength]

section LastPiece

variable {source : String} {ps : List Piece} {p : Piece} (more : String)

theorem length_of_last (h : pieces source.toList = ps ++ [p]) :
    source.length = ((ps.foldl Place.next .start).next p).offset := by
  have hfold := congrArg Place.offset (foldl_next_of_pieces h)
  rw [List.foldl_append] at hfold
  exact hfold.symm

theorem pieces_of_last (h : pieces source.toList = ps ++ [p]) :
    pieces (source ++ more).toList = ps ++ pieces (p.text ++ more.toList) := by
  rw [String.toList_append]
  exact pieces_extend h more.toList

theorem settled_of_stray {c : Char} (h : pieces source.toList = ps ++ [.stray c]) : Settled source more := by
  have hmore := pieces_of_last more h
  have hlength : (source.length : Int) - 1 ≤ (ps.foldl Place.next .start).offset := by
    rw [length_of_last h]
    simp only [Place.next, Piece.text, List.length_singleton]
    omega
  have htokens : tokenize source <+: tokenize (source ++ more) := by
    rw [tokenize_of_pieces h, tokenize_of_pieces hmore, tokensFrom_append, tokensFrom_append]
    exact (List.prefix_append_right_inj _).mpr List.nil_prefix
  constructor
  · exact revised_of_prefix htokens
  · intro _ _ _ _
    exact htokens
  · rw [dropped_of_pieces h, dropped_of_pieces hmore, strays_append, strays_append, List.filter_append,
      List.filter_append, strays_before hlength, strays_before hlength]

/-- A token that a text ends with stops where the text does. -/
theorem stop_of_last {kind : Token.Kind} (h : pieces source.toList = ps ++ [p]) (hkind : p.kind? = some kind) :
    ∃ x, (spans source.toList).getLast? = some x ∧ x.stop = source.length := by
  obtain ⟨x, hx⟩ : ∃ x, span? (ps.foldl Place.next .start, p) = some x := ⟨_, congrArg (Option.map _) hkind⟩
  have hspans : spans source.toList = (places .start ps).filterMap span? ++ [x] := by
    rw [spans, placed, h, places_append, List.filterMap_append]
    exact congrArg (_ ++ ·) (List.filterMap_cons_some hx)
  refine ⟨x, ?_, ?_⟩
  · rw [hspans, List.getLast?_concat]
  · rw [stop_of_span? hx, length_of_last h]

theorem settled_of_token {kind : Token.Kind} (h : pieces source.toList = ps ++ [p]) (hkind : p.kind? = some kind) :
    Settled source more := by
  have hmore := pieces_of_last more h
  have hsolid : p.Solid := by
    apply (parted_pieces source.toList).solid
    rw [h]
    exact List.mem_append_right ps (List.mem_singleton_self p)
  obtain ⟨c, ds, htext⟩ := List.exists_cons_of_ne_nil hsolid.text_ne_nil
  obtain ⟨k, hk, hprefix⟩ := hsolid.extends hkind htext more.toList
  rw [htext, List.cons_append, pieces_cons] at hmore
  have hlength : (source.length : Int) - 1 ≤
      ((ps.foldl Place.next .start).next (Piece.next c (ds ++ more.toList)).1).offset := by
    have hle := hprefix.length_le
    rw [length_of_last h]
    simp only [Place.next]
    omega
  constructor
  · rw [tokenize_of_pieces h, tokenize_of_pieces hmore, tokensFrom_append, tokensFrom_append,
      tokensFrom_cons _ _ hkind, tokensFrom_cons _ _ hk]
    apply revised_of_last
    · rfl
    · rwa [String.toList_ofList, String.toList_ofList]
  · intro xs gaps hdivision hstop
    -- the last token stops with the text, against what is asked of it
    obtain ⟨rfl, -⟩ := hdivision.unique (division_spans source)
    obtain ⟨x, hx, hend⟩ := stop_of_last h hkind
    exact absurd hend (Nat.ne_of_lt (hstop x hx))
  · rw [dropped_of_pieces h, dropped_of_pieces hmore, strays_append, strays_append, strays_cons _ hk,
      strays_cons _ hkind, List.filter_append, List.filter_append, strays_before hlength]
    rfl

end LastPiece

/-- Text written behind a text revises its last token or its last character at most. -/
theorem analyze_settled (source more : String) : Settled source more := by
  rcases List.eq_nil_or_concat (pieces source.toList) with h | ⟨ps, p, h⟩
  · exact settled_of_no_pieces more h
  · rw [List.concat_eq_append] at h
    cases hkind : p.kind? with
    | some kind => exact settled_of_token more h hkind
    | none =>
        cases p with
        | token kind text => cases hkind
        | openLiteral text => cases hkind
        | stray c => exact settled_of_stray more h

end Lexing
