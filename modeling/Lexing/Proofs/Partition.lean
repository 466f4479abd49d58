import Lexing.Proofs.Placement
import Lexing.Token.Select

/-! How a scan divides a text. Its tokens lie side by side, each where its own text is written, and the offsets
between them are those of the characters left out. -/

namespace Lexing

def Span.stop (x : Span) : Nat := x.offset + x.token.text.length

def Span.covers (x : Span) (i : Nat) : Bool := x.offset ≤ i && i < x.stop

/-- The diagnostics that stand for characters left out. -/
def Report.dropped (r : Report) : List Diagnostic :=
  r.diagnostics.filter (·.kind = .unrecognizedCharacter)

/-- Spans and gaps that divide a text between them: no two spans overlap, none is empty or holds anything but
what is written there, and the gaps are the offsets that none of them covers. -/
structure Tiling (cs : List Char) (xs : List Span) (gaps : List Nat) : Prop where
  increasing : (xs.map (·.offset)).Pairwise (· < ·)
  disjoint : xs.Pairwise fun x y => x.stop ≤ y.offset
  text_ne : ∀ x ∈ xs, x.token.text ≠ ""
  stop_le : ∀ x ∈ xs, x.stop ≤ cs.length
  text_eq : ∀ x ∈ xs, x.token.text.toList = (cs.drop x.offset).take x.token.text.length
  gaps_eq : gaps = (List.range cs.length).filter fun i => !xs.any (·.covers i)

/-- A division of a text into the tokens and the dropped characters of its report. -/
structure Division (source : String) (xs : List Span) (gaps : List Nat) : Prop where
  tiling : Tiling source.toList xs gaps
  tokens : xs.map (·.token) = (analyze source).tokens
  dropped : gaps.map Int.ofNat = (analyze source).dropped.map (·.offset)

def gap? (x : Place × Piece) : Option Nat :=
  match x.2.kind? with
  | some _ => none
  | none => some x.1.offset

def gaps (cs : List Char) : List Nat := (placed cs).filterMap gap?

theorem Span.covers_iff {x : Span} {i : Nat} : x.covers i ↔ x.offset ≤ i ∧ i < x.stop := by
  simp [Span.covers]

theorem span?_eq_some {x : Place × Piece} {y : Span} (h : span? x = some y) :
    y.offset = x.1.offset ∧ y.token.text = String.ofList x.2.text ∧ y.token.start = x.1.position := by
  obtain ⟨kind, -, rfl⟩ := Option.map_eq_some_iff.mp h
  exact ⟨rfl, rfl, rfl⟩

theorem text_of_span? {x : Place × Piece} {y : Span} (h : span? x = some y) :
    y.token.text.toList = x.2.text := by
  rw [(span?_eq_some h).2.1, String.toList_ofList]

/-- A placed piece is a token or a gap of one character. -/
theorem span_or_gap (s : Place) (p : Piece) :
    (∃ x, span? (s, p) = some x ∧ gap? (s, p) = none) ∨
      span? (s, p) = none ∧ gap? (s, p) = some s.offset ∧ p.text.length = 1 := by
  cases p with
  | token kind text => exact .inl ⟨_, rfl, rfl⟩
  | openLiteral text => exact .inl ⟨_, rfl, rfl⟩
  | stray c => exact .inr ⟨rfl, rfl, rfl⟩

theorem stop_of_span? {x : Place × Piece} {y : Span} (h : span? x = some y) :
    y.stop = (x.1.next x.2).offset := by
  obtain ⟨ho, ht, -⟩ := span?_eq_some h
  rw [Span.stop, ho, ht, String.length_ofList]
  rfl

theorem mem_spans {cs : List Char} {y : Span} (h : y ∈ spans cs) :
    ∃ x ∈ placed cs, span? x = some y := List.mem_filterMap.mp h

theorem le_offset_of_mem {s : Place} {ps : List Piece} {y : Span}
    (h : y ∈ (places s ps).filterMap span?) : s.offset ≤ y.offset := by
  obtain ⟨x, hx, hy⟩ := List.mem_filterMap.mp h
  obtain ⟨before, after, -, hplace⟩ := mem_places hx
  rw [(span?_eq_some hy).1, hplace, offset_foldl_next]
  exact Nat.le_add_right ..

theorem spans_disjoint (s : Place) (ps : List Piece) :
    ((places s ps).filterMap span?).Pairwise fun x y => x.stop ≤ y.offset := by
  induction ps generalizing s with
  | nil => exact .nil
  | cons p ps ih =>
      rw [places, List.filterMap_cons]
      cases hp : span? (s, p) with
      | none => exact ih _
      | some x =>
          refine List.pairwise_cons.mpr ⟨fun y hy => ?_, ih _⟩
          rw [stop_of_span? hp]
          exact le_offset_of_mem hy

theorem text_ne_nil_of_mem {cs : List Char} {p : Piece} (h : p ∈ pieces cs) : p.text ≠ [] :=
  forall_mem_pieces (P := fun p => p.text ≠ []) Piece.next_text_ne_nil cs p h

theorem split_at_span {cs : List Char} {y : Span} (h : y ∈ spans cs) :
    ∃ before after, cs = before ++ y.token.text.toList ++ after ∧ y.offset = before.length ∧
      y.token.start = Position.start.advance before ∧ y.token.text ≠ "" := by
  obtain ⟨x, hx, hy⟩ := mem_spans h
  obtain ⟨ho, ht, hp⟩ := span?_eq_some hy
  obtain ⟨before, after, hcs, hoff, hpos⟩ := mem_placed hx
  obtain ⟨l, r, hps, -⟩ := mem_places hx
  have hne : x.2.text ≠ [] :=
    text_ne_nil_of_mem (hps ▸ List.mem_append_right l (List.mem_cons_self ..))
  refine ⟨before, after, ?_, ho.trans hoff, hp.trans hpos, ?_⟩
  · rw [ht, String.toList_ofList, hcs]
  · rw [ht]
    intro e
    exact hne (String.ofList_eq_empty_iff.mp e)

theorem spans_increasing (cs : List Char) : ((spans cs).map (·.offset)).Pairwise (· < ·) := by
  refine List.pairwise_map.mpr ((spans_disjoint .start (pieces cs)).imp_of_mem ?_)
  intro x y hx _ hxy
  obtain ⟨_, _, -, -, -, hne⟩ := split_at_span hx
  have hpos : 0 < x.token.text.length := Nat.pos_of_ne_zero fun e => hne (String.length_eq_zero_iff.mp e)
  unfold Span.stop at hxy
  omega

theorem stop_le_length {cs : List Char} {x : Span} (h : x ∈ spans cs) : x.stop ≤ cs.length := by
  obtain ⟨before, after, hcs, ho, -, -⟩ := split_at_span h
  rw [Span.stop, ho, hcs, List.length_append, List.length_append, String.length_toList]
  exact Nat.le_add_right ..

theorem text_at_span {cs : List Char} {x : Span} (h : x ∈ spans cs) :
    x.token.text.toList = (cs.drop x.offset).take x.token.text.length := by
  obtain ⟨before, after, hcs, ho, -, -⟩ := split_at_span h
  rw [ho, hcs, List.append_assoc, List.drop_left, ← String.length_toList, List.take_left]

theorem uncovered_after {x : Span} {o m : Nat} (xs : List Span) (n : Nat) (hstart : x.offset = o)
    (hstop : x.stop = o + m) :
    ((List.range' o (m + n)).filter fun i => !(x :: xs).any (·.covers i)) =
      (List.range' (o + m) n).filter fun i => !xs.any (·.covers i) := by
  have hin : ∀ i ∈ List.range' o m, ¬ (!(x :: xs).any (·.covers i)) = true := by
    intro i hi
    have := List.mem_range'_1.mp hi
    have hx : x.covers i := Span.covers_iff.mpr (by omega)
    simp [hx]
  rw [← List.range'_append_1, List.filter_append, List.filter_eq_nil_iff.mpr hin, List.nil_append]
  apply List.filter_congr
  intro i hi
  have := List.mem_range'_1.mp hi
  have hx : x.covers i = false := by
    apply Bool.eq_false_iff.mpr
    intro h
    have := Span.covers_iff.mp h
    omega
  rw [List.any_cons, hx, Bool.false_or]

theorem uncovered_before {xs : List Span} {o : Nat} (n : Nat) (h : ∀ x ∈ xs, o < x.offset) :
    ((List.range' o (1 + n)).filter fun i => !xs.any (·.covers i)) =
      o :: (List.range' (o + 1) n).filter fun i => !xs.any (·.covers i) := by
  have ho : xs.any (·.covers o) = false := by
    apply List.any_eq_false.mpr
    intro x hx hc
    have := h x hx
    have := Span.covers_iff.mp hc
    omega
  rw [Nat.add_comm, List.range'_succ]
  exact List.filter_cons_of_pos (by simp [ho])

/-- Pieces that begin at `s` cover their offsets, but for the gaps between the tokens. -/
theorem gaps_places (s : Place) (ps : List Piece) :
    (places s ps).filterMap gap? =
      (List.range' s.offset (ps.flatMap Piece.text).length).filter fun i =>
        !((places s ps).filterMap span?).any (·.covers i) := by
  induction ps generalizing s with
  | nil => rfl
  | cons p ps ih =>
      rw [places, List.flatMap_cons, List.length_append]
      rcases span_or_gap s p with ⟨x, hx, hg⟩ | ⟨hx, hg, hlen⟩
      · rw [List.filterMap_cons_some hx, List.filterMap_cons_none hg, ih,
          uncovered_after _ _ (span?_eq_some hx).1 (stop_of_span? hx)]
        rfl
      · have hnext : (s.next p).offset = s.offset + 1 := congrArg (s.offset + ·) hlen
        rw [List.filterMap_cons_none hx, List.filterMap_cons_some hg, ih, hnext, hlen, uncovered_before]
        intro y hy
        have := le_offset_of_mem hy
        omega

theorem gaps_eq (cs : List Char) :
    gaps cs = (List.range cs.length).filter fun i => !(spans cs).any (·.covers i) := by
  rw [gaps, placed, gaps_places, pieces_text, List.range_eq_range']
  rfl

theorem tiling_spans (cs : List Char) : Tiling cs (spans cs) (gaps cs) where
  increasing := spans_increasing cs
  disjoint := spans_disjoint .start (pieces cs)
  text_ne _ hx := by
    obtain ⟨_, _, -, -, -, hne⟩ := split_at_span hx
    exact hne
  stop_le _ hx := stop_le_length hx
  text_eq _ hx := text_at_span hx
  gaps_eq := gaps_eq cs

theorem dropped_offsets (source : String) :
    (analyze source).dropped.map (·.offset) = (gaps source.toList).map Int.ofNat := by
  rw [Report.dropped, analyze_diagnostics, List.filter_filterMap, List.map_filterMap, gaps, List.map_filterMap]
  congr 1
  funext x
  obtain ⟨s, p⟩ := x
  cases p <;> rfl

theorem division_spans (source : String) : Division source (spans source.toList) (gaps source.toList) where
  tiling := tiling_spans source.toList
  tokens := (Report.tokens_eq .reporting source).symm
  dropped := (dropped_offsets source).symm

theorem length_spans_add_gaps (s : Place) (ps : List Piece) :
    (((places s ps).filterMap span?).flatMap (·.token.text.toList)).length +
      ((places s ps).filterMap gap?).length = (ps.flatMap Piece.text).length := by
  induction ps generalizing s with
  | nil => rfl
  | cons p ps ih =>
      have hps := ih (s.next p)
      rw [places, List.flatMap_cons, List.length_append]
      rcases span_or_gap s p with ⟨x, hx, hg⟩ | ⟨hx, hg, hlen⟩
      · have ht : x.token.text.toList = p.text := text_of_span? hx
        rw [List.filterMap_cons_some hx, List.filterMap_cons_none hg, List.flatMap_cons, ht,
          List.length_append]
        omega
      · rw [List.filterMap_cons_none hx, List.filterMap_cons_some hg, List.length_cons, hlen]
        omega

theorem spans_sublist (s : Place) (ps : List Piece) :
    (((places s ps).filterMap span?).flatMap (·.token.text.toList)).Sublist (ps.flatMap Piece.text) := by
  induction ps generalizing s with
  | nil => exact .slnil
  | cons p ps ih =>
      rw [places, List.flatMap_cons]
      cases hs : span? (s, p) with
      | some x =>
          have ht : x.token.text.toList = p.text := text_of_span? hs
          rw [List.filterMap_cons_some hs, List.flatMap_cons, ht]
          exact (List.Sublist.refl _).append (ih _)
      | none =>
          rw [List.filterMap_cons_none hs]
          exact (ih _).trans (List.sublist_append_right ..)

theorem toList_spell_analyze (source : String) :
    (Token.spell (analyze source).tokens).toList =
      (spans source.toList).flatMap (·.token.text.toList) := by
  rw [Token.toList_spell, analyze, Report.tokens_eq, List.flatMap_map]

theorem length_spell_add_dropped (source : String) :
    (Token.spell (analyze source).tokens).length + (analyze source).dropped.length = source.length := by
  have hd : (analyze source).dropped.length = (gaps source.toList).length := by
    simpa using congrArg List.length (dropped_offsets source)
  have h := length_spans_add_gaps .start (pieces source.toList)
  rw [pieces_text] at h
  rw [hd, ← String.length_toList, toList_spell_analyze, ← String.length_toList]
  exact h

/-- What is as long as the text it is taken from is that text. -/
theorem spell_eq_of_length_eq {source : String}
    (h : (Token.spell (analyze source).tokens).length = source.length) :
    Token.spell (analyze source).tokens = source := by
  have hsub := spans_sublist .start (pieces source.toList)
  rw [pieces_text] at hsub
  apply String.toList_inj.mp
  rw [toList_spell_analyze]
  apply hsub.eq_of_length
  rw [← String.length_toList, toList_spell_analyze] at h
  exact h

/-- Spans that lie side by side in `n` characters. -/
def Apart (n : Nat) (xs : List Span) : Prop :=
  xs.Pairwise (fun x y => x.stop ≤ y.offset) ∧ ∀ x ∈ xs, x.offset < x.stop ∧ x.stop ≤ n

theorem Tiling.apart {cs : List Char} {xs : List Span} {gaps : List Nat} (h : Tiling cs xs gaps) :
    Apart cs.length xs := by
  refine ⟨h.disjoint, ?_⟩
  intro x hx
  have hpos : 0 < x.token.text.length :=
    Nat.pos_of_ne_zero fun e => h.text_ne x hx (String.length_eq_zero_iff.mp e)
  exact ⟨Nat.lt_add_of_pos_right hpos, h.stop_le x hx⟩

theorem Tiling.covers_iff {cs : List Char} {xs : List Span} {gaps : List Nat} (h : Tiling cs xs gaps)
    {i : Nat} (hi : i < cs.length) : xs.any (·.covers i) ↔ i ∉ gaps := by
  rw [h.gaps_eq, List.mem_filter]
  simp [hi]

/-- Where the first span begins, nothing that comes later does. -/
theorem Apart.head_le {n : Nat} {x y : Span} {xs ys : List Span} (hx : Apart n (x :: xs))
    (hy : Apart n (y :: ys))
    (h : ∀ i < n, (x :: xs).any (·.covers i) → (y :: ys).any (·.covers i)) : y.offset ≤ x.offset := by
  have hstop := hx.2 x (List.mem_cons_self ..)
  have hcov : (x :: xs).any (·.covers x.offset) := by
    rw [List.any_cons, Span.covers_iff.mpr ⟨Nat.le_refl _, hstop.1⟩, Bool.true_or]
  obtain ⟨z, hz, hc⟩ := List.any_eq_true.mp (h x.offset (by omega) hcov)
  have hzx := (Span.covers_iff.mp hc).1
  cases hz with
  | head => exact hzx
  | tail _ hz =>
      have hyz := List.rel_of_pairwise_cons hy.1 hz
      have := hy.2 y (List.mem_cons_self ..)
      omega

theorem Apart.tail {n : Nat} {x : Span} {xs : List Span} (h : Apart n (x :: xs)) : Apart n xs :=
  ⟨h.1.of_cons, fun y hy => h.2 y (List.mem_cons_of_mem x hy)⟩

theorem Apart.covers_tail {n : Nat} {x : Span} {xs : List Span} (h : Apart n (x :: xs)) (i : Nat) :
    xs.any (·.covers i) ↔ (x :: xs).any (·.covers i) ∧ ¬ x.covers i := by
  rw [List.any_cons, Bool.or_eq_true]
  constructor
  · intro hi
    refine ⟨.inr hi, fun hc => ?_⟩
    obtain ⟨y, hy, hyc⟩ := List.any_eq_true.mp hi
    have := List.rel_of_pairwise_cons h.1 hy
    have := Span.covers_iff.mp hc
    have := Span.covers_iff.mp hyc
    omega
  · rintro ⟨hi | hi, hc⟩
    · exact absurd hi hc
    · exact hi

/-- Tokens that cover the same offsets in the same order stand at the same offsets. -/
theorem Apart.unique {n : Nat} {xs ys : List Span} (hx : Apart n xs) (hy : Apart n ys)
    (htokens : xs.map (·.token) = ys.map (·.token))
    (hcovers : ∀ i < n, xs.any (·.covers i) ↔ ys.any (·.covers i)) : xs = ys := by
  induction xs generalizing ys with
  | nil => exact (List.map_eq_nil_iff.mp htokens.symm).symm
  | cons x xs ih =>
      cases ys with
      | nil => cases htokens
      | cons y ys =>
          obtain ⟨ht, hts⟩ := List.cons.inj htokens
          have hle := hx.head_le hy fun i hi => (hcovers i hi).mp
          have hge := hy.head_le hx fun i hi => (hcovers i hi).mpr
          obtain rfl : x = y := by
            cases x
            cases y
            exact congrArg₂ Span.mk (Nat.le_antisymm hge hle) ht
          refine congrArg _ (ih hx.tail hy.tail hts fun i hi => ?_)
          rw [hx.covers_tail, hy.covers_tail, hcovers i hi]

/-- The offsets of the tokens are no choice: a text is divided in one way. -/
theorem Division.unique {source : String} {xs ys : List Span} {g k : List Nat}
    (hx : Division source xs g) (hy : Division source ys k) : xs = ys ∧ g = k := by
  have hgaps : g = k :=
    (List.map_inj_right fun _ _ => Int.ofNat.inj).mp (hx.dropped.trans hy.dropped.symm)
  subst hgaps
  refine ⟨hx.tiling.apart.unique hy.tiling.apart (hx.tokens.trans hy.tokens.symm) ?_, rfl⟩
  intro i hi
  rw [hx.tiling.covers_iff hi, hy.tiling.covers_iff hi]

/-- The tokens and the dropped characters divide the text, and the text is spelled by its tokens exactly when
no character is dropped. -/
theorem analyze_partition (source : String) :
    (∃ xs gaps, Division source xs gaps) ∧
    ((analyze source).dropped.map (·.offset)).Pairwise (· < ·) ∧
    (Token.spell (analyze source).tokens).length + (analyze source).dropped.length = source.length ∧
    (Token.spell (analyze source).tokens = source ↔ (analyze source).dropped = []) ∧
    ((Token.spell (analyze source).tokens).length = source.length ↔ (analyze source).dropped = []) := by
  have hcount := length_spell_add_dropped source
  have hlen : (Token.spell (analyze source).tokens).length = source.length ↔
      (analyze source).dropped = [] := by
    rw [← List.length_eq_zero_iff]
    omega
  refine ⟨⟨_, _, division_spans source⟩, ?_, hcount, ?_, hlen⟩
  · rw [dropped_offsets, gaps_eq]
    refine List.pairwise_map.mpr ((List.pairwise_lt_range.filter _).imp ?_)
    intro i j hij
    exact Int.ofNat_lt.mpr hij
  · constructor
    · intro h
      exact hlen.mp (congrArg String.length h)
    · intro h
      exact spell_eq_of_length_eq (hlen.mpr h)

end Lexing
