import Lexing.Proofs.Partition

/-! The positions that a scan records. Whatever moved the scan there, the position of a token or a diagnostic
is that of its offset in the text. -/

namespace Lexing

theorem offset_lt_length {cs : List Char} {x : Place × Piece} (h : x ∈ placed cs) :
    x.1.offset < cs.length := by
  obtain ⟨l, r, hps, -⟩ := mem_places h
  have hne : x.2.text ≠ [] :=
    text_ne_nil_of_mem (hps ▸ List.mem_append_right l (List.mem_cons_self ..))
  have hpos := List.length_pos_iff.mpr hne
  obtain ⟨before, after, hcs, ho, -⟩ := mem_placed h
  rw [hcs, ho, List.length_append, List.length_append]
  omega

theorem position_of_placed {cs : List Char} {x : Place × Piece} (h : x ∈ placed cs) :
    x.1.position = Position.ofOffset cs x.1.offset := by
  have ho := Nat.le_of_lt (offset_lt_length h)
  obtain ⟨before, after, hcs, hoff, hpos⟩ := mem_placed h
  rw [← Position.advance_take cs ho, hpos, hoff]
  congr 1
  rw [hcs, List.append_assoc, List.take_left]

theorem start_of_span {cs : List Char} {y : Span} (h : y ∈ spans cs) :
    y.token.start = Position.ofOffset cs y.offset := by
  obtain ⟨x, hx, hy⟩ := mem_spans h
  obtain ⟨ho, -, hp⟩ := span?_eq_some hy
  rw [hp, ho]
  exact position_of_placed hx

theorem diagnostic?_eq_some {x : Place × Piece} {d : Diagnostic} (h : diagnostic? x = some d) :
    d.offset = x.1.offset ∧ d.start = x.1.position := by
  obtain ⟨s, p⟩ := x
  cases p with
  | token kind text => cases h
  | openLiteral text =>
      obtain rfl := Option.some.inj h
      exact ⟨rfl, rfl⟩
  | stray c =>
      obtain rfl := Option.some.inj h
      exact ⟨rfl, rfl⟩

theorem start_of_diagnostic {source : String} {d : Diagnostic} (h : d ∈ (analyze source).diagnostics) :
    ∃ o < source.length, d.offset = o ∧ d.start = Position.ofOffset source.toList o := by
  rw [analyze_diagnostics] at h
  obtain ⟨x, hx, hd⟩ := List.mem_filterMap.mp h
  obtain ⟨ho, hp⟩ := diagnostic?_eq_some hd
  refine ⟨x.1.offset, ?_, ho, ?_⟩
  · rw [← String.length_toList]
    exact offset_lt_length hx
  · rw [hp]
    exact position_of_placed hx

/-- A whole pass moves as far as its text does. -/
theorem position_ofText (mode : Mode) (cs : List Char) :
    (Pass.ofText mode cs).position = Position.start.advance cs := by
  have h := Pass.foldl_step_place mode Pass.start (forall_mem_pieces next_ne_stray_lineFeed cs)
  have hp := congrArg Place.position h
  rw [position_foldl_next, pieces_text] at hp
  exact hp

/-- Every position is that of its offset: the line counts the line feeds before it, the column the characters
since the last of them. The jumps that lead there are walks of single characters. -/
theorem start_eq_ofOffset (source : String) :
    (∃ xs gaps, Division source xs gaps ∧ xs.map (·.token) = tokenize source ∧
      (∀ ys k, Division source ys k → ys = xs) ∧
      ∀ x ∈ xs, x.token.start = Position.ofOffset source.toList x.offset) ∧
    (∀ d ∈ (analyze source).diagnostics, ∃ o < source.length,
      d.offset = o ∧ d.start = Position.ofOffset source.toList o) ∧
    (∀ mode, (Pass.ofText mode source.toList).position = Position.start.advance source.toList) ∧
    (∀ (p : Position) (cs : List Char), p.jump cs = p.advance cs) ∧
    ∀ (p : Position) (c : Char), c ≠ '\n' → (p.after c).line = p.line := by
  refine ⟨?_, fun d hd => start_of_diagnostic hd, fun mode => position_ofText mode source.toList,
    Position.jump_eq_advance, ?_⟩
  · have hdiv := division_spans source
    refine ⟨_, _, hdiv, ?_, fun ys k hys => (hys.unique hdiv).1, fun x hx => start_of_span hx⟩
    rw [hdiv.tokens, analyze, Report.tokens_of]
  · intro p c hc
    rw [Position.after_of_ne p hc]
    rfl

end Lexing
