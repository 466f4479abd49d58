import Lexing.Proofs.LongestMatch
import Lexing.Proofs.StartPosition

/-! The diagnostics of a text against its tokens. Those of dropped characters tell between which tokens the characters
stood; one of an open literal comes last, with the last token, and is there exactly when that token does not close. -/

namespace Lexing
open Alphabet

/-- An occurrence of the delimiter that no escape protects. -/
inductive Literal.Exposed (q : Char) : List Char → Prop
  | here {cs} : Exposed q (q :: cs)
  | plain {c cs} : c ≠ escape → Exposed q cs → Exposed q (c :: cs)
  | escaped {c cs} : Exposed q cs → Exposed q (escape :: c :: cs)

/-- Behind the character that opens it, the text of the token does not close. -/
def Token.IsOpen (t : Token) : Prop := ∃ q cs, t.text.toList = q :: cs ∧ ¬Literal.Exposed q cs

/-- The index of the last of so many tokens. -/
def lastIndex (n : Nat) : Option Int := if n = 0 then none else some (n - 1)

structure Diagnosed (source : String) (xs : List Span) (ds : List Diagnostic) : Prop where
  increasing : (ds.map (·.offset)).Pairwise (· < ·)
  dropped_index : ∀ d ∈ ds, d.kind = .unrecognizedCharacter →
    d.lastToken = lastIndex (xs.countP fun x => x.offset < d.offset)
  dropped_between : ∀ d ∈ ds, d.kind = .unrecognizedCharacter → ∀ k : Nat, d.lastToken = some (k : Int) ↔
    (∃ x, xs[k]? = some x ∧ x.stop ≤ d.offset) ∧ ∀ y, xs[k + 1]? = some y → d.offset < y.offset
  open_once : ds.countP (·.kind = .unterminatedString) ≤ 1
  open_last : ∀ d ∈ ds, d.kind = .unterminatedString → ds.getLast? = some d ∧
    d.lastToken = some ((xs.length : Int) - 1) ∧ ∃ x, xs.getLast? = some x ∧ x.token.kind = .string ∧
      d.offset = x.offset ∧ d.start = x.token.start ∧ x.stop = source.length
  open_iff : (∃ d ∈ ds, d.kind = .unterminatedString) ↔
    ∃ x, xs.getLast? = some x ∧ x.token.kind = .string ∧ x.token.IsOpen

namespace Literal

theorem Exposed.closes {q : Char} {cs : List Char} (hq : q ≠ escape) (h : Exposed q cs) (n : Nat) :
    closingFrom q n false cs ≠ none := by
  induction h generalizing n with
  | here =>
      rw [closingFrom, if_pos rfl]
      exact Option.some_ne_none _
  | @plain c cs hc _ ih =>
      have hflag : (c == escape) = false := beq_eq_false_iff_ne.mpr hc
      rw [closingFrom, hflag]
      split
      · exact Option.some_ne_none _
      · exact ih (n + 1)
  | escaped _ ih =>
      rw [closingFrom, if_neg hq.symm, beq_self_eq_true, closingFrom]
      exact ih (n + 1 + 1)

theorem exposed_of_body {q : Char} {body : List Char} (rest : List Char) (h : Body q body) :
    Exposed q (body ++ q :: rest) := by
  induction h with
  | nil => exact .here
  | plain _ hc _ ih => exact .plain hc ih
  | escaped _ ih => exact .escaped ih

/-- A literal stays open where every delimiter is protected. -/
theorem not_exposed_of_open {q : Char} {cs : List Char} (h : OpenLexeme (q :: cs)) : ¬Exposed q cs := by
  intro hexposed
  exact hexposed.closes (escape_not_quote (quote_of_open h)) 0 (closing?_open h)

end Literal

theorem lastIndex_eq_some_iff {n k : Nat} : lastIndex n = some (k : Int) ↔ n = k + 1 := by
  rw [lastIndex]
  split
  · next hn => exact iff_of_false (Option.some_ne_none _).symm (by omega)
  · next hn =>
      rw [Option.some.injEq]
      omega

theorem places_increasing (s : Place) {ps : List Piece} (h : ∀ p ∈ ps, p.text ≠ []) :
    (places s ps).Pairwise fun x y => x.1.offset < y.1.offset := by
  induction ps generalizing s with
  | nil => exact .nil
  | cons p ps ih =>
      rw [List.forall_mem_cons] at h
      refine List.pairwise_cons.mpr ⟨?_, ih _ h.2⟩
      intro y hy
      obtain ⟨before, after, -, hplace⟩ := mem_places hy
      have hpos := List.length_pos_iff.mpr h.1
      rw [hplace, offset_foldl_next, Place.next]
      dsimp only
      omega

theorem diagnostics_increasing (source : String) :
    ((analyze source).diagnostics.map (·.offset)).Pairwise (· < ·) := by
  have hplaced : (placed source.toList).Pairwise fun x y => x.1.offset < y.1.offset :=
    places_increasing .start fun _ hp => text_ne_nil_of_mem hp
  rw [analyze_diagnostics, List.pairwise_map, List.pairwise_filterMap]
  apply hplaced.imp
  intro x y hxy d hd e he
  rw [(diagnostic?_eq_some hd).1, (diagnostic?_eq_some he).1]
  exact Int.ofNat_lt.mpr hxy

theorem stop_le_of_mem {s : Place} {ps : List Piece} {y : Span} (h : y ∈ (places s ps).filterMap span?) :
    y.stop ≤ (ps.foldl Place.next s).offset := by
  obtain ⟨x, hx, hy⟩ := List.mem_filterMap.mp h
  obtain ⟨before, after, rfl, hplace⟩ := mem_places hx
  rw [stop_of_span? hy, hplace, List.foldl_append, List.foldl_cons, offset_foldl_next]
  exact Nat.le_add_right ..

/-- The tokens before a dropped character and those after it. -/
theorem split_at_dropped {source : String} {d : Diagnostic} (hd : d ∈ (analyze source).diagnostics)
    (hkind : d.kind = .unrecognizedCharacter) :
    ∃ as bs, spans source.toList = as ++ bs ∧ (∀ x ∈ as, x.stop ≤ d.offset) ∧ (∀ y ∈ bs, d.offset < y.offset) ∧
      d.lastToken = lastIndex as.length := by
  rw [analyze_diagnostics] at hd
  obtain ⟨⟨s, p⟩, hx, hdiag⟩ := List.mem_filterMap.mp hd
  obtain ⟨before, after, hpieces, hs⟩ := mem_places hx
  cases p with
  | token kind text => cases hdiag
  | openLiteral text =>
      obtain rfl := Option.some.inj hdiag
      cases hkind
  | stray c =>
      obtain rfl := Option.some.inj hdiag
      refine ⟨(places .start before).filterMap span?, (places (s.next (.stray c)) after).filterMap span?,
        ?_, ?_, ?_, ?_⟩
      · change s = _ at hs
        rw [spans, placed, hpieces, places_append, ← hs, List.filterMap_append]
        rfl
      · intro x hx
        have hle := stop_le_of_mem hx
        rw [← hs] at hle
        exact Int.ofNat_le.mpr hle
      · intro y hy
        exact Int.ofNat_lt.mpr (le_offset_of_mem hy)
      · have hindex := index_foldl_next .start before
        rw [← hs] at hindex
        change s.index = 0 + _ at hindex
        rw [Nat.zero_add] at hindex
        rw [← hindex]
        rfl

theorem offset_lt_stop {cs : List Char} {x : Span} (h : x ∈ spans cs) : x.offset < x.stop :=
  ((tiling_spans cs).apart.2 x h).1

theorem dropped_index {source : String} {d : Diagnostic} (hd : d ∈ (analyze source).diagnostics)
    (hkind : d.kind = .unrecognizedCharacter) :
    d.lastToken = lastIndex ((spans source.toList).countP fun x => x.offset < d.offset) := by
  obtain ⟨as, bs, hspans, has, hbs, hlast⟩ := split_at_dropped hd hkind
  have hbefore : as.countP (fun x => x.offset < d.offset) = as.length := by
    apply List.countP_eq_length.mpr
    intro x hx
    have hlt := offset_lt_stop (hspans ▸ List.mem_append_left bs hx)
    have hle := has x hx
    exact decide_eq_true (by omega)
  have hafter : bs.countP (fun x => x.offset < d.offset) = 0 := by
    apply List.countP_eq_zero.mpr
    intro y hy
    have hlt := hbs y hy
    exact fun h => absurd (of_decide_eq_true h) (by omega)
  rw [hspans, List.countP_append, hbefore, hafter, hlast, Nat.add_zero]

/-- A dropped character names the token that it stands directly behind. -/
theorem dropped_between {source : String} {d : Diagnostic} (hd : d ∈ (analyze source).diagnostics)
    (hkind : d.kind = .unrecognizedCharacter) (k : Nat) : d.lastToken = some (k : Int) ↔
      (∃ x, (spans source.toList)[k]? = some x ∧ x.stop ≤ d.offset) ∧
        ∀ y, (spans source.toList)[k + 1]? = some y → d.offset < y.offset := by
  obtain ⟨as, bs, hspans, has, hbs, hlast⟩ := split_at_dropped hd hkind
  have hlt : ∀ x ∈ as ++ bs, x.offset < x.stop := fun x hx => offset_lt_stop (hspans ▸ hx)
  rw [hlast, lastIndex_eq_some_iff, hspans]
  constructor
  · intro hk
    constructor
    · have hget : (as ++ bs)[k]? = some as[k] := by
        rw [List.getElem?_append_left (by omega), List.getElem?_eq_getElem]
      exact ⟨as[k], hget, has _ (List.getElem_mem _)⟩
    · intro y hy
      rw [List.getElem?_append_right (by omega)] at hy
      exact hbs y (List.mem_of_getElem? hy)
  · rintro ⟨⟨x, hx, hstop⟩, hnext⟩
    have hk : k < as.length := by
      by_contra hge
      rw [List.getElem?_append_right (by omega)] at hx
      have hmem := List.mem_of_getElem? hx
      have hafter := hbs x hmem
      have hpos := hlt x (List.mem_append_right as hmem)
      omega
    by_contra hne
    have hk' : k + 1 < as.length := by omega
    have hget : (as ++ bs)[k + 1]? = some as[k + 1] := by
      rw [List.getElem?_append_left hk', List.getElem?_eq_getElem]
    have hafter := hnext _ hget
    have hmem : as[k + 1] ∈ as := List.getElem_mem _
    have hbefore := has _ hmem
    have hpos := hlt _ (List.mem_append_left bs hmem)
    omega

/-- Nothing follows a literal left open. -/
theorem pieces_openLiteral {cs t : List Char} {ps qs : List Piece} (h : pieces cs = ps ++ .openLiteral t :: qs) :
    qs = [] := by
  induction cs using pieces_induction generalizing ps with
  | nil =>
      rw [pieces_nil] at h
      exact absurd h.symm (List.append_ne_nil_of_right_ne_nil _ (List.cons_ne_nil _ _))
  | cons c cs ih =>
      rw [pieces_cons] at h
      cases ps with
      | nil =>
          obtain ⟨hp, hrest⟩ := List.cons.inj h
          rw [Piece.next_openLiteral hp, pieces_nil] at hrest
          exact hrest.symm
      | cons p ps => exact ih (List.cons.inj h).2

/-- A text that ends in an open literal has its token last, and its diagnostic. -/
theorem ends_open {source : String} {s : Place} {t : List Char} (h : (s, .openLiteral t) ∈ placed source.toList) :
    ∃ as ds, spans source.toList = as ++ [⟨s.offset, ⟨.string, String.ofList t, s.position⟩⟩] ∧
      as.length = s.index ∧ s.offset + t.length = source.length ∧
      (analyze source).diagnostics = ds ++ [⟨.unterminatedString, s.offset, s.position, some s.index⟩] := by
  obtain ⟨before, after, hpieces, hs⟩ := mem_places h
  obtain rfl : after = [] := pieces_openLiteral hpieces
  have hplaced : placed source.toList = places .start before ++ [(s, .openLiteral t)] := by
    rw [placed, hpieces, places_append, ← hs]
    rfl
  refine ⟨(places .start before).filterMap span?, (places .start before).filterMap diagnostic?, ?_, ?_, ?_, ?_⟩
  · rw [spans, hplaced, List.filterMap_append]
    rfl
  · have hindex := index_foldl_next .start before
    rw [← hs] at hindex
    exact (hindex.trans (Nat.zero_add _)).symm
  · have htext := congrArg List.length (pieces_text source.toList)
    have hoffset := offset_foldl_next .start before
    rw [hpieces, List.flatMap_append, List.length_append, String.length_toList] at htext
    rw [← hs] at hoffset
    rw [hoffset, ← htext]
    simp [Place.start, Piece.text]
  · rw [analyze_diagnostics, hplaced, List.filterMap_append]
    rfl

theorem mem_placed_of_unterminated {source : String} {d : Diagnostic} (hd : d ∈ (analyze source).diagnostics)
    (hkind : d.kind = .unterminatedString) :
    ∃ s t, (s, .openLiteral t) ∈ placed source.toList ∧
      d = ⟨.unterminatedString, s.offset, s.position, some s.index⟩ := by
  rw [analyze_diagnostics] at hd
  obtain ⟨⟨s, p⟩, hx, hdiag⟩ := List.mem_filterMap.mp hd
  cases p with
  | token kind text => cases hdiag
  | openLiteral text => exact ⟨s, text, hx, (Option.some.inj hdiag).symm⟩
  | stray c =>
      obtain rfl := Option.some.inj hdiag
      cases hkind

theorem open_last {source : String} {d : Diagnostic} (hd : d ∈ (analyze source).diagnostics)
    (hkind : d.kind = .unterminatedString) : (analyze source).diagnostics.getLast? = some d ∧
      d.lastToken = some (((spans source.toList).length : Int) - 1) ∧
      ∃ x, (spans source.toList).getLast? = some x ∧ x.token.kind = .string ∧ d.offset = x.offset ∧
        d.start = x.token.start ∧ x.stop = source.length := by
  obtain ⟨s, t, hx, rfl⟩ := mem_placed_of_unterminated hd hkind
  obtain ⟨as, ds, hspans, hindex, hstop, hds⟩ := ends_open hx
  refine ⟨?_, ?_, ⟨s.offset, ⟨.string, String.ofList t, s.position⟩⟩, ?_, rfl, rfl, rfl, ?_⟩
  · rw [hds, List.getLast?_concat]
  · rw [hspans, List.length_append, hindex]
    simp
  · rw [hspans, List.getLast?_concat]
  · rw [Span.stop, String.length_ofList]
    exact hstop

/-- Whatever comes after a diagnostic of an open literal would come after the end of the text. -/
theorem open_once (source : String) :
    (analyze source).diagnostics.countP (·.kind = .unterminatedString) ≤ 1 := by
  by_cases hopen : ∃ d ∈ (analyze source).diagnostics, d.kind = .unterminatedString
  · obtain ⟨d, hd, hkind⟩ := hopen
    obtain ⟨s, t, hx, rfl⟩ := mem_placed_of_unterminated hd hkind
    obtain ⟨-, ds, -, -, -, hds⟩ := ends_open hx
    have hincreasing := diagnostics_increasing source
    rw [hds, List.map_append, List.pairwise_append] at hincreasing
    have hearlier : ds.countP (·.kind = .unterminatedString) = 0 := by
      apply List.countP_eq_zero.mpr
      intro e he hkind'
      have hmem : e ∈ (analyze source).diagnostics := hds ▸ List.mem_append_left _ he
      have hlast := (open_last hmem (of_decide_eq_true hkind')).1
      rw [hds, List.getLast?_concat] at hlast
      have hlt := hincreasing.2.2 e.offset (List.mem_map_of_mem he) _ (List.mem_singleton_self _)
      rw [← Option.some.inj hlast] at hlt
      exact absurd hlt (Int.lt_irrefl _)
    rw [hds, List.countP_append, hearlier]
    exact Nat.le_refl 1
  · have hnone : (analyze source).diagnostics.countP (·.kind = .unterminatedString) = 0 := by
      apply List.countP_eq_zero.mpr
      intro d hd hkind
      exact hopen ⟨d, hd, of_decide_eq_true hkind⟩
    omega

theorem wellFormed_of_placed {cs : List Char} {x : Place × Piece} (h : x ∈ placed cs) : x.2.WellFormed := by
  obtain ⟨before, after, hpieces, -⟩ := mem_places h
  apply forall_mem_pieces Piece.next_wellFormed cs
  rw [hpieces]
  exact List.mem_append_right before (List.mem_cons_self ..)

theorem exposed_of_closed {text : List Char} (h : Lexeme .string text) :
    ∃ q cs, text = q :: cs ∧ Literal.Exposed q cs := by
  cases h with
  | string _ hbody => exact ⟨_, _, rfl, Literal.exposed_of_body [] hbody⟩

/-- A string token that does not close is an open literal. -/
theorem placed_of_isOpen {cs : List Char} {x : Span} (h : x ∈ spans cs) (hkind : x.token.kind = .string)
    (hopen : x.token.IsOpen) : ∃ s t, (s, .openLiteral t) ∈ placed cs := by
  obtain ⟨⟨s, p⟩, hp, hx⟩ := mem_spans h
  cases p with
  | token kind text =>
      obtain rfl := Option.some.inj hx
      have hkind : kind = .string := hkind
      subst hkind
      obtain ⟨q, cs, htext, hexposed⟩ := exposed_of_closed (wellFormed_of_placed hp)
      obtain ⟨q', cs', hlist, hnot⟩ := hopen
      rw [String.toList_ofList, htext] at hlist
      obtain ⟨rfl, rfl⟩ := List.cons.inj hlist
      exact absurd hexposed hnot
  | openLiteral text => exact ⟨s, text, hp⟩
  | stray c => cases hx

theorem open_iff (source : String) : (∃ d ∈ (analyze source).diagnostics, d.kind = .unterminatedString) ↔
    ∃ x, (spans source.toList).getLast? = some x ∧ x.token.kind = .string ∧ x.token.IsOpen := by
  constructor
  · rintro ⟨d, hd, hkind⟩
    obtain ⟨s, t, hx, -⟩ := mem_placed_of_unterminated hd hkind
    obtain ⟨as, -, hspans, -⟩ := ends_open hx
    refine ⟨_, by rw [hspans, List.getLast?_concat], rfl, ?_⟩
    have hwell : OpenLexeme t := wellFormed_of_placed hx
    cases t with
    | nil => cases hwell
    | cons q cs => exact ⟨q, cs, String.toList_ofList, Literal.not_exposed_of_open hwell⟩
  · rintro ⟨x, hlast, hkind, hopen⟩
    obtain ⟨s, t, hx⟩ := placed_of_isOpen (List.mem_of_getLast? hlast) hkind hopen
    obtain ⟨-, ds, -, -, -, hds⟩ := ends_open hx
    exact ⟨_, hds ▸ List.mem_append_right ds (List.mem_singleton_self _), rfl⟩

/-- The diagnostics of every text fit its tokens. -/
theorem analyze_diagnosed (source : String) :
    ∃ xs gaps, Division source xs gaps ∧ Diagnosed source xs (analyze source).diagnostics := by
  refine ⟨_, _, division_spans source, ?_⟩
  constructor
  · exact diagnostics_increasing source
  · exact fun _ hd hkind => dropped_index hd hkind
  · exact fun _ hd hkind k => dropped_between hd hkind k
  · exact open_once source
  · exact fun _ hd hkind => open_last hd hkind
  · exact open_iff source

end Lexing
