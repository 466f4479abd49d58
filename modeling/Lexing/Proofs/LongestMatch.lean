import Lexing.Lexeme
import Lexing.Proofs.Dispatch
import Lexing.Proofs.Partition

/-! A scan takes the longest match. The lexical grammar names no order among its kinds; at every offset that a scan
reaches, the token that it takes is the longest lexeme there, and no other kind holds that lexeme. -/

namespace Lexing
open Alphabet

/-- A text that may be split off as a token of its kind where `rest` follows. Only at the end of the whole text
may a literal stay open. -/
def Candidate (kind : Token.Kind) (text rest : List Char) : Prop :=
  Lexeme kind text ∨ kind = .string ∧ rest = [] ∧ OpenLexeme text

/-- The one candidate of the greatest length. -/
structure Longest (kind : Token.Kind) (text rest : List Char) : Prop where
  candidate : Candidate kind text rest
  longest : ∀ k t r, t ++ r = text ++ rest → Candidate k t r → t.length ≤ text.length
  unique : ∀ k, Candidate k text rest → k = kind

/-- Longest matches one after another from an offset on. A character at which nothing matches is left out, and
its offset is kept. -/
inductive Tokenization : Nat → List Char → List (Token.Kind × String) → List Nat → Prop
  | done (o : Nat) : Tokenization o [] [] []
  | token {o kind text rest ts gaps} : Longest kind text rest →
      Tokenization (o + text.length) rest ts gaps →
      Tokenization o (text ++ rest) ((kind, String.ofList text) :: ts) gaps
  | dropped {o c cs ts gaps} : (∀ kind text rest, text ++ rest = c :: cs → ¬ Candidate kind text rest) →
      Tokenization (o + 1) cs ts gaps → Tokenization o (c :: cs) ts (o :: gaps)

namespace Literal

theorem closingFrom_body {q : Char} {body : List Char} (n : Nat) (tail : List Char) (hq : q ≠ escape)
    (h : Body q body) :
    closingFrom q n false (body ++ tail) = closingFrom q (n + body.length) false tail := by
  induction h generalizing n with
  | nil => rfl
  | @plain c cs hc he hb ih =>
      have hf : (c == escape) = false := beq_eq_false_iff_ne.mpr he
      rw [List.cons_append, closingFrom, if_neg hc, hf, ih, List.length_cons]
      congr 1
      omega
  | @escaped c cs hb ih =>
      rw [List.cons_append, List.cons_append, closingFrom, if_neg hq.symm, beq_self_eq_true, closingFrom, ih,
        List.length_cons, List.length_cons]
      congr 1
      omega

/-- A literal closes at the first delimiter after a body. -/
theorem closing?_body {q : Char} {body : List Char} (rest : List Char) (hq : q ≠ escape)
    (h : Body q body) : closing? q (body ++ q :: rest) = some (body.length + 1) := by
  rw [closing?, closingFrom_body 0 _ hq h, closingFrom, if_pos rfl, Nat.zero_add]

theorem quote_of_open {q : Char} {cs : List Char} (h : OpenLexeme (q :: cs)) : isQuote q := by
  cases h with
  | body hq _ => exact hq
  | escape hq _ => exact hq

theorem closing?_open {q : Char} {cs : List Char} (h : OpenLexeme (q :: cs)) : closing? q cs = none := by
  cases h with
  | body hq hb =>
      have := closingFrom_body 0 [] (escape_not_quote hq) hb
      rwa [List.append_nil] at this
  | @escape _ body hq hb =>
      have hne := escape_not_quote hq
      change closing? q (body ++ [escape]) = none
      rw [closing?, closingFrom_body 0 _ hne hb, closingFrom, if_neg hne.symm, beq_self_eq_true, closingFrom]

end Literal

namespace Piece

/-- A piece that reaches at least as far as a candidate, and is of its kind where it ends with it. -/
def Reaches (p : Piece) (kind : Token.Kind) (text : List Char) : Prop :=
  ∃ k, p.kind? = some k ∧ text.length ≤ p.text.length ∧ (text.length = p.text.length → k = kind)

theorem run_reaches {kind : Token.Kind} {p : Char → Bool} (c : Char) {ds : List Char} (rest : List Char)
    (h : ∀ d ∈ ds, p d) : (run kind p c (ds ++ rest)).1.Reaches kind (c :: ds) := by
  refine ⟨kind, rfl, ?_, fun _ => rfl⟩
  change (c :: ds).length ≤ (c :: (ds ++ rest).takeWhile p).length
  rw [List.takeWhile_append_of_pos h, List.length_cons, List.length_cons, List.length_append]
  omega

theorem word_reaches {kind : Token.Kind} {c : Char} {ds : List Char} (rest : List Char) (hc : beginsWord c)
    (h : ∀ d ∈ ds, inWord d) (hk : wordKind (c :: ds) = kind) :
    (next c (ds ++ rest)).1.Reaches kind (c :: ds) := by
  rw [next_of_word _ hc, List.takeWhile_append_of_pos h]
  refine ⟨_, rfl, ?_, ?_⟩
  · simp [text]
  · intro hlen
    have hnil : rest.takeWhile inWord = [] := by
      apply List.eq_nil_of_length_eq_zero
      simpa [text] using hlen
    rw [hnil, List.append_nil, hk]

theorem next_of_closed {q : Char} {body : List Char} (rest : List Char) (hq : isQuote q)
    (h : Literal.Body q body) : next q (body ++ [q] ++ rest) = (token .string (q :: body ++ [q]), rest) := by
  have hc := Literal.closing?_body rest (escape_not_quote hq) h
  have htake : (body ++ [q] ++ rest).take (body.length + 1) = body ++ [q] := List.take_left' List.length_append
  have hdrop : (body ++ [q] ++ rest).drop (body.length + 1) = rest := List.drop_left' List.length_append
  rw [List.append_assoc, List.singleton_append] at htake hdrop ⊢
  rw [next_of_quote _ hq, literal, hc]
  dsimp only
  rw [htake, hdrop]
  rfl

theorem next_of_open {q : Char} {cs : List Char} (h : OpenLexeme (q :: cs)) :
    next q cs = (openLiteral (q :: cs), []) := by
  rw [next_of_quote _ (Literal.quote_of_open h), literal, Literal.closing?_open h]

theorem literal_reaches {q : Char} {body : List Char} (rest : List Char) (hq : isQuote q)
    (h : Literal.Body q body) :
    (next q (body ++ [q] ++ rest)).1.Reaches .string (q :: body ++ [q]) := by
  rw [next_of_closed rest hq h]
  exact ⟨_, rfl, Nat.le_refl _, fun _ => rfl⟩

theorem openLiteral_reaches {c : Char} {cs : List Char} (h : OpenLexeme (c :: cs)) :
    (next c cs).1.Reaches .string (c :: cs) := by
  rw [next_of_open h]
  exact ⟨_, rfl, Nat.le_refl _, fun _ => rfl⟩

theorem reaches_of_length_lt {p : Piece} {k : Token.Kind} (kind : Token.Kind) {text : List Char}
    (hk : p.kind? = some k) (h : text.length < p.text.length) : p.Reaches kind text :=
  ⟨k, hk, Nat.le_of_lt h, fun e => absurd e (Nat.ne_of_lt h)⟩

theorem pair_reaches {c d : Char} (rest : List Char) (h : isPairOperator c d) :
    (next c (d :: rest)).1.Reaches .operator [c, d] := by
  rw [next_of_pair _ h]
  exact ⟨_, rfl, Nat.le_refl _, fun _ => rfl⟩

theorem single_reaches {kind : Token.Kind} {c : Char} (cs : List Char) (hc : beginsMark c)
    (hk : (mark.single c).kind? = some kind) : (next c cs).1.Reaches kind [c] := by
  have hsingle : (mark.single c).Reaches kind [c] := by
    refine ⟨kind, hk, ?_, fun _ => rfl⟩
    exact Nat.le_of_eq (congrArg List.length (text_single c)).symm
  by_cases hs : c = '/' ∧ cs.head? = some '/'
  · obtain ⟨rfl, hd⟩ := hs
    obtain ⟨tail, rfl⟩ := List.head?_eq_some_iff.mp hd
    rw [next_of_slashes]
    refine reaches_of_length_lt kind rfl ?_
    simp [run, text]
  · rw [next_of_mark _ hc hs]
    cases cs with
    | nil => exact hsingle
    | cons d ds =>
        rw [mark]
        split
        · exact reaches_of_length_lt kind rfl (by simp [text])
        · exact hsingle

end Piece

theorem slash_in_line {ds : List Char} (h : '\n' ∉ ds) : ∀ d ∈ '/' :: ds, decide (d ≠ '\n') := by
  intro d hd
  apply decide_eq_true
  rintro rfl
  cases hd with
  | tail _ hd => exact h hd

/-- The first piece of a text reaches as far as every lexeme at its front. -/
theorem Lexeme.reaches {kind : Token.Kind} {c : Char} {ds : List Char} (rest : List Char)
    (h : Lexeme kind (c :: ds)) : (Piece.next c (ds ++ rest)).1.Reaches kind (c :: ds) := by
  cases h with
  | whitespace hc hds =>
      rw [Piece.next_of_blank _ hc]
      exact Piece.run_reaches c rest hds
  | comment hds =>
      rw [List.cons_append, Piece.next_of_slashes]
      exact Piece.run_reaches '/' rest (slash_in_line hds)
  | string hq hb => exact Piece.literal_reaches rest hq hb
  | number hc hds =>
      rw [Piece.next_of_digit _ hc]
      exact Piece.run_reaches c rest hds
  | keyword hc hds hk => exact Piece.word_reaches rest hc hds (if_pos hk)
  | identifier hc hds hk => exact Piece.word_reaches rest hc hds (if_neg hk)
  | pairOperator hp => exact Piece.pair_reaches rest hp
  | operator hc =>
      have hbegins : beginsMark c := by simp [beginsMark, hc]
      apply Piece.single_reaches _ hbegins
      rw [Piece.single_of_operator hc]
      rfl
  | punctuation hc =>
      have hbegins : beginsMark c := by simp [beginsMark, hc]
      apply Piece.single_reaches _ hbegins
      rw [Piece.single_of_punctuation hc]
      rfl

theorem Lexeme.ne_nil {kind : Token.Kind} {t : List Char} (h : Lexeme kind t) : t ≠ [] := by
  cases h <;> exact List.cons_ne_nil _ _

theorem Candidate.ne_nil {kind : Token.Kind} {t rest : List Char} (h : Candidate kind t rest) : t ≠ [] := by
  rcases h with h | ⟨-, -, h⟩
  · exact h.ne_nil
  · cases h <;> exact List.cons_ne_nil _ _

theorem Candidate.reaches {kind : Token.Kind} {t rest : List Char} {c : Char} {cs : List Char}
    (h : Candidate kind t rest) (ht : t ++ rest = c :: cs) : (Piece.next c cs).1.Reaches kind t := by
  cases t with
  | nil => exact absurd rfl h.ne_nil
  | cons d ds =>
      obtain ⟨rfl, rfl⟩ := List.cons.inj ht
      rcases h with h | ⟨rfl, rfl, h⟩
      · exact h.reaches rest
      · change (Piece.next d (ds ++ [])).1.Reaches .string (d :: ds)
        rw [List.append_nil]
        exact Piece.openLiteral_reaches h

theorem Piece.next_openLiteral {c : Char} {cs t : List Char} (h : (next c cs).1 = .openLiteral t) :
    (next c cs).2 = [] := by
  have hw := next_wellFormed c cs
  have ht := next_text c cs
  rw [h] at hw ht
  have hq : isQuote c := by
    cases hw with
    | body hq hb => exact (List.cons.inj ht).1 ▸ hq
    | escape hq hb => exact (List.cons.inj ht).1 ▸ hq
  rw [next_of_quote _ hq, literal] at h ⊢
  cases hc : Literal.closing? c cs with
  | none => rfl
  | some n =>
      rw [hc] at h
      cases h

theorem next_candidate {kind : Token.Kind} {c : Char} {cs : List Char}
    (h : (Piece.next c cs).1.kind? = some kind) :
    Candidate kind (Piece.next c cs).1.text (Piece.next c cs).2 := by
  have hw := Piece.next_wellFormed c cs
  cases hp : (Piece.next c cs).1 with
  | token k t =>
      rw [hp] at h hw
      obtain rfl := Option.some.inj h
      exact .inl hw
  | openLiteral t =>
      rw [hp] at h hw
      obtain rfl := Option.some.inj h
      exact .inr ⟨rfl, Piece.next_openLiteral hp, hw⟩
  | stray d =>
      rw [hp] at h
      cases h

theorem next_longest {kind : Token.Kind} {c : Char} {cs : List Char}
    (h : (Piece.next c cs).1.kind? = some kind) :
    Longest kind (Piece.next c cs).1.text (Piece.next c cs).2 := by
  refine ⟨next_candidate h, ?_, ?_⟩
  · intro k t r htr hc
    rw [Piece.next_text] at htr
    obtain ⟨_, -, hle, -⟩ := hc.reaches htr
    exact hle
  · intro k hc
    obtain ⟨l, hl, -, heq⟩ := hc.reaches (Piece.next_text c cs)
    rw [h] at hl
    exact (heq rfl).symm.trans (Option.some.inj hl).symm

theorem next_no_candidate {c : Char} {cs : List Char} (h : (Piece.next c cs).1.kind? = none)
    (kind : Token.Kind) (t rest : List Char) (ht : t ++ rest = c :: cs) : ¬ Candidate kind t rest := by
  intro hc
  obtain ⟨k, hk, -, -⟩ := hc.reaches ht
  rw [h] at hk
  cases hk

theorem Longest.text_eq {k l : Token.Kind} {t u r v : List Char} (h : Longest k t r) (h' : Longest l u v)
    (he : t ++ r = u ++ v) : k = l ∧ t = u ∧ r = v := by
  have hlen : t.length = u.length :=
    Nat.le_antisymm (h'.longest k t r he h.candidate) (h.longest l u v he.symm h'.candidate)
  obtain ⟨rfl, rfl⟩ := List.append_inj he hlen
  exact ⟨h'.unique k h.candidate, rfl, rfl⟩

namespace Tokenization

/-- The three ways in which a text may begin. -/
theorem inv {o : Nat} {cs : List Char} {ts : List (Token.Kind × String)} {g : List Nat}
    (h : Tokenization o cs ts g) :
    cs = [] ∧ ts = [] ∧ g = [] ∨
    (∃ kind text rest us, cs = text ++ rest ∧ Longest kind text rest ∧
      ts = (kind, String.ofList text) :: us ∧ Tokenization (o + text.length) rest us g) ∨
    ∃ c ds k, cs = c :: ds ∧ (∀ kind text rest, text ++ rest = cs → ¬ Candidate kind text rest) ∧
      g = o :: k ∧ Tokenization (o + 1) ds ts k := by
  cases h with
  | done => exact .inl ⟨rfl, rfl, rfl⟩
  | token hl ht => exact .inr (.inl ⟨_, _, _, _, rfl, hl, rfl, ht⟩)
  | dropped hn ht => exact .inr (.inr ⟨_, _, _, rfl, hn, rfl, ht⟩)

/-- The grammar alone determines how a text is divided. -/
theorem unique {o : Nat} {cs : List Char} {ts us : List (Token.Kind × String)} {g k : List Nat}
    (h : Tokenization o cs ts g) (h' : Tokenization o cs us k) : ts = us ∧ g = k := by
  induction h generalizing us k with
  | done o =>
      rcases h'.inv with ⟨-, rfl, rfl⟩ | ⟨_, _, _, _, he, hl, -⟩ | ⟨_, _, _, he, -⟩
      · exact ⟨rfl, rfl⟩
      · exact absurd (List.append_eq_nil_iff.mp he.symm).1 hl.candidate.ne_nil
      · cases he
  | @token o kind text rest ts g hl ht ih =>
      rcases h'.inv with ⟨he, -⟩ | ⟨_, _, _, _, he, hl', rfl, ht'⟩ | ⟨_, _, _, -, hn, -⟩
      · exact absurd (List.append_eq_nil_iff.mp he).1 hl.candidate.ne_nil
      · obtain ⟨rfl, rfl, rfl⟩ := hl.text_eq hl' he
        obtain ⟨rfl, rfl⟩ := ih ht'
        exact ⟨rfl, rfl⟩
      · exact absurd hl.candidate (hn _ _ _ rfl)
  | @dropped o c cs ts g hn ht ih =>
      rcases h'.inv with ⟨he, -⟩ | ⟨_, _, _, _, he, hl, -⟩ | ⟨_, _, _, he, -, rfl, ht'⟩
      · cases he
      · exact absurd hl.candidate (hn _ _ _ he.symm)
      · obtain ⟨-, rfl⟩ := List.cons.inj he
        obtain ⟨rfl, rfl⟩ := ih ht'
        exact ⟨rfl, rfl⟩

end Tokenization

def Span.lexeme (x : Span) : Token.Kind × String := (x.token.kind, x.token.text)

theorem tokenization_places (s : Place) (cs : List Char) :
    Tokenization s.offset cs (((places s (pieces cs)).filterMap span?).map Span.lexeme)
      ((places s (pieces cs)).filterMap gap?) := by
  induction cs using pieces_induction generalizing s with
  | nil =>
      rw [pieces_nil]
      exact .done s.offset
  | cons c cs ih =>
      have ht := Piece.next_text c cs
      rw [pieces_cons, places]
      cases hk : (Piece.next c cs).1.kind? with
      | some kind =>
          have hx : span? (s, (Piece.next c cs).1) =
              some ⟨s.offset, kind, String.ofList (Piece.next c cs).1.text, s.position⟩ :=
            congrArg (Option.map _) hk
          have hg : gap? (s, (Piece.next c cs).1) = none := by rw [gap?, hk]
          have hnext := Tokenization.token (next_longest hk) (ih (s.next (Piece.next c cs).1))
          rw [ht] at hnext
          rw [List.filterMap_cons_some hx, List.filterMap_cons_none hg]
          exact hnext
      | none =>
          have hx : span? (s, (Piece.next c cs).1) = none := congrArg (Option.map _) hk
          have hg : gap? (s, (Piece.next c cs).1) = some s.offset := by rw [gap?, hk]
          have hlen : (Piece.next c cs).1.text.length = 1 := by
            rcases span_or_gap s (Piece.next c cs).1 with ⟨x, hx', -⟩ | ⟨-, -, hlen⟩
            · rw [hx] at hx'
              cases hx'
            · exact hlen
          have hsplit : (Piece.next c cs).1.text ++ (Piece.next c cs).2 = [c] ++ cs := ht
          have hrest : (Piece.next c cs).2 = cs := (List.append_inj hsplit hlen).2
          have hoffset : (s.next (Piece.next c cs).1).offset = s.offset + 1 :=
            congrArg (s.offset + ·) hlen
          have hnext := ih (s.next (Piece.next c cs).1)
          rw [hoffset, hrest] at hnext
          rw [List.filterMap_cons_none hx, List.filterMap_cons_some hg, hrest]
          exact .dropped (next_no_candidate hk) hnext

/-- A scan is the longest-match division under the lexical grammar: of all lists of tokens and of offsets left
out, exactly its own are such a division. -/
theorem tokenization_iff (source : String) (ts : List (Token.Kind × String)) (offsets : List Nat) :
    Tokenization 0 source.toList ts offsets ↔
      (tokenize source).map (fun t => (t.kind, t.text)) = ts ∧
        (analyze source).dropped.map (·.offset) = offsets.map Int.ofNat := by
  have hscan := tokenization_places .start source.toList
  have htokens : (tokenize source).map (fun t => (t.kind, t.text)) =
      (spans source.toList).map Span.lexeme := by
    rw [tokenize, Report.tokens_eq, List.map_map]
    rfl
  rw [htokens, dropped_offsets, List.map_inj_right fun _ _ => Int.ofNat.inj]
  constructor
  · intro h
    exact hscan.unique h
  · rintro ⟨rfl, rfl⟩
    exact hscan

end Lexing
