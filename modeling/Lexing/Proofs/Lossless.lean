import Lexing.Proofs.Recorded
import Mathlib.Algebra.Ring.Parity

/-! Texts that a scan keeps whole. Three characters begin a token only as the first of a pair, and a scan reaches each
of them at the front of its pair: a token that ends inside a run of ampersands or of bars has taken two of them. -/

namespace Lexing
open Alphabet

/-- Every stretch of `c` that goes on to neither side has an even length. -/
def EvenRuns (c : Char) (cs : List Char) : Prop :=
  ∀ before n after, cs = before ++ (List.replicate n c ++ after) → before.getLast? ≠ some c →
    after.head? ≠ some c → Even n

/-- A text in which the characters that begin no token by themselves stand in pairs. -/
structure PairedUp (cs : List Char) : Prop where
  known : ∀ c ∈ cs, beginsToken c ∨ c = '!' ∨ c = '&' ∨ c = '|'
  exclamations : ∀ rest, '!' :: rest <:+ cs → rest.head? = some '='
  ampersands : EvenRuns '&' cs
  bars : EvenRuns '|' cs

namespace EvenRuns

variable {c d : Char} {cs : List Char}

theorem nil (c : Char) : EvenRuns c [] := by
  intro before n after heq _ _
  have hrun := (List.append_eq_nil_iff.mp (List.append_eq_nil_iff.mp heq.symm).2).1
  obtain rfl : n = 0 := by simpa using congrArg List.length hrun
  exact Even.zero

/-- A run of even length at the front is more than one character. -/
theorem head? (h : EvenRuns c (c :: cs)) : cs.head? = some c := by
  by_contra hne
  have hone : Even 1 := h [] 1 cs rfl (by simp) hne
  exact Nat.not_even_one hone

/-- Runs are cut by no seam that parts a character from another one. -/
theorem of_append {xs ys : List Char} (h : EvenRuns c (xs ++ ys)) (hseam : xs.getLast? = some c → ys.head? ≠ some c) :
    EvenRuns c ys := by
  intro before n after heq hbefore hafter
  cases before with
  | nil =>
      by_cases hlast : xs.getLast? = some c
      · cases n with
        | zero => exact Even.zero
        | succ n =>
            rw [heq] at hseam
            exact absurd rfl (hseam hlast)
      · exact h xs n after (congrArg (xs ++ ·) heq) hlast hafter
  | cons b before =>
      apply h (xs ++ b :: before) n after
      · rw [heq, List.append_assoc]
      · rwa [List.getLast?_append_cons]
      · exact hafter

theorem getLast?_ne_of_cons {b : Char} {before : List Char} (h : (b :: before).getLast? ≠ some c) :
    before.getLast? ≠ some c := by
  cases before with
  | nil => simp
  | cons e before => rwa [List.getLast?_cons_cons] at h

theorem cons_iff (hd : d ≠ c) : EvenRuns c (d :: cs) ↔ EvenRuns c cs := by
  constructor
  · intro h
    have happend : EvenRuns c ([d] ++ cs) := h
    exact happend.of_append fun hlast => absurd (Option.some.inj hlast) hd
  · intro h before n after heq hbefore hafter
    match before, n with
    | [], 0 => exact Even.zero
    | [], n + 1 => exact absurd (List.cons.inj heq).1 hd
    | b :: before, n => exact h before n after (List.cons.inj heq).2 (getLast?_ne_of_cons hbefore) hafter

theorem pair_iff : EvenRuns c (c :: c :: cs) ↔ EvenRuns c cs := by
  constructor
  · intro h before n after heq hbefore hafter
    cases before with
    | nil =>
        have heven : Even (n + 2) := h [] (n + 2) after (congrArg (c :: c :: ·) heq) (by simp) hafter
        exact (Nat.even_add.mp heven).mpr even_two
    | cons b before => exact h (c :: c :: b :: before) n after (congrArg (c :: c :: ·) heq) hbefore hafter
  · intro h before n after heq hbefore hafter
    match before, n with
    | [], 0 => exact Even.zero
    | [], 1 =>
        obtain rfl : c :: cs = after := (List.cons.inj heq).2
        exact absurd rfl hafter
    | [], n + 2 =>
        have hcs : cs = List.replicate n c ++ after := (List.cons.inj (List.cons.inj heq).2).2
        exact (h [] n after hcs (by simp) hafter).add even_two
    | [b], n =>
        obtain rfl : c = b := (List.cons.inj heq).1
        exact absurd rfl hbefore
    | b :: e :: before, n =>
        have hcs : cs = before ++ (List.replicate n c ++ after) := (List.cons.inj (List.cons.inj heq).2).2
        exact h before n after hcs (getLast?_ne_of_cons (getLast?_ne_of_cons hbefore)) hafter

end EvenRuns

section Seams

variable {c d : Char} {cs : List Char}

theorem pairs_alike : ∀ p ∈ pairOperators, p.2 = '&' ∨ p.2 = '|' → p.1 = p.2 := by
  rw [← List.all_iff_forall_prop]
  decide

theorem not_mem_run {p q : Char → Bool} (hc : p c) (hcs : ∀ e ∈ cs, q e) (hp : ¬p d) (hq : ¬q d) : d ∉ c :: cs := by
  intro hmem
  rcases List.mem_cons.mp hmem with rfl | hmem
  · exact hp hc
  · exact hq (hcs d hmem)

/-- A token that ends in an ampersand or a bar is a pair of them, or the next character is another one. -/
theorem Piece.seam_of_solid {p : Piece} {rest : List Char} (hp : p.Solid) (hends : p.EndsBefore rest)
    (hkind : p.kind? ≠ none) (hd : d = '&' ∨ d = '|') (hlast : p.text.getLast? = some d) :
    rest.head? ≠ some d ∨ p.text = [d, d] := by
  have hmem : d ∈ p.text := List.mem_of_getLast? hlast
  have hbegins : ¬beginsToken d := by rcases hd with rfl | rfl <;> decide
  simp only [beginsToken, Bool.or_eq_true, not_or] at hbegins
  obtain ⟨⟨⟨⟨⟨hblank, hquote⟩, hdigit⟩, hword⟩, hoperator⟩, hpunctuation⟩ := hbegins
  cases p with
  | stray e => exact absurd rfl hkind
  | openLiteral text => exact .inl fun hhead => hends d hhead rfl
  | token kind text =>
      have hinWord : ¬inWord d := by rcases hd with rfl | rfl <;> decide
      have hinNumber : ¬inNumber d := by rcases hd with rfl | rfl <;> decide
      cases hp with
      | whitespace he hes => exact absurd hmem (not_mem_run he hes hblank hblank)
      | comment _ =>
          have hline : d ≠ '\n' := by rcases hd with rfl | rfl <;> decide
          exact .inl fun hhead => hends d hhead (decide_eq_true hline)
      | @string q es hq _ =>
          have hlast' : (q :: es ++ [q]).getLast? = some q := List.getLast?_concat ..
          obtain rfl : q = d := Option.some.inj (hlast'.symm.trans hlast)
          exact absurd hq hquote
      | number he hes => exact absurd hmem (not_mem_run he hes hdigit hinNumber)
      | keyword he hes _ => exact absurd hmem (not_mem_run he hes hword hinWord)
      | identifier he hes _ => exact absurd hmem (not_mem_run he hes hword hinWord)
      | @pairOperator e f h =>
          obtain rfl : f = d := Option.some.inj hlast
          obtain rfl : e = f := pairs_alike (e, f) (List.contains_iff_mem.mp h) hd
          exact .inr rfl
      | @operator e he =>
          obtain rfl : e = d := Option.some.inj hlast
          exact absurd he hoperator
      | @punctuation e he =>
          obtain rfl : e = d := Option.some.inj hlast
          exact absurd he hpunctuation

/-- What a token leaves of a text has even runs where the whole text has. -/
theorem EvenRuns.behind_next (h : EvenRuns d (c :: cs)) (hkind : (Piece.next c cs).1.kind? ≠ none)
    (hd : d = '&' ∨ d = '|') : EvenRuns d (Piece.next c cs).2 := by
  have hseam := Piece.seam_of_solid (Piece.next_solid c cs) (Piece.next_ends c cs) hkind hd
  rw [← Piece.next_text c cs] at h
  by_cases hlast : (Piece.next c cs).1.text.getLast? = some d
  · rcases hseam hlast with hhead | htext
    · exact h.of_append fun _ => hhead
    · rw [htext] at h
      exact pair_iff.mp h
  · exact h.of_append fun hlast' => absurd hlast' hlast

end Seams

namespace PairedUp

variable {c : Char} {cs : List Char}

theorem exists_pair (h : PairedUp (c :: cs)) (hc : ¬beginsToken c) : ∃ d ∈ cs.head?, isPairOperator c d := by
  rcases h.known c (List.mem_cons_self ..) with hbegins | rfl | rfl | rfl
  · exact absurd hbegins hc
  · exact ⟨'=', h.exclamations cs List.suffix_rfl, by decide⟩
  · exact ⟨'&', h.ampersands.head?, by decide⟩
  · exact ⟨'|', h.bars.head?, by decide⟩

/-- The first character is never left out. -/
theorem kind_next (h : PairedUp (c :: cs)) : (Piece.next c cs).1.kind? ≠ none := by
  intro hkind
  cases hp : (Piece.next c cs).1 with
  | token kind text =>
      rw [hp] at hkind
      cases hkind
  | openLiteral text =>
      rw [hp] at hkind
      cases hkind
  | stray d =>
      have htext := Piece.next_text c cs
      rw [hp] at htext
      obtain rfl : d = c := (List.cons.inj htext).1
      obtain ⟨e, he, hpair⟩ := h.exists_pair (Piece.not_beginsToken_of_stray hp)
      obtain ⟨rest, rfl⟩ := List.head?_eq_some_iff.mp he
      rw [Piece.next_of_pair _ hpair] at hp
      cases hp

theorem behind_next (h : PairedUp (c :: cs)) : PairedUp (Piece.next c cs).2 := by
  have hsuffix : (Piece.next c cs).2 <:+ c :: cs := ⟨_, Piece.next_text c cs⟩
  constructor
  · intro d hd
    exact h.known d (hsuffix.mem hd)
  · intro rest hrest
    exact h.exclamations rest (hrest.trans hsuffix)
  · exact h.ampersands.behind_next h.kind_next (.inl rfl)
  · exact h.bars.behind_next h.kind_next (.inr rfl)

theorem kind_pieces (h : PairedUp cs) : ∀ p ∈ pieces cs, p.kind? ≠ none := by
  induction cs using pieces_induction with
  | nil =>
      rw [pieces_nil]
      exact fun _ hp => absurd hp List.not_mem_nil
  | cons c cs ih =>
      rw [pieces_cons, List.forall_mem_cons]
      exact ⟨h.kind_next, ih h.behind_next⟩

end PairedUp

/-- Of a text of known characters, the three that begin no token in pairs, nothing is left out. -/
theorem spell_of_pairedUp (source : String) (h : PairedUp source.toList) :
    (analyze source).dropped = [] ∧ Token.spell (tokenize source) = source := by
  have hdropped : (analyze source).dropped = [] := (dropped_eq_nil_iff source).mpr h.kind_pieces
  refine ⟨hdropped, ?_⟩
  have hcount := length_spell_add_dropped source
  rw [hdropped, List.length_nil, Nat.add_zero] at hcount
  rw [← Report.tokens_of .reporting]
  exact spell_eq_of_length_eq hcount

/-- Runs in a literal, in a comment and at the end of the text, and a pair before an equals sign. -/
theorem spell_of_pairedUp_runs :
    PairedUp "x!=='&&'||y//||!=\n&&&&".toList ∧ (analyze "x!=='&&'||y//||!=\n&&&&").dropped = [] ∧
      Token.spell (tokenize "x!=='&&'||y//||!=\n&&&&") = "x!=='&&'||y//||!=\n&&&&" := by
  have hpaired : PairedUp "x!=='&&'||y//||!=\n&&&&".toList := by
    constructor
    · rw [← List.all_iff_forall_prop]
      decide
    · simp [List.suffix_cons_iff]
    · simp [EvenRuns.cons_iff, EvenRuns.pair_iff, EvenRuns.nil]
    · simp [EvenRuns.cons_iff, EvenRuns.pair_iff, EvenRuns.nil]
  exact ⟨hpaired, spell_of_pairedUp _ hpaired⟩

end Lexing
