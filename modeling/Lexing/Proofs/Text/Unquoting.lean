import Lexing.Proofs.Text.Utf8RoundTrip
import Lexing.Text.Quoted
import Mathlib.Algebra.Group.Nat.Defs

/-! Quoted texts read back. The front of what stands between the delimiters tells the first character, whatever comes
after it, so different texts have different quotes. -/

namespace Lexing.Text

def hexDigitValue (c : Char) : Nat := if c.toNat < 58 then c.toNat - 48 else c.toNat - 87

/-- The number that hexadecimal digits stand for, the most significant first. -/
def hexValue (ds : List Char) : Nat := ds.foldl (fun n d => n * 16 + hexDigitValue d) 0

/-- How many digits follow the letter of an escape that tells a code point. -/
def escapeWidth? : Char → Option Nat
  | 'x' => some 2
  | 'u' => some 4
  | 'U' => some 8
  | _ => none

/-- The character that any other letter of an escape stands for. -/
def escapedChar : Char → Char
  | 't' => '\t'
  | 'n' => '\n'
  | 'r' => '\x0d'
  | c => c

/-- The first character of a text, by the front of its quoted form, and the form of the rest. -/
def unquoteChar? : List Char → Option (Char × List Char)
  | [] => none
  | '\\' :: e :: cs =>
      match escapeWidth? e with
      | some width => some (Char.ofNat (hexValue (cs.take width)), cs.drop width)
      | none => some (escapedChar e, cs)
  | c :: cs => some (c, cs)

theorem hexDigitValue_hexDigit : ∀ d < 16, hexDigitValue (hexDigit d) = d := by decide

theorem hexValue_concat (ds : List Char) (d : Char) : hexValue (ds ++ [d]) = hexValue ds * 16 + hexDigitValue d := by
  simp [hexValue]

theorem hexValue_hexDigits (width n : Nat) : hexValue (hexDigits width n) = n % 16 ^ width := by
  induction width generalizing n with
  | zero => rw [Nat.pow_zero, Nat.mod_one]; rfl
  | succ width ih =>
      have hdigit : hexDigitValue (hexDigit (n % 16)) = n % 16 :=
        hexDigitValue_hexDigit _ (Nat.mod_lt _ (by decide))
      rw [hexDigits, hexValue_concat, ih, hdigit, Nat.pow_succ', Nat.mod_mul]
      omega

theorem unquoteChar?_plain {c : Char} (cs : List Char) (h : c ≠ '\\') : unquoteChar? (c :: cs) = some (c, cs) := by
  unfold unquoteChar?
  split <;> simp_all

theorem unquoteChar?_letter {e : Char} (cs : List Char) (h : escapeWidth? e = none) :
    unquoteChar? ('\\' :: e :: cs) = some (escapedChar e, cs) := by
  simp only [unquoteChar?, h]

theorem unquoteChar?_digits {c e : Char} {width : Nat} (cs : List Char) (he : escapeWidth? e = some width)
    (hc : c.toNat < 16 ^ width) : unquoteChar? ('\\' :: e :: (hexDigits width c.toNat ++ cs)) = some (c, cs) := by
  have htake : (hexDigits width c.toNat ++ cs).take width = hexDigits width c.toNat :=
    List.take_left' (length_hexDigits ..)
  have hdrop : (hexDigits width c.toNat ++ cs).drop width = cs := List.drop_left' (length_hexDigits ..)
  simp only [unquoteChar?, he, htake, hdrop, hexValue_hexDigits, Nat.mod_eq_of_lt hc, Char.ofNat_toNat]

/-- The forms of one character between the delimiters `q`. -/
inductive Quoting (q c : Char) : List Char → Prop
  | plain : c ≠ q → c ≠ '\\' → Quoting q c [c]
  | letter {e} : escapeWidth? e = none → escapedChar e = c → Quoting q c ['\\', e]
  | digits {e width} : escapeWidth? e = some width → c.toNat < 16 ^ width →
      Quoting q c ('\\' :: e :: hexDigits width c.toNat)

theorem delimiter_cases (cs : List Char) : delimiter cs = '\x22' ∨ delimiter cs = '\x27' := by
  unfold delimiter
  split
  · exact .inl rfl
  · exact .inr rfl

variable {shown : Char → Bool} {q : Char}

theorem quoting_hexEscape (q c : Char) : Quoting q c (hexEscape c) := by
  unfold hexEscape
  split
  · next h => exact .digits rfl h
  · split
    · next h => exact .digits rfl h
    · have hvalid : c.toNat < 0x110000 := by
        have := Utf8.toNat_valid c
        omega
      exact .digits rfl (Nat.lt_trans hvalid (by decide))

theorem quoting_quoteChar (shown : Char → Bool) (hq : q = '\x22' ∨ q = '\x27') (c : Char) :
    Quoting q c (quoteChar shown q c) := by
  unfold quoteChar
  split
  · next h =>
      rcases h with rfl | rfl
      · rcases hq with rfl | rfl
        · exact .letter rfl rfl
        · exact .letter rfl rfl
      · exact .letter rfl rfl
  · next hplain =>
      obtain ⟨hquote, hescape⟩ := not_or.mp hplain
      split
      · next h => exact .letter rfl h.symm
      · split
        · next h => exact .letter rfl h.symm
        · split
          · next h => exact .letter rfl h.symm
          · split
            · exact quoting_hexEscape q c
            · split
              · exact .plain hquote hescape
              · exact quoting_hexEscape q c

/-- A character is read back from its quoted form, whatever comes after it. -/
theorem unquoteChar?_of_quoting {c : Char} {form : List Char} (h : Quoting q c form) (cs : List Char) :
    unquoteChar? (form ++ cs) = some (c, cs) := by
  cases h with
  | plain _ hescape => exact unquoteChar?_plain cs hescape
  | letter hletter hc => exact hc ▸ unquoteChar?_letter cs hletter
  | digits he hc => exact unquoteChar?_digits cs he hc

theorem flatMap_quoteChar_inj (hq : q = '\x22' ∨ q = '\x27') {cs ds : List Char}
    (h : cs.flatMap (quoteChar shown q) = ds.flatMap (quoteChar shown q)) : cs = ds := by
  have hread (c : Char) (cs : List Char) :
      unquoteChar? ((c :: cs).flatMap (quoteChar shown q)) = some (c, cs.flatMap (quoteChar shown q)) := by
    rw [List.flatMap_cons]
    exact unquoteChar?_of_quoting (quoting_quoteChar shown hq c) _
  induction cs generalizing ds with
  | nil =>
      cases ds with
      | nil => rfl
      | cons d ds =>
          have hd := hread d ds
          rw [← h] at hd
          cases hd
  | cons c cs ih =>
      have hc := hread c cs
      rw [h] at hc
      cases ds with
      | nil => cases hc
      | cons d ds =>
          rw [hread d ds, Option.some.injEq, Prod.mk.injEq] at hc
          obtain ⟨rfl, hrest⟩ := hc
          rw [ih hrest.symm]

/-- Different texts are quoted differently. -/
theorem quote_inj {v w : String} : quote shown v = quote shown w ↔ v = w := by
  constructor
  · intro h
    have hlist := congrArg String.toList h
    rw [toList_quote, toList_quote, List.cons_append, List.cons_append] at hlist
    -- the delimiter in front tells how both texts are escaped
    obtain ⟨hdelimiter, hbody⟩ := List.cons.inj hlist
    rw [← hdelimiter] at hbody
    exact String.toList_inj.mp (flatMap_quoteChar_inj (delimiter_cases _) (List.append_cancel_right hbody))
  · exact congrArg (quote shown)

end Lexing.Text
