import Lexing.Proofs.Wire.Acceptance

/-! A message with more bytes behind it. Nothing is looked at before its turn: a whole message has the first of the
new bytes left over, and what is wrong with a message stays wrong unless bytes were wanting. -/

namespace Lexing.Wire

abbrev Decoded (α : Type) := Except Failure (List α)

/-- How the decoding of bytes goes on with more bytes behind them. -/
structure Continues (limit : Nat) (α : Type) [Record α] (bs more : List UInt8) : Prop where
  trailing : ∀ as : List α, decode limit bs = .ok as →
    (decode limit (bs ++ more) : Decoded α) = .error (.trailing bs.length)
  refused : ∀ failure, (decode limit bs : Decoded α) = .error failure → failure ≠ .truncated →
    (decode limit (bs ++ more) : Decoded α) = .error failure
  truncated : ∀ as : List α, decode limit (bs ++ more) = .ok as → (decode limit bs : Decoded α) = .error .truncated

section Lists

variable {limit : Nat} {α : Type} [Record α] {items : α → List Item} {bs more : List UInt8}

theorem decode_append_of_ok (h : Itemized items) (hmore : more ≠ []) {as : List α}
    (hdecode : decode limit bs = .ok as) : (decode limit (bs ++ more) : Decoded α) = .error (.trailing bs.length) := by
  obtain ⟨offset, hrows⟩ := decode_eq_ok_iff_readRows.mp hdecode
  obtain ⟨xs, -, hbs, hoffset⟩ := (follows_readRows h).ok_iff.mp hrows
  have hlength : offset = bs.length := by
    rw [hbs, List.append_nil]
    exact hoffset.trans (Nat.zero_add _)
  have hempty : more.isEmpty = false := List.isEmpty_eq_false_iff.mpr hmore
  rw [decode_eq, (follows_readRows h).ok_append more hrows, hlength]
  change (if more.isEmpty then _ else _) = _
  rw [hempty]
  rfl

theorem decode_append_of_error (h : Itemized items) {failure : Failure}
    (hdecode : (decode limit bs : Decoded α) = .error failure) (hne : failure ≠ .truncated) :
    (decode limit (bs ++ more) : Decoded α) = .error failure := by
  rw [decode_eq] at hdecode ⊢
  cases hrows : (readRows limit ⟨0, bs⟩ : Except Failure (List α × Cursor)) with
  | error failure' =>
      rw [hrows] at hdecode
      cases hdecode
      rw [(follows_readRows h).error_append more hrows hne]
      rfl
  | ok x =>
      -- the rows are read, so the failure is about the bytes left over
      obtain ⟨as, offset, rest⟩ := x
      rw [hrows] at hdecode
      rw [(follows_readRows h).ok_append more hrows]
      cases rest with
      | nil => cases hdecode
      | cons b rest => exact hdecode

theorem continues (h : Itemized items) (hmore : more ≠ []) : Continues limit α bs more where
  trailing _ hdecode := decode_append_of_ok h hmore hdecode
  refused _ hdecode hne := decode_append_of_error h hdecode hne
  truncated as hdecode := by
    cases hbs : (decode limit bs : Decoded α) with
    | ok as' =>
        have htrailing := decode_append_of_ok h hmore hbs
        rw [hdecode] at htrailing
        cases htrailing
    | error failure =>
        by_cases hfailure : failure = .truncated
        · rw [hfailure]
        · have herror : (decode limit (bs ++ more) : Decoded α) = .error failure :=
            decode_append_of_error h hbs hfailure
          rw [hdecode] at herror
          cases herror

end Lists

/-- Bytes behind a message are left over, and otherwise change nothing but a want of bytes. So a message that is cut
anywhere is known to be cut. -/
theorem decode_append (limit : Nat) (shown : Char → Bool) {bs more : List UInt8} (hmore : more ≠ []) :
    Continues limit Token bs more ∧ Continues limit Diagnostic bs more ∧
      Failure.truncated.message shown = "Input data was truncated" ∧
      (Failure.trailing bs.length).message shown =
        "MessagePack data is malformed: trailing characters (byte " ++ toString bs.length ++ ")" :=
  ⟨continues itemized_token hmore, continues itemized_diagnostic hmore, rfl, rfl⟩

/-- A row with an array behind its fields, which one level is enough for: one more byte is left over, and without its
end it is cut. -/
theorem decode_append_of_nested :
    [0xc1] ≠ ([] : List UInt8) ∧ [0x91, 0xc3] ≠ ([] : List UInt8) ∧
    decode 1 [0x91, 0x96, 0x01, 0x00, 0x01, 0x01, 0xc0, 0x91, 0xc3] =
      .ok [(⟨.unrecognizedCharacter, 0, ⟨1, 1⟩, none⟩ : Diagnostic)] ∧
    (decode 1 ([0x91, 0x96, 0x01, 0x00, 0x01, 0x01, 0xc0, 0x91, 0xc3] ++ [0xc1]) : Decoded Diagnostic) =
      .error (.trailing 9) ∧
    (decode 1 [0x91, 0x96, 0x01, 0x00, 0x01, 0x01, 0xc0] : Decoded Diagnostic) = .error .truncated := by
  have hwhole : decode 1 [0x91, 0x96, 0x01, 0x00, 0x01, 0x01, 0xc0, 0x91, 0xc3] =
      .ok [(⟨.unrecognizedCharacter, 0, ⟨1, 1⟩, none⟩ : Diagnostic)] := by decide +kernel
  have hmore : [0xc1] ≠ ([] : List UInt8) := List.cons_ne_nil _ _
  have hend : [0x91, 0xc3] ≠ ([] : List UInt8) := List.cons_ne_nil _ _
  refine ⟨hmore, hend, hwhole, ?_, ?_⟩
  · exact (decode_append 1 (fun _ => false) hmore).2.1.trailing _ hwhole
  · exact (decode_append 1 (fun _ => false) hend).2.1.truncated _ hwhole

end Lexing.Wire
