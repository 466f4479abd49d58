import Lexing.Proofs.Text.Utf8Faults
import Lexing.Proofs.Wire.FailureKinds

/-! The text of a token. Its bytes are read as the text that they encode, and bytes that encode none are refused for
the first fault in them, whatever the message holds behind them. -/

namespace Lexing.Wire
open Text (Utf8.encode Utf8.Fault Utf8.FirstFault)

/-- A message of tokens up to the text of the one in `row`: the size of the list, the rows before, and of the row itself
the size and the kind. -/
inductive UpToText (limit row : Nat) : List UInt8 → Prop
  | mk {count size hs rs ms xs} {ts : List Token} {kind : Token.Kind} : Header Forms.array count hs → row < count →
      ts.length = row → Rows limit (ts.map Token.items) rs → Header Forms.array size ms →
      Record.fields Token ≤ size → Spells (textItem kind.name) xs → UpToText limit row (hs ++ (rs ++ (ms ++ xs)))

/-- How `field`, a text with the bytes `payload`, is read behind `front`. -/
structure ReadsText (limit row : Nat) (front payload field : List UInt8) : Prop where
  field_iff : ∀ offset rest s, readField [row, 1] ⟨offset, field ++ rest⟩ = .ok (s, ⟨offset + field.length, rest⟩) ↔
    payload = Utf8.encode s
  reads_iff : ∀ rest (ts : List Token), decode limit (front ++ (field ++ rest)) = .ok ts →
    ∃ t, ts[row]? = some t ∧ ∀ s, t.text = s ↔ payload = Utf8.encode s
  readable : ∀ s, payload = Utf8.encode s → ∃ rest, ∃ ts : List Token, decode limit (front ++ (field ++ rest)) = .ok ts
  refused : (∀ s, payload ≠ Utf8.encode s) → ∃ fault, Utf8.FirstFault payload fault ∧
    ∀ rest, (decode limit (front ++ (field ++ rest)) : Decoded Token) = .error (.notUtf8 fault)

theorem encode_inj {s t : String} : Utf8.encode s = Utf8.encode t ↔ s = t := by
  constructor
  · intro h
    have hdecode := Text.Utf8.decode_encode s
    rw [h, Text.Utf8.decode_encode] at hdecode
    exact (Except.ok.inj hdecode).symm
  · rintro rfl
    rfl

theorem textItem_eq_iff {s : String} {payload : List UInt8} : textItem s = .str payload ↔ payload = Utf8.encode s := by
  rw [textItem, Item.str.injEq, eq_comm]

section Rows

variable {depth : Nat} {rows rows' : List (List Item)} {items : List Item} {xs ys : List UInt8}

theorem Rows.append (h : Rows depth rows xs) (h' : Rows depth rows' ys) : Rows depth (rows ++ rows') (xs ++ ys) := by
  induction h with
  | nil => exact h'
  | cons hrow _ ih =>
      rw [List.append_assoc]
      exact .cons hrow ih

theorem rows_replicate (h : Row depth items xs) (n : Nat) :
    Rows depth (List.replicate n items) (List.replicate n xs).flatten := by
  induction n with
  | zero => exact .nil
  | succ n ih => exact .cons h ih

end Rows

/-- Rows of a list behind some rows of it: the next row is that of the next record. -/
theorem row_behind_rows {limit : Nat} {α : Type} [Record α] {items : α → List Item} (h : Itemized items)
    {as bs : List α} {xs rest : List UInt8} (has : Rows limit (as.map items) xs)
    (hbs : Rows limit (bs.map items) (xs ++ rest)) (hlt : as.length < bs.length) :
    ∃ b ys zs, bs[as.length]? = some b ∧ Row limit (items b) ys ∧ rest = ys ++ zs := by
  induction as generalizing bs xs with
  | nil =>
      cases has
      obtain ⟨b, bs, rfl⟩ := List.exists_cons_of_length_pos hlt
      obtain ⟨ys, zs, hrow, -, rfl⟩ := rows_cons_iff.mp hbs
      exact ⟨b, ys, zs, rfl, hrow, rfl⟩
  | cons a as ih =>
      obtain ⟨b, bs, rfl⟩ := List.exists_cons_of_length_pos (Nat.zero_lt_of_lt hlt)
      obtain ⟨ys, xs, ha, hrest, rfl⟩ := rows_cons_iff.mp has
      obtain ⟨ys', zs, hb, hrest', heq⟩ := rows_cons_iff.mp hbs
      rw [List.append_assoc] at heq
      obtain ⟨-, -, rfl⟩ := (follows_readRecord h 0).unique ha hb heq
      exact ih hrest hrest' (Nat.lt_of_succ_lt_succ hlt)

section Text

variable {limit row size : Nat} {front payload field ms xs rest : List UInt8} {kind : Token.Kind} {s : String}

/-- The text that a row is read with stands behind its kind. -/
theorem text_of_row {t : Token} {ys zs : List UInt8} (hsize : Header Forms.array size ms)
    (hkind : Spells (textItem kind.name) xs) (hfield : Spells (.str payload) field)
    (hrow : Row limit t.items ys) (heq : ms ++ (xs ++ (field ++ rest)) = ys ++ zs) :
    payload = Utf8.encode t.text := by
  obtain ⟨hsize', -, hitems, -⟩ := hrow
  obtain ⟨_, _, hkind', hfields, rfl⟩ := items_cons_iff.mp hitems
  obtain ⟨_, _, htext, -, rfl⟩ := items_cons_iff.mp hfields
  simp only [List.append_assoc] at heq
  obtain ⟨-, -, heq⟩ := (follows_readArray []).unique hsize hsize' heq
  obtain ⟨-, -, heq⟩ := follows_readItem.unique hkind hkind' heq
  obtain ⟨htext, -, -⟩ := follows_readItem.unique hfield htext heq
  exact textItem_eq_iff.mp htext.symm

/-- Behind a text, two numbers and something for each further item make up a row. -/
theorem row_of_text (hsize : Header Forms.array size ms) (hle : Record.fields Token ≤ size)
    (hkind : Spells (textItem kind.name) xs) (hfield : Spells (textItem s) field) :
    ∃ zs, Row limit (Token.items ⟨kind, s, ⟨0, 0⟩⟩) (ms ++ (xs ++ (field ++ zs))) := by
  have hzero : Spells (.int 0) [0x00] := .natural (.mk (by decide) .here)
  have hitems : Items (Token.items ⟨kind, s, ⟨0, 0⟩⟩) (xs ++ (field ++ ([0x00] ++ ([0x00] ++ [])))) :=
    .cons hkind (.cons hfield (.cons hzero (.cons hzero .nil)))
  have hrow : Row limit (Token.items ⟨kind, s, ⟨0, 0⟩⟩) _ :=
    .mk hsize hle hitems (values_nil limit (size - 4))
  refine ⟨[0x00] ++ ([0x00] ++ List.replicate (size - 4) 0xc0), ?_⟩
  simpa only [List.append_assoc, List.append_nil] using hrow

end Text

section Text

variable {limit row : Nat} {front payload field : List UInt8}

theorem readText_iff (path : Path) (hfield : Spells (.str payload) field) (offset : Nat) (rest : List UInt8)
    (s : String) : readField path ⟨offset, field ++ rest⟩ = .ok (s, ⟨offset + field.length, rest⟩) ↔
      payload = Utf8.encode s := by
  have htext : Follows (readField path) fun s => Spells (textItem s) :=
    follows_readField fun _ _ => acceptText_eq_ok_iff
  rw [htext.ok_iff, ← textItem_eq_iff]
  constructor
  · rintro ⟨xs, hxs, heq, -⟩
    obtain ⟨hitem, -, -⟩ := follows_readItem.unique hxs hfield heq.symm
    exact hitem
  · intro hitem
    rw [hitem]
    exact ⟨field, hfield, rfl, rfl⟩

theorem UpToText.encodes (h : UpToText limit row front) (hfield : Spells (.str payload) field) {rest : List UInt8}
    {ts : List Token} (hdecode : decode limit (front ++ (field ++ rest)) = .ok ts) :
    ∃ t, ts[row]? = some t ∧ payload = Utf8.encode t.text := by
  obtain ⟨hcount, hlt, rfl, hrows, hsize, -, hkind⟩ := h
  generalize hbs : _ ++ (field ++ rest) = bs at hdecode
  obtain ⟨hcount', hrows'⟩ := (decode_eq_ok_iff itemized_token).mp hdecode
  simp only [List.append_assoc] at hbs
  obtain ⟨rfl, -, rfl⟩ := (follows_readArray []).unique hcount hcount' hbs
  rw [List.length_map] at hlt
  obtain ⟨t, ys, zs, ht, hrow, heq⟩ := row_behind_rows itemized_token hrows hrows' hlt
  exact ⟨t, ht, text_of_row hsize hkind hfield hrow heq⟩

/-- What is missing behind the text may be a row of two zeros, over and over. -/
theorem UpToText.readable (h : UpToText limit row front) {s : String} (hfield : Spells (textItem s) field) :
    ∃ rest, ∃ ts : List Token, decode limit (front ++ (field ++ rest)) = .ok ts := by
  cases h with
  | @mk count size hs rs ms xs ts kind hcount hlt hlength hrows hsize hle hkind =>
      obtain ⟨zs, hrow⟩ := row_of_text hsize hle hkind hfield
      obtain ⟨k, rfl⟩ := Nat.exists_eq_add_of_lt hlt
      have hrows' := hrows.append (rows_replicate hrow (k + 1))
      rw [← List.map_replicate (f := Token.items), ← List.map_append] at hrows'
      have hcount' : Header Forms.array
          ((ts ++ List.replicate (k + 1) (Token.mk kind s ⟨0, 0⟩)).map Token.items).length hs := by
        rw [List.length_map, List.length_append, List.length_replicate, hlength, ← Nat.add_assoc]
        exact hcount
      have hbytes : hs ++ (rs ++ (List.replicate (k + 1) (ms ++ (xs ++ (field ++ zs)))).flatten) =
          hs ++ (rs ++ (ms ++ xs)) ++
            (field ++ (zs ++ (List.replicate k (ms ++ (xs ++ (field ++ zs)))).flatten)) := by
        simp only [List.replicate_succ, List.flatten_cons, List.append_assoc]
      have hdecode := (decode_eq_ok_iff itemized_token).mpr (Message.mk hcount' hrows')
      rw [hbytes] at hdecode
      exact ⟨_, _, hdecode⟩

theorem UpToText.refused (h : UpToText limit row front) {fault : Utf8.Fault} (hfield : FaultyText fault field)
    (rest : List UInt8) : (decode limit (front ++ (field ++ rest)) : Decoded Token) = .error (.notUtf8 fault) := by
  obtain ⟨hcount, hlt, rfl, hrows, hsize, hle, hkind⟩ := h
  have hrow : RowBreak limit Token.items FaultyToken (.notUtf8 fault) _ := .text hsize hle (.text hkind hfield)
  have hbreak := MessageBreak.mk hcount hlt hrows hrow
  refine (decode_eq_error_iff itemized_token refusesFaulty_token ?_ _).mpr ⟨_, hbreak, ?_⟩
  · simp only [Failure.Documented, Failure.kind, reduceCtorEq, or_self, not_false_eq_true]
  · simp only [List.append_assoc, List.prefix_append_right_inj, List.prefix_append]

end Text

/-- The text of a token is read as what its bytes encode, or it is refused for the first fault in them. -/
theorem decode_text {limit row : Nat} {front payload field : List UInt8} (hfront : UpToText limit row front)
    (hfield : Spells (.str payload) field) : ReadsText limit row front payload field ∧
      (∀ fault, (Failure.notUtf8 fault).kind = .unicode) ∧
      reasonPhrase .invalidStart = "invalid start byte" ∧
      reasonPhrase .unexpectedEnd = "unexpected end of data" ∧
      reasonPhrase .invalidContinuation = "invalid continuation byte" := by
  have hreads : ReadsText limit row front payload field := by
    constructor
    · exact readText_iff [row, 1] hfield
    · intro rest ts hdecode
      obtain ⟨t, ht, rfl⟩ := hfront.encodes hfield hdecode
      exact ⟨t, ht, fun s => encode_inj.symm⟩
    · rintro s rfl
      exact hfront.readable hfield
    · intro hnone
      cases hdecode : Text.Utf8.decode payload with
      | ok s => exact absurd (Text.Utf8.decode_eq_ok_iff.mp hdecode) (hnone s)
      | error fault =>
          refine ⟨fault, Text.Utf8.firstFault_of_decode hdecode, ?_⟩
          exact hfront.refused ⟨payload, hdecode, hfield⟩
  exact ⟨hreads, fun _ => rfl, rfl, rfl, rfl⟩

/-- In the second of two rows, behind a first one with an item more than its fields: a character of three bytes that is
broken off in its third. -/
theorem decode_text_broken : ∃ front field,
    front = [0xdc, 0x00, 0x02, 0x95, 0xa6, 0x6e, 0x75, 0x6d, 0x62, 0x65, 0x72, 0xa1, 0x31, 0x01, 0x01, 0xc0, 0x94, 0xa6,
      0x73, 0x74, 0x72, 0x69, 0x6e, 0x67] ∧
    field = [0xd9, 0x04, 0x61, 0xe2, 0x82, 0x41] ∧ UpToText 0 1 front ∧ Spells (.str [0x61, 0xe2, 0x82, 0x41]) field ∧
    Text.Utf8.decode [0x61, 0xe2, 0x82, 0x41] = .error ⟨1, 2, 0xe2, .invalidContinuation⟩ ∧
    ReadsText 0 1 front [0x61, 0xe2, 0x82, 0x41] field := by
  have hsix {s : String} (h : (Utf8.encode s).length = 6) : Spells (textItem s) ([0xa6] ++ Utf8.encode s) :=
    .str (.mk (h ▸ by decide) .here)
  have hnumber : Spells (textItem Token.Kind.number.name) _ := hsix (by decide)
  have hstring : Spells (textItem Token.Kind.string.name) _ := hsix (by decide)
  have hdigit : Spells (textItem "1") ([0xa1] ++ Utf8.encode "1") := .str (.mk (by decide) .here)
  have hone : Spells (.int 1) [0x01] := .natural (.mk (by decide) .here)
  have hitems : Items (Token.items ⟨.number, "1", ⟨1, 1⟩⟩) _ :=
    .cons hnumber (.cons hdigit (.cons hone (.cons hone .nil)))
  have hnil : Item.nil.IsScalar := trivial
  have hfive : Header Forms.array 5 [0x95] := .mk (by decide) .here
  have hrow : Row 0 (Token.items ⟨.number, "1", ⟨1, 1⟩⟩) _ :=
    .mk hfive (by decide) hitems (.scalar hnil .nil .done)
  have hrows : Rows 0 ([(⟨.number, "1", ⟨1, 1⟩⟩ : Token)].map Token.items) _ := .cons hrow .nil
  have hlong : ((0xdc : UInt8), Size.after 2) ∈ Forms.array ∧ ((0xd9 : UInt8), Size.after 1) ∈ Forms.str := by decide
  have htwo : Header Forms.array 2 [0xdc, 0x00, 0x02] := .mk hlong.1 (.after (by decide))
  have hfour : Header Forms.array 4 [0x94] := .mk (by decide) .here
  have hfront : UpToText 0 1 _ := .mk htwo (by decide) rfl hrows hfour (by decide) hstring
  have hsize : Header Forms.str [0x61, 0xe2, 0x82, 0x41].length [0xd9, 0x04] := .mk hlong.2 (.after (by decide))
  have hfield : Spells (.str [0x61, 0xe2, 0x82, 0x41]) ([0xd9, 0x04] ++ [0x61, 0xe2, 0x82, 0x41]) := .str hsize
  have hbroken : Text.Utf8.decode [0x61, 0xe2, 0x82, 0x41] = .error ⟨1, 2, 0xe2, .invalidContinuation⟩ := by
    decide +kernel
  exact ⟨_, _, by decide, rfl, hfront, hfield, hbroken, (decode_text hfront hfield).1⟩

end Lexing.Wire
