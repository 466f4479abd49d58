import Lexing.Proofs.Wire.FirstFlaw

/-! Lists of tokens and lists of diagnostics are told apart by their first row, whatever forms the sizes in them take
and however many items stand behind the fields: its size or its first item is not what the other reader expects. -/

namespace Lexing.Wire

/-- The size of a list of one row or more, and the size of the first. -/
inductive Opens (size : Nat) : List UInt8 → Prop
  | mk {count xs ys} : Header Forms.array count xs → 0 < count → Header Forms.array size ys → Opens size (xs ++ ys)

theorem Message.opens {depth : Nat} {item : Item} {items : List Item} {rows : List (List Item)} {bs : List UInt8}
    (h : Message depth ((item :: items) :: rows) bs) :
    ∃ size xs ys, items.length < size ∧ Opens size xs ∧ Spells item ys ∧ xs ++ ys <+: bs := by
  obtain ⟨hheader, hrows⟩ := h
  obtain ⟨_, _, hrow, -, rfl⟩ := rows_cons_iff.mp hrows
  obtain ⟨hsize, hle, hitems, -⟩ := hrow
  obtain ⟨ys, _, hitem, -, rfl⟩ := items_cons_iff.mp hitems
  refine ⟨_, _, ys, hle, .mk hheader (Nat.succ_pos _) hsize, hitem, ?_⟩
  simp only [List.append_assoc, List.prefix_append_right_inj, List.prefix_append]

section Refused

variable {limit : Nat} {α : Type} {items : α → List Item} {slots : List Slot} {size : Nat} {xs ys bs : List UInt8}

theorem Opens.flaw {failure : Failure} (h : Opens size xs)
    (hrow : ∀ hs, Header Forms.array size hs → RowFlaw slots 0 failure (hs ++ ys)) :
    MessageFlaw limit items slots failure (xs ++ ys) := by
  cases h with
  | @mk count hs ms hheader hpos hsize =>
      have hfirst : ([] : List α).length < count := hpos
      have hnone : Rows limit (([] : List α).map items) [] := .nil
      have hflaw : MessageFlaw limit items slots failure (hs ++ ([] ++ (ms ++ ys))) :=
        .row hheader hfirst hnone (hrow ms hsize)
      rwa [List.nil_append, ← List.append_assoc] at hflaw

variable [Record α]

/-- A first row that is too short is refused for that, whatever it holds. -/
theorem Opens.decode_tooShort (h : Opens size xs) (hitems : Itemized items) (hslots : Slotted α slots)
    (hlt : size < slots.length) (hbs : xs <+: bs) :
    (decode limit bs : Decoded α) = .error (.tooShort [0] slots.length size) := by
  have hflaw : MessageFlaw limit items slots (.tooShort [0] slots.length size) (xs ++ []) := by
    apply h.flaw
    intro hs hsize
    rw [List.append_nil]
    exact .length hsize hlt
  rw [List.append_nil] at hflaw
  exact ((decode_eq_validation_iff hitems hslots bs).mpr ⟨xs, hflaw, hbs⟩).1

/-- A first row with items enough is refused for its first item. -/
theorem Opens.decode_field {slot : Slot} {failure : Failure} {item : Item} (h : Opens size xs)
    (hitems : Itemized items) (hslots : Slotted α (slot :: slots)) (hle : (slot :: slots).length ≤ size)
    (hitem : Spells item ys) (hslot : slot.flaw [0, 0] failure item) (hbs : xs ++ ys <+: bs) :
    (decode limit bs : Decoded α) = .error failure := by
  have hflaw : MessageFlaw limit items (slot :: slots) failure (xs ++ ys) := by
    apply h.flaw
    intro hs hsize
    exact .field hsize hle (.here hslot hitem)
  exact ((decode_eq_validation_iff hitems hslots bs).mpr ⟨_, hflaw, hbs⟩).1

end Refused

theorem decode_diagnostics_of_tokens {limit : Nat} {bs : List UInt8} {t : Token} {ts : List Token}
    (h : decode limit bs = .ok (t :: ts)) :
    (decode limit bs : Decoded Diagnostic) = .error (.tooShort [0] 5 4) ∨
      (decode limit bs : Decoded Diagnostic) = .error (.mismatch [0, 0] .integer .str) := by
  obtain ⟨size, xs, ys, hsize, hopens, hkind, hbs⟩ := ((decode_eq_ok_iff itemized_token).mp h).opens
  by_cases hlt : size < Diagnostic.slots.length
  · obtain rfl : size = 4 := Nat.le_antisymm (Nat.le_of_lt_succ hlt) hsize
    exact .inl (hopens.decode_tooShort itemized_diagnostic slotted_diagnostic hlt
      ((List.prefix_append xs ys).trans hbs))
  · have hname : (textItem t.kind.name).type ∉ Expected.integer.types := by
      simp only [textItem, Item.type, Expected.types, List.mem_singleton, reduceCtorEq, not_false_eq_true]
    have hflaw : Slot.diagnosticKind.flaw [0, 0] (.mismatch [0, 0] .integer .str) (textItem t.kind.name) :=
      .type (.mk hname)
    exact .inr (hopens.decode_field itemized_diagnostic slotted_diagnostic (Nat.not_lt.mp hlt) hkind hflaw hbs)

theorem decode_tokens_of_diagnostics {limit : Nat} {bs : List UInt8} {d : Diagnostic} {ds : List Diagnostic}
    (h : decode limit bs = .ok (d :: ds)) :
    (decode limit bs : Decoded Token) = .error (.mismatch [0, 0] .text .int) := by
  obtain ⟨size, xs, ys, hsize, hopens, hkind, hbs⟩ := ((decode_eq_ok_iff itemized_diagnostic).mp h).opens
  have hcode : (Item.int d.kind.code).type ∉ Expected.text.types := by
    simp only [Item.type, Expected.types, List.mem_singleton, reduceCtorEq, not_false_eq_true]
  have hflaw : Slot.tokenKind.flaw [0, 0] (.mismatch [0, 0] .text .int) (.int d.kind.code) := .type (.mk hcode)
  exact hopens.decode_field itemized_token slotted_token (Nat.le_of_lt hsize) hkind hflaw hbs

section Written

theorem lt_of_arrayHeader {n : Nat} {hs : List UInt8} (h : arrayHeader n = .ok hs) : n < 2 ^ 32 := by
  by_contra hge
  have h4 : BigEndian.capacity 4 = 2 ^ 32 := rfl
  have h2 : BigEndian.capacity 2 = 2 ^ 16 := rfl
  rw [arrayHeader, if_neg (by omega), if_neg (by omega), if_neg (by omega)] at h
  cases h

theorem header_of_arrayHeader {n : Nat} {hs : List UInt8} (h : arrayHeader n = .ok hs) :
    Header Forms.array n hs := by
  have hcarries := carries_readArray [] (lt_of_arrayHeader h)
  rw [h] at hcarries
  cases hcarries with
  | written _ hconsumes =>
      obtain ⟨xs, hheader, hxs, -⟩ := (follows_readArray []).ok_iff.mp (hconsumes 0 [])
      rwa [List.append_cancel_right hxs]

/-- What is written for records opens with how many there are and how many fields they have. -/
theorem opens_of_encode {α : Type} [Record α] {a : α} {as : List α} {bs : List UInt8}
    (h : encode (a :: as) = .ok bs) : ∃ xs, Opens (Record.fields α) xs ∧ xs <+: bs := by
  rw [encode_eq, writeRows_cons, bind_eq_ok_iff] at h
  obtain ⟨hs, hcount, h⟩ := h
  obtain ⟨_, hrows, h⟩ := bind_eq_ok_iff.mp h
  obtain ⟨_, hrow, hrows⟩ := bind_eq_ok_iff.mp hrows
  obtain ⟨_, _, hrows⟩ := bind_eq_ok_iff.mp hrows
  rw [writeRecord] at hrow
  obtain ⟨ms, hsize, hrow⟩ := bind_eq_ok_iff.mp hrow
  obtain ⟨_, _, hrow⟩ := bind_eq_ok_iff.mp hrow
  cases hrow
  cases hrows
  cases h
  refine ⟨hs ++ ms, .mk (header_of_arrayHeader hcount) (Nat.succ_pos _) (header_of_arrayHeader hsize), ?_⟩
  simp only [List.append_assoc, List.prefix_append_right_inj, List.prefix_append]

theorem decode_of_encode_diagnostics (limit : Nat) {ds : List Diagnostic} {bs : List UInt8}
    (h : encode ds = .ok bs) : decode limit bs = .ok ds := by
  obtain ⟨hs, hcount, -⟩ := bind_eq_ok_iff.mp ((encode_eq ds).symm.trans h)
  have hcarries : Carries (readRows limit) _ ds (encode ds) :=
    carries_encode (by decide) (lt_of_arrayHeader hcount) fun d _ row => carries_diagnostic row d
  rw [h] at hcarries
  exact decode_of_carries hcarries

end Written

/-- Bytes that are a list for one reader are none for the other, but those of the empty list, which are it for both. -/
structure Unshared (limit : Nat) (bs : List UInt8) : Prop where
  empty : decode limit bs = .ok ([] : List Token) ↔ decode limit bs = .ok ([] : List Diagnostic)
  both : ∀ (ts : List Token) (ds : List Diagnostic), decode limit bs = .ok ts → decode limit bs = .ok ds →
    ts = [] ∧ ds = []
  tokens : ∀ ts : List Token, ts ≠ [] → encode ts = .ok bs →
    (decode limit bs : Decoded Diagnostic) = .error (.tooShort [0] 5 4)
  diagnostics : ∀ ds : List Diagnostic, ds ≠ [] → encode ds = .ok bs →
    (decode limit bs : Decoded Token) = .error (.mismatch [0, 0] .text .int)

/-- Tokens are refused as diagnostics for the length of the first, diagnostics as tokens for the kind of the first. -/
theorem decode_apart (limit : Nat) (shown : Char → Bool) (bs : List UInt8) : Unshared limit bs ∧
    (Failure.tooShort [0] 5 4).message shown = "Expected `array` of at least length 5, got 4 - at `$[0]`" ∧
    (Failure.mismatch [0, 0] .text .int).message shown = "Expected `str`, got `int` - at `$[0][0]`" ∧
    (Failure.tooShort [0] 5 4).kind = .validation ∧ (Failure.mismatch [0, 0] .text .int).kind = .validation := by
  have hapart : Unshared limit bs := by
    constructor
    · rw [decode_eq_ok_iff itemized_token, decode_eq_ok_iff itemized_diagnostic, List.map_nil, List.map_nil]
    · intro ts ds hts hds
      cases ts with
      | cons t ts =>
          rcases decode_diagnostics_of_tokens hts with herror | herror
          · rw [hds] at herror
            cases herror
          · rw [hds] at herror
            cases herror
      | nil =>
          cases ds with
          | nil => exact ⟨rfl, rfl⟩
          | cons d ds =>
              have herror := decode_tokens_of_diagnostics hds
              rw [hts] at herror
              cases herror
    · intro ts hts hencode
      obtain ⟨t, ts, rfl⟩ := List.exists_cons_of_ne_nil hts
      obtain ⟨xs, hopens, hbs⟩ := opens_of_encode hencode
      exact hopens.decode_tooShort itemized_diagnostic slotted_diagnostic (by decide) hbs
    · intro ds hds hencode
      obtain ⟨d, ds, rfl⟩ := List.exists_cons_of_ne_nil hds
      exact decode_tokens_of_diagnostics (decode_of_encode_diagnostics limit hencode)
  have hlength := (pointed shown).length 0 5 4
  have htext := (pointed shown).text 0 0 .int
  exact ⟨hapart, hlength.trans (by decide +kernel), htext.trans (by decide +kernel), rfl, rfl⟩

/-- Both lists are written, with a text beyond ASCII in the one and a negative number in the other, and each is refused
by the other reader. -/
theorem decode_apart_of_written :
    (∃ bs, encode [(⟨.string, "'é'", ⟨1, 300⟩⟩ : Token), ⟨.whitespace, "", ⟨0, 0⟩⟩] = .ok bs ∧
      (decode 0 bs : Decoded Diagnostic) = .error (.tooShort [0] 5 4)) ∧
    ∃ bs, encode [(⟨.unterminatedString, -1, ⟨1, 1⟩, none⟩ : Diagnostic)] = .ok bs ∧
      (decode 0 bs : Decoded Token) = .error (.mismatch [0, 0] .text .int) := by
  have htokens : encode [(⟨.string, "'é'", ⟨1, 300⟩⟩ : Token), ⟨.whitespace, "", ⟨0, 0⟩⟩] =
      .ok [0x92, 0x94, 0xa6, 0x73, 0x74, 0x72, 0x69, 0x6e, 0x67, 0xa4, 0x27, 0xc3, 0xa9, 0x27, 0x01, 0xcd, 0x01, 0x2c,
        0x94, 0xaa, 0x77, 0x68, 0x69, 0x74, 0x65, 0x73, 0x70, 0x61, 0x63, 0x65, 0xa0, 0x00, 0x00] := by
    decide +kernel
  have hdiagnostics : encode [(⟨.unterminatedString, -1, ⟨1, 1⟩, none⟩ : Diagnostic)] =
      .ok [0x91, 0x95, 0x02, 0xff, 0x01, 0x01, 0xc0] := by
    decide +kernel
  constructor
  · exact ⟨_, htokens, (decode_apart 0 (fun _ => false) _).1.tokens _ (List.cons_ne_nil _ _) htokens⟩
  · exact ⟨_, hdiagnostics, (decode_apart 0 (fun _ => false) _).1.diagnostics _ (List.cons_ne_nil _ _) hdiagnostics⟩

-- a token with an item behind its fields is long enough for a diagnostic
example : (decode 0 [0x91, 0x95, 0xa6, 0x6e, 0x75, 0x6d, 0x62, 0x65, 0x72, 0xa1, 0x31, 0x01, 0x01, 0xc0] :
    Decoded Diagnostic) = .error (.mismatch [0, 0] .integer .str) := by
  decide +kernel

end Lexing.Wire
