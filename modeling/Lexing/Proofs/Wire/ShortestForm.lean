import Lexing.Proofs.Wire.Acceptance

/-! What is written is the shortest. Of all the bytes that stand for a list, the written ones are no longer than any,
and there are written ones for every list that is read. -/

namespace Lexing.Wire
open BigEndian (bytes capacity unsigned)

/-- Something is written, in no more than so many bytes. -/
def Affords (cost : Nat) (w : Written) : Prop := ∃ ws, w = .ok ws ∧ ws.length ≤ cost

theorem affords_byte {cost : Nat} (b : UInt8) (h : 0 < cost) : Affords cost (.ok [b]) := ⟨_, rfl, h⟩

theorem affords_numbered {cost width : Nat} (first : UInt8) (n : Nat) (h : width < cost) :
    Affords cost (.ok (numbered first width n)) := by
  refine ⟨_, rfl, ?_⟩
  rw [numbered, List.length_cons, BigEndian.length_bytes]
  exact h

/-- How many bytes after the first one are enough for the numbers below a bound. -/
abbrev Rungs := List (Nat × Nat)

namespace Rungs

def natural : Rungs := [(0, 0x80), (1, capacity 1), (2, capacity 2), (4, capacity 4), (8, capacity 8)]

def str : Rungs := [(0, 0x20), (1, capacity 1), (2, capacity 2), (4, capacity 4)]

def array : Rungs := [(0, 0x10), (2, capacity 2), (4, capacity 4)]

end Rungs

namespace Size

def width : Size → Nat
  | here _ => 0
  | after width => width

/-- The bound of the sizes that can be told in this place. -/
def bound : Size → Nat
  | here n => n + 1
  | after width => capacity width

theorem Told.spec {size : Size} {n : Nat} {xs : List UInt8} (h : size.Told n xs) :
    n < size.bound ∧ xs.length = size.width := by
  cases h with
  | here => exact ⟨Nat.lt_succ_self n, rfl⟩
  | after hn => exact ⟨hn, BigEndian.length_bytes ..⟩

end Size

/-- Every form is on a rung. -/
def Forms.On (forms : Forms) (rungs : Rungs) : Prop :=
  ∀ form ∈ forms, ∃ rung ∈ rungs, form.2.width = rung.1 ∧ form.2.bound ≤ rung.2

theorem natural_on : Forms.natural.On Rungs.natural := by
  unfold Forms.On
  decide +kernel

theorem str_on : Forms.str.On Rungs.str := by
  unfold Forms.On
  decide +kernel

theorem array_on : Forms.array.On Rungs.array := by
  unfold Forms.On
  decide +kernel

theorem signed_on : ∀ form ∈ signedForms, 0 < form.2 ∧ (form.2, capacity form.2) ∈ Rungs.natural := by decide

theorem Header.rung {forms : Forms} {rungs : Rungs} {n : Nat} {xs : List UInt8} (h : Header forms n xs)
    (hforms : forms.On rungs) : ∃ width bound, (width, bound) ∈ rungs ∧ n < bound ∧ xs.length = width + 1 := by
  obtain ⟨hmem, htold⟩ := h
  obtain ⟨⟨width, bound⟩, hrung, hwidth, hbound⟩ := hforms _ hmem
  obtain ⟨hn, hlength⟩ := htold.spec
  refine ⟨width, bound, hrung, Nat.lt_of_lt_of_le hn hbound, ?_⟩
  rw [List.length_cons, hlength, hwidth]

section Ladders

variable {width bound : Nat}

theorem affords_natural {n : Nat} (hrung : (width, bound) ∈ Rungs.natural) (hn : n < bound) :
    Affords (width + 1) (writeInt n) := by
  have h1 : capacity 1 = 0x100 := rfl
  have h2 : capacity 2 = 0x10000 := rfl
  have h4 : capacity 4 = 0x100000000 := rfl
  simp only [Rungs.natural, List.mem_cons, Prod.mk.injEq, List.not_mem_nil, or_false] at hrung
  rw [writeInt, if_pos (Int.natCast_nonneg n), Int.toNat_natCast]
  dsimp only
  split
  · exact affords_byte _ (Nat.succ_pos width)
  split
  · exact affords_numbered _ _ (by omega)
  split
  · exact affords_numbered _ _ (by omega)
  split
  · exact affords_numbered _ _ (by omega)
  split
  · exact affords_numbered _ _ (by omega)
  · omega

theorem affords_negative {n : Int} (hrung : (width, bound) ∈ Rungs.natural) (hwidth : 0 < width) (hneg : n < 0)
    (hlow : -(bound : Int) ≤ 2 * n) : Affords (width + 1) (writeInt n) := by
  have h1 : capacity 1 = 0x100 := rfl
  have h2 : capacity 2 = 0x10000 := rfl
  have h4 : capacity 4 = 0x100000000 := rfl
  have h8 : capacity 8 = 0x10000000000000000 := rfl
  simp only [Rungs.natural, List.mem_cons, Prod.mk.injEq, List.not_mem_nil, or_false] at hrung
  rw [writeInt, if_neg (Int.not_le.mpr hneg)]
  split
  · exact affords_byte _ (Nat.succ_pos width)
  split
  · exact affords_numbered _ _ (by omega)
  split
  · exact affords_numbered _ _ (by omega)
  split
  · exact affords_numbered _ _ (by omega)
  split
  · exact affords_numbered _ _ (by omega)
  · omega

theorem affords_textHeader {n : Nat} (hrung : (width, bound) ∈ Rungs.str) (hn : n < bound) :
    Affords (width + 1) (textHeader n) := by
  have h1 : capacity 1 = 0x100 := rfl
  have h2 : capacity 2 = 0x10000 := rfl
  simp only [Rungs.str, List.mem_cons, Prod.mk.injEq, List.not_mem_nil, or_false] at hrung
  rw [textHeader]
  split
  · exact affords_byte _ (Nat.succ_pos width)
  split
  · exact affords_numbered _ _ (by omega)
  split
  · exact affords_numbered _ _ (by omega)
  split
  · exact affords_numbered _ _ (by omega)
  · omega

theorem affords_arrayHeader {n : Nat} (hrung : (width, bound) ∈ Rungs.array) (hn : n < bound) :
    Affords (width + 1) (arrayHeader n) := by
  have h2 : capacity 2 = 0x10000 := rfl
  simp only [Rungs.array, List.mem_cons, Prod.mk.injEq, List.not_mem_nil, or_false] at hrung
  rw [arrayHeader]
  split
  · exact affords_byte _ (Nat.succ_pos width)
  split
  · exact affords_numbered _ _ (by omega)
  split
  · exact affords_numbered _ _ (by omega)
  · omega

end Ladders

/-- No form of an integer is shorter than the written one. -/
theorem affords_int {n : Int} {bs : List UInt8} (h : Spells (.int n) bs) : Affords bs.length (writeInt n) := by
  cases h with
  | natural hheader =>
      obtain ⟨width, bound, hrung, hn, hlength⟩ := hheader.rung natural_on
      rw [hlength]
      exact affords_natural hrung hn
  | @negative k hk =>
      have hlow : ¬0 ≤ (k : Int) - 0x20 := by omega
      have hsmall : -0x20 ≤ (k : Int) - 0x20 := by omega
      rw [writeInt, if_neg hlow, if_pos hsmall]
      exact affords_byte _ Nat.one_pos
  | @signed first width n hmem hlow hhigh =>
      obtain ⟨hwidth, hrung⟩ : 0 < width ∧ (width, capacity width) ∈ Rungs.natural := signed_on _ hmem
      rw [List.length_cons, BigEndian.length_bytes]
      cases n with
      | ofNat m =>
          -- a width that holds the number with a sign holds it without one
          apply affords_natural hrung
          rw [Int.ofNat_eq_natCast] at hhigh
          omega
      | negSucc m => exact affords_negative hrung hwidth (Int.negSucc_lt_zero m) hlow

theorem affords_text {s : String} {bs : List UInt8} (h : Spells (textItem s) bs) :
    Affords bs.length (writeText s) := by
  cases h with
  | str hheader =>
      obtain ⟨width, bound, hrung, hn, hlength⟩ := hheader.rung str_on
      obtain ⟨hs, heq, hle⟩ := affords_textHeader hrung hn
      refine ⟨hs ++ Text.Utf8.encode s, ?_, ?_⟩
      · rw [writeText, heq]
        rfl
      · rw [List.length_append, List.length_append, hlength]
        omega

theorem affords_index {index : Option Int} {bs : List UInt8} (h : Spells (indexItem index) bs) :
    Affords bs.length (Field.write index) := by
  cases index with
  | some n => exact affords_int h
  | none =>
      cases h with
      | nil => exact affords_byte _ Nat.one_pos

/-- What affords its parts affords them one behind the other. -/
theorem Affords.append {m n : Nat} {v w : Written} (hv : Affords m v) (hw : Affords n w) :
    Affords (m + n) (do return (← v) ++ (← w)) := by
  obtain ⟨xs, rfl, hxs⟩ := hv
  obtain ⟨ys, rfl, hys⟩ := hw
  refine ⟨xs ++ ys, rfl, ?_⟩
  rw [List.length_append]
  exact Nat.add_le_add hxs hys

theorem affords_token {t : Token} {bs : List UInt8} (h : Items t.items bs) : Affords bs.length (Record.write t) := by
  obtain ⟨ks, _, hkind, h1, rfl⟩ := items_cons_iff.mp h
  obtain ⟨xs, _, htext, h2, rfl⟩ := items_cons_iff.mp h1
  obtain ⟨ls, _, hline, h3, rfl⟩ := items_cons_iff.mp h2
  obtain ⟨cs, _, hcolumn, h4, rfl⟩ := items_cons_iff.mp h3
  obtain rfl := items_nil_iff.mp h4
  have hwrite := (((affords_text hkind).append (affords_text htext)).append (affords_int hline)).append
    (affords_int hcolumn)
  simp only [bind_assoc, pure_bind] at hwrite
  simp only [List.length_append, List.length_nil, Nat.add_zero, ← Nat.add_assoc]
  exact hwrite

theorem affords_diagnostic {d : Diagnostic} {bs : List UInt8} (h : Items d.items bs) :
    Affords bs.length (Record.write d) := by
  obtain ⟨ks, _, hkind, h1, rfl⟩ := items_cons_iff.mp h
  obtain ⟨os, _, hoffset, h2, rfl⟩ := items_cons_iff.mp h1
  obtain ⟨ls, _, hline, h3, rfl⟩ := items_cons_iff.mp h2
  obtain ⟨cs, _, hcolumn, h4, rfl⟩ := items_cons_iff.mp h3
  obtain ⟨is, _, hindex, h5, rfl⟩ := items_cons_iff.mp h4
  obtain rfl := items_nil_iff.mp h5
  have hwrite := ((((affords_int hkind).append (affords_int hoffset)).append (affords_int hline)).append
    (affords_int hcolumn)).append (affords_index hindex)
  simp only [bind_assoc, pure_bind] at hwrite
  simp only [List.length_append, List.length_nil, Nat.add_zero, ← Nat.add_assoc]
  exact hwrite

section Lists

variable {α : Type} [Record α] {items : α → List Item}

/-- A header for fewer items is no longer, and nothing is written behind the fields. -/
theorem affords_row (hitems : Itemized items) (hwrite : ∀ a xs, Items (items a) xs → Affords xs.length (Record.write a))
    {depth : Nat} {a : α} {bs : List UInt8} (h : Row depth (items a) bs) : Affords bs.length (writeRecord a) := by
  obtain ⟨hheader, hle, hfields, -⟩ := h
  obtain ⟨width, bound, hrung, hn, hlength⟩ := hheader.rung array_on
  rw [hitems.length_eq] at hle
  have hhs := affords_arrayHeader hrung (Nat.lt_of_le_of_lt hle hn)
  obtain ⟨ws, hws, hcost⟩ := hhs.append (hwrite a _ hfields)
  refine ⟨ws, hws, ?_⟩
  simp only [List.length_append, hlength]
  omega

theorem affords_rows (hitems : Itemized items)
    (hwrite : ∀ a xs, Items (items a) xs → Affords xs.length (Record.write a)) {depth : Nat} {as : List α}
    {bs : List UInt8} (h : Rows depth (as.map items) bs) : Affords bs.length (writeRows as) := by
  induction as generalizing bs with
  | nil => exact ⟨[], rfl, Nat.zero_le _⟩
  | cons a as ih =>
      obtain ⟨xs, ys, hrow, hrows, rfl⟩ := rows_cons_iff.mp h
      rw [writeRows_cons, List.length_append]
      exact (affords_row hitems hwrite hrow).append (ih hrows)

theorem affords_message (hitems : Itemized items)
    (hwrite : ∀ a xs, Items (items a) xs → Affords xs.length (Record.write a)) {depth : Nat} {as : List α}
    {bs : List UInt8} (h : Message depth (as.map items) bs) : Affords bs.length (encode as) := by
  obtain ⟨hheader, hrows⟩ := h
  rw [List.length_map] at hheader
  obtain ⟨width, bound, hrung, hn, hlength⟩ := hheader.rung array_on
  rw [encode_eq, List.length_append, hlength]
  exact (affords_arrayHeader hrung hn).append (affords_rows hitems hwrite hrows)

end Lists

section Sizes

theorem array_capacity : ∀ rung ∈ Rungs.array, rung.2 ≤ 2 ^ 32 := by decide

theorem str_capacity : ∀ rung ∈ Rungs.str, rung.2 ≤ 2 ^ 32 := by decide

theorem Message.length_lt {depth : Nat} {rows : List (List Item)} {bs : List UInt8} (h : Message depth rows bs) :
    rows.length < 2 ^ 32 := by
  obtain ⟨hheader, -⟩ := h
  obtain ⟨width, bound, hrung, hn, -⟩ := hheader.rung array_on
  exact Nat.lt_of_lt_of_le hn (array_capacity _ hrung)

theorem size_lt_of_spells {s : String} {bs : List UInt8} (h : Spells (textItem s) bs) : s.utf8ByteSize < 2 ^ 32 := by
  cases h with
  | str hheader =>
      obtain ⟨width, bound, hrung, hn, -⟩ := hheader.rung str_on
      rw [Text.Utf8.length_encode] at hn
      exact Nat.lt_of_lt_of_le hn (str_capacity _ hrung)

theorem Items.spells {items : List Item} {bs : List UInt8} (h : Items items bs) :
    ∀ item ∈ items, ∃ xs, Spells item xs := by
  induction h with
  | nil =>
      intro item hitem
      cases hitem
  | cons hitem _ ih => exact List.forall_mem_cons.mpr ⟨⟨_, hitem⟩, ih⟩

theorem Rows.items {depth : Nat} {rows : List (List Item)} {bs : List UInt8} (h : Rows depth rows bs) :
    ∀ items ∈ rows, ∃ xs, Items items xs := by
  induction h with
  | nil =>
      intro items hitems
      cases hitems
  | cons hrow _ ih =>
      obtain ⟨-, -, hitems, -⟩ := hrow
      exact List.forall_mem_cons.mpr ⟨⟨_, hitems⟩, ih⟩

/-- Every text in a message has a size that can be told. -/
theorem Message.size_lt {depth : Nat} {ts : List Token} {bs : List UInt8}
    (h : Message depth (ts.map Token.items) bs) : ∀ t ∈ ts, t.text.utf8ByteSize < 2 ^ 32 := by
  intro t ht
  obtain ⟨-, hrows⟩ := h
  obtain ⟨xs, hitems⟩ := hrows.items _ (List.mem_map_of_mem ht)
  have hmem : textItem t.text ∈ t.items := List.mem_cons_of_mem _ (List.mem_cons_self ..)
  obtain ⟨ys, htext⟩ := hitems.spells _ hmem
  exact size_lt_of_spells htext

end Sizes

/-- The list is written, it is decoded from what is written, and from nothing shorter. -/
def WritesShortest (limit : Nat) {α : Type} [Record α] (as : List α) : Prop :=
  ∃ ws, encode as = .ok ws ∧ decode limit ws = .ok as ∧ ∀ bs, decode limit bs = .ok as → ws.length ≤ bs.length

/-- What carries a list decodes from whatever is written of it, and every message of it affords that. -/
theorem writesShortest_of_carries {limit : Nat} {α : Type} [Record α] {items : α → List Item}
    (hitems : Itemized items)
    (hwrite : ∀ a xs, Items (items a) xs → Affords xs.length (Record.write a)) {fits : Prop} {as : List α}
    {bs : List UInt8} (hdecode : decode limit bs = .ok as)
    (hcarries : Carries (readRows limit) fits as (encode as)) : WritesShortest limit as := by
  obtain ⟨ws, hws, -⟩ := affords_message hitems hwrite ((decode_eq_ok_iff hitems).mp hdecode)
  rw [hws] at hcarries
  refine ⟨ws, hws, decode_of_carries hcarries, ?_⟩
  intro other hother
  obtain ⟨ws', hws', hle⟩ := affords_message hitems hwrite ((decode_eq_ok_iff hitems).mp hother)
  rw [hws, Except.ok.injEq] at hws'
  rw [hws']
  exact hle

/-- Whatever is decoded can be written again, in the fewest bytes that decode to it. -/
theorem encode_shortest (limit : Nat) (bs : List UInt8) :
    (∀ ts : List Token, decode limit bs = .ok ts → WritesShortest limit ts) ∧
      ∀ ds : List Diagnostic, decode limit bs = .ok ds → WritesShortest limit ds := by
  constructor
  · intro ts hdecode
    have hmessage := (decode_eq_ok_iff itemized_token).mp hdecode
    have hlength := hmessage.length_lt
    rw [List.length_map] at hlength
    apply writesShortest_of_carries itemized_token (fun _ _ => affords_token) hdecode
    apply carries_encode (by decide) hlength
    intro t ht row
    exact carries_token row (hmessage.size_lt t ht)
  · intro ds hdecode
    have hmessage := (decode_eq_ok_iff itemized_diagnostic).mp hdecode
    have hlength := hmessage.length_lt
    rw [List.length_map] at hlength
    apply writesShortest_of_carries itemized_diagnostic (fun _ _ => affords_diagnostic) hdecode
    apply carries_encode (by decide) hlength
    intro d _ row
    exact carries_diagnostic row d

/-- Long forms, a signed form of a number that is not negative, and values behind the fields. -/
theorem encode_shortest_of_long :
    decode 0 [0xdc, 0x00, 0x01, 0x95, 0xd9, 0x06, 0x6e, 0x75, 0x6d, 0x62, 0x65, 0x72, 0xa1, 0x37, 0xd0, 0x01, 0xcd,
      0x00, 0x02, 0xc0] = .ok [(⟨.number, "7", ⟨1, 2⟩⟩ : Token)] ∧
    WritesShortest 0 [(⟨.number, "7", ⟨1, 2⟩⟩ : Token)] ∧
    decode 0 [0x91, 0xdd, 0x00, 0x00, 0x00, 0x06, 0xcc, 0x02, 0x00, 0x01, 0x01, 0xd3, 0xff, 0xff, 0xff, 0xff, 0xff,
      0xff, 0xff, 0x80, 0x90] = .ok [(⟨.unterminatedString, 0, ⟨1, 1⟩, some (-0x80)⟩ : Diagnostic)] ∧
    WritesShortest 0 [(⟨.unterminatedString, 0, ⟨1, 1⟩, some (-0x80)⟩ : Diagnostic)] := by
  have htoken : decode 0 [0xdc, 0x00, 0x01, 0x95, 0xd9, 0x06, 0x6e, 0x75, 0x6d, 0x62, 0x65, 0x72, 0xa1, 0x37, 0xd0,
      0x01, 0xcd, 0x00, 0x02, 0xc0] = .ok [(⟨.number, "7", ⟨1, 2⟩⟩ : Token)] := by decide +kernel
  have hdiagnostic : decode 0 [0x91, 0xdd, 0x00, 0x00, 0x00, 0x06, 0xcc, 0x02, 0x00, 0x01, 0x01, 0xd3, 0xff, 0xff, 0xff,
      0xff, 0xff, 0xff, 0xff, 0x80, 0x90] =
      .ok [(⟨.unterminatedString, 0, ⟨1, 1⟩, some (-0x80)⟩ : Diagnostic)] := by decide +kernel
  exact ⟨htoken, (encode_shortest 0 _).1 _ htoken, hdiagnostic, (encode_shortest 0 _).2 _ hdiagnostic⟩

end Lexing.Wire
