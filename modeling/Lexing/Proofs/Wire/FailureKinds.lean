import Lexing.Proofs.Wire.Continuation
import Lexing.Proofs.Wire.Nesting
import Lexing.Runtime

/-! The kinds of failure. Callers are told to expect bytes that are no message and messages of something else. There are
two more kinds, and here is which bytes fail with them: those with a text in them that is not UTF-8, where a token has
one, and those with a value behind the fields of a row that nests too deep. -/

namespace Lexing.Wire
open Text (Utf8.Fault)

/-- The failures that callers are told to expect. -/
def Failure.Documented (failure : Failure) : Prop := failure.kind = .decoding ∨ failure.kind = .validation

instance (failure : Failure) : Decidable failure.Documented := inferInstanceAs (Decidable (_ ∨ _))

theorem Failure.Documented.of_decoding {failure : Failure} (h : failure.kind = .decoding) : failure.Documented := .inl h

theorem Failure.Documented.of_validation {failure : Failure} (h : failure.kind = .validation) : failure.Documented :=
  .inr h

theorem kind_ne_decoding {failure : Failure} (h : ¬failure.Documented) : failure.kind ≠ .decoding :=
  fun hkind => h (.of_decoding hkind)

/-- A text whose bytes are not UTF-8, with the first fault in them. -/
def FaultyText (fault : Utf8.Fault) (bs : List UInt8) : Prop :=
  ∃ payload, Text.Utf8.decode payload = .error fault ∧ Spells (.str payload) bs

/-- A text has a fault exactly where it is no encoding. -/
theorem exists_faultyText_iff {bs : List UInt8} : (∃ fault, FaultyText fault bs) ↔
    ∃ payload, (∀ s, payload ≠ Text.Utf8.encode s) ∧ Spells (.str payload) bs := by
  constructor
  · rintro ⟨fault, payload, hdecode, hspells⟩
    refine ⟨payload, ?_, hspells⟩
    rintro s rfl
    rw [Text.Utf8.decode_encode] at hdecode
    cases hdecode
  · rintro ⟨payload, hnone, hspells⟩
    cases hdecode : Text.Utf8.decode payload with
    | ok s => exact absurd (Text.Utf8.decode_eq_ok_iff.mp hdecode) (hnone s)
    | error fault => exact ⟨fault, payload, hdecode, hspells⟩

/-- A token up to a text in it that is not UTF-8, which is the name of its kind or its own. -/
inductive FaultyToken (fault : Utf8.Fault) : List UInt8 → Prop
  | kind {xs} : FaultyText fault xs → FaultyToken fault xs
  | text {kind xs ys} : Spells (textItem (Token.Kind.name kind)) xs → FaultyText fault ys → FaultyToken fault (xs ++ ys)

/-- No text is read in a diagnostic. -/
inductive FaultyDiagnostic (fault : Utf8.Fault) : List UInt8 → Prop

/-- A row up to the place where it is broken off, and the failure with which it is. -/
inductive RowBreak (limit : Nat) {α : Type} [Record α] (items : α → List Item)
    (faulty : Utf8.Fault → List UInt8 → Prop) : Failure → List UInt8 → Prop
  | text {fault count xs ys} : Header Forms.array count xs → Record.fields α ≤ count → faulty fault ys →
      RowBreak limit items faulty (.notUtf8 fault) (xs ++ ys)
  | depth {a count xs ys zs} : Header Forms.array count xs → Record.fields α ≤ count → Items (items a) ys →
      Overdeep limit (count - Record.fields α) zs → RowBreak limit items faulty .tooDeep (xs ++ (ys ++ zs))

/-- A list up to the place where one of its rows is broken off. -/
inductive MessageBreak (limit : Nat) {α : Type} [Record α] (items : α → List Item)
    (faulty : Utf8.Fault → List UInt8 → Prop) : Failure → List UInt8 → Prop
  | mk {failure count xs ys zs} {as : List α} : Header Forms.array count xs → as.length < count →
      Rows limit (as.map items) ys → RowBreak limit items faulty failure zs →
      MessageBreak limit items faulty failure (xs ++ (ys ++ zs))

theorem RowBreak.not_documented {limit : Nat} {α : Type} [Record α] {items : α → List Item}
    {faulty : Utf8.Fault → List UInt8 → Prop} {failure : Failure} {bs : List UInt8}
    (h : RowBreak limit items faulty failure bs) : ¬failure.Documented := by
  rw [Failure.Documented]
  cases h with
  | text => simp only [Failure.kind, reduceCtorEq, or_self, not_false_eq_true]
  | depth => decide

section Fields

variable {path : Path} {failure : Failure}

theorem failsOnly_acceptInt : FailsOnly (·.kind = .validation) (acceptInt path) := by
  intro item failure h
  cases item with
  | int n => cases h
  | _ =>
      cases h
      rfl

theorem failsOnly_acceptIndex :
    FailsOnly (·.kind = .validation) (Field.accept path : Item → Except Failure (Option Int)) := by
  intro item failure h
  cases item with
  | int n => cases h
  | nil => cases h
  | _ =>
      cases h
      rfl

theorem failsOnly_acceptDiagnosticKind :
    FailsOnly (·.kind = .validation) (Field.accept path : Item → Except Failure Diagnostic.Kind) := by
  apply failsOnly_acceptInt.bind
  intro code failure h
  dsimp only at h
  split at h
  · cases h
  · cases h
    rfl

/-- A text is refused with an undocumented failure only for the first fault in it. -/
theorem acceptText_eq_error_iff {item : Item} (h : ¬failure.Documented) : acceptText path item = .error failure ↔
    ∃ fault payload, failure = .notUtf8 fault ∧ Text.Utf8.decode payload = .error fault ∧ item = .str payload := by
  constructor
  · intro herror
    cases item with
    | str payload =>
        rw [acceptText] at herror
        cases hdecode : Text.Utf8.decode payload with
        | ok s =>
            rw [hdecode] at herror
            cases herror
        | error fault =>
            rw [hdecode] at herror
            cases herror
            exact ⟨fault, payload, rfl, hdecode, rfl⟩
    | _ =>
        cases herror
        exact absurd (.of_validation rfl) h
  · rintro ⟨fault, payload, rfl, hdecode, rfl⟩
    rw [acceptText, hdecode]

theorem acceptTokenKind_eq_error_iff {item : Item} (h : ¬failure.Documented) :
    (Field.accept path item : Except Failure Token.Kind) = .error failure ↔ acceptText path item = .error failure := by
  change acceptText path item >>= _ = _ ↔ _
  rw [bind_eq_error_iff]
  apply or_iff_left
  rintro ⟨name, -, herror⟩
  split at herror
  · cases herror
  · cases herror
    exact h (.of_validation rfl)

end Fields

/-- A reader that is refused with an undocumented failure only for a text that is not UTF-8. -/
def RefusesFaulty {α : Type} (read : Reader α) (faulty : Utf8.Fault → List UInt8 → Prop) : Prop :=
  ∀ failure : Failure, ¬failure.Documented →
    Refuses read failure fun bs => ∃ fault, failure = .notUtf8 fault ∧ faulty fault bs

namespace RefusesFaulty

variable {α β : Type} {read : Reader α} {faulty faulty' : Utf8.Fault → List UInt8 → Prop}

theorem congr (h : RefusesFaulty read faulty) (hiff : ∀ fault bs, faulty fault bs ↔ faulty' fault bs) :
    RefusesFaulty read faulty' := by
  intro failure hfailure
  apply (h failure hfailure).congr
  intro bs
  simp only [hiff]

theorem of_documented (h : FailsOnly Failure.Documented read) : RefusesFaulty read fun _ _ => False := by
  intro failure hfailure
  apply (Refuses.never h hfailure).congr
  intro bs
  simp only [and_false, exists_false]

theorem bind {next : α × Cursor → Except Failure (β × Cursor)} {grammar : α → List UInt8 → Prop}
    {second : α → Utf8.Fault → List UInt8 → Prop} (h : RefusesFaulty read faulty) (hread : Follows read grammar)
    (hnext : ∀ a, RefusesFaulty (fun c => next (a, c)) (second a)) :
    RefusesFaulty (fun c => read c >>= next) fun fault bs =>
      faulty fault bs ∨ ∃ a xs ys, grammar a xs ∧ second a fault ys ∧ bs = xs ++ ys := by
  intro failure hfailure
  apply ((h failure hfailure).bind hread fun a => hnext a failure hfailure).congr
  intro bs
  constructor
  · rintro (⟨fault, hfault, hbs⟩ | ⟨a, xs, ys, hxs, ⟨fault, hfault, hys⟩, hbs⟩)
    · exact ⟨fault, hfault, .inl hbs⟩
    · exact ⟨fault, hfault, .inr ⟨a, xs, ys, hxs, hys, hbs⟩⟩
  · rintro ⟨fault, hfault, hbs | ⟨a, xs, ys, hxs, hys, hbs⟩⟩
    · exact .inl ⟨fault, hfault, hbs⟩
    · exact .inr ⟨a, xs, ys, hxs, ⟨fault, hfault, hys⟩, hbs⟩

theorem field [Field α] {path : Path} (h : ∀ failure : Failure, ¬failure.Documented → ∀ item,
    (Field.accept path item : Except Failure α) = .error failure ↔ acceptText path item = .error failure) :
    RefusesFaulty (readField path : Reader α) FaultyText := by
  intro failure hfailure
  apply (refuses_readField (kind_ne_decoding hfailure)).congr
  intro bs
  simp only [h failure hfailure, acceptText_eq_error_iff hfailure]
  constructor
  · rintro ⟨_, ⟨fault, payload, hfault, hdecode, rfl⟩, hspells⟩
    exact ⟨fault, hfault, payload, hdecode, hspells⟩
  · rintro ⟨fault, hfault, payload, hdecode, hspells⟩
    exact ⟨_, ⟨fault, payload, hfault, hdecode, rfl⟩, hspells⟩

end RefusesFaulty

section Records

theorem documented_readField {α : Type} [Field α] {path : Path}
    (h : FailsOnly (·.kind = .validation) (Field.accept path : Item → Except Failure α)) :
    FailsOnly Failure.Documented (readField path : Reader α) :=
  failsOnly_readField (fun _ => .of_decoding) (h.imp fun _ => .of_validation)

theorem documented_readInt (path : Path) : FailsOnly Failure.Documented (readField path : Reader Int) :=
  documented_readField failsOnly_acceptInt

theorem refusesFaulty_token (row : Nat) : RefusesFaulty (Record.read row : Reader Token) FaultyToken := by
  have hkind : RefusesFaulty (readField [row, 0] : Reader Token.Kind) FaultyText :=
    .field fun _ hfailure _ => acceptTokenKind_eq_error_iff hfailure
  have htext : RefusesFaulty (readField [row, 1] : Reader String) FaultyText := .field fun _ _ _ => Iff.rfl
  have hposition (kind : Token.Kind) (text : String) : FailsOnly Failure.Documented fun c =>
      (readField [row, 2] c : Except Failure (Int × Cursor)) >>= fun line =>
        (readField [row, 3] line.2 : Except Failure (Int × Cursor)) >>= fun column =>
          .ok ((⟨kind, text, ⟨line.1, column.1⟩⟩ : Token), column.2) := by
    apply (documented_readInt [row, 2]).bind
    intro line
    exact ((documented_readInt [row, 3]).bind (.ok _)) line.2
  apply (hkind.bind (follows_readField fun _ _ => acceptTokenKind_eq_ok_iff) fun kind =>
    htext.bind (follows_readField fun _ _ => acceptText_eq_ok_iff) fun text =>
      .of_documented (hposition kind text)).congr
  intro fault bs
  constructor
  · rintro (hfaulty | ⟨kind, xs, ys, hname, hfaulty | ⟨_, _, _, _, hfalse, _⟩, rfl⟩)
    · exact .kind hfaulty
    · exact .text hname hfaulty
    · exact hfalse.elim
  · intro h
    cases h with
    | kind hfaulty => exact .inl hfaulty
    | text hname hfaulty => exact .inr ⟨_, _, _, hname, .inl hfaulty, rfl⟩

theorem refusesFaulty_diagnostic (row : Nat) :
    RefusesFaulty (Record.read row : Reader Diagnostic) FaultyDiagnostic := by
  have hread : FailsOnly Failure.Documented (Record.read row : Reader Diagnostic) := by
    apply (documented_readField failsOnly_acceptDiagnosticKind).bind
    intro kind
    apply (documented_readInt [row, 1]).bind ?_ kind.2
    intro offset
    apply (documented_readInt [row, 2]).bind ?_ offset.2
    intro line
    apply (documented_readInt [row, 3]).bind ?_ line.2
    intro column
    exact ((documented_readField failsOnly_acceptIndex).bind (.ok _)) column.2
  apply (RefusesFaulty.of_documented hread).congr
  intro fault bs
  exact iff_of_false id fun h => by cases h

end Records

theorem documented_readArray (path : Path) : FailsOnly Failure.Documented (readArray path) := by
  have hitem : FailsOnly Failure.Documented readItem := failsOnly_readItem.imp fun _ => .of_decoding
  apply hitem.bind
  intro x failure h
  obtain ⟨item, c⟩ := x
  cases item with
  | array n => cases h
  | _ =>
      cases h
      exact .of_validation rfl

/-- Of the failures that are not about the bytes themselves, only the one over the depth is met behind the fields. -/
theorem refuses_skipExtra {limit : Nat} {α : Type} {failure : Failure} (hfailure : failure.kind ≠ .decoding)
    (count : Nat) (a : α) :
    Refuses (fun c => skipMany (skip limit) count c >>= fun c => .ok (a, c)) failure fun bs =>
      failure = .tooDeep ∧ Overdeep limit count bs := by
  have hmany := refuses_skipMany (refuses_skip hfailure limit) (follows_skip limit) count
  have hdone : Refuses (fun c => (.ok (a, c) : Except Failure (α × Cursor))) failure fun _ => False := .ok _
  apply (hmany.skip_bind (follows_skipMany (follows_skip limit) count) hdone).congr
  intro bs
  simp only [false_and, and_false, exists_const, or_false]

section Lists

variable {limit : Nat} {α : Type} [Record α] {items : α → List Item} {faulty : Utf8.Fault → List UInt8 → Prop}
  {failure : Failure}

/-- Behind the header of a row with enough in it, the fields are read and the values after them skipped. -/
theorem refuses_readRecord (h : Itemized items) (hfaulty : ∀ row, RefusesFaulty (Record.read row : Reader α) faulty)
    (hfailure : ¬failure.Documented) (row : Nat) :
    Refuses (readRecord limit row : Reader α) failure (RowBreak limit items faulty failure) := by
  have hnext (count : Nat) : Refuses (fun c =>
      if count < Record.fields α then .error (.tooShort [row] (Record.fields α) count)
      else Record.read row c >>= fun x => skipMany (skip limit) (count - Record.fields α) x.2 >>=
        fun c => .ok ((x.1 : α), c)) failure fun bs => Record.fields α ≤ count ∧
          ((∃ fault, failure = .notUtf8 fault ∧ faulty fault bs) ∨ ∃ a xs ys, Items (items a) xs ∧
            (failure = .tooDeep ∧ Overdeep limit (count - Record.fields α) ys) ∧ bs = xs ++ ys) := by
    -- a row that is too short is refused before any of its fields is read
    by_cases hcount : count < Record.fields α
    · simp only [if_pos hcount, Nat.not_le.mpr hcount, false_and]
      exact .never (.error (.of_validation rfl)) hfailure
    · simp only [if_neg hcount, Nat.not_lt.mp hcount, true_and]
      exact (hfaulty row failure hfailure).bind (h.follows row) (refuses_skipExtra (kind_ne_decoding hfailure) _)
  apply (Refuses.behind (documented_readArray [row]) hfailure (follows_readArray [row]) hnext).congr
  intro bs
  constructor
  · rintro ⟨count, xs, _, hheader, ⟨hle, ⟨fault, rfl, hys⟩ | ⟨a, ys, zs, hitems, ⟨rfl, hdeep⟩, rfl⟩⟩, rfl⟩
    · exact .text hheader hle hys
    · exact .depth hheader hle hitems hdeep
  · intro hbreak
    cases hbreak with
    | text hheader hle hys => exact ⟨_, _, _, hheader, ⟨hle, .inl ⟨_, rfl, hys⟩⟩, rfl⟩
    | depth hheader hle hitems hdeep =>
        exact ⟨_, _, _, hheader, ⟨hle, .inr ⟨_, _, _, hitems, ⟨rfl, hdeep⟩, rfl⟩⟩, rfl⟩

/-- Rows are refused where one of them is, behind rows that are read. What a row is refused for may name its index. -/
theorem refuses_readMany {cause : Nat → List UInt8 → Prop} (h : Itemized items)
    (hrecord : ∀ row, Refuses (readRecord limit row : Reader α) failure (cause row)) (row : Nat) (acc : Array α)
    (count : Nat) :
    Refuses (readMany (readRecord limit) row acc count) failure fun bs => ∃ (as : List α) (xs ys : List UInt8),
      as.length < count ∧ Rows limit (as.map items) xs ∧ cause (row + as.length) ys ∧ bs = xs ++ ys := by
  induction count generalizing row acc with
  | zero =>
      apply (Refuses.ok _).congr
      intro bs
      simp only [Nat.not_lt_zero, false_and, exists_const]
  | succ count ih =>
      apply ((hrecord row).bind (follows_readRecord h row) fun a => ih (row + 1) (acc.push a)).congr
      intro bs
      constructor
      · rintro (hcause | ⟨a, xs, _, hrow, ⟨as, ys, zs, hlt, hrows, hcause, rfl⟩, rfl⟩)
        · exact ⟨[], [], bs, Nat.succ_pos count, .nil, hcause, rfl⟩
        · rw [Nat.add_right_comm] at hcause
          exact ⟨a :: as, xs ++ ys, zs, Nat.succ_lt_succ hlt, .cons hrow hrows, hcause, (List.append_assoc ..).symm⟩
      · rintro ⟨as, xs, ys, hlt, hrows, hcause, rfl⟩
        cases as with
        | nil =>
            cases hrows
            exact .inl hcause
        | cons a as =>
            obtain ⟨xs, zs, hrow, hrest, rfl⟩ := rows_cons_iff.mp hrows
            rw [List.length_cons, ← Nat.add_assoc, Nat.add_right_comm] at hcause
            rw [List.append_assoc]
            exact .inr ⟨a, xs, _, hrow, ⟨as, zs, ys, Nat.lt_of_succ_lt_succ hlt, hrest, hcause, rfl⟩, rfl⟩

/-- Behind the rows, only bytes left over are met. -/
theorem decode_eq_error_iff_readRows {bs : List UInt8} (hfailure : failure.kind ≠ .decoding) :
    (decode limit bs : Decoded α) = .error failure ↔
      (readRows limit ⟨0, bs⟩ : Except Failure (List α × Cursor)) = .error failure := by
  rw [decode_eq, bind_eq_error_iff]
  apply or_iff_left
  rintro ⟨⟨as, c⟩, -, herror⟩
  split at herror
  · cases herror
  · cases herror
    exact hfailure rfl

/-- Of the failures that callers are not told of, bytes fail with those for which a row of theirs is broken off. -/
theorem decode_eq_error_iff (h : Itemized items) (hfaulty : ∀ row, RefusesFaulty (Record.read row : Reader α) faulty)
    (hfailure : ¬failure.Documented) (bs : List UInt8) :
    (decode limit bs : Decoded α) = .error failure ↔ ∃ xs, MessageBreak limit items faulty failure xs ∧ xs <+: bs := by
  have hrows : Refuses (readRows limit : Reader (List α)) failure (MessageBreak limit items faulty failure) := by
    apply (Refuses.behind (documented_readArray []) hfailure (follows_readArray []) fun count =>
      refuses_readMany h (refuses_readRecord h hfaulty hfailure) 0 #[] count).congr
    intro bs
    constructor
    · rintro ⟨count, xs, _, hheader, ⟨as, ys, zs, hlt, hrows, hbreak, rfl⟩, rfl⟩
      exact .mk hheader hlt hrows hbreak
    · intro hbreak
      obtain ⟨hheader, hlt, hrows, hbreak⟩ := hbreak
      exact ⟨_, _, _, hheader, ⟨_, _, _, hlt, hrows, hbreak, rfl⟩, rfl⟩
  rw [decode_eq_error_iff_readRows (kind_ne_decoding hfailure), hrows 0 bs]

/-- Bytes give a list or a failure that callers are told to expect, but for those with a row broken off. -/
structure FailureKinds (limit : Nat) (items : α → List Item) (faulty : Utf8.Fault → List UInt8 → Prop)
    (bs : List UInt8) : Prop where
  documented : ((∃ as : List α, decode limit bs = .ok as) ∨ ∃ failure, (decode limit bs : Decoded α) = .error failure ∧
    failure.Documented) ↔ ¬∃ failure xs, MessageBreak limit items faulty failure xs ∧ xs <+: bs
  undocumented : ∀ failure xs, MessageBreak limit items faulty failure xs → xs <+: bs →
    (decode limit bs : Decoded α) = .error failure ∧ ¬failure.Documented

theorem failureKinds (h : Itemized items) (hfaulty : ∀ row, RefusesFaulty (Record.read row : Reader α) faulty)
    (bs : List UInt8) : FailureKinds limit items faulty bs := by
  have hbroken : ∀ failure xs, MessageBreak limit items faulty failure xs → xs <+: bs →
      (decode limit bs : Decoded α) = .error failure ∧ ¬failure.Documented := by
    intro failure xs hbreak hbs
    have hfailure : ¬failure.Documented := by
      obtain ⟨-, -, -, hrow⟩ := hbreak
      exact hrow.not_documented
    exact ⟨(decode_eq_error_iff h hfaulty hfailure bs).mpr ⟨xs, hbreak, hbs⟩, hfailure⟩
  refine ⟨?_, hbroken⟩
  constructor
  · rintro hresult ⟨failure, xs, hbreak, hbs⟩
    obtain ⟨herror, hfailure⟩ := hbroken failure xs hbreak hbs
    rcases hresult with ⟨as, hok⟩ | ⟨failure', herror', hdocumented⟩
    · rw [hok] at herror
      cases herror
    · rw [herror'] at herror
      cases herror
      exact hfailure hdocumented
  · intro hnone
    cases hdecode : (decode limit bs : Decoded α) with
    | ok as => exact .inl ⟨as, rfl⟩
    | error failure =>
        by_cases hfailure : failure.Documented
        · exact .inr ⟨failure, rfl, hfailure⟩
        · obtain ⟨xs, hbreak, hbs⟩ := (decode_eq_error_iff h hfaulty hfailure bs).mp hdecode
          exact absurd ⟨failure, xs, hbreak, hbs⟩ hnone

end Lists

/-- A text that is not UTF-8 is met in tokens alone, and a value that nests too deep behind the fields of both. -/
theorem decode_failureKinds (limit : Nat) (bs : List UInt8) :
    FailureKinds limit Token.items FaultyToken bs ∧ FailureKinds limit Diagnostic.items FaultyDiagnostic bs ∧
      ∀ xs, (∃ fault, FaultyText fault xs) ↔
        ∃ payload, (∀ s, payload ≠ Text.Utf8.encode s) ∧ Spells (.str payload) xs :=
  ⟨failureKinds itemized_token refusesFaulty_token bs, failureKinds itemized_diagnostic refusesFaulty_diagnostic bs,
    fun _ => exists_faultyText_iff⟩

/-- Both kinds that callers are not told of occur: a text of one byte that begins no character, and a thousand arrays
and one more, each in the one before. -/
theorem decode_undocumented :
    (Runtime.decode [0x91, 0x94, 0xa6, 0x73, 0x74, 0x72, 0x69, 0x6e, 0x67, 0xa1, 0xff, 0x01, 0x01] : Decoded Token) =
      .error (.notUtf8 ⟨0, 1, 0xff, .invalidStart⟩) ∧
    (Runtime.decode ([0x91, 0x96, 0x01, 0x00, 0x01, 0x01, 0xc0] ++ List.replicate 1001 0x91) : Decoded Diagnostic) =
      .error .tooDeep ∧
    ¬(Failure.notUtf8 ⟨0, 1, 0xff, .invalidStart⟩).Documented ∧ ¬Failure.tooDeep.Documented := by
  decide +kernel

end Lexing.Wire
