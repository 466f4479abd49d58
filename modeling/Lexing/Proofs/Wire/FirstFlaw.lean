import Lexing.Proofs.Wire.FailureKinds

/-! Whole items in the wrong place. Bytes that are items, but not those of records, are refused for the first item that
does not fit, and the failure names the row and the field where it stands, whatever comes after it. -/

namespace Lexing.Wire

/-- The types of the items that fit. -/
def Expected.types : Expected → List ItemType
  | array => [.array]
  | text => [.str]
  | integer => [.int]
  | integerOrNull => [.int, .nil]

/-- An item of another type than is expected at the place. -/
inductive Mismatch (want : Expected) (path : Path) : Failure → Item → Prop
  | mk {item : Item} : item.type ∉ want.types → Mismatch want path (.mismatch path want item.type) item

/-- An item that is to name a value: one of another type, or one that is the name of none. -/
inductive NamedFlaw {β γ : Type} (want : Expected) (denote : β → Item) (name : γ → β) (unknown : Path → β → Failure)
    (path : Path) : Failure → Item → Prop
  | type {failure item} : Mismatch want path failure item → NamedFlaw want denote name unknown path failure item
  | name {b} : (∀ k, b ≠ name k) → NamedFlaw want denote name unknown path (unknown path b) (denote b)

theorem Mismatch.validation {want : Expected} {path : Path} {failure : Failure} {item : Item}
    (h : Mismatch want path failure item) : failure.kind = .validation := by
  cases h
  rfl

theorem NamedFlaw.validation {β γ : Type} {want : Expected} {denote : β → Item} {name : γ → β}
    {unknown : Path → β → Failure} (hunknown : ∀ path b, (unknown path b).kind = .validation) {path : Path}
    {failure : Failure} {item : Item} (h : NamedFlaw want denote name unknown path failure item) :
    failure.kind = .validation := by
  cases h with
  | type hmismatch => exact hmismatch.validation
  | name => exact hunknown _ _

/-- A field of a row: the items it takes, and the failures with which it refuses others at a place. -/
structure Slot where
  takes : Item → Prop
  flaw : Path → Failure → Item → Prop
  validation : ∀ {path failure item}, flaw path failure item → failure.kind = .validation

namespace Slot

def tokenKind : Slot where
  takes item := ∃ kind : Token.Kind, item = textItem kind.name
  flaw := NamedFlaw .text textItem Token.Kind.name .unknownName
  validation := NamedFlaw.validation fun _ _ => rfl

def diagnosticKind : Slot where
  takes item := ∃ kind : Diagnostic.Kind, item = .int kind.code
  flaw := NamedFlaw .integer Item.int Diagnostic.Kind.code .unknownCode
  validation := NamedFlaw.validation fun _ _ => rfl

def text : Slot where
  takes item := ∃ s, item = textItem s
  flaw := Mismatch .text
  validation := Mismatch.validation

def integer : Slot where
  takes item := ∃ n, item = .int n
  flaw := Mismatch .integer
  validation := Mismatch.validation

def index : Slot where
  takes item := ∃ n, item = indexItem n
  flaw := Mismatch .integerOrNull
  validation := Mismatch.validation

end Slot

/-- The kind, the text, the line and the column. -/
def Token.slots : List Slot := [.tokenKind, .text, .integer, .integer]

/-- The kind, the offset, the line, the column and the index of the last token. -/
def Diagnostic.slots : List Slot := [.diagnosticKind, .integer, .integer, .integer, .index]

/-- The fields from one on, up to the first that refuses its item. -/
inductive FieldsFlaw (row : Nat) : (field : Nat) → List Slot → Failure → List UInt8 → Prop
  | here {field slot slots failure item xs} : slot.flaw [row, field] failure item → Spells item xs →
      FieldsFlaw row field (slot :: slots) failure xs
  | later {field slot slots failure item xs ys} : slot.takes item → Spells item xs →
      FieldsFlaw row (field + 1) slots failure ys → FieldsFlaw row field (slot :: slots) failure (xs ++ ys)

/-- A row up to what is wrong with it: it is no array, it is too short, or one of its fields refuses its item. -/
inductive RowFlaw (slots : List Slot) (row : Nat) : Failure → List UInt8 → Prop
  | type {failure item xs} : Mismatch .array [row] failure item → Spells item xs → RowFlaw slots row failure xs
  | length {count xs} : Header Forms.array count xs → count < slots.length →
      RowFlaw slots row (.tooShort [row] slots.length count) xs
  | field {failure count xs ys} : Header Forms.array count xs → slots.length ≤ count →
      FieldsFlaw row 0 slots failure ys → RowFlaw slots row failure (xs ++ ys)

/-- A list up to what is wrong with it: it is no array, or one of its rows is flawed, behind rows that are not. -/
inductive MessageFlaw (limit : Nat) {α : Type} (items : α → List Item) (slots : List Slot) :
    Failure → List UInt8 → Prop
  | type {failure item xs} : Mismatch .array [] failure item → Spells item xs →
      MessageFlaw limit items slots failure xs
  | row {failure count xs ys zs} {as : List α} : Header Forms.array count xs → as.length < count →
      Rows limit (as.map items) ys → RowFlaw slots as.length failure zs →
      MessageFlaw limit items slots failure (xs ++ (ys ++ zs))

theorem FieldsFlaw.validation {row field : Nat} {slots : List Slot} {failure : Failure} {bs : List UInt8}
    (h : FieldsFlaw row field slots failure bs) : failure.kind = .validation := by
  induction h with
  | here hflaw => exact Slot.validation _ hflaw
  | later _ _ _ ih => exact ih

theorem RowFlaw.validation {slots : List Slot} {row : Nat} {failure : Failure} {bs : List UInt8}
    (h : RowFlaw slots row failure bs) : failure.kind = .validation := by
  cases h with
  | type hmismatch => exact hmismatch.validation
  | length => rfl
  | field _ _ hfields => exact hfields.validation

theorem MessageFlaw.validation {limit : Nat} {α : Type} {items : α → List Item} {slots : List Slot}
    {failure : Failure} {bs : List UInt8} (h : MessageFlaw limit items slots failure bs) :
    failure.kind = .validation := by
  cases h with
  | type hmismatch => exact hmismatch.validation
  | row _ _ _ hrow => exact hrow.validation

section Items

variable {β : Type} {want : Expected} {path : Path} {failure : Failure} {item : Item}

theorem error_iff_mismatch (h : item.type ∉ want.types) :
    (.error (.mismatch path want item.type) : Except Failure β) = .error failure ↔ Mismatch want path failure item := by
  rw [Except.error.injEq]
  constructor
  · rintro rfl
    exact .mk h
  · rintro ⟨⟩
    rfl

theorem not_mismatch (h : item.type ∈ want.types) : ¬Mismatch want path failure item := by
  rintro ⟨hnot⟩
  exact hnot h

theorem ok_iff_mismatch {b : β} (h : item.type ∈ want.types) :
    (.ok b : Except Failure β) = .error failure ↔ Mismatch want path failure item :=
  iff_of_false (fun hok => by cases hok) (not_mismatch h)

theorem acceptInt_eq_error_iff : acceptInt path item = .error failure ↔ Mismatch .integer path failure item := by
  cases item with
  | int n => exact ok_iff_mismatch (by simp [Item.type, Expected.types])
  | _ => exact error_iff_mismatch (by simp [Item.type, Expected.types])

theorem acceptIndex_eq_error_iff : (Field.accept path item : Except Failure (Option Int)) = .error failure ↔
    Mismatch .integerOrNull path failure item := by
  cases item with
  | int n => exact ok_iff_mismatch (by simp [Item.type, Expected.types])
  | nil => exact ok_iff_mismatch (by simp [Item.type, Expected.types])
  | _ => exact error_iff_mismatch (by simp [Item.type, Expected.types])

/-- A text is refused as something else exactly where the item is none: one that is not UTF-8 is refused as such. -/
theorem acceptText_eq_validation_iff (hfailure : failure.kind = .validation) :
    acceptText path item = .error failure ↔ Mismatch .text path failure item := by
  cases item with
  | str payload =>
      apply iff_of_false
      · intro herror
        rw [acceptText] at herror
        split at herror
        · cases herror
        · cases herror
          cases hfailure
      · exact not_mismatch (by simp [Item.type, Expected.types])
  | _ => exact error_iff_mismatch (by simp [Item.type, Expected.types])

/-- A field whose values have names refuses what is not to be a name, and then the names of none. -/
theorem named_eq_error_iff {β γ : Type} {x : Except Failure β} {next : β → Except Failure γ} {denote : β → Item}
    {name : γ → β} {unknown : Path → β → Failure} (hok : ∀ b, x = .ok b ↔ item = denote b)
    (herror : x = .error failure ↔ Mismatch want path failure item)
    (hnext : ∀ b, next b = .error failure ↔ unknown path b = failure ∧ ∀ k, b ≠ name k) :
    x >>= next = .error failure ↔ NamedFlaw want denote name unknown path failure item := by
  rw [bind_eq_error_iff, herror]
  constructor
  · rintro (hmismatch | ⟨b, hb, hunknown⟩)
    · exact .type hmismatch
    · obtain rfl := (hok b).mp hb
      obtain ⟨rfl, hnone⟩ := (hnext b).mp hunknown
      exact .name hnone
  · rintro (hmismatch | hnone)
    · exact .inl hmismatch
    · exact .inr ⟨_, (hok _).mpr rfl, (hnext _).mpr ⟨rfl, hnone⟩⟩

theorem acceptTokenKind_eq_validation_iff (hfailure : failure.kind = .validation) :
    (Field.accept path item : Except Failure Token.Kind) = .error failure ↔
      NamedFlaw .text textItem Token.Kind.name .unknownName path failure item := by
  refine named_eq_error_iff (fun _ => acceptText_eq_ok_iff) (acceptText_eq_validation_iff hfailure) ?_
  intro name
  simp only [ne_eq, ← Token.Kind.ofName?_eq_some_iff, ← Option.eq_none_iff_forall_ne_some]
  cases Token.Kind.ofName? name with
  | none => simp only [Except.error.injEq, and_true]
  | some kind => simp only [reduceCtorEq, and_false]

theorem acceptDiagnosticKind_eq_error_iff : (Field.accept path item : Except Failure Diagnostic.Kind) = .error failure ↔
    NamedFlaw .integer Item.int Diagnostic.Kind.code .unknownCode path failure item := by
  refine named_eq_error_iff (fun _ => acceptInt_eq_ok_iff) acceptInt_eq_error_iff ?_
  intro code
  simp only [ne_eq, ← Diagnostic.Kind.ofCode?_eq_some_iff, ← Option.eq_none_iff_forall_ne_some]
  cases Diagnostic.Kind.ofCode? code with
  | none => simp only [Except.error.injEq, and_true]
  | some kind => simp only [reduceCtorEq, and_false]

end Items

theorem fieldsFlaw_cons_iff {row field : Nat} {slot : Slot} {slots : List Slot} {failure : Failure}
    {bs : List UInt8} : FieldsFlaw row field (slot :: slots) failure bs ↔
      (∃ item, slot.flaw [row, field] failure item ∧ Spells item bs) ∨ ∃ item xs ys, slot.takes item ∧
        Spells item xs ∧ FieldsFlaw row (field + 1) slots failure ys ∧ bs = xs ++ ys := by
  constructor
  · intro h
    cases h with
    | here hflaw hspells => exact .inl ⟨_, hflaw, hspells⟩
    | later htakes hspells hfields => exact .inr ⟨_, _, _, htakes, hspells, hfields, rfl⟩
  · rintro (⟨item, hflaw, hspells⟩ | ⟨item, xs, ys, htakes, hspells, hfields, rfl⟩)
    · exact .here hflaw hspells
    · exact .later htakes hspells hfields

section Rows

variable {α β : Type} {failure : Failure} {row field : Nat} {slots : List Slot}

/-- A field of a type takes and refuses the items of a slot. -/
structure Slot.Judges (slot : Slot) (α : Type) [Field α] (denote : α → Item) : Prop where
  takes_iff : ∀ item, slot.takes item ↔ ∃ a, item = denote a
  ok_iff : ∀ path item a, Field.accept path item = .ok a ↔ item = denote a
  error_iff : ∀ path item failure, failure.kind = .validation →
    ((Field.accept path item : Except Failure α) = .error failure ↔ slot.flaw path failure item)

theorem validation_ne_decoding (hfailure : failure.kind = .validation) : failure.kind ≠ .decoding := by
  rw [hfailure]
  decide

theorem Slot.Judges.refuses [Field α] {slot : Slot} {denote : α → Item} (h : slot.Judges α denote)
    (hfailure : failure.kind = .validation) {next : α × Cursor → Except Failure β}
    (hnext : ∀ a, Refuses (fun c => next (a, c)) failure (FieldsFlaw row (field + 1) slots failure)) :
    Refuses (fun c => readField [row, field] c >>= next) failure (FieldsFlaw row field (slot :: slots) failure) := by
  apply ((refuses_readField (validation_ne_decoding hfailure)).bind (follows_readField (h.ok_iff _)) hnext).congr
  intro bs
  simp only [fieldsFlaw_cons_iff, h.takes_iff, h.error_iff _ _ _ hfailure]
  apply or_congr_right
  constructor
  · rintro ⟨a, xs, ys, hspells, hfields, hbs⟩
    exact ⟨_, xs, ys, ⟨a, rfl⟩, hspells, hfields, hbs⟩
  · rintro ⟨_, xs, ys, ⟨a, rfl⟩, hspells, hfields, hbs⟩
    exact ⟨a, xs, ys, hspells, hfields, hbs⟩

theorem refuses_done (b : β) :
    Refuses (fun c => (.ok (b, c) : Except Failure (β × Cursor))) failure (FieldsFlaw row field [] failure) := by
  apply (Refuses.ok _).congr
  intro bs
  exact iff_of_false id fun h => by cases h

theorem judges_tokenKind : Slot.tokenKind.Judges Token.Kind fun kind => textItem kind.name where
  takes_iff _ := Iff.rfl
  ok_iff _ _ _ := acceptTokenKind_eq_ok_iff
  error_iff _ _ _ hfailure := acceptTokenKind_eq_validation_iff hfailure

theorem judges_diagnosticKind : Slot.diagnosticKind.Judges Diagnostic.Kind fun kind => .int kind.code where
  takes_iff _ := Iff.rfl
  ok_iff _ _ _ := acceptDiagnosticKind_eq_ok_iff
  error_iff _ _ _ _ := acceptDiagnosticKind_eq_error_iff

theorem judges_text : Slot.text.Judges String textItem where
  takes_iff _ := Iff.rfl
  ok_iff _ _ _ := acceptText_eq_ok_iff
  error_iff _ _ _ hfailure := acceptText_eq_validation_iff hfailure

theorem judges_integer : Slot.integer.Judges Int .int where
  takes_iff _ := Iff.rfl
  ok_iff _ _ _ := acceptInt_eq_ok_iff
  error_iff _ _ _ _ := acceptInt_eq_error_iff

theorem judges_index : Slot.index.Judges (Option Int) indexItem where
  takes_iff _ := Iff.rfl
  ok_iff _ _ _ := acceptIndex_eq_ok_iff
  error_iff _ _ _ _ := acceptIndex_eq_error_iff

/-- A record whose fields are read in the order of the slots. -/
structure Slotted (α : Type) [Record α] (slots : List Slot) : Prop where
  length_eq : slots.length = Record.fields α
  refuses : ∀ {failure : Failure}, failure.kind = .validation → ∀ row,
    Refuses (Record.read row : Reader α) failure (FieldsFlaw row 0 slots failure)

theorem slotted_token : Slotted Token Token.slots where
  length_eq := rfl
  refuses hfailure _ := by
    apply judges_tokenKind.refuses hfailure
    intro kind
    apply judges_text.refuses hfailure
    intro text
    apply judges_integer.refuses hfailure
    intro line
    apply judges_integer.refuses hfailure
    intro column
    exact refuses_done _

theorem slotted_diagnostic : Slotted Diagnostic Diagnostic.slots where
  length_eq := rfl
  refuses hfailure _ := by
    apply judges_diagnosticKind.refuses hfailure
    intro kind
    apply judges_integer.refuses hfailure
    intro offset
    apply judges_integer.refuses hfailure
    intro line
    apply judges_integer.refuses hfailure
    intro column
    apply judges_index.refuses hfailure
    intro lastToken
    exact refuses_done _

theorem refuses_readArray (hfailure : failure.kind ≠ .decoding) (path : Path) :
    Refuses (readArray path) failure fun bs => ∃ item, Mismatch .array path failure item ∧ Spells item bs := by
  apply Refuses.item hfailure
  intro item
  cases item with
  | array n =>
      apply (Refuses.ok _).congr
      intro bs
      rw [iff_false_intro (not_mismatch (by simp [Item.type, Expected.types])), false_and]
  | _ =>
      apply Refuses.judged
      exact error_iff_mismatch (by simp [Item.type, Expected.types])

section Lists

variable [Record α] {items : α → List Item} {limit : Nat}

theorem refuses_readRecord_flaw (h : Itemized items) (hslots : Slotted α slots) (hfailure : failure.kind = .validation)
    (row : Nat) : Refuses (readRecord limit row : Reader α) failure (RowFlaw slots row failure) := by
  have hdecoding := validation_ne_decoding hfailure
  have hextra (count : Nat) (a : α) : Refuses (fun c => skipMany (skip limit) count c >>= fun c => .ok (a, c))
      failure fun _ => False := by
    apply (refuses_skipExtra hdecoding count a).congr
    intro bs
    apply iff_false_intro
    rintro ⟨rfl, -⟩
    cases hfailure
  have hnext (count : Nat) : Refuses (fun c =>
      if count < Record.fields α then .error (.tooShort [row] (Record.fields α) count)
      else Record.read row c >>= fun x => skipMany (skip limit) (count - Record.fields α) x.2 >>=
        fun c => .ok ((x.1 : α), c)) failure fun bs =>
          (count < slots.length ∧ failure = .tooShort [row] slots.length count ∧ bs = []) ∨
            slots.length ≤ count ∧ FieldsFlaw row 0 slots failure bs := by
    rw [hslots.length_eq]
    -- the length is judged first, so a row has one flaw of the two
    by_cases hcount : count < Record.fields α
    · simp only [hcount, if_true, Nat.not_le.mpr hcount, false_and, true_and, or_false]
      apply Refuses.judged
      rw [Except.error.injEq, eq_comm]
    · simp only [hcount, if_false, Nat.not_lt.mp hcount, false_and, true_and, false_or]
      apply ((hslots.refuses hfailure row).bind (h.follows row) (hextra _)).congr
      intro bs
      simp only [false_and, and_false, exists_false, or_false]
  apply ((refuses_readArray hdecoding [row]).bind (follows_readArray [row]) hnext).congr
  intro bs
  constructor
  · rintro (⟨item, hmismatch, hspells⟩ | ⟨count, xs, _, hheader, ⟨hlt, rfl, rfl⟩ | ⟨hle, hfields⟩, rfl⟩)
    · exact .type hmismatch hspells
    · rw [List.append_nil]
      exact .length hheader hlt
    · exact .field hheader hle hfields
  · intro hflaw
    cases hflaw with
    | type hmismatch hspells => exact .inl ⟨_, hmismatch, hspells⟩
    | length hheader hlt => exact .inr ⟨_, _, [], hheader, .inl ⟨hlt, rfl, rfl⟩, (List.append_nil bs).symm⟩
    | field hheader hle hfields => exact .inr ⟨_, _, _, hheader, .inr ⟨hle, hfields⟩, rfl⟩

/-- The failures about what the bytes stand for are those for which a list is flawed. -/
theorem decode_eq_validation_iff (h : Itemized items) (hslots : Slotted α slots) (bs : List UInt8) :
    (decode limit bs : Decoded α) = .error failure ∧ failure.kind = .validation ↔
      ∃ xs, MessageFlaw limit items slots failure xs ∧ xs <+: bs := by
  have hrows (hfailure : failure.kind = .validation) :
      Refuses (readRows limit : Reader (List α)) failure (MessageFlaw limit items slots failure) := by
    apply ((refuses_readArray (validation_ne_decoding hfailure) []).bind (follows_readArray []) fun count =>
      refuses_readMany h (refuses_readRecord_flaw h hslots hfailure) 0 #[] count).congr
    intro bs
    constructor
    · rintro (⟨item, hmismatch, hspells⟩ | ⟨count, xs, _, hheader, ⟨as, ys, zs, hlt, hrows, hflaw, rfl⟩, rfl⟩)
      · exact .type hmismatch hspells
      · rw [Nat.zero_add] at hflaw
        exact .row hheader hlt hrows hflaw
    · intro hflaw
      cases hflaw with
      | type hmismatch hspells => exact .inl ⟨_, hmismatch, hspells⟩
      | row hheader hlt hrows hflaw =>
          rw [← Nat.zero_add (List.length _)] at hflaw
          exact .inr ⟨_, _, _, hheader, ⟨_, _, _, hlt, hrows, hflaw, rfl⟩, rfl⟩
  constructor
  · rintro ⟨herror, hfailure⟩
    rw [decode_eq_error_iff_readRows (validation_ne_decoding hfailure)] at herror
    exact (hrows hfailure 0 bs).mp herror
  · rintro ⟨xs, hflaw, hbs⟩
    have hfailure := hflaw.validation
    refine ⟨?_, hfailure⟩
    rw [decode_eq_error_iff_readRows (validation_ne_decoding hfailure)]
    exact (hrows hfailure 0 bs).mpr ⟨xs, hflaw, hbs⟩

end Lists

end Rows

/-- How the failures at a row or at a field of it are told. -/
structure Pointed (shown : Char → Bool) : Prop where
  array : ∀ row got, (Failure.mismatch [row] .array got).message shown =
    "Expected `array`, got `" ++ got.name ++ "` - at `$[" ++ toString row ++ "]`"
  length : ∀ row least got, (Failure.tooShort [row] least got).message shown =
    "Expected `array` of at least length " ++ toString least ++ ", got " ++ toString got ++
      " - at `$[" ++ toString row ++ "]`"
  text : ∀ row field got, (Failure.mismatch [row, field] .text got).message shown =
    "Expected `str`, got `" ++ got.name ++ "` - at `$[" ++ toString row ++ "][" ++ toString field ++ "]`"
  integer : ∀ row field got, (Failure.mismatch [row, field] .integer got).message shown =
    "Expected `int`, got `" ++ got.name ++ "` - at `$[" ++ toString row ++ "][" ++ toString field ++ "]`"
  integerOrNull : ∀ row field got, (Failure.mismatch [row, field] .integerOrNull got).message shown =
    "Expected `int | null`, got `" ++ got.name ++ "` - at `$[" ++ toString row ++ "][" ++ toString field ++ "]`"
  name : ∀ row field name, (Failure.unknownName [row, field] name).message shown =
    "Invalid enum value " ++ Text.quote shown name ++ " - at `$[" ++ toString row ++ "][" ++
      toString field ++ "]`"
  code : ∀ row field code, (Failure.unknownCode [row, field] code).message shown =
    "Invalid enum value " ++ toString code ++ " - at `$[" ++ toString row ++ "][" ++ toString field ++ "]`"

theorem suffix_row (row : Nat) : Path.suffix [row] = " - at `$[" ++ toString row ++ "]`" := by
  have hopen : " - at `$[" = " - at `$" ++ "[" := by simp only [String.reduceAppend]
  have hclose : "]`" = "]" ++ "`" := by simp only [String.reduceAppend]
  simp only [Path.suffix, List.map_cons, List.map_nil, String.join, List.foldl, String.empty_append, hopen, hclose,
    String.append_assoc]

theorem suffix_field (row field : Nat) :
    Path.suffix [row, field] = " - at `$[" ++ toString row ++ "][" ++ toString field ++ "]`" := by
  have hopen : " - at `$[" = " - at `$" ++ "[" := by simp only [String.reduceAppend]
  have hnext : "][" = "]" ++ "[" := by simp only [String.reduceAppend]
  have hclose : "]`" = "]" ++ "`" := by simp only [String.reduceAppend]
  simp only [Path.suffix, List.map_cons, List.map_nil, String.join, List.foldl, String.empty_append, hopen, hnext,
    hclose, String.append_assoc]

theorem message_mismatch (shown : Char → Bool) (path : Path) (want : Expected) (got : ItemType) :
    (Failure.mismatch path want got).message shown =
      "Expected `" ++ want.name ++ "`, got `" ++ got.name ++ "`" ++ path.suffix := rfl

theorem message_mismatch_field (shown : Char → Bool) (row field : Nat) (want : Expected) (got : ItemType) :
    (Failure.mismatch [row, field] want got).message shown =
      "Expected `" ++ want.name ++ "`, got `" ++ got.name ++ "` - at `$[" ++ toString row ++ "][" ++
        toString field ++ "]`" := by
  have hquote : "` - at `$[" = "`" ++ " - at `$[" := by simp only [String.reduceAppend]
  rw [message_mismatch, suffix_field, hquote]
  simp only [String.append_assoc]

theorem pointed (shown : Char → Bool) : Pointed shown where
  array row got := by
    have hwant : "Expected `array`, got `" = "Expected `" ++ "array" ++ "`, got `" := by simp only [String.reduceAppend]
    have hquote : "` - at `$[" = "`" ++ " - at `$[" := by simp only [String.reduceAppend]
    rw [message_mismatch, suffix_row, Expected.name, hwant, hquote]
    simp only [String.append_assoc]
  length row least got := by
    change "Expected `array` of at least length " ++ toString least ++ ", got " ++ toString got ++
      Path.suffix [row] = _
    simp only [suffix_row, String.append_assoc]
  text row field got := by
    have hwant : "Expected `str`, got `" = "Expected `" ++ "str" ++ "`, got `" := by simp only [String.reduceAppend]
    rw [message_mismatch_field, Expected.name, hwant]
  integer row field got := by
    have hwant : "Expected `int`, got `" = "Expected `" ++ "int" ++ "`, got `" := by simp only [String.reduceAppend]
    rw [message_mismatch_field, Expected.name, hwant]
  integerOrNull row field got := by
    have hwant : "Expected `int | null`, got `" = "Expected `" ++ "int | null" ++ "`, got `" := by
      simp only [String.reduceAppend]
    rw [message_mismatch_field, Expected.name, hwant]
  name row field name := by
    change "Invalid enum value " ++ Text.quote shown name ++ Path.suffix [row, field] = _
    simp only [suffix_field, String.append_assoc]
  code row field code := by
    change "Invalid enum value " ++ toString code ++ Path.suffix [row, field] = _
    simp only [suffix_field, String.append_assoc]

/-- What is wrong with a message is told of the first row and the first field of it that do not fit. A row is refused
for what it is, then for its length, and then for its fields. -/
theorem decode_firstFlaw (limit : Nat) (shown : Char → Bool) (bs : List UInt8) (failure : Failure) :
    ((decode limit bs : Decoded Token) = .error failure ∧ failure.kind = .validation ↔
      ∃ xs, MessageFlaw limit Token.items Token.slots failure xs ∧ xs <+: bs) ∧
    ((decode limit bs : Decoded Diagnostic) = .error failure ∧ failure.kind = .validation ↔
      ∃ xs, MessageFlaw limit Diagnostic.items Diagnostic.slots failure xs ∧ xs <+: bs) ∧ Pointed shown :=
  ⟨decode_eq_validation_iff itemized_token slotted_token bs,
    decode_eq_validation_iff itemized_diagnostic slotted_diagnostic bs, pointed shown⟩

-- behind a row with an item more than its fields, the line of the second is no number
example : (decode 0 [0xdc, 0x00, 0x02, 0x95, 0xa6, 0x6e, 0x75, 0x6d, 0x62, 0x65, 0x72, 0xa1, 0x31, 0xcc, 0x01, 0x01,
    0xc0, 0x94, 0xa6, 0x6e, 0x75, 0x6d, 0x62, 0x65, 0x72, 0xa1, 0x32, 0xc0, 0xc1] : Decoded Token) =
      .error (.mismatch [1, 2] .integer .nil) := by
  decide +kernel

end Lexing.Wire
