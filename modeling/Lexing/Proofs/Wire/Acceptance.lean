import Lexing.Proofs.Text.Utf8Soundness
import Lexing.Proofs.Wire.RoundTrip
import Lexing.Proofs.Wire.Skipping

/-! Which bytes are a message of which records: those of the grammar, in each of its forms, and no others. -/

namespace Lexing.Wire

theorem follows_judge {α : Type} (verdict : Except Failure α) :
    Follows (fun c => verdict >>= fun a => .ok (a, c)) fun a bs => verdict = .ok a ∧ bs = [] := by
  cases verdict with
  | error failure => exact Follows.refuse failure fun _ _ h => by cases h.1
  | ok a' =>
      apply (Follows.pure a').congr
      intro a bs
      rw [Except.ok.injEq, eq_comm]

section Fields

variable {path : Path} {item : Item}

theorem error_iff {α : Type} {failure : Failure} {a : α} {p : Prop} (h : ¬p) :
    (.error failure : Except Failure α) = .ok a ↔ p :=
  iff_of_false (fun h => by cases h) h

/-- A field whose values are items of their own is read from the bytes of its item. -/
theorem follows_readField {α : Type} [Field α] {denote : α → Item}
    (h : ∀ item a, Field.accept path item = .ok a ↔ item = denote a) :
    Follows (readField path) fun a => Spells (denote a) := by
  apply (follows_readItem.bind fun item => follows_judge (Field.accept path item)).congr
  intro a bs
  constructor
  · rintro ⟨item, xs, _, hitem, ⟨haccept, rfl⟩, rfl⟩
    rw [List.append_nil, ← (h item a).mp haccept]
    exact hitem
  · intro hitem
    exact ⟨_, bs, [], hitem, ⟨(h _ a).mpr rfl, rfl⟩, (List.append_nil bs).symm⟩

theorem acceptText_eq_ok_iff {s : String} : acceptText path item = .ok s ↔ item = textItem s := by
  cases item with
  | str payload =>
      have hdecode : acceptText path (.str payload) = .ok s ↔ Text.Utf8.decode payload = .ok s := by
        rw [acceptText]
        cases Text.Utf8.decode payload with
        | error fault => exact error_iff fun h => by cases h
        | ok t => rw [Except.ok.injEq, Except.ok.injEq]
      rw [hdecode, Text.Utf8.decode_eq_ok_iff, textItem, Item.str.injEq]
  | _ => exact error_iff fun h => by cases h

theorem acceptInt_eq_ok_iff {n : Int} : acceptInt path item = .ok n ↔ item = .int n := by
  cases item with
  | int m => rw [acceptInt, Except.ok.injEq, Item.int.injEq]
  | _ => exact error_iff fun h => by cases h

theorem acceptIndex_eq_ok_iff {index : Option Int} :
    Field.accept path item = .ok index ↔ item = indexItem index := by
  cases index with
  | none =>
      cases item with
      | nil => exact iff_of_true rfl rfl
      | _ => exact iff_of_false (fun h => by cases h) fun h => by cases h
  | some n =>
      cases item with
      | int m =>
          change Except.ok (some m) = Except.ok (some n) ↔ Item.int m = .int n
          rw [Except.ok.injEq, Option.some.injEq, Item.int.injEq]
      | _ => exact iff_of_false (fun h => by cases h) fun h => by cases h

/-- A field whose values have names is accepted where a name is. -/
theorem accept_named {β γ : Type} {x : Except Failure β} {next : β → Except Failure γ} {denote : β → Item}
    {name : γ → β} (hx : ∀ b, x = .ok b ↔ item = denote b) (hnext : ∀ b k, next b = .ok k ↔ b = name k) (k : γ) :
    x >>= next = .ok k ↔ item = denote (name k) := by
  rw [bind_eq_ok_iff]
  constructor
  · rintro ⟨b, hb, hk⟩
    rw [← (hnext b k).mp hk]
    exact (hx b).mp hb
  · intro hitem
    exact ⟨name k, (hx _).mpr hitem, (hnext _ k).mpr rfl⟩

theorem acceptTokenKind_eq_ok_iff {kind : Token.Kind} :
    Field.accept path item = .ok kind ↔ item = textItem kind.name := by
  refine accept_named (fun _ => acceptText_eq_ok_iff) ?_ kind
  intro name kind
  rw [← Token.Kind.ofName?_eq_some_iff]
  cases Token.Kind.ofName? name with
  | none => exact error_iff fun h => by cases h
  | some kind' => rw [Except.ok.injEq, Option.some.injEq]

theorem acceptDiagnosticKind_eq_ok_iff {kind : Diagnostic.Kind} :
    Field.accept path item = .ok kind ↔ item = .int kind.code := by
  refine accept_named (fun _ => acceptInt_eq_ok_iff) ?_ kind
  intro code kind
  rw [← Diagnostic.Kind.ofCode?_eq_some_iff]
  cases Diagnostic.Kind.ofCode? code with
  | none => exact error_iff fun h => by cases h
  | some kind' => rw [Except.ok.injEq, Option.some.injEq]

end Fields

theorem items_nil_iff {bs : List UInt8} : Items [] bs ↔ bs = [] := by
  constructor
  · intro h
    cases h
    rfl
  · rintro rfl
    exact .nil

theorem items_cons_iff {item : Item} {items : List Item} {bs : List UInt8} :
    Items (item :: items) bs ↔ ∃ xs ys, Spells item xs ∧ Items items ys ∧ bs = xs ++ ys := by
  constructor
  · intro h
    cases h with
    | cons hitem hitems => exact ⟨_, _, hitem, hitems, rfl⟩
  · rintro ⟨xs, ys, hitem, hitems, rfl⟩
    exact .cons hitem hitems

section Records

variable {α β : Type} {read : Reader α} {denote : α → Item} {known : β → Prop} {rest : β → List Item}

/-- A field is read and becomes known; the records with all that is known are those of the items that remain. -/
theorem Follows.field {next : α × Cursor → Except Failure (β × Cursor)} (get : β → α)
    (h : Follows read fun a => Spells (denote a))
    (hnext : ∀ a, Follows (fun c => next (a, c)) fun b bs => (known b ∧ get b = a) ∧ Items (rest b) bs) :
    Follows (fun c => read c >>= next) fun b bs => known b ∧ Items (denote (get b) :: rest b) bs := by
  apply (h.bind hnext).congr
  intro b bs
  constructor
  · rintro ⟨_, xs, ys, hitem, ⟨⟨hknown, rfl⟩, hitems⟩, rfl⟩
    exact ⟨hknown, .cons hitem hitems⟩
  · rintro ⟨hknown, hitems⟩
    obtain ⟨xs, ys, hitem, hrest, rfl⟩ := items_cons_iff.mp hitems
    exact ⟨get b, xs, ys, hitem, ⟨⟨hknown, rfl⟩, hrest⟩, rfl⟩

theorem follows_all_known {b : β} (h : ∀ b', known b' ↔ b' = b) :
    Follows (fun c => .ok (b, c)) fun b' bs => known b' ∧ Items [] bs := by
  apply (Follows.pure b).congr
  intro b' bs
  rw [h, items_nil_iff]

end Records

/-- A record that is read from as many items as it has fields. -/
structure Itemized {α : Type} [Record α] (items : α → List Item) : Prop where
  length_eq : ∀ a, (items a).length = Record.fields α
  follows : ∀ row, Follows (Record.read row) fun a => Items (items a)

theorem itemized_token : Itemized Token.items where
  length_eq _ := rfl
  follows row := by
    have hread : Follows (Record.read row) fun t bs => True ∧ Items (Token.items t) bs := by
      apply Follows.field Token.kind (follows_readField fun _ _ => acceptTokenKind_eq_ok_iff)
      intro kind
      apply Follows.field Token.text (follows_readField fun _ _ => acceptText_eq_ok_iff)
      intro text
      apply Follows.field (fun t : Token => t.start.line) (follows_readField fun _ _ => acceptInt_eq_ok_iff)
      intro line
      apply Follows.field (fun t : Token => t.start.column) (follows_readField fun _ _ => acceptInt_eq_ok_iff)
      intro column
      apply follows_all_known
      intro t
      constructor
      · rintro ⟨⟨⟨⟨-, rfl⟩, rfl⟩, rfl⟩, rfl⟩
        rfl
      · rintro rfl
        exact ⟨⟨⟨⟨trivial, rfl⟩, rfl⟩, rfl⟩, rfl⟩
    exact hread.congr fun _ _ => and_iff_right trivial

theorem itemized_diagnostic : Itemized Diagnostic.items where
  length_eq _ := rfl
  follows row := by
    have hread : Follows (Record.read row) fun d bs => True ∧ Items (Diagnostic.items d) bs := by
      apply Follows.field Diagnostic.kind (follows_readField fun _ _ => acceptDiagnosticKind_eq_ok_iff)
      intro kind
      apply Follows.field Diagnostic.offset (follows_readField fun _ _ => acceptInt_eq_ok_iff)
      intro offset
      apply Follows.field (fun d : Diagnostic => d.start.line) (follows_readField fun _ _ => acceptInt_eq_ok_iff)
      intro line
      apply Follows.field (fun d : Diagnostic => d.start.column) (follows_readField fun _ _ => acceptInt_eq_ok_iff)
      intro column
      apply Follows.field Diagnostic.lastToken (follows_readField fun _ _ => acceptIndex_eq_ok_iff)
      intro lastToken
      apply follows_all_known
      intro d
      constructor
      · rintro ⟨⟨⟨⟨⟨-, rfl⟩, rfl⟩, rfl⟩, rfl⟩, rfl⟩
        rfl
      · rintro rfl
        exact ⟨⟨⟨⟨⟨trivial, rfl⟩, rfl⟩, rfl⟩, rfl⟩, rfl⟩
    exact hread.congr fun _ _ => and_iff_right trivial

/-- What expects an array after an item reads the header of one. -/
theorem follows_header {next : Item × Cursor → Except Failure (Nat × Cursor)}
    (h : ∀ item, Follows (fun c => next (item, c)) fun n bs => item = .array n ∧ bs = []) :
    Follows (fun c => readItem c >>= next) (Header Forms.array) := by
  apply (follows_readItem.bind h).congr
  intro n bs
  constructor
  · rintro ⟨_, xs, _, hitem, ⟨rfl, rfl⟩, rfl⟩
    rw [List.append_nil]
    cases hitem with
    | array hheader => exact hheader
  · intro hheader
    exact ⟨_, bs, [], .array hheader, ⟨rfl, rfl⟩, (List.append_nil bs).symm⟩

theorem follows_readArray (path : Path) : Follows (readArray path) (Header Forms.array) := by
  apply follows_header
  intro item
  cases item with
  | array n =>
      apply (Follows.pure n).congr
      intro m bs
      rw [Item.array.injEq, eq_comm]
  | _ => exact Follows.refuse _ fun _ _ h => by cases h.1

section Lists

variable {α : Type} [Record α] {items : α → List Item} {limit : Nat}

/-- A row is read from the items of its record, with any values behind them. -/
theorem follows_readRecord (h : Itemized items) (row : Nat) :
    Follows (readRecord limit row) fun a => Row limit (items a) := by
  have hnext (n : Nat) : Follows (fun c =>
      if n < Record.fields α then .error (.tooShort [row] (Record.fields α) n)
      else Record.read row c >>= fun x => skipMany (skip limit) (n - Record.fields α) x.2 >>=
        fun c => .ok (x.1, c)) fun (a : α) bs => (items a).length ≤ n ∧
        ∃ xs ys, Items (items a) xs ∧ Values limit (n - (items a).length) ys ∧ bs = xs ++ ys := by
    by_cases hn : n < Record.fields α
    · simp only [if_pos hn]
      refine Follows.refuse _ fun a bs hbs => ?_
      exact absurd hn (Nat.not_lt.mpr (h.length_eq a ▸ hbs.1))
    · simp only [if_neg hn]
      have hskip := follows_skipMany (follows_skip limit) (n - Record.fields α)
      apply ((h.follows row).bind fun a => hskip.then_read (Follows.pure a)).congr
      intro a bs
      rw [h.length_eq a, and_iff_right (Nat.not_lt.mp hn)]
      constructor
      · rintro ⟨_, xs, _, hitems, ⟨ys, _, hvalues, ⟨rfl, rfl⟩, rfl⟩, rfl⟩
        rw [List.append_nil]
        exact ⟨xs, ys, hitems, hvalues, rfl⟩
      · rintro ⟨xs, ys, hitems, hvalues, rfl⟩
        exact ⟨a, xs, ys, hitems, ⟨ys, [], hvalues, ⟨rfl, rfl⟩, (List.append_nil ys).symm⟩, rfl⟩
  apply ((follows_readArray [row]).bind hnext).congr
  intro a bs
  constructor
  · rintro ⟨n, hs, _, hheader, ⟨hle, xs, ys, hitems, hvalues, rfl⟩, rfl⟩
    exact .mk hheader hle hitems hvalues
  · intro hrow
    obtain ⟨hheader, hle, hitems, hvalues⟩ := hrow
    exact ⟨_, _, _, hheader, ⟨hle, _, _, hitems, hvalues, rfl⟩, rfl⟩

theorem rows_cons_iff {depth : Nat} {row : List Item} {rows : List (List Item)} {bs : List UInt8} :
    Rows depth (row :: rows) bs ↔ ∃ xs ys, Row depth row xs ∧ Rows depth rows ys ∧ bs = xs ++ ys := by
  constructor
  · intro h
    cases h with
    | cons hrow hrows => exact ⟨_, _, hrow, hrows, rfl⟩
  · rintro ⟨xs, ys, hrow, hrows, rfl⟩
    exact .cons hrow hrows

/-- So many rows are read, one after another, behind the records read before. -/
theorem follows_readMany (h : Itemized items) (row : Nat) (acc : Array α) (n : Nat) :
    Follows (readMany (readRecord limit) row acc n) fun as bs =>
      ∃ read, as = acc.toList ++ read ∧ read.length = n ∧ Rows limit (read.map items) bs := by
  induction n generalizing row acc with
  | zero =>
      apply (Follows.pure acc.toList).congr
      intro as bs
      constructor
      · rintro ⟨rfl, rfl⟩
        exact ⟨[], (List.append_nil _).symm, rfl, .nil⟩
      · rintro ⟨read, rfl, hlen, hrows⟩
        obtain rfl := List.eq_nil_of_length_eq_zero hlen
        cases hrows
        exact ⟨List.append_nil _, rfl⟩
  | succ n ih =>
      apply ((follows_readRecord h row).bind fun a => ih (row + 1) (acc.push a)).congr
      intro as bs
      constructor
      · rintro ⟨a, xs, ys, hrow, ⟨read, rfl, rfl, hrows⟩, rfl⟩
        refine ⟨a :: read, ?_, rfl, .cons hrow hrows⟩
        rw [Array.toList_push, List.append_assoc, List.singleton_append]
      · rintro ⟨read, rfl, hlen, hrows⟩
        obtain ⟨a, read, rfl⟩ := List.exists_cons_of_length_eq_add_one hlen
        obtain ⟨xs, ys, hrow, hrest, rfl⟩ := rows_cons_iff.mp hrows
        refine ⟨a, xs, ys, hrow, ⟨read, ?_, Nat.succ.inj hlen, hrest⟩, rfl⟩
        rw [Array.toList_push, List.append_assoc, List.singleton_append]

theorem follows_readRows (h : Itemized items) :
    Follows (readRows limit) fun as => Message limit (as.map items) := by
  apply ((follows_readArray []).bind fun n => follows_readMany h 0 #[] n).congr
  intro as bs
  constructor
  · rintro ⟨_, hs, xs, hheader, ⟨_, rfl, rfl, hrows⟩, rfl⟩
    rw [← List.length_map items] at hheader
    exact .mk hheader hrows
  · intro hmessage
    obtain ⟨hheader, hrows⟩ := hmessage
    rw [List.length_map] at hheader
    exact ⟨_, _, _, hheader, ⟨as, rfl, rfl, hrows⟩, rfl⟩

/-- A list is decoded where its rows are read up to the end. -/
theorem decode_eq_ok_iff_readRows {bs : List UInt8} {as : List α} :
    decode limit bs = .ok as ↔ ∃ offset, readRows limit ⟨0, bs⟩ = .ok (as, ⟨offset, []⟩) := by
  rw [decode_eq, bind_eq_ok_iff]
  constructor
  · rintro ⟨⟨as', offset, rest⟩, hrows, hend⟩
    cases rest with
    | nil =>
        cases hend
        exact ⟨offset, hrows⟩
    | cons b rest => cases hend
  · rintro ⟨offset, hrows⟩
    exact ⟨_, hrows, rfl⟩

theorem decode_eq_ok_iff (h : Itemized items) {bs : List UInt8} {as : List α} :
    decode limit bs = .ok as ↔ Message limit (as.map items) bs := by
  rw [decode_eq_ok_iff_readRows]
  constructor
  · rintro ⟨offset, hrows⟩
    obtain ⟨xs, hmessage, rfl, -⟩ := (follows_readRows h).ok_iff.mp hrows
    rw [List.append_nil]
    exact hmessage
  · intro hmessage
    exact ⟨0 + bs.length, (follows_readRows h).ok_iff.mpr ⟨bs, hmessage, (List.append_nil bs).symm, rfl⟩⟩

end Lists

/-- Bytes decode to a list exactly when they are a message of its rows, in which nothing nests beyond the limit. -/
theorem decode_iff_message (limit : Nat) (bs : List UInt8) (ts : List Token) (ds : List Diagnostic) :
    (decode limit bs = .ok ts ↔ Message limit (ts.map Token.items) bs) ∧
      (decode limit bs = .ok ds ↔ Message limit (ds.map Diagnostic.items) bs) :=
  ⟨decode_eq_ok_iff itemized_token, decode_eq_ok_iff itemized_diagnostic⟩

end Lexing.Wire
