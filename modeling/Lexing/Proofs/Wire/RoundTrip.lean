import Lexing.Proofs.Wire.WrittenItem
import Lexing.Wire.Message

/-! A list of records is written unless it holds an integer out of range, and decoded from what is written. -/

namespace Lexing

def Token.integers (t : Token) : List Int := [t.start.line, t.start.column]

def Diagnostic.integers (d : Diagnostic) : List Int :=
  [d.offset, d.start.line, d.start.column] ++ d.lastToken.toList

namespace Wire

section Fields

variable {α : Type} [Field α] {path : Path} {item : Item} {a : α} {bs : List UInt8} {fits : Prop} {w : Written}

theorem consumes_readField (h : Consumes readItem bs item) (ha : Field.accept path item = .ok a) :
    Consumes (readField path) bs a := by
  intro offset rest
  rw [readField, h]
  change Field.accept path item >>= (fun a => pure (a, _)) = _
  rw [ha]
  rfl

theorem Carries.field (h : Carries readItem fits item w) (ha : Field.accept path item = .ok a) :
    Carries (readField path) fits a w :=
  h.imp fun _ hbs => consumes_readField hbs ha

end Fields

theorem carries_int (path : Path) (n : Int) : Carries (readField path) (InRange n) n (Field.write n) :=
  (carries_writeInt n).field rfl

theorem acceptText_encode (path : Path) (s : String) : acceptText path (.str (Text.Utf8.encode s)) = .ok s := by
  rw [acceptText, Text.Utf8.decode_encode]

theorem carries_text (path : Path) {s : String} (h : s.utf8ByteSize < 2 ^ 32) :
    Carries (readField path) True s (Field.write s) :=
  (carries_writeText h).field (acceptText_encode path s)

theorem carries_lastToken (path : Path) (index : Option Int) :
    Carries (readField path) (∀ n ∈ index, InRange n) index (Field.write index) := by
  cases index with
  | none =>
      apply Carries.written
      · intro n hn
        cases hn
      · exact consumes_readField consumes_nil rfl
  | some n =>
      apply ((carries_writeInt n).field rfl).congr
      simp only [Option.mem_some_iff, forall_eq']

theorem carries_tokenKind (path : Path) (kind : Token.Kind) :
    Carries (readField path) True kind (Field.write kind) := by
  have hsize : kind.name.utf8ByteSize < 2 ^ 32 := by cases kind <;> decide
  have haccept : Field.accept path (.str (Text.Utf8.encode kind.name)) = .ok kind := by
    change acceptText path _ >>= _ = _
    rw [acceptText_encode]
    simp only [bind, Except.bind, Token.Kind.ofName?_name]
  exact (carries_writeText hsize).field haccept

theorem carries_diagnosticKind (path : Path) (kind : Diagnostic.Kind) :
    Carries (readField path) True kind (Field.write kind) := by
  have hrange : InRange kind.code ↔ True := by cases kind <;> decide
  have haccept : Field.accept path (.int kind.code) = .ok kind := by
    change acceptInt path (.int kind.code) >>= _ = _
    simp only [acceptInt, bind, Except.bind, Diagnostic.Kind.ofCode?_code]
  exact ((carries_writeInt kind.code).field haccept).congr hrange

theorem carries_token (row : Nat) {t : Token} (h : t.text.utf8ByteSize < 2 ^ 32) :
    Carries (Record.read row) (∀ n ∈ t.integers, InRange n) t (Record.write t) := by
  have hcarries : Carries (Record.read row)
      (True ∧ True ∧ InRange t.start.line ∧ InRange t.start.column ∧ True) t (Record.write t) := by
    apply (carries_tokenKind [row, 0] t.kind).bind
    intro ks hks
    apply (carries_text [row, 1] h).bind
    intro xs hxs
    apply (carries_int [row, 2] t.start.line).bind
    intro ls hls
    apply (carries_int [row, 3] t.start.column).bind
    intro cs hcs
    apply Carries.written trivial
    rw [List.append_assoc, List.append_assoc]
    apply hks.bind
    apply hxs.bind
    apply hls.bind
    exact hcs.map fun column => (⟨t.kind, t.text, ⟨t.start.line, column⟩⟩ : Token)
  apply hcarries.congr
  simp [Token.integers]

theorem carries_diagnostic (row : Nat) (d : Diagnostic) :
    Carries (Record.read row) (∀ n ∈ d.integers, InRange n) d (Record.write d) := by
  have hcarries : Carries (Record.read row) (True ∧ InRange d.offset ∧ InRange d.start.line ∧
      InRange d.start.column ∧ (∀ n ∈ d.lastToken, InRange n) ∧ True) d (Record.write d) := by
    apply (carries_diagnosticKind [row, 0] d.kind).bind
    intro ks hks
    apply (carries_int [row, 1] d.offset).bind
    intro os hos
    apply (carries_int [row, 2] d.start.line).bind
    intro ls hls
    apply (carries_int [row, 3] d.start.column).bind
    intro cs hcs
    apply (carries_lastToken [row, 4] d.lastToken).bind
    intro is his
    apply Carries.written trivial
    rw [List.append_assoc, List.append_assoc, List.append_assoc]
    apply hks.bind
    apply hos.bind
    apply hls.bind
    apply hcs.bind
    exact his.map fun index => (⟨d.kind, d.offset, d.start, index⟩ : Diagnostic)
  apply hcarries.congr
  simp [Diagnostic.integers]

theorem carries_readArray (path : Path) {n : Nat} (h : n < 2 ^ 32) :
    Carries (readArray path) True n (arrayHeader n) := by
  apply (carries_arrayHeader h).imp
  intro bs hbs offset rest
  rw [readArray, hbs]
  rfl

section Lists

variable {α : Type} [Record α] {fits : α → Prop} {limit : Nat}

/-- A row that holds exactly the fields of a record leaves nothing to skip. -/
theorem carries_writeRecord (hfields : Record.fields α < 2 ^ 32) {row : Nat} {a : α}
    (h : Carries (Record.read row) (fits a) a (Record.write a)) :
    Carries (readRecord limit row) (fits a) a (writeRecord a) := by
  have hcarries : Carries (readRecord limit row) (True ∧ fits a ∧ True) a (writeRecord a) := by
    apply (carries_readArray [row] hfields).bind
    intro hs hhs
    apply h.bind
    intro xs hxs
    apply Carries.written trivial
    apply hhs.bind
    intro offset rest
    change (if Record.fields α < Record.fields α then _ else _) = _
    rw [if_neg (Nat.lt_irrefl _), hxs, Nat.sub_self]
    rfl
  apply hcarries.congr
  rw [true_and, and_true]

def writeRows (as : List α) : Written := List.flatten <$> as.mapM writeRecord

theorem writeRows_cons (a : α) (as : List α) :
    writeRows (a :: as) = (do return (← writeRecord a) ++ (← writeRows as)) := by
  simp only [writeRows, List.mapM_cons, map_bind, map_pure, bind_map_left, List.flatten_cons]

theorem encode_eq (as : List α) : encode as = (do return (← arrayHeader as.length) ++ (← writeRows as)) := by
  simp only [encode, writeRows, bind_map_left]

/-- The rows are read in the order in which they are written, behind those read before. -/
theorem carries_writeRows {as : List α}
    (h : ∀ a ∈ as, ∀ row, Carries (readRecord limit row) (fits a) a (writeRecord a)) (row : Nat) (acc : Array α) :
    Carries (readMany (readRecord limit) row acc as.length) (∀ a ∈ as, fits a) (acc.toList ++ as) (writeRows as) := by
  induction as generalizing row acc with
  | nil =>
      apply Carries.written
      · intro a ha
        cases ha
      · intro offset rest
        rw [List.append_nil]
        rfl
  | cons a as ih =>
      rw [List.forall_mem_cons] at h
      have hcarries : Carries (readMany (readRecord limit) row acc (as.length + 1))
          (fits a ∧ (∀ a ∈ as, fits a) ∧ True) (acc.toList ++ a :: as) (writeRows (a :: as)) := by
        rw [writeRows_cons]
        apply (h.1 row).bind
        intro xs hxs
        apply (ih h.2 (row + 1) (acc.push a)).bind
        intro ys hys
        apply Carries.written trivial
        apply hxs.bind
        rw [Array.toList_push, List.append_assoc, List.singleton_append] at hys
        exact hys
      apply hcarries.congr
      rw [and_true, List.forall_mem_cons]

def readRows (limit : Nat) : Reader (List α) := fun c =>
  readArray [] c >>= fun x => readMany (readRecord limit) 0 #[] x.1 x.2

theorem decode_eq (bs : List UInt8) : decode limit bs = readRows limit ⟨0, bs⟩ >>= fun x : List α × Cursor =>
    if x.2.rest.isEmpty then .ok x.1 else .error (.trailing x.2.offset) := by
  rw [readRows, bind_assoc]
  rfl

/-- What is written of a list, up to the end of the bytes, is decoded as that list. -/
theorem decode_of_carries {carried : Prop} {as : List α} {bs : List UInt8}
    (h : Carries (readRows limit) carried as (.ok bs)) : decode limit bs = .ok as := by
  cases h with
  | written _ hconsumes =>
      have hrows := hconsumes 0 []
      rw [List.append_nil] at hrows
      rw [decode_eq, hrows]
      rfl

theorem carries_encode (hfields : Record.fields α < 2 ^ 32) {as : List α} (hlength : as.length < 2 ^ 32)
    (h : ∀ a ∈ as, ∀ row, Carries (Record.read row) (fits a) a (Record.write a)) :
    Carries (readRows limit) (∀ a ∈ as, fits a) as (encode as) := by
  have hcarries : Carries (readRows limit) (True ∧ (∀ a ∈ as, fits a) ∧ True) as (encode as) := by
    rw [encode_eq]
    apply (carries_readArray [] hlength).bind
    intro hs hhs
    have hwrite : ∀ a ∈ as, ∀ row, Carries (readRecord limit row) (fits a) a (writeRecord a) :=
      fun a ha row => carries_writeRecord hfields (h a ha row)
    apply (carries_writeRows hwrite 0 #[]).bind
    intro xs hxs
    apply Carries.written trivial
    apply hhs.bind
    exact hxs
  apply hcarries.congr
  rw [true_and, and_true]

/-- A list with an integer out of range in it is refused for that. Any other is written, and what is written is
decoded as that list, whatever the limit: nothing stands behind the fields that could nest. -/
def Faithful (integers : α → List Int) (as : List α) : Prop :=
  (encode as = .error .integerOutOfRange ↔ ∃ a ∈ as, ∃ n ∈ integers a, ¬InRange n) ∧
    ((∀ a ∈ as, ∀ n ∈ integers a, InRange n) → ∃ bs, encode as = .ok bs ∧ ∀ limit, decode limit bs = .ok as)

theorem faithful_of_carries {integers : α → List Int} {as : List α}
    (h : ∀ limit, Carries (readRows limit) (∀ a ∈ as, ∀ n ∈ integers a, InRange n) as (encode as)) :
    Faithful integers as := by
  have hout : (∃ a ∈ as, ∃ n ∈ integers a, ¬InRange n) ↔ ¬∀ a ∈ as, ∀ n ∈ integers a, InRange n := by
    simp only [Classical.not_forall, exists_prop]
  rw [Faithful, hout]
  generalize encode as = w at h
  cases h 0 with
  | written hfits _ =>
      constructor
      · constructor
        · intro herror
          cases herror
        · intro hnot
          exact absurd hfits hnot
      · intro _
        exact ⟨_, rfl, fun limit => decode_of_carries (h limit)⟩
  | refused hfits =>
      constructor
      · constructor
        · intro _
          exact hfits
        · intro _
          rfl
      · intro hall
        exact absurd hall hfits

end Lists

/-- Lists short enough, and texts short enough, for the sizes of the wire. -/
theorem encode_roundTrip (ts : List Token) (ds : List Diagnostic) (hts : ts.length < 2 ^ 32)
    (hds : ds.length < 2 ^ 32) (htexts : ∀ t ∈ ts, t.text.utf8ByteSize < 2 ^ 32) :
    Faithful Token.integers ts ∧ Faithful Diagnostic.integers ds := by
  constructor
  · apply faithful_of_carries
    intro limit
    apply carries_encode (by decide) hts
    intro t ht row
    exact carries_token row (htexts t ht)
  · apply faithful_of_carries
    intro limit
    apply carries_encode (by decide) hds
    intro d _ row
    exact carries_diagnostic row d

theorem encode_roundTrip_of_extremes :
    (∃ bs, encode [(⟨.string, "'é", ⟨-2 ^ 63, 2 ^ 64 - 1⟩⟩ : Token)] = .ok bs ∧
      ∀ limit, decode limit bs = .ok [(⟨.string, "'é", ⟨-2 ^ 63, 2 ^ 64 - 1⟩⟩ : Token)]) ∧
    encode [(⟨.unterminatedString, 0, ⟨1, 1⟩, some (2 ^ 64)⟩ : Diagnostic)] = .error .integerOutOfRange := by
  have h := encode_roundTrip [⟨.string, "'é", ⟨-2 ^ 63, 2 ^ 64 - 1⟩⟩]
    [⟨.unterminatedString, 0, ⟨1, 1⟩, some (2 ^ 64)⟩] (by decide) (by decide) (by decide)
  constructor
  · exact h.1.2 (by decide)
  · exact h.2.1.mpr (by decide)

end Wire
end Lexing
