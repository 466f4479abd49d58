import Lexing.Wire.Grammar
import Lexing.Wire.Reader
import Mathlib.Data.List.Induction

/-! Readers that follow a grammar. Such a reader finds a value exactly where bytes of that value stand in front, and
looks at nothing beyond them; what it refuses, but for a want of bytes, it refuses whatever comes after. -/

namespace Lexing.Wire
open BigEndian (bytes capacity value signed unsigned)

structure Follows {α : Type} (read : Reader α) (grammar : α → List UInt8 → Prop) : Prop where
  ok_iff : ∀ {offset bs a c}, read ⟨offset, bs⟩ = .ok (a, c) ↔
    ∃ xs, grammar a xs ∧ bs = xs ++ c.rest ∧ c.offset = offset + xs.length
  error_append : ∀ {offset bs failure} (more : List UInt8), read ⟨offset, bs⟩ = .error failure →
    failure ≠ .truncated → read ⟨offset, bs ++ more⟩ = .error failure

/-- One grammar and then another, which may depend on the value of the first. -/
def Then {α β : Type} (grammar : α → List UInt8 → Prop) (next : α → β → List UInt8 → Prop) (b : β)
    (bs : List UInt8) : Prop :=
  ∃ a xs ys, grammar a xs ∧ next a b ys ∧ bs = xs ++ ys

theorem bind_eq_ok_iff {ε α β : Type} {x : Except ε α} {f : α → Except ε β} {b : β} :
    x >>= f = .ok b ↔ ∃ a, x = .ok a ∧ f a = .ok b := by
  constructor
  · intro h
    cases x with
    | error failure => cases h
    | ok a => exact ⟨a, rfl, h⟩
  · rintro ⟨a, rfl, h⟩
    exact h

namespace Follows

variable {α β : Type} {read : Reader α} {grammar grammar' : α → List UInt8 → Prop}

theorem congr (h : Follows read grammar) (hiff : ∀ a bs, grammar a bs ↔ grammar' a bs) :
    Follows read grammar' := by
  have he : grammar = grammar' := by
    funext a bs
    exact propext (hiff a bs)
  rwa [← he]

theorem ok_append (h : Follows read grammar) {offset : Nat} {bs : List UInt8} {a : α} {c : Cursor}
    (more : List UInt8) (hread : read ⟨offset, bs⟩ = .ok (a, c)) :
    read ⟨offset, bs ++ more⟩ = .ok (a, ⟨c.offset, c.rest ++ more⟩) := by
  obtain ⟨xs, ha, rfl, hoffset⟩ := h.ok_iff.mp hread
  apply h.ok_iff.mpr
  exact ⟨xs, ha, List.append_assoc .., hoffset⟩

/-- Bytes begin with those of one value at most. -/
theorem unique (h : Follows read grammar) {a b : α} {xs ys rest more : List UInt8} (ha : grammar a xs)
    (hb : grammar b ys) (heq : xs ++ rest = ys ++ more) : a = b ∧ xs = ys ∧ rest = more := by
  have hleft : read ⟨0, xs ++ rest⟩ = .ok (a, ⟨0 + xs.length, rest⟩) := h.ok_iff.mpr ⟨xs, ha, rfl, rfl⟩
  have hright : read ⟨0, ys ++ more⟩ = .ok (b, ⟨0 + ys.length, more⟩) := h.ok_iff.mpr ⟨ys, hb, rfl, rfl⟩
  rw [heq, hright] at hleft
  simp only [Except.ok.injEq, Prod.mk.injEq, Cursor.mk.injEq] at hleft
  obtain ⟨rfl, -, rfl⟩ := hleft
  exact ⟨rfl, List.append_cancel_right heq, rfl⟩

theorem bind {next : α × Cursor → Except Failure (β × Cursor)} {grammar₂ : α → β → List UInt8 → Prop}
    (h : Follows read grammar) (hnext : ∀ a, Follows (fun c => next (a, c)) (grammar₂ a)) :
    Follows (fun c => read c >>= next) (Then grammar grammar₂) := by
  constructor
  · intro offset bs b c
    rw [bind_eq_ok_iff]
    constructor
    · rintro ⟨⟨a, c'⟩, ha, hb⟩
      obtain ⟨xs, hxs, rfl, hx⟩ := h.ok_iff.mp ha
      obtain ⟨ys, hys, hrest, hy⟩ := (hnext a).ok_iff.mp hb
      refine ⟨xs ++ ys, ⟨a, xs, ys, hxs, hys, rfl⟩, ?_, ?_⟩
      · rw [hrest, List.append_assoc]
      · rw [hy, hx, List.length_append, Nat.add_assoc]
    · rintro ⟨_, ⟨a, xs, ys, hxs, hys, rfl⟩, rfl, hoffset⟩
      rw [List.length_append, ← Nat.add_assoc] at hoffset
      refine ⟨(a, ⟨offset + xs.length, ys ++ c.rest⟩), ?_, ?_⟩
      · exact h.ok_iff.mpr ⟨xs, hxs, List.append_assoc .., rfl⟩
      · exact (hnext a).ok_iff.mpr ⟨ys, hys, rfl, hoffset⟩
  · intro offset bs failure more herror hne
    cases hread : read ⟨offset, bs⟩ with
    | error failure' =>
        rw [hread] at herror
        cases herror
        rw [h.error_append more hread hne]
        rfl
    | ok x =>
        obtain ⟨a, c'⟩ := x
        rw [hread] at herror
        rw [h.ok_append more hread]
        exact (hnext a).error_append more herror hne

theorem pure (a : α) : Follows (fun c => .ok (a, c)) fun b bs => b = a ∧ bs = [] := by
  constructor
  · intro offset bs b c
    constructor
    · intro h
      cases h
      exact ⟨[], ⟨rfl, rfl⟩, rfl, rfl⟩
    · rintro ⟨_, ⟨rfl, rfl⟩, rfl, hoffset⟩
      cases c
      cases hoffset
      rfl
  · intro _ _ _ _ h
    cases h

/-- Where a grammar has no bytes for any value, all bytes may be refused. -/
theorem refuse (failure : Failure) (hnone : ∀ a bs, ¬grammar a bs) :
    Follows (fun _ => .error failure) grammar := by
  constructor
  · intro offset bs a c
    constructor
    · intro h
      cases h
    · rintro ⟨xs, ha, -⟩
      exact absurd ha (hnone a xs)
  · intro _ _ _ _ h _
    exact h

theorem map (f : α → β) (h : Follows read grammar) :
    Follows (fun c => read c >>= fun x => .ok (f x.1, x.2)) fun b bs => ∃ a, grammar a bs ∧ b = f a := by
  apply (h.bind fun a => pure (f a)).congr
  intro b bs
  constructor
  · rintro ⟨a, xs, ys, ha, ⟨rfl, rfl⟩, rfl⟩
    rw [List.append_nil]
    exact ⟨a, ha, rfl⟩
  · rintro ⟨a, ha, rfl⟩
    exact ⟨a, bs, [], ha, ⟨rfl, rfl⟩, (List.append_nil _).symm⟩

end Follows

theorem BigEndian.bytes_value (bs : List UInt8) : bytes bs.length (value bs) = bs := by
  induction bs using List.reverseRecOn with
  | nil => rfl
  | append_singleton bs b ih =>
      have hb := b.toNat_lt
      have hdiv : (value bs * 256 + b.toNat) / 256 = value bs := by omega
      have hlast : UInt8.ofNat (value bs * 256 + b.toNat) = b := by
        apply UInt8.toNat_inj.mp
        rw [UInt8.toNat_ofNat']
        omega
      rw [List.length_append, List.length_singleton, bytes, value_concat, hdiv, hlast, ih]

theorem follows_take (n : Nat) : Follows (take n) fun a bs => a = bs ∧ bs.length = n := by
  constructor
  · intro offset bs a c
    simp only [take]
    constructor
    · intro h
      split at h
      · next hlen =>
          cases h
          exact ⟨bs.take n, ⟨rfl, hlen⟩, (List.take_append_drop n bs).symm, congrArg (offset + ·) hlen.symm⟩
      · cases h
    · rintro ⟨xs, ⟨rfl, rfl⟩, rfl, hoffset⟩
      rw [List.take_left, List.drop_left, if_pos rfl, ← hoffset]
  · intro offset bs failure more h hne
    simp only [take] at h
    split at h
    · cases h
    · cases h
      exact absurd rfl hne

theorem follows_readNat (width : Nat) :
    Follows (readNat width) fun n bs => n < capacity width ∧ bs = bytes width n := by
  apply ((follows_take width).map value).congr
  intro n bs
  constructor
  · rintro ⟨_, ⟨rfl, rfl⟩, rfl⟩
    exact ⟨BigEndian.value_lt _, (BigEndian.bytes_value _).symm⟩
  · rintro ⟨hn, rfl⟩
    exact ⟨_, ⟨rfl, BigEndian.length_bytes ..⟩, (BigEndian.value_bytes_of_lt hn).symm⟩

theorem follows_readSize (size : Size) : Follows (readSize size) size.Told := by
  cases size with
  | here n =>
      apply (Follows.pure n).congr
      intro m bs
      constructor
      · rintro ⟨rfl, rfl⟩
        exact .here
      · intro h
        cases h
        exact ⟨rfl, rfl⟩
  | after width =>
      apply (follows_readNat width).congr
      intro n bs
      constructor
      · rintro ⟨hn, rfl⟩
        exact .after hn
      · intro h
        cases h with
        | after hn => exact ⟨hn, rfl⟩

/-- The bytes of an item after the first, by what the first announces. -/
def Opcode.Tail : Opcode → Item → List UInt8 → Prop
  | int n, item, bs => item = .int n ∧ bs = []
  | unsigned width, item, bs => ∃ n < capacity width, item = .int n ∧ bs = bytes width n
  | signed width, item, bs => ∃ n < capacity width, item = .int (BigEndian.signed width n) ∧ bs = bytes width n
  | nil, item, bs => item = .nil ∧ bs = []
  | bool, item, bs => item = .bool ∧ bs = []
  | float width, item, bs => item = .float ∧ bs.length = width
  | str size, item, bs => ∃ xs payload, size.Told payload.length xs ∧ item = .str payload ∧ bs = xs ++ payload
  | bin size, item, bs => ∃ xs payload, size.Told payload.length xs ∧ item = .bin ∧ bs = xs ++ payload
  | ext size, item, bs =>
      ∃ xs type payload, size.Told payload.length xs ∧ item = .ext ∧ bs = xs ++ type :: payload
  | array size, item, bs => ∃ n, size.Told n bs ∧ item = .array n
  | map size, item, bs => ∃ n, size.Told n bs ∧ item = .map n

theorem follows_number (width : Nat) (f : Nat → Item) :
    Follows (fun c => readNat width c >>= fun x => .ok (f x.1, x.2)) fun item bs =>
      ∃ n < capacity width, item = f n ∧ bs = bytes width n := by
  apply ((follows_readNat width).map f).congr
  intro item bs
  constructor
  · rintro ⟨n, ⟨hn, hbs⟩, hitem⟩
    exact ⟨n, hn, hitem, hbs⟩
  · rintro ⟨n, hn, hitem, hbs⟩
    exact ⟨n, ⟨hn, hbs⟩, hitem⟩

theorem follows_payload (size : Size) (f : List UInt8 → Item) :
    Follows (fun c => readSize size c >>= fun x => take x.1 x.2 >>= fun x => .ok (f x.1, x.2)) fun item bs =>
      ∃ xs payload, size.Told payload.length xs ∧ item = f payload ∧ bs = xs ++ payload := by
  apply ((follows_readSize size).bind fun n => (follows_take n).map f).congr
  intro item bs
  constructor
  · rintro ⟨_, xs, ys, hsize, ⟨_, ⟨rfl, rfl⟩, hitem⟩, hbs⟩
    exact ⟨xs, _, hsize, hitem, hbs⟩
  · rintro ⟨xs, payload, hsize, hitem, hbs⟩
    exact ⟨_, xs, payload, hsize, ⟨payload, ⟨rfl, rfl⟩, hitem⟩, hbs⟩

theorem follows_read (op : Opcode) : Follows op.read op.Tail := by
  cases op with
  | int n => exact Follows.pure (Item.int n)
  | unsigned width => exact follows_number width fun n => .int n
  | signed width => exact follows_number width fun n => .int (signed width n)
  | nil => exact Follows.pure Item.nil
  | bool => exact Follows.pure Item.bool
  | float width =>
      apply ((follows_take width).map fun _ => Item.float).congr
      intro item bs
      constructor
      · rintro ⟨_, ⟨rfl, hlen⟩, hitem⟩
        exact ⟨hitem, hlen⟩
      · rintro ⟨hitem, hlen⟩
        exact ⟨bs, ⟨rfl, hlen⟩, hitem⟩
  | str size => exact follows_payload size .str
  | bin size => exact follows_payload size fun _ => .bin
  | ext size =>
      apply ((follows_readSize size).bind fun n => (follows_take (n + 1)).map fun _ => Item.ext).congr
      intro item bs
      constructor
      · rintro ⟨n, xs, ys, hsize, ⟨_, ⟨rfl, hlen⟩, hitem⟩, hbs⟩
        -- the first byte after the size is the type of the extension
        obtain ⟨type, payload, rfl⟩ := List.exists_cons_of_length_eq_add_one hlen
        obtain rfl : payload.length = n := Nat.succ.inj hlen
        exact ⟨xs, type, payload, hsize, hitem, hbs⟩
      · rintro ⟨xs, type, payload, hsize, hitem, hbs⟩
        exact ⟨_, xs, type :: payload, hsize, ⟨_, ⟨rfl, rfl⟩, hitem⟩, hbs⟩
  | array size => exact (follows_readSize size).map Item.array
  | map size => exact (follows_readSize size).map Item.map

end Lexing.Wire
