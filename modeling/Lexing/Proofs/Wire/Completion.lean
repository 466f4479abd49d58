import Lexing.Proofs.Wire.ItemForms

/-! Bytes that are wanting. A reader that follows a grammar wants bytes where those of a value are cut; and where more
bytes can always satisfy it, it wants them nowhere else. -/

namespace Lexing.Wire

/-- With some bytes behind those that are there, a value is read. -/
def Completable {α : Type} (read : Reader α) : Prop :=
  ∀ offset bs, ∃ more a c, read ⟨offset, bs ++ more⟩ = .ok (a, c)

section Wanting

variable {α : Type} {read : Reader α} {grammar : α → List UInt8 → Prop} {offset : Nat} {bs more : List UInt8} {a : α}

theorem Follows.truncated_of_append (h : Follows read grammar) (ha : grammar a (bs ++ more)) (hmore : more ≠ []) :
    read ⟨offset, bs⟩ = .error .truncated := by
  have hwhole : read ⟨offset, bs ++ more⟩ = .ok (a, ⟨offset + (bs ++ more).length, []⟩) :=
    h.ok_iff.mpr ⟨bs ++ more, ha, (List.append_nil _).symm, rfl⟩
  cases hread : read ⟨offset, bs⟩ with
  | ok x =>
      have happend := h.ok_append more hread
      rw [hwhole, Except.ok.injEq, Prod.mk.injEq, Cursor.mk.injEq] at happend
      exact absurd (List.append_eq_nil_iff.mp happend.2.2.symm).2 hmore
  | error failure =>
      by_cases hfailure : failure = .truncated
      · rw [hfailure]
      · have happend := h.error_append more hread hfailure
        rw [hwhole] at happend
        cases happend

theorem Follows.exists_completion (h : Follows read grammar) (hcompletable : Completable read)
    (hread : read ⟨offset, bs⟩ = .error .truncated) : ∃ more a, more ≠ [] ∧ grammar a (bs ++ more) := by
  have hshort : ∀ xs a rest, grammar a xs → bs ≠ xs ++ rest := by
    rintro xs a rest ha rfl
    have hok : read ⟨offset, xs ++ rest⟩ = .ok (a, ⟨offset + xs.length, rest⟩) := h.ok_iff.mpr ⟨xs, ha, rfl, rfl⟩
    rw [hread] at hok
    cases hok
  obtain ⟨more, a, c, hok⟩ := hcompletable offset bs
  obtain ⟨xs, ha, heq, -⟩ := h.ok_iff.mp hok
  rcases List.append_eq_append_iff.mp heq with ⟨front, rfl, -⟩ | ⟨rest, hbs, -⟩
  · refine ⟨front, a, ?_, ha⟩
    rintro rfl
    exact hshort _ a [] ha (by rw [List.append_nil, List.append_nil])
  · exact absurd hbs (hshort xs a rest ha)

end Wanting

namespace Completable

variable {α β : Type} {read : Reader α}

theorem pure (a : α) : Completable fun c => .ok (a, c) := fun offset bs => ⟨[], a, ⟨offset, bs ++ []⟩, rfl⟩

theorem bind {next : α × Cursor → Except Failure (β × Cursor)} {grammar : α → List UInt8 → Prop}
    (h : Completable read) (hread : Follows read grammar) (hnext : ∀ a, Completable fun c => next (a, c)) :
    Completable fun c => read c >>= next := by
  intro offset bs
  obtain ⟨xs, a, c, ha⟩ := h offset bs
  obtain ⟨ys, b, c', hb⟩ := hnext a c.offset c.rest
  refine ⟨xs ++ ys, b, c', ?_⟩
  have happend := hread.ok_append ys ha
  rw [List.append_assoc] at happend
  exact bind_eq_ok_iff.mpr ⟨_, happend, hb⟩

theorem map {grammar : α → List UInt8 → Prop} (f : α → β) (h : Completable read) (hread : Follows read grammar) :
    Completable fun c => read c >>= fun x => .ok (f x.1, x.2) :=
  h.bind hread fun a => pure (f a)

end Completable

theorem completable_take (n : Nat) : Completable (take n) := by
  intro offset bs
  have hlength : ((bs ++ List.replicate n 0).take n).length = n := by simp
  exact ⟨List.replicate n 0, _, _, if_pos hlength⟩

theorem completable_readNat (width : Nat) : Completable (readNat width) :=
  (completable_take width).map _ (follows_take width)

theorem completable_readSize (size : Size) : Completable (readSize size) := by
  cases size with
  | here n => exact .pure n
  | after width => exact completable_readNat width

theorem completable_payload (size : Size) (extra : Nat) (f : List UInt8 → Item) :
    Completable fun c => readSize size c >>= fun x => take (x.1 + extra) x.2 >>= fun x => .ok (f x.1, x.2) :=
  (completable_readSize size).bind (follows_readSize size) fun n =>
    (completable_take (n + extra)).map f (follows_take (n + extra))

theorem completable_read (op : Opcode) : Completable op.read := by
  cases op with
  | int n => exact .pure _
  | unsigned width => exact (completable_readNat width).map (fun n : Nat => Item.int n) (follows_readNat width)
  | signed width =>
      exact (completable_readNat width).map (fun n => Item.int (BigEndian.signed width n)) (follows_readNat width)
  | nil => exact .pure _
  | bool => exact .pure _
  | float width => exact (completable_take width).map (fun _ => Item.float) (follows_take width)
  | str size => exact completable_payload size 0 .str
  | bin size => exact completable_payload size 0 fun _ => .bin
  | ext size => exact completable_payload size 1 fun _ => .ext
  | array size => exact (completable_readSize size).map _ (follows_readSize size)
  | map size => exact (completable_readSize size).map _ (follows_readSize size)

/-- Bytes that are wanting where an item is read are the front of the bytes of one. -/
theorem exists_item_of_truncated {offset : Nat} {bs : List UInt8} (h : readItem ⟨offset, bs⟩ = .error .truncated) :
    ∃ more item, more ≠ [] ∧ Spells item (bs ++ more) := by
  cases bs with
  | nil => exact ⟨[0xc0], .nil, List.cons_ne_nil _ _, .nil⟩
  | cons b bs =>
      simp only [readItem] at h
      split at h
      · cases h
      · next op hop =>
          obtain ⟨more, item, hmore, htail⟩ := (follows_read op).exists_completion (completable_read op) h
          exact ⟨more, item, hmore, spells_cons_iff.mpr ⟨op, hop, htail⟩⟩

end Lexing.Wire
