import Lexing.Proofs.Wire.Awaiting
import Lexing.Proofs.Wire.Nesting
import Lexing.Runtime

/-! What skipping one value comes to. The grammar alone tells it: a whole value, a front of values that is cut, the byte
that begins no item where one is awaited, or nesting beyond the bound. -/

namespace Lexing.Wire

/-- The outcomes, by the bytes from a place on. The header of an array or a map is read before its depth is judged, so
one that is cut may be the first beyond the bound. -/
inductive Outcome (depth : Nat) (c : Cursor) : Except Failure Cursor → Prop
  | whole {xs rest} : c.rest = xs ++ rest → Values depth 1 xs → Outcome depth c (.ok ⟨c.offset + xs.length, rest⟩)
  | cut {more} : more ≠ [] → Values depth 1 (c.rest ++ more) → Outcome depth c (.error .truncated)
  | cutHeader {xs ys more item} : c.rest = xs ++ ys → Awaiting depth 1 0 xs → more ≠ [] → Spells item (ys ++ more) →
      item.inside ≠ 0 → Outcome depth c (.error .truncated)
  | unassigned {left xs rest} : c.rest = xs ++ 0xc1 :: rest → Awaiting depth 1 left xs →
      Outcome depth c (.error (.invalidOpcode (c.offset + xs.length)))
  | tooDeep {xs rest} : c.rest = xs ++ rest → Overdeep depth 1 xs → Outcome depth c (.error .tooDeep)

section Skipping

variable {depth offset : Nat} {bs : List UInt8} {failure : Failure}

theorem readItem_eq_error_cases {c : Cursor} (h : readItem c = .error failure) :
    failure = .truncated ∨ failure = .invalidOpcode c.offset ∧ c.rest.head? = some 0xc1 := by
  obtain ⟨offset, bs⟩ := c
  cases bs with
  | nil =>
      cases h
      exact .inl rfl
  | cons b bs =>
      simp only [readItem] at h
      split at h
      · next hb =>
          cases h
          exact .inr ⟨rfl, congrArg some ((Opcode.ofByte?_eq_none_iff b).mp hb)⟩
      · next op _ => exact .inl (failsOnly_read op _ _ h)

theorem readItem_unassigned (offset : Nat) (rest : List UInt8) :
    readItem ⟨offset, 0xc1 :: rest⟩ = .error (.invalidOpcode offset) := rfl

theorem truncated_of_values {more : List UInt8} (hmore : more ≠ []) (h : Values depth 1 (bs ++ more)) :
    skip depth ⟨offset, bs⟩ = .error .truncated := by
  have hpassing : passing (skip depth) ⟨offset, bs⟩ = .error .truncated :=
    (follows_skip depth).truncated_of_append (a := ()) h hmore
  rw [passing, bind_eq_error_iff] at hpassing
  apply hpassing.resolve_right
  rintro ⟨_, -, herror⟩
  cases herror

theorem truncated_of_header {xs ys more : List UInt8} {item : Item} (hawaiting : Awaiting depth 1 0 xs)
    (hmore : more ≠ []) (hitem : Spells item (ys ++ more)) :
    skip depth ⟨offset, xs ++ ys⟩ = .error .truncated := by
  rw [skip_eq_error_iff (by decide)]
  exact ⟨0, xs, ys, hawaiting, rfl, follows_readItem.truncated_of_append hitem hmore⟩

/-- Bytes that are wanting can be completed to a value, unless what is cut opens the first level beyond the bound. -/
theorem outcome_of_truncated {c : Cursor} (h : skip depth c = .error .truncated) :
    Outcome depth c (.error .truncated) := by
  obtain ⟨left, xs, ys, hawaiting, hrest, hread⟩ := (skip_eq_error_iff (by decide) c).mp h
  obtain ⟨more, item, hmore, hitem⟩ := exists_item_of_truncated hread
  by_cases hbeyond : left = 0 ∧ item.inside ≠ 0
  · obtain ⟨rfl, hinside⟩ := hbeyond
    exact .cutHeader hrest hawaiting hmore hitem hinside
  · obtain ⟨zs, hvalue⟩ := hawaiting.exists_values hitem ((not_and_or.mp hbeyond).imp_right not_not.mp)
    have hwhole : Values depth 1 (c.rest ++ (more ++ zs)) := by
      rw [hrest]
      simpa only [List.append_assoc] using hvalue
    exact .cut (List.append_ne_nil_of_left_ne_nil hmore zs) hwhole

theorem outcome_of_error {c : Cursor} (h : skip depth c = .error failure) : Outcome depth c (.error failure) := by
  by_cases hfailure : failure = .tooDeep
  · subst hfailure
    obtain ⟨offset, bs⟩ := c
    obtain ⟨xs, ⟨-, hdeep⟩, rest, hrest⟩ := (refuses_skip (by decide) depth offset bs).mp h
    exact .tooDeep hrest.symm hdeep
  · obtain ⟨left, xs, ys, hawaiting, hrest, hread⟩ := (skip_eq_error_iff hfailure c).mp h
    rcases readItem_eq_error_cases hread with rfl | ⟨rfl, hhead⟩
    · exact outcome_of_truncated h
    · obtain ⟨rest, rfl⟩ := List.head?_eq_some_iff.mp hhead
      exact .unassigned hrest hawaiting

theorem Outcome.skip_eq {c : Cursor} {result : Except Failure Cursor} (h : Outcome depth c result) :
    skip depth c = result := by
  obtain ⟨offset, bs⟩ := c
  cases h with
  | whole hrest hvalue => exact skip_eq_ok_iff.mpr ⟨_, hvalue, hrest, rfl⟩
  | cut hmore hvalue => exact truncated_of_values hmore hvalue
  | cutHeader hrest hawaiting hmore hitem _ =>
      obtain rfl := hrest
      exact truncated_of_header hawaiting hmore hitem
  | unassigned hrest hawaiting =>
      apply (skip_eq_error_iff (fun h => by cases h) _).mpr
      exact ⟨_, _, _, hawaiting, hrest, readItem_unassigned ..⟩
  | tooDeep hrest hdeep => exact (refuses_skip (by decide) depth offset bs).mpr ⟨_, ⟨rfl, hdeep⟩, _, hrest.symm⟩

/-- Skipping has one outcome, and it is the one that the grammar tells. -/
theorem skip_eq_iff (depth : Nat) (shown : Char → Bool) (c : Cursor) (result : Except Failure Cursor) :
    (skip depth c = result ↔ Outcome depth c result) ∧
      Failure.truncated.message shown = "Input data was truncated" ∧ Failure.tooDeep.kind = .recursion := by
  refine ⟨⟨?_, Outcome.skip_eq⟩, rfl, rfl⟩
  rintro rfl
  cases h : skip depth c with
  | ok c' =>
      obtain ⟨xs, hvalue, hrest, hoffset⟩ := skip_eq_ok_iff.mp h
      have hwhole := Outcome.whole hrest hvalue
      rwa [← hoffset] at hwhole
  | error failure => exact outcome_of_error h

theorem spells_box : Spells (.array 1) [0x91] := .array (.mk (by decide) .here)

/-- An array of one value nests one level deeper than the value. -/
theorem values_of_boxes {n : Nat} (h : Values n 1 (List.replicate n 0x91 ++ bs)) : Values 0 1 bs := by
  induction n with
  | zero => exact h
  | succ n ih =>
      obtain ⟨item, xs, ys, hitem, hinside, heq⟩ := values_nested_iff.mp h
      obtain ⟨rfl, -, rfl⟩ := follows_readItem.unique spells_box hitem heq
      exact ih hinside

theorem awaiting_boxes (n : Nat) : Awaiting n 1 0 (List.replicate n 0x91) := by
  induction n with
  | zero => exact .here
  | succ n ih => exact .inside spells_box ih

theorem not_values_of_large_array (rest : List UInt8) : ¬Values 0 1 (0xdc :: 0x01 :: rest) := by
  intro h
  obtain ⟨item, hitem, hinside⟩ := values_flat_iff.mp h
  obtain ⟨op, hop, htail⟩ := spells_cons_iff.mp hitem
  obtain rfl : Opcode.array (.after 2) = op := Option.some.inj hop
  obtain ⟨n, hsize, rfl⟩ := htail
  obtain rfl : n = 0 := hinside
  cases hsize

/-- At the bound a header that is cut within a size above 255 is the front of no value within the bound, and is refused
for being cut all the same. -/
theorem cut_beyond (limit offset : Nat) :
    skip limit ⟨offset, List.replicate limit 0x91 ++ [0xdc, 0x01]⟩ = .error .truncated ∧
      ¬∃ more, Values limit 1 (List.replicate limit 0x91 ++ [0xdc, 0x01] ++ more) := by
  have hheader : Header Forms.array 256 (0xdc :: BigEndian.bytes 2 256) := .mk (by decide) (.after (by decide))
  have hitem : Spells (.array 256) ([0xdc, 0x01] ++ [0x00]) := .array hheader
  refine ⟨truncated_of_header (awaiting_boxes limit) (List.cons_ne_nil _ _) hitem, ?_⟩
  rintro ⟨more, h⟩
  rw [List.append_assoc] at h
  exact not_values_of_large_array more (values_of_boxes h)

/-- So it is in a message, behind the fields of its row. -/
theorem cut_beyond_nestingLimit :
    (Runtime.decode ([0x91, 0x95, 0xa6, 0x73, 0x74, 0x72, 0x69, 0x6e, 0x67, 0xa0, 0x01, 0x01] ++
        (List.replicate Runtime.nestingLimit 0x91 ++ [0xdc, 0x01])) : Except Failure (List Token)) =
      .error .truncated ∧
    skip Runtime.nestingLimit ⟨12, List.replicate Runtime.nestingLimit 0x91 ++ [0xdc, 0x01]⟩ = .error .truncated ∧
    ¬∃ more, Values Runtime.nestingLimit 1 (List.replicate Runtime.nestingLimit 0x91 ++ [0xdc, 0x01] ++ more) :=
  ⟨by decide +kernel, cut_beyond Runtime.nestingLimit 12⟩

end Skipping
end Lexing.Wire
