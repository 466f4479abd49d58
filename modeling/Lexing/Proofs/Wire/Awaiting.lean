import Lexing.Proofs.Wire.Completion
import Lexing.Proofs.Wire.Refusing

/-! Where the next item is awaited. Skipping reads item after item, and but for the depth it fails only where the next
one cannot be read; what stands before that place is the front of some values. -/

namespace Lexing.Wire

/-- Bytes behind which an item begins. Of so many values some are whole and one may be opened, and so on inside it;
at `left` is the depth that is left for the item. -/
inductive Awaiting : (depth count left : Nat) → List UInt8 → Prop
  | here {depth count} : Awaiting depth (count + 1) depth []
  | inside {depth count left item xs ys} : Spells item xs → Awaiting depth item.inside left ys →
      Awaiting (depth + 1) (count + 1) left (xs ++ ys)
  | later {depth count left xs ys} : Values depth 1 xs → Awaiting depth count left ys →
      Awaiting depth (count + 1) left (xs ++ ys)

/-- The item that is awaited somewhere cannot be read there. -/
def Snag (failure : Failure) (depth count : Nat) (c : Cursor) : Prop :=
  ∃ left xs rest, Awaiting depth count left xs ∧ c.rest = xs ++ rest ∧
    readItem ⟨c.offset + xs.length, rest⟩ = .error failure

section Awaiting

variable {depth count left : Nat} {item : Item} {xs ys : List UInt8}

theorem not_awaiting_zero : ¬Awaiting depth 0 left xs := by
  intro h
  cases h

/-- An item is awaited in the first value or behind it. -/
theorem awaiting_succ_iff : Awaiting depth (count + 1) left xs ↔ Awaiting depth 1 left xs ∨
    ∃ ys zs, Values depth 1 ys ∧ Awaiting depth count left zs ∧ xs = ys ++ zs := by
  constructor
  · intro h
    cases h with
    | here => exact .inl .here
    | inside hitem hinside => exact .inl (.inside hitem hinside)
    | later hvalue hlater => exact .inr ⟨_, _, hvalue, hlater, rfl⟩
  · rintro (h | ⟨ys, zs, hvalue, hlater, rfl⟩)
    · cases h with
      | here => exact .here
      | inside hitem hinside => exact .inside hitem hinside
      | later _ hlater => exact absurd hlater not_awaiting_zero
    · exact .later hvalue hlater

theorem awaiting_flat_iff : Awaiting 0 1 left xs ↔ left = 0 ∧ xs = [] := by
  constructor
  · intro h
    cases h with
    | here => exact ⟨rfl, rfl⟩
    | later _ hlater => exact absurd hlater not_awaiting_zero
  · rintro ⟨rfl, rfl⟩
    exact .here

theorem awaiting_nested_iff : Awaiting (depth + 1) 1 left xs ↔ left = depth + 1 ∧ xs = [] ∨
    ∃ item ys zs, Spells item ys ∧ Awaiting depth item.inside left zs ∧ xs = ys ++ zs := by
  constructor
  · intro h
    cases h with
    | here => exact .inl ⟨rfl, rfl⟩
    | inside hitem hinside => exact .inr ⟨_, _, _, hitem, hinside, rfl⟩
    | later _ hlater => exact absurd hlater not_awaiting_zero
  · rintro (⟨rfl, rfl⟩ | ⟨item, ys, zs, hitem, hinside, rfl⟩)
    · exact .here
    · exact .inside hitem hinside

/-- Where depth is left or the item holds nothing, values go on behind it. -/
theorem Awaiting.exists_values (h : Awaiting depth count left xs) (hitem : Spells item ys)
    (hleft : left ≠ 0 ∨ item.inside = 0) : ∃ zs, Values depth count (xs ++ (ys ++ zs)) := by
  induction h with
  | @here depth count =>
      have hvalue : ∃ zs, Values depth 1 (ys ++ zs) := by
        cases depth with
        | zero =>
            refine ⟨[], ?_⟩
            rw [List.append_nil]
            exact values_of_inside_eq_zero hitem (hleft.resolve_left fun h => h rfl)
        | succ depth => exact ⟨_, values_nested_iff.mpr ⟨item, ys, _, hitem, values_nil depth item.inside, rfl⟩⟩
      obtain ⟨zs, hzs⟩ := hvalue
      refine ⟨zs ++ List.replicate count 0xc0, ?_⟩
      rw [List.nil_append, ← List.append_assoc]
      exact hzs.append (values_nil depth count)
  | @inside depth count _ outer us vs houter _ ih =>
      obtain ⟨zs, hzs⟩ := ih hleft
      have hvalue : Values (depth + 1) 1 (us ++ (vs ++ (ys ++ zs))) :=
        values_nested_iff.mpr ⟨outer, us, _, houter, hzs, rfl⟩
      refine ⟨zs ++ List.replicate count 0xc0, ?_⟩
      have happend := hvalue.append (values_nil (depth + 1) count)
      simpa only [List.append_assoc] using happend
  | later hvalue _ ih =>
      obtain ⟨zs, hzs⟩ := ih hleft
      refine ⟨zs, ?_⟩
      rw [List.append_assoc]
      exact hvalue.append hzs

end Awaiting

section Skipping

variable {failure : Failure} {depth : Nat}

theorem skip_eq_ok_iff {offset : Nat} {bs : List UInt8} {c : Cursor} : skip depth ⟨offset, bs⟩ = .ok c ↔
    ∃ xs, Values depth 1 xs ∧ bs = xs ++ c.rest ∧ c.offset = offset + xs.length := by
  have hpassing : passing (skip depth) ⟨offset, bs⟩ = .ok ((), c) ↔ skip depth ⟨offset, bs⟩ = .ok c := by
    rw [passing, bind_eq_ok_iff]
    simp
  rw [← hpassing, (follows_skip depth).ok_iff]

/-- An item that cannot be read behind some bytes cannot be read in the whole either. -/
theorem Snag.behind {depth' count count' : Nat} {c c' : Cursor} {ys : List UInt8} (h : Snag failure depth count c')
    (hrest : c.rest = ys ++ c'.rest) (hoffset : c'.offset = c.offset + ys.length)
    (hawaiting : ∀ left zs, Awaiting depth count left zs → Awaiting depth' count' left (ys ++ zs)) :
    Snag failure depth' count' c := by
  obtain ⟨left, zs, rest, hzs, hrest', hread⟩ := h
  refine ⟨left, ys ++ zs, rest, hawaiting left zs hzs, ?_, ?_⟩
  · rw [hrest, hrest', List.append_assoc]
  · rwa [List.length_append, ← Nat.add_assoc, ← hoffset]

theorem snag_succ_iff {count : Nat} {c : Cursor} : Snag failure depth (count + 1) c ↔
    Snag failure depth 1 c ∨ ∃ c', skip depth c = .ok c' ∧ Snag failure depth count c' := by
  constructor
  · rintro ⟨left, xs, rest, hawaiting, hrest, hread⟩
    rcases awaiting_succ_iff.mp hawaiting with hfirst | ⟨ys, zs, hvalue, hlater, rfl⟩
    · exact .inl ⟨left, xs, rest, hfirst, hrest, hread⟩
    · rw [List.append_assoc] at hrest
      rw [List.length_append, ← Nat.add_assoc] at hread
      exact .inr ⟨⟨c.offset + ys.length, zs ++ rest⟩, skip_eq_ok_iff.mpr ⟨ys, hvalue, hrest, rfl⟩,
        left, zs, rest, hlater, rfl, hread⟩
  · rintro (⟨left, xs, rest, hfirst, hrest, hread⟩ | ⟨c', hskip, hsnag⟩)
    · exact ⟨left, xs, rest, awaiting_succ_iff.mpr (.inl hfirst), hrest, hread⟩
    · obtain ⟨ys, hvalue, hrest, hoffset⟩ := skip_eq_ok_iff.mp hskip
      exact hsnag.behind hrest hoffset fun _ _ hlater => .later hvalue hlater

theorem snag_flat_iff {c : Cursor} : Snag failure 0 1 c ↔ readItem c = .error failure := by
  constructor
  · rintro ⟨left, xs, rest, hawaiting, hrest, hread⟩
    obtain ⟨-, rfl⟩ := awaiting_flat_iff.mp hawaiting
    obtain ⟨offset, bs⟩ := c
    obtain rfl : bs = rest := hrest
    exact hread
  · intro hread
    exact ⟨0, [], c.rest, .here, rfl, hread⟩

theorem snag_nested_iff {c : Cursor} : Snag failure (depth + 1) 1 c ↔ readItem c = .error failure ∨
    ∃ x, readItem c = .ok x ∧ Snag failure depth x.1.inside x.2 := by
  constructor
  · rintro ⟨left, xs, rest, hawaiting, hrest, hread⟩
    rcases awaiting_nested_iff.mp hawaiting with ⟨-, rfl⟩ | ⟨item, ys, zs, hitem, hinside, rfl⟩
    · obtain ⟨offset, bs⟩ := c
      obtain rfl : bs = rest := hrest
      exact .inl hread
    · rw [List.append_assoc] at hrest
      rw [List.length_append, ← Nat.add_assoc] at hread
      exact .inr ⟨(item, ⟨c.offset + ys.length, zs ++ rest⟩), follows_readItem.ok_iff.mpr ⟨ys, hitem, hrest, rfl⟩,
        left, zs, rest, hinside, rfl, hread⟩
  · rintro (hread | ⟨⟨item, c'⟩, hitem, hsnag⟩)
    · exact ⟨depth + 1, [], c.rest, .here, rfl, hread⟩
    · obtain ⟨ys, hspells, hrest, hoffset⟩ := follows_readItem.ok_iff.mp hitem
      exact hsnag.behind hrest hoffset fun _ _ hinside => .inside hspells hinside

theorem skipMany_eq_error_iff (h : ∀ c, skip depth c = .error failure ↔ Snag failure depth 1 c) (count : Nat)
    (c : Cursor) : skipMany (skip depth) count c = .error failure ↔ Snag failure depth count c := by
  induction count generalizing c with
  | zero =>
      apply iff_of_false
      · intro herror
        cases herror
      · rintro ⟨_, _, _, hawaiting, -⟩
        exact not_awaiting_zero hawaiting
  | succ count ih =>
      rw [skipMany, bind_eq_error_iff, snag_succ_iff, h]
      simp only [ih]

/-- But for the depth, skipping fails where the item that is awaited cannot be read. -/
theorem skip_eq_error_iff (hfailure : failure ≠ .tooDeep) (c : Cursor) :
    skip depth c = .error failure ↔ Snag failure depth 1 c := by
  induction depth generalizing c with
  | zero =>
      rw [snag_flat_iff, skip, bind_eq_error_iff]
      apply or_iff_left
      rintro ⟨x, -, herror⟩
      dsimp only at herror
      split at herror
      · cases herror
      · cases herror
        exact hfailure rfl
  | succ depth ih =>
      rw [snag_nested_iff, skip, bind_eq_error_iff]
      simp only [skipMany_eq_error_iff ih]

end Skipping

end Lexing.Wire
