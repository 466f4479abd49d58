import Lexing.Proofs.Wire.ItemForms
import Lexing.Wire.Skip

/-! Skipping follows the grammar of values: what is skipped is so many whole values that nest no deeper than allowed. -/

namespace Lexing.Wire

/-- A way past bytes, as a reader of nothing. -/
def passing (skip : Cursor → Except Failure Cursor) : Reader Unit := fun c => skip c >>= fun c => .ok ((), c)

/-- What comes after skipping is read as it is after a reader of nothing. -/
theorem passing_next {β : Type} (skip : Cursor → Except Failure Cursor) (next : Cursor → Except Failure β) :
    (fun c => skip c >>= next) = fun c => passing skip c >>= fun x => next x.2 := by
  funext c
  rw [passing]
  cases skip c <;> rfl

namespace Follows

variable {α : Type} {skip : Cursor → Except Failure Cursor} {grammar : Unit → List UInt8 → Prop}

theorem passing_bind {read : Reader α} {next : α × Cursor → Except Failure Cursor}
    {first : α → List UInt8 → Prop} {second : α → List UInt8 → Prop} (h : Follows read first)
    (hnext : ∀ a, Follows (passing fun c => next (a, c)) fun _ => second a) :
    Follows (passing fun c => read c >>= next) fun _ bs => ∃ a xs ys, first a xs ∧ second a ys ∧ bs = xs ++ ys := by
  have hassoc : (passing fun c => read c >>= next) =
      fun c => read c >>= fun x => next x >>= fun c => .ok ((), c) := by
    funext c
    exact bind_assoc ..
  rw [hassoc]
  exact h.bind hnext

theorem then_read {read : Reader α} {second : α → List UInt8 → Prop} (h : Follows (passing skip) grammar)
    (hread : Follows read second) :
    Follows (fun c => skip c >>= read) fun a bs => ∃ xs ys, grammar () xs ∧ second a ys ∧ bs = xs ++ ys := by
  rw [passing_next]
  apply (h.bind fun _ => hread).congr
  intro a bs
  constructor
  · rintro ⟨_, xs, ys, hxs, hys, rfl⟩
    exact ⟨xs, ys, hxs, hys, rfl⟩
  · rintro ⟨xs, ys, hxs, hys, rfl⟩
    exact ⟨(), xs, ys, hxs, hys, rfl⟩

end Follows

theorem Values.append {depth count : Nat} {xs ys : List UInt8} (h : Values depth 1 xs)
    (hys : Values depth count ys) : Values depth (count + 1) (xs ++ ys) := by
  cases h with
  | scalar hscalar hitem hdone =>
      cases hdone
      rw [List.append_nil]
      exact .scalar hscalar hitem hys
  | empty hheader hdone =>
      cases hdone
      rw [List.append_nil]
      exact .empty hheader hys
  | array hheader hinside hdone =>
      cases hdone
      rw [List.append_nil, List.append_assoc]
      exact .array hheader hinside hys
  | map hheader hinside hdone =>
      cases hdone
      rw [List.append_nil, List.append_assoc]
      exact .map hheader hinside hys

/-- Values one after another are a value and then the others. -/
theorem values_succ_iff {depth count : Nat} {bs : List UInt8} :
    Values depth (count + 1) bs ↔ ∃ xs ys, Values depth 1 xs ∧ Values depth count ys ∧ bs = xs ++ ys := by
  constructor
  · intro h
    cases h with
    | @scalar _ _ _ xs ys hscalar hitem hys =>
        have hx := Values.scalar hscalar hitem (@Values.done depth)
        rw [List.append_nil] at hx
        exact ⟨xs, ys, hx, hys, rfl⟩
    | @empty _ _ xs ys hheader hys =>
        have hx := Values.empty hheader (@Values.done depth)
        rw [List.append_nil] at hx
        exact ⟨xs, ys, hx, hys, rfl⟩
    | @array _ _ _ xs ys zs hheader hinside hzs =>
        have hx := Values.array hheader hinside .done
        rw [List.append_nil] at hx
        exact ⟨xs ++ ys, zs, hx, hzs, (List.append_assoc ..).symm⟩
    | @map _ _ _ xs ys zs hheader hinside hzs =>
        have hx := Values.map hheader hinside .done
        rw [List.append_nil] at hx
        exact ⟨xs ++ ys, zs, hx, hzs, (List.append_assoc ..).symm⟩
  · rintro ⟨xs, ys, hxs, hys, rfl⟩
    exact hxs.append hys

theorem values_zero_iff {depth : Nat} {bs : List UInt8} : Values depth 0 bs ↔ bs = [] := by
  constructor
  · intro h
    cases h
    rfl
  · rintro rfl
    exact .done

theorem values_nil (depth n : Nat) : Values depth n (List.replicate n 0xc0) := by
  induction n with
  | zero => exact .done
  | succ n ih =>
      have hscalar : Item.nil.IsScalar := trivial
      exact .scalar hscalar .nil ih

theorem Item.scalar_or_container (item : Item) : item.IsScalar ∨ ∃ n, item = .array n ∨ item = .map n := by
  cases item with
  | array n => exact .inr ⟨n, .inl rfl⟩
  | map n => exact .inr ⟨n, .inr rfl⟩
  | _ => exact .inl trivial

theorem Item.inside_of_isScalar {item : Item} (h : item.IsScalar) : item.inside = 0 := by
  cases item with
  | array n => exact h.elim
  | map n => exact h.elim
  | _ => rfl

/-- An item that holds none is a value by itself at any depth. -/
theorem values_of_inside_eq_zero {depth : Nat} {item : Item} {xs : List UInt8} (h : Spells item xs)
    (hinside : item.inside = 0) : Values depth 1 xs := by
  rw [← List.append_nil xs]
  rcases item.scalar_or_container with hscalar | ⟨n, rfl | rfl⟩
  · exact .scalar hscalar h .done
  · obtain rfl : n = 0 := hinside
    cases h with
    | array hheader => exact .empty (.inl hheader) .done
  · obtain rfl : n = 0 := (Nat.mul_eq_zero.mp hinside).resolve_left (by decide)
    cases h with
    | map hheader => exact .empty (.inr hheader) .done

/-- Without depth, a value is an item that holds none. -/
theorem values_flat_iff {bs : List UInt8} : Values 0 1 bs ↔ ∃ item, Spells item bs ∧ item.inside = 0 := by
  constructor
  · intro h
    cases h with
    | scalar hscalar hitem hdone =>
        cases hdone
        rw [List.append_nil]
        exact ⟨_, hitem, Item.inside_of_isScalar hscalar⟩
    | empty hheader hdone =>
        cases hdone
        rw [List.append_nil]
        rcases hheader with hheader | hheader
        · exact ⟨_, .array hheader, rfl⟩
        · exact ⟨_, .map hheader, rfl⟩
  · rintro ⟨item, hitem, hinside⟩
    exact values_of_inside_eq_zero hitem hinside

/-- With depth left, a value is an item and the values in it, one level less deep. -/
theorem values_nested_iff {depth : Nat} {bs : List UInt8} : Values (depth + 1) 1 bs ↔
    ∃ item xs ys, Spells item xs ∧ Values depth item.inside ys ∧ bs = xs ++ ys := by
  constructor
  · intro h
    cases h with
    | @scalar _ _ item xs _ hscalar hitem hdone =>
        cases hdone
        refine ⟨item, xs, [], hitem, ?_, rfl⟩
        rw [Item.inside_of_isScalar hscalar]
        exact .done
    | @empty _ _ xs _ hheader hdone =>
        cases hdone
        rcases hheader with hheader | hheader
        · exact ⟨.array 0, xs, [], .array hheader, .done, rfl⟩
        · exact ⟨.map 0, xs, [], .map hheader, .done, rfl⟩
    | @array _ _ n xs ys _ hheader hinside hdone =>
        cases hdone
        rw [List.append_nil]
        exact ⟨.array n, xs, ys, .array hheader, hinside, rfl⟩
    | @map _ _ n xs ys _ hheader hinside hdone =>
        cases hdone
        rw [List.append_nil]
        exact ⟨.map n, xs, ys, .map hheader, hinside, rfl⟩
  · rintro ⟨item, xs, ys, hitem, hinside, rfl⟩
    rcases item.scalar_or_container with hscalar | ⟨n, rfl | rfl⟩
    · have hzero := Item.inside_of_isScalar hscalar
      rw [hzero, values_zero_iff] at hinside
      rw [hinside, List.append_nil]
      exact values_of_inside_eq_zero hitem hzero
    · cases hitem with
      | array hheader =>
          rw [← List.append_nil ys]
          exact .array hheader hinside .done
    · cases hitem with
      | map hheader =>
          rw [← List.append_nil ys]
          exact .map hheader hinside .done

theorem follows_skipMany {skip : Cursor → Except Failure Cursor} {depth : Nat}
    (h : Follows (passing skip) fun _ => Values depth 1) (count : Nat) :
    Follows (passing (skipMany skip count)) fun _ => Values depth count := by
  induction count with
  | zero =>
      apply (Follows.pure ()).congr
      intro _ bs
      rw [values_zero_iff]
      exact and_iff_right rfl
  | succ count ih =>
      have hassoc : passing (skipMany skip (count + 1)) =
          fun c => skip c >>= passing (skipMany skip count) := by
        funext c
        exact bind_assoc ..
      rw [hassoc]
      apply (h.then_read ih).congr
      intro _ bs
      exact values_succ_iff.symm

/-- What is skipped is one value that nests no deeper than the bound. -/
theorem follows_skip (depth : Nat) : Follows (passing (skip depth)) fun _ => Values depth 1 := by
  induction depth with
  | zero =>
      have hnext (item : Item) :
          Follows (passing fun c => if item.inside = 0 then .ok c else .error .tooDeep)
            fun _ bs => item.inside = 0 ∧ bs = [] := by
        by_cases hinside : item.inside = 0
        · simp only [if_pos hinside]
          exact (Follows.pure ()).congr fun _ bs => and_congr_left fun _ => iff_of_true rfl hinside
        · simp only [if_neg hinside]
          exact Follows.refuse .tooDeep fun _ _ h => hinside h.1
      apply (follows_readItem.passing_bind hnext).congr
      intro _ bs
      rw [values_flat_iff]
      constructor
      · rintro ⟨item, xs, _, hitem, ⟨hinside, rfl⟩, rfl⟩
        rw [List.append_nil]
        exact ⟨item, hitem, hinside⟩
      · rintro ⟨item, hitem, hinside⟩
        exact ⟨item, bs, [], hitem, ⟨hinside, rfl⟩, (List.append_nil bs).symm⟩
  | succ depth ih =>
      apply (follows_readItem.passing_bind fun item => follows_skipMany ih item.inside).congr
      intro _ bs
      exact values_nested_iff.symm

end Lexing.Wire
