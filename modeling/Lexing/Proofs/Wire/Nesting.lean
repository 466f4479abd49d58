import Lexing.Proofs.Wire.Refusing

/-! Nesting beyond the bound. Skipping gives up where an array or a map that holds something begins one level too
deep, and where nothing before it is wrong. -/

namespace Lexing.Wire

/-- Values up to the first item that holds others deeper than `depth`. Of so many values, those before it are whole. -/
inductive Overdeep : (depth count : Nat) → List UInt8 → Prop
  | here {count item xs} : Spells item xs → item.inside ≠ 0 → Overdeep 0 (count + 1) xs
  | inside {depth count item xs ys} : Spells item xs → Overdeep depth item.inside ys →
      Overdeep (depth + 1) (count + 1) (xs ++ ys)
  | later {depth count xs ys} : Values depth 1 xs → Overdeep depth count ys → Overdeep depth (count + 1) (xs ++ ys)

theorem not_overdeep_zero {depth : Nat} {bs : List UInt8} : ¬Overdeep depth 0 bs := by
  intro h
  cases h

theorem overdeep_succ_iff {depth count : Nat} {bs : List UInt8} : Overdeep depth (count + 1) bs ↔
    Overdeep depth 1 bs ∨ ∃ xs ys, Values depth 1 xs ∧ Overdeep depth count ys ∧ bs = xs ++ ys := by
  constructor
  · intro h
    cases h with
    | here hitem hinside => exact .inl (.here hitem hinside)
    | inside hitem hinside => exact .inl (.inside hitem hinside)
    | later hvalue hlater => exact .inr ⟨_, _, hvalue, hlater, rfl⟩
  · rintro (h | ⟨xs, ys, hvalue, hlater, rfl⟩)
    · cases h with
      | here hitem hinside => exact .here hitem hinside
      | inside hitem hinside => exact .inside hitem hinside
      | later _ hlater => exact absurd hlater not_overdeep_zero
    · exact .later hvalue hlater

theorem overdeep_flat_iff {bs : List UInt8} : Overdeep 0 1 bs ↔ ∃ item, Spells item bs ∧ item.inside ≠ 0 := by
  constructor
  · intro h
    cases h with
    | here hitem hinside => exact ⟨_, hitem, hinside⟩
    | later _ hlater => exact absurd hlater not_overdeep_zero
  · rintro ⟨item, hitem, hinside⟩
    exact .here hitem hinside

theorem overdeep_nested_iff {depth : Nat} {bs : List UInt8} : Overdeep (depth + 1) 1 bs ↔
    ∃ item xs ys, Spells item xs ∧ Overdeep depth item.inside ys ∧ bs = xs ++ ys := by
  constructor
  · intro h
    cases h with
    | inside hitem hinside => exact ⟨_, _, _, hitem, hinside, rfl⟩
    | later _ hlater => exact absurd hlater not_overdeep_zero
  · rintro ⟨item, xs, ys, hitem, hinside, rfl⟩
    exact .inside hitem hinside

namespace Refuses

variable {β : Type} {skip : Cursor → Except Failure Cursor} {run : Cursor → Except Failure β} {failure : Failure}
  {cause second : List UInt8 → Prop}

theorem passing (h : Refuses skip failure cause) : Refuses (passing skip) failure cause := by
  intro offset bs
  rw [← h offset bs, Wire.passing, bind_eq_error_iff]
  constructor
  · rintro (herror | ⟨_, _, hok⟩)
    · exact herror
    · cases hok
  · exact .inl

theorem skip_bind {grammar : List UInt8 → Prop} (h : Refuses skip failure cause)
    (hskip : Follows (Wire.passing skip) fun _ => grammar) (hrun : Refuses run failure second) :
    Refuses (fun c => skip c >>= run) failure fun bs =>
      cause bs ∨ ∃ xs ys, grammar xs ∧ second ys ∧ bs = xs ++ ys := by
  rw [passing_next]
  apply (h.passing.bind hskip fun _ => hrun).congr
  intro bs
  simp only [exists_const]

end Refuses

section Skipping

variable {failure : Failure}

theorem refuses_skipMany {skip : Cursor → Except Failure Cursor} {depth : Nat}
    (h : Refuses skip failure fun bs => failure = .tooDeep ∧ Overdeep depth 1 bs)
    (hskip : Follows (passing skip) fun _ => Values depth 1) (count : Nat) :
    Refuses (skipMany skip count) failure fun bs => failure = .tooDeep ∧ Overdeep depth count bs := by
  induction count with
  | zero =>
      apply (Refuses.ok _).congr
      intro bs
      simp only [not_overdeep_zero, and_false]
  | succ count ih =>
      apply (h.skip_bind hskip ih).congr
      intro bs
      rw [@overdeep_succ_iff depth count, and_or_left]
      apply or_congr_right
      constructor
      · rintro ⟨xs, ys, hvalue, ⟨hfailure, hlater⟩, hbs⟩
        exact ⟨hfailure, xs, ys, hvalue, hlater, hbs⟩
      · rintro ⟨hfailure, xs, ys, hvalue, hlater, hbs⟩
        exact ⟨xs, ys, hvalue, ⟨hfailure, hlater⟩, hbs⟩

/-- But for what is wrong with the bytes themselves, skipping fails only over the depth. -/
theorem refuses_skip (hfailure : failure.kind ≠ .decoding) (depth : Nat) :
    Refuses (skip depth) failure fun bs => failure = .tooDeep ∧ Overdeep depth 1 bs := by
  induction depth with
  | zero =>
      have hverdict (item : Item) (c : Cursor) :
          (if item.inside = 0 then .ok c else .error .tooDeep : Except Failure Cursor) = .error failure ↔
            failure = .tooDeep ∧ item.inside ≠ 0 := by
        split
        · next hinside => simp only [reduceCtorEq, hinside, ne_eq, not_true_eq_false, and_false]
        · next hinside => rw [Except.error.injEq, eq_comm, and_iff_left hinside]
      have hnext (item : Item) : Refuses (fun c => if item.inside = 0 then .ok c else .error .tooDeep) failure
          fun bs => (failure = .tooDeep ∧ item.inside ≠ 0) ∧ bs = [] := fun offset bs =>
        Refuses.judged (hverdict item ⟨offset, bs⟩) offset bs
      apply (Refuses.behind failsOnly_readItem hfailure follows_readItem hnext).congr
      intro bs
      rw [overdeep_flat_iff]
      constructor
      · rintro ⟨item, xs, _, hitem, ⟨⟨hdeep, hinside⟩, rfl⟩, rfl⟩
        rw [List.append_nil]
        exact ⟨hdeep, item, hitem, hinside⟩
      · rintro ⟨hdeep, item, hitem, hinside⟩
        exact ⟨item, bs, [], hitem, ⟨⟨hdeep, hinside⟩, rfl⟩, (List.append_nil bs).symm⟩
  | succ depth ih =>
      have hnext (item : Item) := refuses_skipMany ih (follows_skip depth) item.inside
      apply (Refuses.behind failsOnly_readItem hfailure follows_readItem hnext).congr
      intro bs
      rw [overdeep_nested_iff]
      constructor
      · rintro ⟨item, xs, ys, hitem, ⟨hdeep, hinside⟩, rfl⟩
        exact ⟨hdeep, item, xs, ys, hitem, hinside, rfl⟩
      · rintro ⟨hdeep, item, xs, ys, hitem, hinside, rfl⟩
        exact ⟨item, xs, ys, hitem, ⟨hdeep, hinside⟩, rfl⟩

end Skipping

end Lexing.Wire
