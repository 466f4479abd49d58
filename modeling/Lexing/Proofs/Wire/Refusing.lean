import Lexing.Proofs.Wire.Acceptance

/-! Where readers refuse bytes, and with which failures. A failure that tells no offset is caused by what stands in
front, whatever comes after it. -/

namespace Lexing.Wire

theorem bind_eq_error_iff {α β : Type} {x : Except Failure α} {f : α → Except Failure β} {failure : Failure} :
    x >>= f = .error failure ↔ x = .error failure ∨ ∃ a, x = .ok a ∧ f a = .error failure := by
  constructor
  · intro h
    cases x with
    | error failure' =>
        cases h
        exact .inl rfl
    | ok a => exact .inr ⟨a, rfl, h⟩
  · rintro (rfl | ⟨a, rfl, h⟩)
    · rfl
    · exact h

/-- Whatever fails, fails so. -/
def FailsOnly {α β : Type} (p : Failure → Prop) (run : α → Except Failure β) : Prop :=
  ∀ a failure, run a = .error failure → p failure

namespace FailsOnly

variable {α β γ : Type} {p q : Failure → Prop} {run : α → Except Failure β}

theorem ok (f : α → β) : FailsOnly p fun a => (.ok (f a) : Except Failure β) := by
  intro _ _ h
  cases h

theorem error {failure : Failure} (h : p failure) : FailsOnly p fun _ : α => (.error failure : Except Failure β) := by
  intro _ _ herror
  cases herror
  exact h

theorem bind {next : β → Except Failure γ} (h : FailsOnly p run) (hnext : FailsOnly p next) :
    FailsOnly p fun a => run a >>= next := by
  intro a failure herror
  rcases bind_eq_error_iff.mp herror with hrun | ⟨b, -, hb⟩
  · exact h a failure hrun
  · exact hnext b failure hb

theorem imp (h : FailsOnly p run) (himp : ∀ failure, p failure → q failure) : FailsOnly q run :=
  fun a failure herror => himp failure (h a failure herror)

end FailsOnly

section Items

theorem failsOnly_take (n : Nat) : FailsOnly (· = .truncated) (take n) := by
  intro c failure h
  rw [take] at h
  split at h
  · cases h
  · cases h
    rfl

theorem failsOnly_readNat (width : Nat) : FailsOnly (· = .truncated) (readNat width) :=
  (failsOnly_take width).bind (.ok _)

theorem failsOnly_readSize (size : Size) : FailsOnly (· = .truncated) (readSize size) := by
  cases size with
  | here n => exact .ok _
  | after width => exact failsOnly_readNat width

theorem failsOnly_payload (size : Size) (extra : Nat) (f : List UInt8 → Item) :
    FailsOnly (· = .truncated) fun c => readSize size c >>= fun x => take (x.1 + extra) x.2 >>= fun x =>
      .ok (f x.1, x.2) := by
  apply (failsOnly_readSize size).bind
  intro x
  exact ((failsOnly_take (x.1 + extra)).bind (.ok _)) x.2

/-- Behind the first byte of an item only bytes can be wanting. -/
theorem failsOnly_read (op : Opcode) : FailsOnly (· = .truncated) op.read := by
  cases op with
  | int n => exact .ok _
  | unsigned width => exact (failsOnly_readNat width).bind (.ok _)
  | signed width => exact (failsOnly_readNat width).bind (.ok _)
  | nil => exact .ok _
  | bool => exact .ok _
  | float width => exact (failsOnly_take width).bind (.ok _)
  | str size => exact failsOnly_payload size 0 .str
  | bin size => exact failsOnly_payload size 0 fun _ => .bin
  | ext size => exact failsOnly_payload size 1 fun _ => .ext
  | array size => exact (failsOnly_readSize size).bind (.ok _)
  | map size => exact (failsOnly_readSize size).bind (.ok _)

theorem failsOnly_readItem : FailsOnly (·.kind = .decoding) readItem := by
  intro c failure h
  rw [readItem] at h
  split at h
  · cases h
    rfl
  · split at h
    · cases h
      rfl
    · next op _ =>
        obtain rfl := failsOnly_read op _ _ h
        rfl

end Items

/-- A reader refuses with the failure the bytes that begin with some of these, and no others. -/
def Refuses {β : Type} (run : Cursor → Except Failure β) (failure : Failure) (cause : List UInt8 → Prop) : Prop :=
  ∀ offset bs, run ⟨offset, bs⟩ = .error failure ↔ ∃ xs, cause xs ∧ xs <+: bs

namespace Refuses

variable {α β : Type} {run : Cursor → Except Failure β} {failure : Failure} {cause cause' : List UInt8 → Prop}

theorem congr (h : Refuses run failure cause) (hiff : ∀ bs, cause bs ↔ cause' bs) : Refuses run failure cause' := by
  have he : cause = cause' := by
    funext bs
    exact propext (hiff bs)
  rwa [← he]

theorem never {p : Failure → Prop} (h : FailsOnly p run) (hfailure : ¬p failure) :
    Refuses run failure fun _ => False := by
  intro offset bs
  constructor
  · intro herror
    exact absurd (h _ _ herror) hfailure
  · rintro ⟨_, hfalse, -⟩
    exact hfalse.elim

/-- What is taken as it is, is never refused. -/
theorem ok (f : Cursor → β) : Refuses (fun c => (.ok (f c) : Except Failure β)) failure fun _ => False :=
  never (p := fun _ => False) (.ok f) id

/-- What is refused at once is refused for a cause that needs no bytes. -/
theorem judged {p : Prop} {verdict : Except Failure β} (h : verdict = .error failure ↔ p) :
    Refuses (fun _ => verdict) failure fun bs => p ∧ bs = [] := by
  intro offset bs
  rw [h]
  constructor
  · intro hp
    exact ⟨[], ⟨hp, rfl⟩, List.nil_prefix⟩
  · rintro ⟨_, ⟨hp, -⟩, -⟩
    exact hp

/-- A reader refuses where its first part does, or behind what its first part reads. -/
theorem bind {read : Reader α} {next : α × Cursor → Except Failure β} {grammar second : α → List UInt8 → Prop}
    (h : Refuses read failure cause) (hread : Follows read grammar)
    (hnext : ∀ a, Refuses (fun c => next (a, c)) failure (second a)) :
    Refuses (fun c => read c >>= next) failure fun bs =>
      cause bs ∨ ∃ a xs ys, grammar a xs ∧ second a ys ∧ bs = xs ++ ys := by
  intro offset bs
  -- the failure tells no offset, so it does not matter from which one the second part starts
  rw [bind_eq_error_iff, h]
  constructor
  · rintro (⟨xs, hxs, hbs⟩ | ⟨⟨a, c⟩, hok, herror⟩)
    · exact ⟨xs, .inl hxs, hbs⟩
    · obtain ⟨xs, hxs, rfl, -⟩ := hread.ok_iff.mp hok
      obtain ⟨ys, hys, hrest⟩ := (hnext a _ _).mp herror
      exact ⟨xs ++ ys, .inr ⟨a, xs, ys, hxs, hys, rfl⟩, (List.prefix_append_right_inj xs).mpr hrest⟩
  · rintro ⟨xs, hcause | ⟨a, xs, ys, hxs, hys, rfl⟩, rest, rfl⟩
    · exact .inl ⟨xs, hcause, rest, rfl⟩
    · right
      refine ⟨(a, ⟨offset + xs.length, ys ++ rest⟩), ?_, ?_⟩
      · exact hread.ok_iff.mpr ⟨xs, hxs, List.append_assoc .., rfl⟩
      · exact (hnext a _ _).mpr ⟨ys, hys, rest, rfl⟩

/-- A reader whose first part does not refuse with the failure refuses behind what that reads. -/
theorem behind {read : Reader α} {next : α × Cursor → Except Failure β} {grammar second : α → List UInt8 → Prop}
    {p : Failure → Prop} (h : FailsOnly p read) (hfailure : ¬p failure) (hread : Follows read grammar)
    (hnext : ∀ a, Refuses (fun c => next (a, c)) failure (second a)) :
    Refuses (fun c => read c >>= next) failure fun bs =>
      ∃ a xs ys, grammar a xs ∧ second a ys ∧ bs = xs ++ ys :=
  ((never h hfailure).bind hread hnext).congr fun _ => iff_of_eq (false_or _)

/-- An item that is judged at once is refused with the failures of the verdict. -/
theorem item {next : Item × Cursor → Except Failure β} {p : Item → Prop} (hfailure : failure.kind ≠ .decoding)
    (hnext : ∀ item, Refuses (fun c => next (item, c)) failure fun bs => p item ∧ bs = []) :
    Refuses (fun c => readItem c >>= next) failure fun bs => ∃ item, p item ∧ Spells item bs := by
  apply (behind failsOnly_readItem hfailure follows_readItem hnext).congr
  intro bs
  constructor
  · rintro ⟨item, xs, _, hitem, ⟨hp, rfl⟩, rfl⟩
    rw [List.append_nil]
    exact ⟨item, hp, hitem⟩
  · rintro ⟨item, hp, hitem⟩
    exact ⟨item, bs, [], hitem, ⟨hp, rfl⟩, (List.append_nil bs).symm⟩

end Refuses

section Fields

variable {α : Type} [Field α] {path : Path} {failure : Failure}

theorem failsOnly_readField {p : Failure → Prop} (hitem : ∀ failure, failure.kind = .decoding → p failure)
    (haccept : FailsOnly p (Field.accept path : Item → Except Failure α)) :
    FailsOnly p (readField path : Reader α) := by
  apply (failsOnly_readItem.imp hitem).bind
  intro x
  exact (haccept.bind (.ok fun a => (a, x.2))) x.1

/-- Of the failures that are not about the bytes themselves, a field is refused with those for which its item is. -/
theorem refuses_readField (hfailure : failure.kind ≠ .decoding) :
    Refuses (readField path : Reader α) failure fun bs =>
      ∃ item, (Field.accept path item : Except Failure α) = .error failure ∧ Spells item bs := by
  apply Refuses.item hfailure
  intro item
  dsimp only
  generalize (Field.accept path item : Except Failure α) = verdict
  cases verdict with
  | error failure' =>
      apply Refuses.judged
      simp only [Except.error.injEq]
  | ok a =>
      apply (Refuses.ok _).congr
      simp only [reduceCtorEq, false_and, implies_true]

end Fields

end Lexing.Wire
