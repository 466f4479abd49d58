import Lexing.Proofs.Text.Utf8Soundness
import Mathlib.Order.Bounds.Basic

/-! Where bytes stop being UTF-8. The fault that is reported can be told from the bytes without reading them: by what is
well formed in front of it, by how much behind that could still become a character, and by whether the whole could still
become a text. -/

namespace Lexing.Text.Utf8

def WellFormed (bs : List UInt8) : Prop := ∃ s, bs = encode s

/-- Whether there are well-formed bytes that begin with these and go on. -/
def Begins (bs : List UInt8) : Prop := ∃ more, more ≠ [] ∧ WellFormed (bs ++ more)

def prefixLengths (p : List UInt8 → Prop) (bs : List UInt8) : Set Nat := {n | ∃ xs, xs <+: bs ∧ p xs ∧ xs.length = n}

/-- The first fault in bytes that are not well formed. A byte that begins nothing is a fault by itself; any other is one
with as many bytes behind it as could follow it. -/
structure FirstFault (bs : List UInt8) (fault : Fault) : Prop where
  offset : IsGreatest (prefixLengths WellFormed bs) fault.offset
  lead : bs[fault.offset]? = some fault.lead
  alone : ¬Begins [fault.lead] → fault.length = 1 ∧ fault.reason = .invalidStart
  range : Begins [fault.lead] → IsGreatest (prefixLengths Begins (bs.drop fault.offset)) fault.length
  reason : Begins [fault.lead] →
    (fault.reason = .unexpectedEnd ↔ Begins bs) ∧ (fault.reason = .invalidContinuation ↔ ¬Begins bs)

theorem isGreatest_prefixLengths {p : List UInt8 → Prop} {xs rest : List UInt8} (hxs : p xs)
    (hlonger : ∀ zs, zs ≠ [] → zs <+: rest → ¬p (xs ++ zs)) :
    IsGreatest (prefixLengths p (xs ++ rest)) xs.length := by
  constructor
  · exact ⟨xs, List.prefix_append xs rest, hxs, rfl⟩
  · rintro n ⟨ys, hys, hp, rfl⟩
    by_contra hlt
    have hle : xs.length ≤ ys.length := Nat.le_of_not_le hlt
    obtain ⟨zs, rfl⟩ := List.prefix_of_prefix_length_le (List.prefix_append xs rest) hys hle
    apply hlonger zs _ ((List.prefix_append_right_inj xs).mp hys) hp
    rintro rfl
    rw [List.append_nil] at hlt
    exact hlt (Nat.le_refl _)

section WellFormed

variable {b : UInt8} {bs tail more : List UInt8} {c : Char}

theorem wellFormed_nil : WellFormed [] := ⟨"", rfl⟩

theorem readChar_append {rest : List UInt8} (h : readChar b bs = .ok (c, rest)) (more : List UInt8) :
    readChar b (bs ++ more) = .ok (c, rest ++ more) := by
  obtain ⟨b', tail, hc, hread⟩ := readChar_encode c
  have hbytes := encodeChar_of_readChar h
  rw [hc, List.cons_append] at hbytes
  obtain ⟨rfl, rfl⟩ := List.cons.inj hbytes
  rw [List.append_assoc]
  exact hread (rest ++ more)

theorem wellFormed_cons_iff :
    WellFormed (b :: bs) ↔ ∃ c rest, readChar b bs = .ok (c, rest) ∧ WellFormed rest := by
  constructor
  · rintro ⟨s, hs⟩
    rw [encode] at hs
    cases hcs : s.toList with
    | nil =>
        rw [hcs] at hs
        cases hs
    | cons c cs =>
        obtain ⟨b', tail, hc, hread⟩ := readChar_encode c
        rw [hcs, List.flatMap_cons, hc] at hs
        obtain ⟨rfl, rfl⟩ := List.cons.inj hs
        refine ⟨c, _, hread _, String.ofList cs, ?_⟩
        rw [encode, String.toList_ofList]
  · rintro ⟨c, _, hread, s, rfl⟩
    refine ⟨String.ofList (c :: s.toList), ?_⟩
    rw [encodeChar_of_readChar hread, encode, encode, String.toList_ofList, List.flatMap_cons]

/-- What stands behind whole characters is well formed or not by itself. -/
theorem wellFormed_append_iff (cs : List Char) :
    WellFormed (cs.flatMap String.utf8EncodeChar ++ bs) ↔ WellFormed bs := by
  induction cs with
  | nil => rfl
  | cons c cs ih =>
      obtain ⟨b, tail, hc, hread⟩ := readChar_encode c
      rw [List.flatMap_cons, hc, List.append_assoc, List.cons_append, wellFormed_cons_iff, ← ih]
      constructor
      · rintro ⟨c', rest, hc', hrest⟩
        rw [hread] at hc'
        cases hc'
        exact hrest
      · intro hrest
        exact ⟨c, _, hread _, hrest⟩

theorem begins_append_iff (cs : List Char) : Begins (cs.flatMap String.utf8EncodeChar ++ bs) ↔ Begins bs := by
  simp only [Begins, List.append_assoc, wellFormed_append_iff]

theorem Begins.of_append (h : Begins (bs ++ tail)) : Begins bs := by
  obtain ⟨more, hmore, hwell⟩ := h
  rw [List.append_assoc] at hwell
  exact ⟨tail ++ more, List.append_ne_nil_of_right_ne_nil tail hmore, hwell⟩

/-- Bytes that begin with no character begin with nothing that is well formed. -/
theorem not_wellFormed_of_front {e : Nat × Reason} {xs : List UInt8} (h : readChar b tail = .error e) (hxs : xs ≠ [])
    (hfront : xs <+: b :: tail) : ¬WellFormed xs := by
  obtain ⟨b', bs, rfl⟩ := List.exists_cons_of_ne_nil hxs
  obtain ⟨rfl, more, rfl⟩ := List.cons_prefix_cons.mp hfront
  intro hwell
  obtain ⟨c, rest, hread, -⟩ := wellFormed_cons_iff.mp hwell
  rw [readChar_append hread more] at h
  cases h

theorem begins_of_readChar (hmore : more ≠ []) (h : readChar b (bs ++ more) = .ok (c, [])) : Begins (b :: bs) :=
  ⟨more, hmore, wellFormed_cons_iff.mpr ⟨c, [], h, wellFormed_nil⟩⟩

theorem not_begins_of_readChar (h : ∀ more, ∃ e, readChar b (bs ++ more) = .error e) : ¬Begins (b :: bs) := by
  rintro ⟨more, -, hwell⟩
  rw [List.cons_append] at hwell
  obtain ⟨c, rest, hread, -⟩ := wellFormed_cons_iff.mp hwell
  obtain ⟨e, he⟩ := h more
  rw [he] at hread
  cases hread

end WellFormed

section Tails

variable {value owed seen k : Nat} {low high : UInt8} {bs : List UInt8} {reason : Reason}

theorem readTails_plain (value owed seen : Nat) :
    ∃ n, readTails value 0x80 0xbf owed seen (List.replicate owed 0x80) = .ok (n, []) := by
  induction owed generalizing value seen with
  | zero => exact ⟨value, rfl⟩
  | succ owed ih =>
      rw [List.replicate_succ, readTails, if_pos (by decide)]
      exact ih _ _

/-- As long as a tail has a range, what is owed can be paid. -/
theorem readTails_least (value owed seen : Nat) (hrange : low ≤ high) :
    ∃ n, readTails value low high (owed + 1) seen (low :: List.replicate owed 0x80) = .ok (n, []) := by
  rw [readTails, if_pos ⟨UInt8.le_refl low, hrange⟩]
  exact readTails_plain _ _ _

/-- Where tails fail, those before could be completed, and those up to the one that is out of its range could not. -/
theorem readTails_eq_error (hrange : low ≤ high) (h : readTails value low high owed seen bs = .error (k, reason)) :
    ∃ sound rest, bs = sound ++ rest ∧ k = seen + sound.length ∧
      (∃ more n, more ≠ [] ∧ readTails value low high owed seen (sound ++ more) = .ok (n, [])) ∧
      (rest = [] ∧ reason = .unexpectedEnd ∨ ∃ d ds, rest = d :: ds ∧ reason = .invalidContinuation ∧
        ∀ more, ∃ e, readTails value low high owed seen (sound ++ d :: more) = .error e) := by
  induction owed generalizing value low high seen bs with
  | zero => cases h
  | succ owed ih =>
      obtain ⟨n, hleast⟩ := readTails_least value owed seen hrange
      cases bs with
      | nil =>
          cases h
          exact ⟨[], [], rfl, rfl, ⟨_, n, List.cons_ne_nil _ _, hleast⟩, .inl ⟨rfl, rfl⟩⟩
      | cons b bs =>
          by_cases hb : low ≤ b ∧ b ≤ high
          · rw [readTails, if_pos hb] at h
            obtain ⟨sound, rest, rfl, rfl, ⟨more, n, hmore, hread⟩, hrest⟩ := ih (by decide) h
            refine ⟨b :: sound, rest, rfl, ?_, ⟨more, n, hmore, ?_⟩, ?_⟩
            · rw [List.length_cons, Nat.add_right_comm, Nat.add_assoc]
            · rw [List.cons_append, readTails, if_pos hb]
              exact hread
            · apply hrest.imp_right
              rintro ⟨d, ds, hds, hreason, hnone⟩
              refine ⟨d, ds, hds, hreason, ?_⟩
              intro more
              rw [List.cons_append, readTails, if_pos hb]
              exact hnone more
          · rw [readTails, if_neg hb] at h
            cases h
            refine ⟨[], b :: bs, rfl, rfl, ⟨_, n, List.cons_ne_nil _ _, hleast⟩, .inr ⟨b, bs, rfl, rfl, ?_⟩⟩
            intro more
            rw [List.nil_append, readTails, if_neg hb]
            exact ⟨_, rfl⟩

end Tails

/-- Bytes that begin with no character: how many of them belong together, and what is wrong with them. -/
inductive Broken (b : UInt8) : List UInt8 → Nat → Reason → Prop
  | start {tail} : ¬Begins [b] → Broken b tail 1 .invalidStart
  | stop {tail} : Begins (b :: tail) → Broken b tail (b :: tail).length .unexpectedEnd
  | continuation {sound d rest} : Begins (b :: sound) → ¬Begins (b :: sound ++ [d]) →
      Broken b (sound ++ d :: rest) (b :: sound).length .invalidContinuation

theorem low_le_high {b : UInt8} {lead : Lead} (h : Lead.ofByte? b = some lead) : lead.low ≤ lead.high := by
  have hplain : (0x80 : UInt8) ≤ 0xbf := by decide
  rcases lead_cases h with ⟨-, rfl⟩ | ⟨-, rfl⟩ | ⟨-, rfl⟩ | ⟨-, rfl⟩
  · exact hplain
  · exact hplain
  · by_cases hlow : b = 0xe0
    · subst hlow
      decide
    · simp only [if_neg hlow]
      split <;> decide
  · by_cases hlow : b = 0xf0
    · subst hlow
      decide
    · simp only [if_neg hlow]
      split <;> decide

section Characters

variable {b : UInt8} {bs tail : List UInt8} {lead : Lead} {n : Nat} {reason : Reason}

theorem readChar_of_no_lead (h : Lead.ofByte? b = none) (bs : List UInt8) :
    readChar b bs = .error (1, .invalidStart) := by
  rw [readChar, h]

theorem readChar_eq_error_iff (h : Lead.ofByte? b = some lead) {e : Nat × Reason} : readChar b bs = .error e ↔
    readTails lead.bits lead.low lead.high lead.tails 1 bs = .error e := by
  rw [readChar, h]
  dsimp only
  cases readTails lead.bits lead.low lead.high lead.tails 1 bs with
  | error e' =>
      change Except.error e' = Except.error e ↔ Except.error e' = Except.error e
      rw [Except.error.injEq, Except.error.injEq]
  | ok x => exact iff_of_false (fun hok => by cases hok) (fun hok => by cases hok)

theorem exists_readChar_of_readTails (h : Lead.ofByte? b = some lead)
    (htails : readTails lead.bits lead.low lead.high lead.tails 1 bs = .ok (n, tail)) :
    ∃ c, readChar b bs = .ok (c, tail) := by
  rw [readChar, h]
  dsimp only
  rw [htails]
  exact ⟨_, rfl⟩

theorem broken_of_readChar (h : readChar b tail = .error (n, reason)) : Broken b tail n reason := by
  cases hlead : Lead.ofByte? b with
  | none =>
      rw [readChar_of_no_lead hlead] at h
      cases h
      exact .start (not_begins_of_readChar fun more => ⟨_, readChar_of_no_lead hlead more⟩)
  | some lead =>
      rw [readChar_eq_error_iff hlead] at h
      obtain ⟨sound, rest, rfl, rfl, ⟨more, n, hmore, htails⟩, hrest⟩ := readTails_eq_error (low_le_high hlead) h
      obtain ⟨c, hread⟩ := exists_readChar_of_readTails hlead htails
      have hbegins : Begins (b :: sound) := begins_of_readChar hmore hread
      rw [Nat.add_comm]
      rcases hrest with ⟨rfl, rfl⟩ | ⟨d, ds, rfl, rfl, hnone⟩
      · rw [List.append_nil]
        exact .stop hbegins
      · have hrefused : ∀ more, ∃ e, readChar b (sound ++ [d] ++ more) = .error e := by
          intro more
          obtain ⟨e, he⟩ := hnone more
          rw [← List.append_cons]
          exact ⟨e, (readChar_eq_error_iff hlead).mpr he⟩
        exact .continuation hbegins (not_begins_of_readChar hrefused)

end Characters

theorem decodeFrom_eq_error {offset : Nat} {acc : List Char} {bs : List UInt8} {fault : Fault}
    (h : decodeFrom offset acc bs = .error fault) : ∃ (cs : List Char) (tail : List UInt8),
      bs = cs.flatMap String.utf8EncodeChar ++ fault.lead :: tail ∧
      fault.offset = offset + (cs.flatMap String.utf8EncodeChar).length ∧
      readChar fault.lead tail = .error (fault.length, fault.reason) := by
  match bs with
  | [] =>
      rw [decodeFrom] at h
      cases h
  | b :: bs =>
      rw [decodeFrom] at h
      split at h
      · next c rest hread =>
          obtain ⟨cs, tail, hrest, hoffset, hfault⟩ := decodeFrom_eq_error h
          refine ⟨c :: cs, tail, ?_, ?_, hfault⟩
          · rw [encodeChar_of_readChar hread, hrest, List.flatMap_cons, List.append_assoc]
          · rw [hoffset, List.flatMap_cons, List.length_append, String.length_utf8EncodeChar, Nat.add_assoc]
      · next length reason hread =>
          cases h
          exact ⟨[], bs, rfl, rfl, hread⟩
termination_by bs.length
decreasing_by exact Nat.lt_succ_of_le (readChar_length ‹_›)

theorem decode_eq_error {bs : List UInt8} {fault : Fault} (h : decode bs = .error fault) :
    ∃ (cs : List Char) (tail : List UInt8), bs = cs.flatMap String.utf8EncodeChar ++ fault.lead :: tail ∧
      fault.offset = (cs.flatMap String.utf8EncodeChar).length ∧
      readChar fault.lead tail = .error (fault.length, fault.reason) := by
  rw [decode] at h
  cases hcs : decodeFrom 0 [] bs with
  | ok cs =>
      rw [hcs] at h
      cases h
  | error fault' =>
      rw [hcs] at h
      cases h
      obtain ⟨cs, tail, hbs, hoffset, hread⟩ := decodeFrom_eq_error hcs
      rw [Nat.zero_add] at hoffset
      exact ⟨cs, tail, hbs, hoffset, hread⟩

section Broken

variable {b : UInt8} {tail : List UInt8} {n : Nat} {reason : Reason}

theorem Begins.head (h : Begins (b :: tail)) : Begins [b] := by
  rw [← List.singleton_append] at h
  exact h.of_append

theorem Broken.alone (h : Broken b tail n reason) (hb : ¬Begins [b]) : n = 1 ∧ reason = .invalidStart := by
  cases h with
  | start => exact ⟨rfl, rfl⟩
  | stop hbegins => exact absurd hbegins.head hb
  | continuation hbegins => exact absurd hbegins.head hb

theorem Broken.range (h : Broken b tail n reason) (hb : Begins [b]) :
    IsGreatest (prefixLengths Begins (b :: tail)) n := by
  cases h with
  | start hnone => exact absurd hb hnone
  | stop hbegins =>
      have hwhole : IsGreatest (prefixLengths Begins (b :: tail ++ [])) (b :: tail).length := by
        apply isGreatest_prefixLengths hbegins
        intro zs hzs hfront
        exact absurd (List.prefix_nil.mp hfront) hzs
      rwa [List.append_nil] at hwhole
  | @continuation sound d rest hbegins hnot =>
      change IsGreatest (prefixLengths Begins (b :: sound ++ d :: rest)) _
      apply isGreatest_prefixLengths hbegins
      intro zs hzs hfront hlonger
      obtain ⟨d', ds, rfl⟩ := List.exists_cons_of_ne_nil hzs
      obtain ⟨rfl, -⟩ := List.cons_prefix_cons.mp hfront
      rw [List.append_cons] at hlonger
      exact hnot hlonger.of_append

theorem Broken.end_iff (h : Broken b tail n reason) (hb : Begins [b]) :
    (reason = .unexpectedEnd ↔ Begins (b :: tail)) ∧ (reason = .invalidContinuation ↔ ¬Begins (b :: tail)) := by
  cases h with
  | start hnone => exact absurd hb hnone
  | stop hbegins => simp only [hbegins, not_true_eq_false, reduceCtorEq, and_self]
  | @continuation sound d rest hbegins hnot =>
      have hnone : ¬Begins (b :: (sound ++ d :: rest)) := by
        intro hlonger
        rw [← List.cons_append, List.append_cons] at hlonger
        exact hnot hlonger.of_append
      simp only [hnone, not_false_eq_true, reduceCtorEq, and_self]

end Broken

/-- What is reported of bytes that are refused is the first fault in them. -/
theorem firstFault_of_decode {bs : List UInt8} {fault : Fault} (h : decode bs = .error fault) :
    FirstFault bs fault := by
  obtain ⟨cs, tail, rfl, hoffset, hread⟩ := decode_eq_error h
  have hbroken := broken_of_readChar hread
  constructor
  · rw [hoffset]
    apply isGreatest_prefixLengths
    · exact ⟨String.ofList cs, by rw [encode, String.toList_ofList]⟩
    · intro zs hzs hfront
      rw [wellFormed_append_iff]
      exact not_wellFormed_of_front hread hzs hfront
  · rw [hoffset, List.getElem?_append_right (Nat.le_refl _), Nat.sub_self]
    rfl
  · exact hbroken.alone
  · rw [hoffset, List.drop_left]
    exact hbroken.range
  · rw [begins_append_iff]
    exact hbroken.end_iff

-- the second byte is out of the range that this lead leaves it
example : decode [0x61, 0xf0, 0x80, 0x80, 0x80] = .error ⟨1, 1, 0xf0, .invalidContinuation⟩ := by decide +kernel

end Lexing.Text.Utf8
