import Lexing.Proofs.Placement
import Mathlib.Data.List.Forall2

/-! The log of a scan against its diagnostics. A pass that reports writes one line for each diagnostic, in their order,
and then the totals. A pass that is quiet writes nothing and finds the same tokens. -/

namespace Lexing

/-- The line of a log that tells of a diagnostic of a text. -/
inductive Diagnostic.ToldBy (shown : Char → Bool) (source : String) : Diagnostic → String → Prop
  | dropped {c : Char} {o : Nat} {p : Position} {last : Option Int} : source.toList[o]? = some c →
      ToldBy shown source ⟨.unrecognizedCharacter, o, p, last⟩
        ("Dropping unrecognized character " ++ Text.quote shown (String.ofList [c]) ++ " at " ++
          (toString p.line ++ ":" ++ toString p.column))
  | leftOpen {o : Nat} {p : Position} {last : Option Int} :
      ToldBy shown source ⟨.unterminatedString, o, p, last⟩
        ("Unterminated string literal starting at " ++ (toString p.line ++ ":" ++ toString p.column))

/-- The last line of a log. -/
def totals (characters tokens diagnostics : Nat) : String :=
  "Scanned " ++ toString characters ++ " chars into " ++ toString tokens ++ " tokens, " ++ toString diagnostics ++
    " errors"

/-- What a scan writes to its log, and that it finds the same when it writes nothing. -/
structure Logged (shown : Char → Bool) (source : String) : Prop where
  tokens : tokenize source = (analyze source).tokens
  undiagnosed : (Report.of .quiet source).diagnostics = []
  silent : ∀ threshold, logLines shown threshold (Report.of .quiet source).events = []
  above : ∀ threshold, threshold ≠ .debug → logLines shown threshold (analyze source).events = []
  length : (logLines shown .debug (analyze source).events).length = (analyze source).diagnostics.length + 1
  lines : ∃ lines, List.Forall₂ (Diagnostic.ToldBy shown source) (analyze source).diagnostics lines ∧
    logLines shown .debug (analyze source).events =
      (lines ++ [totals source.length (analyze source).tokens.length (analyze source).diagnostics.length]).map
        fun line => (Level.debug, line)

/-- The event that a placed piece leads to. -/
def event? : Place × Piece → Option Event
  | (_, .token ..) => none
  | (s, .openLiteral _) => some (.leftOpen s.position)
  | (s, .stray c) => some (.dropped c s.position)

namespace Pass

theorem step_events_toList (s : Pass) (p : Piece) :
    (s.step .reporting p).events.toList = s.events.toList ++ (event? (s.place, p)).toList := by
  cases p <;> simp [step, push, note, advance, skip, place, event?]

theorem foldl_step_quiet (s : Pass) (ps : List Piece) :
    (ps.foldl (step .quiet) s).diagnostics = s.diagnostics ∧ (ps.foldl (step .quiet) s).events = s.events := by
  induction ps generalizing s with
  | nil => exact ⟨rfl, rfl⟩
  | cons p ps ih =>
      rw [List.foldl_cons, (ih _).1, (ih _).2]
      cases p <;> exact ⟨rfl, rfl⟩

end Pass

theorem analyze_events (source : String) :
    (analyze source).events = (placed source.toList).filterMap event? ++
      [.finished source.length (analyze source).tokens.length (analyze source).diagnostics.length] := by
  have h := Pass.foldl_step_collects (fun s => s.events.toList) event? Pass.step_events_toList Pass.start
    (forall_mem_pieces next_ne_stray_lineFeed source.toList)
  exact congrArg (· ++ _) h

/-- A placed piece is told of by its event exactly when it has a diagnostic. -/
theorem told_of_placed (shown : Char → Bool) {source : String} {x : Place × Piece} (h : x ∈ placed source.toList) :
    Option.Rel (Diagnostic.ToldBy shown source) (diagnostic? x) ((event? x).map (Event.message shown)) := by
  obtain ⟨s, p⟩ := x
  cases p with
  | token kind text => exact .none
  | openLiteral text => exact .some .leftOpen
  | stray c =>
      obtain ⟨before, after, hsource, hoffset, -⟩ := mem_placed h
      have hc : source.toList[s.offset]? = some c := by
        rw [hsource, hoffset, List.append_assoc, List.getElem?_append_right (Nat.le_refl _), Nat.sub_self]
        rfl
      exact .some (.dropped hc)

/-- A log tells of every diagnostic, and of nothing else but the totals, whichever characters it shows as they are. -/
theorem analyze_logged (shown : Char → Bool) (source : String) : Logged shown source := by
  have htold : List.Forall₂ (Diagnostic.ToldBy shown source) (analyze source).diagnostics
      ((placed source.toList).filterMap fun x => (event? x).map (Event.message shown)) := by
    rw [analyze_diagnostics]
    have hsame : List.Forall₂ (fun x y => x = y ∧ x ∈ placed source.toList) (placed source.toList)
        (placed source.toList) := List.forall₂_same.mpr fun x hx => ⟨rfl, hx⟩
    refine List.rel_filterMap ?_ hsame
    rintro x _ ⟨rfl, hx⟩
    exact told_of_placed shown hx
  have hlines : logLines shown .debug (analyze source).events =
      (((placed source.toList).filterMap fun x => (event? x).map (Event.message shown)) ++
        [totals source.length (analyze source).tokens.length (analyze source).diagnostics.length]).map
          fun line => (Level.debug, line) := by
    rw [logLines_debug, analyze_events, List.map_append, List.map_append, List.map_filterMap, List.map_filterMap]
    simp only [Option.map_map]
    rfl
  have hquiet := Pass.foldl_step_quiet .start (pieces source.toList)
  constructor
  · exact (Report.tokens_of .reporting source).symm
  · exact congrArg Array.toList hquiet.1
  · intro threshold
    have hevents : (Report.of .quiet source).events = [] :=
      (List.append_nil _).trans (congrArg Array.toList hquiet.2)
    rw [hevents]
    rfl
  · intro threshold hthreshold
    exact logLines_of_ne_debug shown _ hthreshold
  · rw [hlines, List.length_map, List.length_append, htold.length_eq]
    rfl
  · exact ⟨_, htold, hlines⟩

example : logLines (fun _ => false) .debug (analyze "a @ 'b").events =
    [(.debug, "Dropping unrecognized character '@' at 1:3"), (.debug, "Unterminated string literal starting at 1:5"),
      (.debug, "Scanned 6 chars into 4 tokens, 2 errors")] := by
  decide +kernel

end Lexing
