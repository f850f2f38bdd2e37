import PhraseStructure.Command.Transcript

/-!
# What a run shows

A run writes to two streams and has an outcome. What a composite run shows is
what its parts show, one after the other, up to the first that fails.

If no level of detail is chosen, only errors are shown, and no event is one. So
what the library reports while it works is not seen, and a run that only loads
a grammar shows nothing.
-/

namespace PhraseStructure

theorem Event.error_rank_lt (e : Event) : Event.Level.error.rank < e.level.rank := by
  cases e <;> simp [Event.level, Event.Level.rank]

namespace Command

variable {α β : Type}

/-- The texts on the two streams if no level of detail is chosen, and the outcome. -/
structure Shows (x : Run α) (out err : String) (outcome : Except String α) : Prop where
  stdout_eq : String.join (x.events.map Output.onStandardOutput) = out
  stderr_eq : String.join (x.events.map (Output.onStandardError (Output.detail none))) = err
  outcome_eq : x.outcome = outcome

/-! ## Parts and wholes -/

theorem shows_pure (a : α) : Shows (pure a) "" "" (.ok a) := ⟨rfl, rfl, rfl⟩

theorem shows_fail (message : String) :
    Shows (Traced.fail message : Run α) "" "" (.error message) :=
  ⟨rfl, rfl, rfl⟩

theorem shows_print (text : String) : Shows (print text) text "" (.ok ()) := by
  refine ⟨?_, ?_, rfl⟩ <;> simp [print, Output.onStandardOutput, Output.onStandardError]

variable {x : Run α} {next : α → Run β} {out more err complaints : String} {a : α}
  {outcome : Except String β}

theorem join_map_bind (write : Output → String) (hx : x.outcome = .ok a) :
    String.join ((x >>= next).events.map write) =
      String.join (x.events.map write) ++ String.join ((next a).events.map write) := by
  rw [Traced.events_bind_of_ok hx, List.map_append, String.join_append]

theorem Shows.bind (hx : Shows x out err (.ok a)) (hnext : Shows (next a) more complaints outcome) :
    Shows (x >>= next) (out ++ more) (err ++ complaints) outcome where
  stdout_eq := by rw [join_map_bind _ hx.outcome_eq, hx.stdout_eq, hnext.stdout_eq]
  stderr_eq := by rw [join_map_bind _ hx.outcome_eq, hx.stderr_eq, hnext.stderr_eq]
  outcome_eq := by rw [Traced.outcome_bind_of_ok hx.outcome_eq, hnext.outcome_eq]

theorem Shows.bind_of_error {message : String} (hx : Shows x out err (.error message))
    (next : α → Run β) : Shows (x >>= next) out err (.error message) := by
  have hevents : (x >>= next).events = x.events := by
    rw [Traced.events_bind, hx.outcome_eq, List.append_nil]
  refine ⟨hevents ▸ hx.stdout_eq, hevents ▸ hx.stderr_eq, ?_⟩
  rw [Traced.outcome_bind, hx.outcome_eq]
  rfl

/-- A part that shows nothing can be left out in front, and at the end. -/
theorem Shows.bind_silent (hx : Shows x "" "" (.ok a)) (hnext : Shows (next a) out err outcome) :
    Shows (x >>= next) out err outcome := by
  simpa using hx.bind hnext

theorem Shows.bind_of_silent (hx : Shows x out err (.ok a))
    (hnext : Shows (next a) "" "" outcome) : Shows (x >>= next) out err outcome := by
  simpa using hx.bind hnext

theorem shows_forM_silent {f : α → Run PUnit} {items : List α}
    (h : ∀ item ∈ items, Shows (f item) "" "" (.ok ⟨⟩)) : Shows (items.forM f) "" "" (.ok ⟨⟩) := by
  induction items with
  | nil => exact shows_pure PUnit.unit
  | cons item items ih =>
      obtain ⟨hitem, hitems⟩ := List.forall_mem_cons.mp h
      exact hitem.bind_silent (ih hitems)

/-! ## Events -/

theorem onStandardError_reported (e : Event) :
    Output.onStandardError (Output.detail none) (.reported e) = "" :=
  if_neg (Nat.not_le.mpr e.error_rank_lt)

theorem shows_reported (e : Event) : Shows (Traced.emit (.reported e)) "" "" (.ok ()) := by
  refine ⟨rfl, ?_, rfl⟩
  simp [onStandardError_reported]

theorem join_map_reported {write : Output → String} (h : ∀ e, write (.reported e) = "")
    (events : List Event) : String.join ((events.map Output.reported).map write) = "" := by
  induction events with
  | nil => rfl
  | cons e events ih => simpa [h] using ih

theorem shows_report {ε : Type} (message : ε → String) (x : Traced Event ε α) :
    Shows (report message x) "" "" (x.outcome.mapError message) :=
  ⟨join_map_reported (fun _ ↦ rfl) x.events, join_map_reported onStandardError_reported x.events,
    rfl⟩

/-- Of some events with an output behind them, only the output is shown. -/
theorem shows_concat (events : List Event) (output : Output) (outcome : Except String α) :
    Shows ⟨events.map .reported ++ [output], outcome⟩ output.onStandardOutput
      (output.onStandardError (Output.detail none)) outcome := by
  have hlast {write : Output → String} (h : ∀ e, write (.reported e) = "") :
      String.join ((events.map Output.reported ++ [output]).map write) = write output := by
    rw [List.map_append, String.join_append, join_map_reported h]
    simp
  exact ⟨hlast fun _ ↦ rfl, hlast onStandardError_reported, rfl⟩

/-! ## Whole commands -/

theorem Shows.transcript_of_ok {x : Run Unit} (h : Shows x out err (.ok ())) :
    Transcript.ofRun (Output.detail none) x = ⟨0, out, err⟩ := by
  rw [Transcript.ofRun, h.stdout_eq, h.stderr_eq, h.outcome_eq]
  simp

theorem Shows.transcript_of_error {x : Run Unit} {message : String}
    (h : Shows x out err (.error message)) :
    Transcript.ofRun (Output.detail none) x = ⟨1, out, err ++ (message ++ "\n")⟩ := by
  rw [Transcript.ofRun, h.stdout_eq, h.stderr_eq, h.outcome_eq]

/-- What is done in front of a run and shows nothing leaves no trace. -/
theorem Shows.transcript_bind (hx : Shows x "" "" (.ok a)) (next : α → Run Unit) :
    Transcript.ofRun (Output.detail none) (x >>= next) =
      Transcript.ofRun (Output.detail none) (next a) := by
  have hnext : Shows (next a) _ _ _ := ⟨rfl, rfl, rfl⟩
  have hwhole := hx.bind_silent hnext
  rw [Transcript.ofRun, hwhole.stdout_eq, hwhole.stderr_eq, hwhole.outcome_eq]
  rfl

theorem shows_prepare {file : String} {contents : Except FileFault ByteArray} {g : Grammar}
    (hloads : (Grammar.ofFile file contents).outcome = .ok g) (start : Option String) :
    Shows (prepare file contents start) "" "" (.ok (g.startingAt (start.getD g.start))) := by
  have hloaded := shows_report GrammarError.message (Grammar.ofFile file contents)
  rw [hloads] at hloaded
  apply hloaded.bind_silent
  apply (shows_forM_silent fun e _ ↦ shows_reported _).bind_silent
  cases start <;> exact shows_pure _

end Command

end PhraseStructure
