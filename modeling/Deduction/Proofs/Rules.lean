import Deduction.Proofs.Outcome

/-!
# What an action comes to

For each action that looks at the session, notes something or adds a line: which outcome it has and
what is true after it, as an equivalence. The other modules use these rules in place of the
definitions of the actions.
-/

namespace Deduction

namespace Session

variable {σ α β : Type} {s : Session σ} {ok : β → Session σ → Prop}
  {fail : SessionFault → Session σ → Prop}

/-- The session with an event noted at the end of its journal. -/
def noted (s : Session σ) (e : Event) : Session σ := { s with journal := s.journal ++ [e] }

/-- The session with a line added at its end. -/
def added (s : Session σ) (line : Line) : Session σ :=
  { s with
    journal := s.journal ++ [.lineAdded s.settings.announce s.lines.length line]
    lines := s.lines ++ [line] }

theorem after_get {next : Session σ → Build σ β} :
    s.After (get >>= next) ok fail ↔ s.After (next s) ok fail :=
  after_bind

theorem after_note {e : Event} {next : Unit → Build σ β} :
    s.After (note e >>= next) ok fail ↔ (s.noted e).After (next ()) ok fail :=
  after_bind

theorem after_lift {x : StateM (Session σ) α} {next : α → Build σ β} {r : α × Session σ}
    (hx : x.run s = r) :
    s.After ((liftM x : Build σ α) >>= next) ok fail ↔ r.2.After (next r.1) ok fail := by
  rw [← hx]
  exact after_bind

theorem after_rejectPlaceholder {f : Formula} {next : Unit → Build σ β} :
    s.After (rejectPlaceholder f >>= next) ok fail ↔
      if placeholder ∈ f.constants then fail (.placeholder f.text) s
      else s.After (next ()) ok fail := by
  unfold rejectPlaceholder
  split_ifs
  · exact after_bind
  · exact after_bind

theorem after_rejectPlaceholderTerm {t : Term} {next : Unit → Build σ β} :
    s.After (rejectPlaceholderTerm t >>= next) ok fail ↔
      if placeholder ∈ t.constants then fail (.placeholder t.text) s
      else s.After (next ()) ok fail := by
  unfold rejectPlaceholderTerm
  split_ifs
  · exact after_bind
  · exact after_bind

theorem after_require {expected found : Formula} {next : Unit → Build σ β} :
    s.After (require expected found >>= next) ok fail ↔
      if expected = found then s.After (next ()) ok fail
      else fail (.mismatch expected found) s := by
  unfold require
  split_ifs
  · exact after_bind
  · exact after_bind

theorem after_liftCapture {result : Except Capture α} {next : α → Build σ β} :
    s.After (liftCapture result >>= next) ok fail ↔
      match result with
      | .ok a => s.After (next a) ok fail
      | .error cause => fail (.capture cause) s := by
  cases result with
  | ok a => exact after_bind
  | error cause => exact after_bind

theorem after_formulaAt {line : Nat} {next : Formula → Build σ β} :
    s.After (formulaAt line >>= next) ok fail ↔
      match s.lines[line]? with
      | some l => s.After (next l.formula) ok fail
      | none => fail (.lineOutOfRange line s.lines.length) s := by
  rw [formulaAt, bind_assoc, after_get]
  cases hline : s.lines[line]? with
  | some l =>
    simp only [hline]
    exact after_bind
  | none =>
    simp only [hline]
    exact after_bind

theorem after_append {line : Line} {ok : Nat → Session σ → Prop} :
    s.After (append line) ok fail ↔
      match (line.checkM s.oracle s.assumptions s.lines s.lines.length).run s.memory with
      | (.ok _, memory) => ok s.lines.length (added { s with memory := memory } line)
      | (.error cause, memory) => fail (.rejected s.lines.length cause)
          (noted { s with memory := memory } (.lineRejected s.lines.length line cause)) := by
  unfold append
  rw [after_get, after_lift (run_checkM_ask ..), withMemory]
  rcases (line.checkM s.oracle s.assumptions s.lines s.lines.length).run s.memory with
    ⟨_ | _, memory⟩
  · rfl
  · rfl

end Session

end Deduction
