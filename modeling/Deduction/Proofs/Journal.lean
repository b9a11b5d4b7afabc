import Deduction.Proofs.Composition
import Deduction.Proofs.Rules
import Deduction.Proofs.Run

/-!
# The journal follows the lines

Whoever reads the journal of a session and keeps an entry for each line, puts one more at the end
where a line was added and takes off as many as were dropped where a step was rolled back, has at
each time an entry for each line of the session, in their order (`Session.Followed.replay`). A
transaction drops the lines that are there beyond those from before it. What a transaction inside of
it has dropped is no longer there, so nothing is taken off twice.

Whoever sees the log alone knows of an event its title and its details, which are texts. That is
enough to keep the texts of the lines, since a number is read back from its text
(`LogEntry.replay_journal`).

From the journal it can also be seen that each line that was ever added was justified by the lines
that were there, and came next after them (`Session.Followed.vouched`).

No action of a session needs to be looked at for this, since all are composed of single lines that
are added (`Session.Composed.extends`).
-/

namespace Deduction

variable {σ α : Type}

/-! ## Reading a journal -/

namespace Event

/-- The entries that are kept for the lines, after an event. There are none if the event does not
fit them: if a line was added with a number other than the next, or more lines were dropped than
there are. -/
def follow (entry : Line → α) (entries : List α) : Event → Option (List α)
  | .lineAdded _ index line =>
    if index = entries.length then some (entries ++ [entry line]) else none
  | .rolledBack dropped _ =>
    if dropped ≤ entries.length then some (entries.take (entries.length - dropped)) else none
  | _ => some entries

/-- The entries that are kept for the lines after a journal. -/
def replay (entry : Line → α) (journal : List Event) : Option (List α) :=
  journal.foldlM (follow entry) []

theorem replay_concat {entry : Line → α} {journal : List Event} {entries : List α}
    (h : replay entry journal = some entries) (e : Event) :
    replay entry (journal ++ [e]) = e.follow entry entries := by
  rw [replay, List.foldlM_append, ← replay, h]
  exact bind_pure (e.follow entry entries)

theorem follow_of_isRemark {e : Event} (he : e.IsRemark) (entry : Line → α) (entries : List α) :
    e.follow entry entries = some entries := by
  cases e with
  | lineAdded => exact he.elim
  | rolledBack => exact he.elim
  | _ => rfl

/-- Each line that the journal says was added came next after the lines that were there then, and
was justified by them. -/
def Vouched (accepted : Proposition → Prop) (assumptions : OrderedSet Schema)
    (journal : List Event) : Prop :=
  ∀ before announced index line after,
    journal = before ++ .lineAdded announced index line :: after →
      ∃ lines, replay id before = some lines ∧ index = lines.length ∧
        line.Justified accepted assumptions lines index

theorem Vouched.concat {accepted : Proposition → Prop} {assumptions : OrderedSet Schema}
    {journal : List Event} (h : Vouched accepted assumptions journal) {e : Event}
    (he : ∀ announced index line, e = .lineAdded announced index line →
      ∃ lines, replay id journal = some lines ∧ index = lines.length ∧
        line.Justified accepted assumptions lines index) :
    Vouched accepted assumptions (journal ++ [e]) := by
  intro before announced index line after heq
  rcases List.eq_nil_or_concat after with rfl | ⟨after, e', rfl⟩
  · obtain ⟨rfl, hlast⟩ := List.append_inj' heq rfl
    exact he announced index line (List.cons.inj hlast).1
  · rw [List.concat_eq_append, ← List.cons_append, ← List.append_assoc] at heq
    exact h before announced index line after (List.append_inj' heq rfl).1

end Event

namespace LogEntry

/-- The number that a detail has in decimal digits. -/
def number? (e : LogEntry) (key : String) : Option Nat :=
  (e.details.lookup key).map fun digits => Nat.ofDigitChars 10 digits.toList 0

/-- The texts that are kept for the lines, after an entry of the log. There are none if a detail is
missing or the entry does not fit the texts. -/
def follow (texts : List String) (e : LogEntry) : Option (List String) :=
  if e.title = "line added" then do
    let index ← e.number? "index"
    let line ← e.details.lookup "line"
    if index = texts.length then some (texts ++ [line]) else none
  else if e.title = "rolling back" then do
    let dropped ← e.number? "dropped"
    if dropped ≤ texts.length then some (texts.take (texts.length - dropped)) else none
  else some texts

/-- The texts that are kept for the lines after a log. -/
def replay (log : List LogEntry) : Option (List String) := log.foldlM follow []

theorem number?_eq_some {e : LogEntry} {key : String} {n : Nat}
    (h : e.details.lookup key = some (toString n)) : e.number? key = some n := by
  rw [number?, h, Option.map_some, Nat.toString_eq_repr, Nat.toList_repr,
    Nat.ofDigitChars_ten_toDigits]

theorem follow_entry (e : Event) (texts : List String) :
    e.entry.follow texts = e.follow Line.text texts := by
  cases e with
  | lineAdded announced index line =>
    have htitle : (Event.lineAdded announced index line).entry.title = "line added" := rfl
    have hindex : (Event.lineAdded announced index line).entry.number? "index" = some index :=
      number?_eq_some rfl
    rw [follow, if_pos htitle, hindex]
    rfl
  | rolledBack dropped cause =>
    have htitle : (Event.rolledBack dropped cause).entry.title = "rolling back" := rfl
    have hdropped : (Event.rolledBack dropped cause).entry.number? "dropped" = some dropped :=
      number?_eq_some rfl
    rw [follow, htitle, if_neg (by decide), if_pos rfl, hdropped]
    rfl
  | _ => rfl

theorem replay_journal (journal : List Event) :
    replay (journal.map Event.entry) = Event.replay Line.text journal := by
  rw [replay, List.foldlM_map, Event.replay]
  congr 1
  funext texts e
  exact follow_entry e texts

end LogEntry

namespace Session

structure Followed (s : Session σ) : Prop where
  replay : ∀ {α : Type} (entry : Line → α), Event.replay entry s.journal = some (s.lines.map entry)
  vouched : Event.Vouched s.oracle.Accepts s.assumptions s.journal

theorem Followed.withMemory {s : Session σ} (h : s.Followed) (memory : σ) :
    Followed { s with memory := memory } :=
  ⟨h.replay, h.vouched⟩

theorem Followed.noted {s : Session σ} (h : s.Followed) {e : Event}
    (hfollow : ∀ {α : Type} (entry : Line → α) entries, e.follow entry entries = some entries)
    (he : ∀ announced index line, e ≠ .lineAdded announced index line) : (s.noted e).Followed where
  replay entry := (Event.replay_concat (h.replay entry) e).trans (hfollow entry _)
  vouched := h.vouched.concat fun announced index line heq => absurd heq (he announced index line)

theorem Followed.added {s : Session σ} (h : s.Followed) {line : Line}
    (hline : line.Justified s.oracle.Accepts s.assumptions s.lines s.lines.length) :
    (s.added line).Followed where
  replay entry := by
    refine (Event.replay_concat (h.replay entry) _).trans ?_
    rw [Event.follow, if_pos (List.length_map ..).symm, Session.added, List.map_append,
      List.map_singleton]
  vouched := by
    refine h.vouched.concat fun announced index l heq => ?_
    cases heq
    exact ⟨s.lines, by simpa using h.replay id, rfl, hline⟩

/-- Rolling back to `mark` lines. -/
theorem Followed.rolledBack {s : Session σ} (h : s.Followed) {mark : Nat}
    (hmark : mark ≤ s.lines.length) (cause : SessionFault) :
    Followed { s with
      journal := s.journal ++ [.rolledBack (s.lines.length - mark) cause]
      lines := s.lines.take mark } where
  replay entry := by
    refine (Event.replay_concat (h.replay entry) _).trans ?_
    rw [Event.follow, List.length_map, if_pos (Nat.sub_le ..), Nat.sub_sub_self hmark,
      List.map_take]
  vouched := h.vouched.concat nofun

/-! ## Every step is followed -/

/-- No lines that were there before are gone, and if the journal was right, it is still. -/
structure Extends (s t : Session σ) : Prop where
  assumptions : t.assumptions = s.assumptions
  oracle : t.oracle = s.oracle
  lines : s.lines <+: t.lines
  followed : s.Followed → t.Followed

namespace Extends

variable {s t u : Session σ}

theorem refl (s : Session σ) : s.Extends s := ⟨rfl, rfl, List.prefix_rfl, id⟩

theorem trans (h : s.Extends t) (h' : t.Extends u) : s.Extends u :=
  ⟨h'.assumptions.trans h.assumptions, h'.oracle.trans h.oracle, h.lines.trans h'.lines,
    h'.followed ∘ h.followed⟩

end Extends

theorem extends_append (s : Session σ) (line : Line) :
    s.After (append line) (fun _ t => s.Extends t) fun _ t => s.Extends t := by
  rw [after_append]
  have hjust := @Line.justified_of_checkM σ s.oracle s.memory s.assumptions s.lines s.lines.length
    line
  rcases hcheck : (line.checkM s.oracle s.assumptions s.lines s.lines.length).run s.memory with
    ⟨cause | _, memory⟩
  · refine ⟨rfl, rfl, List.prefix_rfl, fun h => (h.withMemory memory).noted ?_ ?_⟩
    · exact fun _ _ => rfl
    · exact fun _ _ _ => nofun
  · rw [hcheck] at hjust
    exact ⟨rfl, rfl, List.prefix_append .., fun h => (h.withMemory memory).added (hjust rfl)⟩

theorem Composed.extends {action : Build σ α} (h : Composed Appends action) :
    ∀ s : Session σ, s.After action (fun _ t => s.Extends t) fun _ t => s.Extends t := by
  induction h with
  | base h =>
    cases h with
    | append line => exact fun s => extends_append s line
  | pure a => exact .refl
  | throw _ => exact .refl
  | get => exact .refl
  | note he =>
    refine fun s => ⟨rfl, rfl, List.prefix_rfl, fun h => h.noted (Event.follow_of_isRemark he) ?_⟩
    rintro announced index line rfl
    exact he
  | freshVariable used => exact fun s => ⟨rfl, rfl, List.prefix_rfl, fun h => ⟨h.replay, h.vouched⟩⟩
  | @lift _ x hx =>
    intro s
    obtain ⟨r, hr⟩ := hx s
    change s.Extends (x.run s).2
    rw [hr]
    exact ⟨rfl, rfl, List.prefix_rfl, fun h => h.withMemory r.2⟩
  | bind _ _ ih ihnext =>
    refine fun s => after_bind.2 (After.mono (ih s) (fun a t ht => ?_) fun _ _ => id)
    exact After.mono (ihnext a t) (fun _ _ => ht.trans) fun _ _ => ht.trans
  | transaction _ ih =>
    refine fun s => after_transaction.2 (After.mono (ih s) (fun _ _ => id) fun e t ht => ?_)
    exact ⟨ht.assumptions, ht.oracle, List.prefix_take_iff.2 ⟨ht.lines, Nat.le_refl _⟩,
      fun h => (ht.followed h).rolledBack ht.lines.length_le e⟩

theorem extends_performAll : ∀ (steps : List Step) (s : Session σ), s.Extends (s.performAll steps)
  | [], s => .refl s
  | step :: rest, s =>
    have hstep : Composed Appends (step.build : Build σ Nat) :=
      (composed_build step).of_base fun _ => Primitive.composed
    (hstep.extends s).always.trans (extends_performAll rest _)

theorem Opened.followed {oracle : Oracle σ} {s : Session σ} (h : Opened oracle s) : s.Followed := by
  obtain ⟨_, _, _, -, rfl⟩ := h.eq_ofSettings
  exact ⟨fun _ => rfl, fun before announced index line after heq => by simp [ofSettings] at heq⟩

/-- Whatever steps were taken, and whatever the oracle said: if the texts of the lines are read from
the log, put at the end where it says that a line was added and taken off where it says that lines
were dropped, each line comes next after the texts that are there, never more are taken off than
there are, and in the end there are the texts of the lines of the session. It is so after each step,
since the steps are any, and still when the session was closed. -/
theorem journal_replays_lines {oracle : Oracle σ} {s₀ : Session σ} (hopen : Opened oracle s₀)
    (steps : List Step) :
    let s := s₀.performAll steps
    let closed := (s.perform close).2
    LogEntry.replay (s.journal.map Event.entry) = some (s.lines.map Line.text) ∧
      LogEntry.replay (closed.journal.map Event.entry) = some (closed.lines.map Line.text) := by
  intro s closed
  have hs : s.Followed := (extends_performAll steps s₀).followed hopen.followed
  have hclosed : closed.Followed := (composed_close.extends s).always.followed hs
  rw [LogEntry.replay_journal, LogEntry.replay_journal]
  exact ⟨hs.replay Line.text, hclosed.replay Line.text⟩

/-- The oracle says no to the first question and yes to all others. The first attempt comes to it in
a transaction inside of another: the inner one has added no lines, and the outer one drops two. The
second attempt adds six. -/
theorem journal_replays_lines_of_nested :
    let oracle : Oracle Nat := fun _ => modifyGet fun n => (decide (n ≠ 0), n + 1)
    let P := Formula.holds "P" [.var "x"]
    let Q := Formula.holds "Q" []
    let s₀ := ofSettings [.fixed (.ex "x" P), .fixed (.imp P Q)] { announce := true } oracle 0
    let steps : List Step := [.assume (.ex "x" P), .assume (.imp P Q), .eliminate Q 0 1,
      .eliminate Q 0 1]
    let s := s₀.performAll steps
    s.journal.filterMap (fun | .rolledBack dropped _ => some dropped | _ => none) = [0, 2] ∧
      s.lines.length = 8 ∧
      LogEntry.replay (s.journal.map Event.entry) = some (s.lines.map Line.text) := by
  intro oracle P Q s₀ steps s
  have hopen : Opened oracle s₀ := .startWith (show startWith
    [.fixed (.ex "x" P), .fixed (.imp P Q)] { announce := true } oracle 0 = .ok s₀
    from if_pos (by decide))
  have hdropped : s.journal.filterMap (fun | .rolledBack dropped _ => some dropped | _ => none)
      = [0, 2] := by decide +kernel
  have hlength : s.lines.length = 8 := by decide +kernel
  exact ⟨hdropped, hlength, (journal_replays_lines hopen steps).1⟩

end Session

end Deduction
