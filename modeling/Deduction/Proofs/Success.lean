import Deduction.Proofs.Primitive
import Deduction.Proofs.Rules

/-!
# Actions that succeed

`Session.Yields` says of an action that it succeeds, and what is true then. For an action that only
looks at the session this comes to what it looks for, together with the success of the rest. A line
that passes its check is added as it is (`Session.yields_append`), and so are several lines if each
passes after those before it (`Session.yields_appendAll`).

So for each primitive step that adds one line it is said exactly when it succeeds, and which session
it leaves; of a tautology only if the oracle answers by a plain function.
-/

namespace Deduction

namespace Session

variable {σ α β : Type} {s : Session σ} {Q : β → Session σ → Prop}

/-- The action succeeds, and `Q` is true of its result and the session after it. -/
def Yields (s : Session σ) (action : Build σ α) (Q : α → Session σ → Prop) : Prop :=
  s.After action Q fun _ _ => False

theorem yields_iff {action : Build σ β} :
    s.Yields action Q ↔ ∃ b t, s.perform action = (.ok b, t) ∧ Q b t := by
  unfold Yields After
  rcases s.perform action with ⟨r | r, t⟩
  · simp
  · simp

theorem exists_perform_eq_ok {action : Build σ β} :
    (∃ b, (s.perform action).1 = .ok b) ↔ s.Yields action fun _ _ => True := by
  unfold Yields After
  rcases s.perform action with ⟨r | r, t⟩
  · simp
  · simp

theorem perform_eq_ok {action : Build σ β} {b : β} : (s.perform action).1 = .ok b ↔
    s.Yields action fun b' t => b' = b ∧ t = (s.perform action).2 := by
  unfold Yields After
  rcases s.perform action with ⟨r | r, t⟩
  · simp
  · simp

theorem yields_bind {action : Build σ α} {next : α → Build σ β} :
    s.Yields (action >>= next) Q ↔ s.Yields action fun a t => t.Yields (next a) Q :=
  after_bind

theorem Yields.mono {action : Build σ β} {R : β → Session σ → Prop} (h : s.Yields action Q)
    (hQ : ∀ b t, Q b t → R b t) : s.Yields action R :=
  After.mono h hQ fun _ _ => id

theorem Yields.after {action : Build σ β} (h : s.Yields action Q)
    {fail : SessionFault → Session σ → Prop} : s.After action Q fail :=
  After.mono h (fun _ _ => id) fun _ _ => False.elim

/-- What is known of an action that may fail, for one that succeeds. -/
theorem Yields.and_leads {action : Build σ β} {undone : Bool} {P : β → Session σ → Prop}
    (h : s.Yields action Q) (hlead : s.Leads undone action P) :
    s.Yields action fun b t => Q b t ∧ s.Reaches t ∧ P b t :=
  After.mono (After.and h hlead) (fun _ _ => id) fun _ _ => And.left

theorem yields_transaction {step : Build σ Nat} {Q : Nat → Session σ → Prop} :
    s.Yields (transaction step) Q ↔ s.Yields step Q :=
  after_transaction

theorem not_yields_throw {e : SessionFault} : ¬s.Yields (throw e) Q := id

/-! ## Looking -/

theorem yields_get {next : Session σ → Build σ β} :
    s.Yields (get >>= next) Q ↔ s.Yields (next s) Q :=
  after_get

theorem yields_note {e : Event} {next : Unit → Build σ β} :
    s.Yields (note e >>= next) Q ↔ (s.noted e).Yields (next ()) Q :=
  after_note

theorem yields_lift {x : StateM (Session σ) α} {next : α → Build σ β} {r : α × Session σ}
    (hx : x.run s = r) :
    s.Yields ((liftM x : Build σ α) >>= next) Q ↔ r.2.Yields (next r.1) Q :=
  after_lift hx

theorem yields_rejectPlaceholder {f : Formula} {next : Unit → Build σ β} :
    s.Yields (rejectPlaceholder f >>= next) Q ↔
      placeholder ∉ f.constants ∧ s.Yields (next ()) Q := by
  rw [Yields, after_rejectPlaceholder]
  split_ifs with hf
  · simp [hf]
  · simp [hf, Yields]

theorem yields_rejectPlaceholderTerm {t : Term} {next : Unit → Build σ β} :
    s.Yields (rejectPlaceholderTerm t >>= next) Q ↔
      placeholder ∉ t.constants ∧ s.Yields (next ()) Q := by
  rw [Yields, after_rejectPlaceholderTerm]
  split_ifs with ht
  · simp [ht]
  · simp [ht, Yields]

theorem yields_require {expected found : Formula} {next : Unit → Build σ β} :
    s.Yields (require expected found >>= next) Q ↔
      expected = found ∧ s.Yields (next ()) Q := by
  rw [Yields, after_require]
  split_ifs with he
  · simp [he, Yields]
  · simp [he]

theorem yields_liftCapture {result : Except Capture α} {next : α → Build σ β} :
    s.Yields (liftCapture result >>= next) Q ↔ ∃ a, result = .ok a ∧ s.Yields (next a) Q := by
  rw [Yields, after_liftCapture]
  cases result with
  | ok a => simp [Yields]
  | error cause => simp

theorem yields_formulaAt {line : Nat} {next : Formula → Build σ β} :
    s.Yields (formulaAt line >>= next) Q ↔ ∃ f, s.Says line f ∧ s.Yields (next f) Q := by
  rw [Yields, after_formulaAt]
  cases hline : s.lines[line]? with
  | some l => simp [Says, hline, Yields]
  | none => simp [Says, hline]

theorem yields_equalityAt {line : Nat} {next : Term × Term → Build σ β} :
    s.Yields (equalityAt line >>= next) Q ↔
      ∃ a b, s.Says line (.equality a b) ∧ s.Yields (next (a, b)) Q := by
  rw [equalityAt, bind_assoc, yields_formulaAt]
  constructor
  · rintro ⟨f, hf, h⟩
    cases f with
    | equality a b => exact ⟨a, b, hf, yields_bind.1 h⟩
    | _ => exact (yields_bind.1 h).elim
  · rintro ⟨a, b, hf, h⟩
    exact ⟨_, hf, yields_bind.2 h⟩

theorem yields_quantifiedAt {q : Quantifier} {line : Nat} {next : String × Formula → Build σ β} :
    s.Yields (quantifiedAt q line >>= next) Q ↔
      ∃ x body, s.Says line (.quantified q x body) ∧ s.Yields (next (x, body)) Q := by
  unfold quantifiedAt
  rw [bind_assoc, yields_formulaAt]
  constructor
  · rintro ⟨f, hf, h⟩
    cases hq : f.quantified? q with
    | some parts =>
      rw [hq] at h
      rw [Formula.quantified?_eq_some.1 hq] at hf
      exact ⟨parts.1, parts.2, hf, yields_bind.1 h⟩
    | none =>
      rw [hq] at h
      exact (yields_bind.1 h).elim
  · rintro ⟨x, body, hf, h⟩
    refine ⟨_, hf, ?_⟩
    rw [Formula.quantified?_eq_some.2 rfl]
    exact yields_bind.2 h

theorem yields_forM {γ : Type} {check : γ → Build σ Unit} {P : γ → Prop}
    (hcheck : ∀ x (next : Unit → Build σ β),
      s.Yields (check x >>= next) Q ↔ P x ∧ s.Yields (next ()) Q) :
    ∀ {xs : List γ} {next : Unit → Build σ β},
      s.Yields (xs.forM check >>= next) Q ↔ (∀ x ∈ xs, P x) ∧ s.Yields (next ()) Q
  | [], next => by
    rw [and_iff_right (List.forall_mem_nil _)]
    exact yields_bind
  | x :: xs, next => by
    rw [List.forM_eq_forM, List.forM_cons, bind_assoc, hcheck, List.forall_mem_cons, and_assoc]
    exact and_congr_right fun _ => yields_forM hcheck

theorem yields_mapM {γ δ : Type} {look : γ → Build σ δ} {R : γ → δ → Prop}
    (hlook : ∀ x (next : δ → Build σ β),
      s.Yields (look x >>= next) Q ↔ ∃ y, R x y ∧ s.Yields (next y) Q) :
    ∀ {xs : List γ} {next : List δ → Build σ β},
      s.Yields (xs.mapM look >>= next) Q ↔ ∃ ys, List.Forall₂ R xs ys ∧ s.Yields (next ys) Q
  | [], next => by
    simp only [List.forall₂_nil_left_iff, exists_eq_left]
    exact yields_bind
  | x :: xs, next => by
    rw [List.mapM_cons, bind_assoc, hlook]
    constructor
    · rintro ⟨y, hy, h⟩
      rw [bind_assoc] at h
      obtain ⟨ys, hys, h⟩ := (yields_mapM hlook).1 h
      exact ⟨y :: ys, .cons hy hys, h⟩
    · rintro ⟨_, hxs, h⟩
      obtain ⟨y, ys, hy, hys, rfl⟩ := List.forall₂_cons_left_iff.1 hxs
      refine ⟨y, hy, ?_⟩
      rw [bind_assoc]
      exact (yields_mapM hlook).2 ⟨ys, hys, h⟩

/-! ## Adding lines -/

theorem yields_append {line : Line} {result : Except LineFault Unit}
    {Q : Nat → Session σ → Prop}
    (hcheck : (line.checkM s.oracle s.assumptions s.lines s.lines.length).run s.memory
      = (result, s.memory)) :
    s.Yields (append line) Q ↔ result = .ok () ∧ Q s.lines.length (s.added line) := by
  rw [Yields, after_append, hcheck]
  cases result with
  | ok a => simp
  | error cause => simp

theorem says_iff_states {line : Nat} {f : Formula} :
    s.Says line f ↔ Line.States s.lines s.lines.length line f := by
  refine ⟨fun h => ⟨?_, h⟩, fun h => h.2⟩
  obtain ⟨l, hl, -⟩ := Option.map_eq_some_iff.1 h
  exact (List.getElem?_eq_some_iff.1 hl).1

theorem length_added (line : Line) : (s.added line).lines.length = s.lines.length + 1 :=
  List.length_append

theorem says_added_last {line : Line} : (s.added line).Says s.lines.length line.formula := by
  simp [Says, added]

/-- What the lines say that come after those of a session, counted from its end. -/
theorem says_append {t : Session σ} {lines : List Line} (ht : t.lines = s.lines ++ lines) (k : Nat)
    {f : Formula} : t.Says (s.lines.length + k) f ↔ lines[k]?.map Line.formula = some f := by
  rw [Says, ht, List.getElem?_append_right (Nat.le_add_right ..), Nat.add_sub_cancel_left]

theorem yields_instantiate {goal : Formula} {schema : Schema} {bindings : Bindings}
    {Q : Nat → Session σ → Prop} :
    s.Yields (instantiate goal schema bindings) Q ↔
      placeholder ∉ goal.constants ∧ schema ∈ s.assumptions ∧
        schema.instantiate bindings = .ok goal ∧
        Q s.lines.length (s.added ⟨goal, .assumption schema bindings⟩) := by
  unfold instantiate
  rw [yields_rejectPlaceholder, yields_get]
  refine and_congr_right fun _ => ?_
  dsimp only
  split_ifs with hmem
  · rw [and_iff_right hmem]
    cases hinst : schema.instantiate bindings with
    | error cause => simp [not_yields_throw]
    | ok expected =>
      simp only
      rw [yields_require, yields_append rfl, Line.checkAssumption_eq_ok, hinst, Except.ok.injEq]
      exact and_congr_right fun he => and_iff_right ⟨hmem, he⟩
  · simp only [hmem, false_and, iff_false]
    exact fun h => yields_bind.1 h

theorem yields_tautology {answer : Proposition → Bool} (hs : s.oracle = .ofFunction answer)
    {goal : Formula} {Q : Nat → Session σ → Prop} :
    s.Yields (tautology goal) Q ↔
      placeholder ∉ goal.constants ∧ answer goal.skeleton.proposition = true ∧
        Q s.lines.length (s.added ⟨goal, .tautology⟩) := by
  unfold tautology
  rw [yields_rejectPlaceholder, yields_lift (run_ask_ofFunction hs _)]
  refine and_congr_right fun _ => ?_
  dsimp only
  split_ifs with hyes
  · -- The check of the line asks once more, and is answered as before.
    have hcheck := Line.run_checkM_ofFunction answer s.assumptions s.lines s.lines.length
      ⟨goal, .tautology⟩ s.memory
    rw [← hs] at hcheck
    rw [yields_append hcheck, Line.check_eq_ok_iff]
    rfl
  · simp [hyes, not_yields_throw]

theorem yields_modusPonens {goal : Formula} {antecedent conditional : Nat}
    {Q : Nat → Session σ → Prop} :
    s.Yields (modusPonens goal antecedent conditional) Q ↔
      placeholder ∉ goal.constants ∧ (∃ premise, s.Says antecedent premise ∧
        s.Says conditional (.imp premise goal)) ∧
        Q s.lines.length (s.added ⟨goal, .modusPonens antecedent conditional⟩) := by
  unfold modusPonens
  rw [yields_rejectPlaceholder, yields_formulaAt]
  refine and_congr_right fun _ => ⟨?_, ?_⟩
  · rintro ⟨premise, hpremise, h⟩
    obtain ⟨found, hfound, hrest⟩ := yields_formulaAt.1 h
    obtain ⟨rfl, happend⟩ := yields_require.1 hrest
    exact ⟨⟨premise, hpremise, hfound⟩, ((yields_append rfl).1 happend).2⟩
  · rintro ⟨⟨premise, hpremise, hfound⟩, hQ⟩
    refine ⟨premise, hpremise, yields_formulaAt.2 ⟨_, hfound, yields_require.2 ⟨rfl, ?_⟩⟩⟩
    refine (yields_append rfl).2 ⟨Line.checkModusPonens_eq_ok.2 ⟨premise, ?_, ?_⟩, hQ⟩
    · exact says_iff_states.1 hpremise
    · exact says_iff_states.1 hfound

theorem yields_generalize {goal : Formula} {line : Nat} {Q : Nat → Session σ → Prop} :
    s.Yields (generalize goal line) Q ↔
      placeholder ∉ goal.constants ∧ (∃ x body, goal = .all x body ∧ s.Says line body) ∧
        Q s.lines.length (s.added ⟨goal, .generalization line⟩) := by
  unfold generalize
  rw [yields_rejectPlaceholder, yields_formulaAt]
  refine and_congr_right fun _ => ⟨?_, ?_⟩
  · rintro ⟨body, hbody, h⟩
    cases hq : goal.quantified? .universal with
    | none =>
      rw [hq] at h
      exact h.elim
    | some parts =>
      rw [hq] at h
      dsimp only at h
      split_ifs at h with hparts
      · exact ⟨⟨parts.1, body, hparts ▸ Formula.quantified?_eq_some.1 hq, hbody⟩,
          ((yields_append rfl).1 h).2⟩
      · exact h.elim
  · rintro ⟨⟨x, body, rfl, hbody⟩, hQ⟩
    have hq : (Formula.all x body).quantified? .universal = some (x, body) :=
      Formula.quantified?_eq_some.2 rfl
    refine ⟨body, hbody, ?_⟩
    simp only [hq, if_true]
    refine (yields_append rfl).2 ⟨Line.checkGeneralization_eq_ok.2 ⟨x, body, rfl, ?_⟩, hQ⟩
    exact says_iff_states.1 hbody

theorem lines_foldl_added : ∀ (lines : List Line) (s : Session σ),
    (lines.foldl added s).lines = s.lines ++ lines
  | [], s => (List.append_nil _).symm
  | line :: rest, s => by
    rw [List.foldl_cons, lines_foldl_added rest]
    exact List.append_assoc s.lines [line] rest

theorem assumptions_foldl_added : ∀ (lines : List Line) (s : Session σ),
    (lines.foldl added s).assumptions = s.assumptions
  | [], _ => rfl
  | _ :: rest, s => assumptions_foldl_added rest (s.added _)

/-- Lines that are justified by those before them, as the last lines of the session, are added. -/
theorem yields_appendAll {answer : Proposition → Bool} : ∀ {lines : List Line} {s : Session σ}
    {last : Nat}, s.oracle = .ofFunction answer →
      (∀ (i : Nat) (line : Line), lines[i]? = some line →
        line.Justified (answer · = true) s.assumptions (s.lines ++ lines) (s.lines.length + i)) →
      s.Yields (appendAll last lines) fun i t =>
        i + 1 = (if lines = [] then last + 1 else s.lines.length + lines.length) ∧
          t = lines.foldl added s
  | [], _, _, _, _ => ⟨rfl, rfl⟩
  | line :: rest, s, _, hs, hlines => by
    have hcheck : line.check answer s.assumptions s.lines s.lines.length = .ok () := by
      rw [Line.check_eq_ok_iff]
      have hj := hlines 0 line rfl
      rw [Nat.add_zero, ← Line.justified_take, List.take_left] at hj
      exact hj
    have hrun : (line.checkM s.oracle s.assumptions s.lines s.lines.length).run s.memory
        = (.ok (), s.memory) := by
      rw [hs, Line.run_checkM_ofFunction, hcheck]
    refine yields_bind.2 ((yields_append hrun).2 ⟨rfl, ?_⟩)
    have hnext : ∀ (i : Nat) (l : Line), rest[i]? = some l → l.Justified (answer · = true)
        (s.added line).assumptions ((s.added line).lines ++ rest)
          ((s.added line).lines.length + i) := by
      intro i l hl
      have hj := hlines (i + 1) l hl
      simp only [added, List.append_assoc, List.singleton_append, List.length_append,
        List.length_singleton]
      rwa [show s.lines.length + 1 + i = s.lines.length + (i + 1) by omega]
    refine (yields_appendAll (s := s.added line) hs hnext).mono ?_
    rintro i t ⟨hi, rfl⟩
    refine ⟨?_, rfl⟩
    rw [hi, if_neg (List.cons_ne_nil _ _)]
    split_ifs with hrest
    · simp [hrest]
    · simp only [added, List.length_append, List.length_cons, List.length_nil]
      omega

end Session

end Deduction
