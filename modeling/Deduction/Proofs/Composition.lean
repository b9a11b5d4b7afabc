import Deduction.Proofs.Oracle

/-!
# What the steps of a session are put together from

A step looks at the session, makes remarks in the journal, takes fresh variables, asks the oracle,
and does some things of which nothing else is known here: the base. It puts these together one after
the other and in transactions (`Session.Composed`). Every step of the caller is composed of
primitive ones (`Session.composed_build`), and these of single lines that are added
(`Session.Primitive.composed`). So what holds of the base and is kept by composition holds of every
step, whatever its arguments are.
-/

namespace Deduction

/-- The event says nothing of any line. -/
def Event.IsRemark : Event → Prop
  | .lineAdded .. | .lineRejected .. | .rolledBack .. => False
  | _ => True

/-- A line was refused when it was to be added. -/
def SessionFault.IsRejection : SessionFault → Prop
  | .rejected .. => True
  | _ => False

namespace Session

variable {σ α β γ : Type} {base : Build σ Nat → Prop}

/-- The action is put together from actions of the base and from others that neither add lines nor
take any back nor refuse one. -/
inductive Composed (base : Build σ Nat → Prop) : {α : Type} → Build σ α → Prop
  | base {action : Build σ Nat} (h : base action) : Composed base action
  | pure {α : Type} (a : α) : Composed base (pure a)
  | throw {α : Type} {e : SessionFault} (h : ¬e.IsRejection) : Composed base (throw e : Build σ α)
  | get : Composed base get
  | note {e : Event} (h : e.IsRemark) : Composed base (note e)
  | freshVariable (used : List String) : Composed base (freshVariable used)
  | lift {α : Type} {x : StateM (Session σ) α} (h : ∀ s, ∃ r, x.run s = s.withMemory r) :
    Composed base (liftM x : Build σ α)
  | bind {α β : Type} {action : Build σ α} {next : α → Build σ β} (h : Composed base action)
    (hnext : ∀ a, Composed base (next a)) : Composed base (action >>= next)
  | transaction {step : Build σ Nat} (h : Composed base step) : Composed base (transaction step)

namespace Composed

theorem of_base {base' : Build σ Nat → Prop} (hbase : ∀ action, base action → Composed base' action)
    {action : Build σ α} (h : Composed base action) : Composed base' action := by
  induction h with
  | base h => exact hbase _ h
  | pure a => exact .pure a
  | throw h => exact .throw h
  | get => exact .get
  | note h => exact .note h
  | freshVariable used => exact .freshVariable used
  | lift h => exact .lift h
  | bind _ _ ih ihnext => exact .bind ih ihnext
  | transaction _ ih => exact .transaction ih

/-! ## Looking -/

theorem rejectPlaceholder (f : Formula) : Composed base (rejectPlaceholder f) := by
  unfold Session.rejectPlaceholder
  split_ifs
  · exact .throw not_false
  · exact .pure ()

theorem rejectPlaceholderTerm (t : Term) : Composed base (rejectPlaceholderTerm t) := by
  unfold Session.rejectPlaceholderTerm
  split_ifs
  · exact .throw not_false
  · exact .pure ()

theorem require (expected found : Formula) : Composed base (require expected found) := by
  unfold Session.require
  split_ifs
  · exact .pure ()
  · exact .throw not_false

theorem liftCapture (result : Except Capture α) : Composed base (liftCapture result) := by
  unfold Session.liftCapture
  split
  · exact .pure _
  · exact .throw not_false

theorem formulaAt (line : Nat) : Composed base (formulaAt line) := by
  refine .bind .get fun s => ?_
  dsimp only
  split
  · exact .pure _
  · exact .throw not_false

theorem equalityAt (line : Nat) : Composed base (equalityAt line) := by
  refine .bind (formulaAt line) fun f => ?_
  split
  · exact .pure _
  · exact .throw not_false

theorem quantifiedAt (q : Quantifier) (line : Nat) : Composed base (quantifiedAt q line) := by
  refine .bind (formulaAt line) fun f => ?_
  split
  · exact .pure _
  · exact .throw not_false

/-- A condition that ends the action. -/
theorem guard {c : Prop} [Decidable c] {e : SessionFault} (he : ¬e.IsRejection)
    {next : PUnit → Build σ α} (h : Composed base (next ⟨⟩)) :
    Composed base (if c then MonadExcept.throw e >>= next else next ⟨⟩) := by
  split_ifs
  · exact .bind (.throw he) fun _ => h
  · exact h

theorem forM {check : γ → Build σ Unit} (h : ∀ x, Composed base (check x)) :
    ∀ xs : List γ, Composed base (xs.forM check)
  | [] => .pure ()
  | x :: xs => .bind (h x) fun _ => forM h xs

theorem mapM {look : γ → Build σ α} (h : ∀ x, Composed base (look x)) :
    ∀ xs : List γ, Composed base (xs.mapM look)
  | [] => .pure []
  | x :: xs => by
    rw [List.mapM_cons]
    exact .bind (h x) fun _ => .bind (mapM h xs) fun _ => .pure _

theorem foldlM {step : α → γ → Build σ α} (h : ∀ a x, Composed base (step a x)) :
    ∀ (xs : List γ) (a : α), Composed base (xs.foldlM step a)
  | [], a => .pure a
  | x :: xs, a => .bind (h a x) fun b => foldlM h xs b

end Composed

/-! ## Primitive steps -/

/-- The action is one of the steps that add lines themselves. -/
inductive Primitive : Build σ Nat → Prop
  | instantiate (goal : Formula) (schema : Schema) (bindings : Bindings) :
    Primitive (instantiate goal schema bindings)
  | tautology (goal : Formula) : Primitive (tautology goal)
  | modusPonens (goal : Formula) (antecedent conditional : Nat) :
    Primitive (modusPonens goal antecedent conditional)
  | generalize (goal : Formula) (line : Nat) : Primitive (generalize goal line)
  | inline (goal : Formula) (proof : Proof) : Primitive (inline goal proof)

/-- The action adds one line. -/
inductive Appends : Build σ Nat → Prop
  | append (line : Line) : Appends (append line)

theorem composed_appendAll : ∀ (lines : List Line) (last : Nat),
    Composed Appends (appendAll last lines : Build σ Nat)
  | [], last => .pure last
  | line :: rest, _ => .bind (.base (.append line)) fun index => composed_appendAll rest index

theorem Primitive.composed {action : Build σ Nat} (h : Primitive action) :
    Composed Appends action := by
  cases h with
  | instantiate goal schema bindings =>
    refine .bind (.rejectPlaceholder goal) fun _ => .bind .get fun s =>
      .guard (e := .unknownAssumption schema) not_false ?_
    split
    · exact .throw not_false
    · exact .bind (.require ..) fun _ => .base (.append _)
  | tautology goal =>
    refine .bind (.rejectPlaceholder goal) fun _ =>
      .bind (.lift fun s => ⟨_, run_ask s _⟩) fun yes => ?_
    split_ifs
    · exact .base (.append _)
    · exact .throw not_false
  | modusPonens goal antecedent conditional =>
    exact .bind (.rejectPlaceholder goal) fun _ => .bind (.formulaAt antecedent) fun _ =>
      .bind (.formulaAt conditional) fun _ => .bind (.require ..) fun _ => .base (.append _)
  | generalize goal line =>
    refine .bind (.rejectPlaceholder goal) fun _ => .bind (.formulaAt line) fun body => ?_
    split
    · split_ifs
      · exact .base (.append _)
      · exact .throw not_false
    · exact .throw not_false
  | inline goal proof =>
    refine .bind (.note trivial) fun _ => .bind (.rejectPlaceholder goal) fun _ =>
      .bind (.forM (fun line => .rejectPlaceholder line.formula) proof.lines) fun _ =>
      .bind (.require ..) fun _ => .bind .get fun s => ?_
    dsimp only
    split
    · exact .throw not_false
    · refine .bind (.lift fun s => ⟨_, run_verifyM_ask s proof⟩) fun verdict => ?_
      split
      · exact .throw not_false
      · exact .transaction (composed_appendAll ..)

/-! ## Steps of the caller -/

theorem composed_specialize (goal : Formula) (line : Nat) (term : Term) :
    Composed Primitive (specialize goal line term : Build σ Nat) :=
  .bind (.note trivial) fun _ => .bind (.rejectPlaceholder goal) fun _ =>
    .bind (.rejectPlaceholderTerm term) fun _ => .bind (.quantifiedAt .universal line) fun _ =>
    .bind (.liftCapture _) fun _ => .bind (.require ..) fun _ => .bind (.liftCapture _) fun _ =>
    .transaction (.bind (.base (.instantiate ..)) fun _ => .base (.modusPonens ..))

theorem composed_generalizeAndSpecialize (f : Formula) (line : Nat) (x : String) (term : Term) :
    Composed Primitive (generalizeAndSpecialize f line x term : Build σ (Formula × Nat)) :=
  .bind (.liftCapture _) fun _ => .bind (.base (.generalize ..)) fun _ =>
    .bind (composed_specialize ..) fun _ => .pure _

theorem composed_freshFor : ∀ (entries : List (String × Term)) (used : List String),
    Composed base (freshFor used entries : Build σ (List (String × String × Term)))
  | [], _ => .pure []
  | _ :: rest, used => .bind (.freshVariable used) fun _ =>
    .bind (composed_freshFor rest _) fun _ => .pure _

theorem composed_instantiateFree (goal : Formula) (line : Nat) (m : Substitution) :
    Composed Primitive (instantiateFree goal line m : Build σ Nat) := by
  refine .bind (.note trivial) fun _ => .bind (.rejectPlaceholder goal) fun _ =>
    .bind (.forM (fun e => .rejectPlaceholderTerm e.2) m.entries) fun _ => ?_
  split
  · exact .throw not_false
  refine .bind (.formulaAt line) fun source => .bind (.liftCapture _) fun _ =>
    .bind (.require ..) fun _ => ?_
  dsimp only
  split_ifs
  · exact .pure line
  · exact .bind (composed_freshFor ..) fun renamings => .transaction
      (.bind (.foldlM (fun _ _ => composed_generalizeAndSpecialize ..) renamings _) fun _ =>
        .bind (.foldlM (fun _ _ => composed_generalizeAndSpecialize ..) renamings _) fun _ =>
        .pure _)

theorem composed_discharge (goal : Formula) : ∀ (premises : List (Nat × Formula)) (current : Nat),
    Composed Primitive (discharge goal current premises : Build σ Nat)
  | [], current => .pure current
  | _ :: rest, _ => .bind (.base (.modusPonens ..)) fun current =>
    composed_discharge goal rest current

theorem composed_conclude (goal : Formula) (lines : List Nat) :
    Composed Primitive (conclude goal lines : Build σ Nat) :=
  .bind (.note trivial) fun _ => .bind (.rejectPlaceholder goal) fun _ =>
    .bind (.mapM .formulaAt lines.reverse) fun _ => .transaction
    (.bind (.base (.tautology _)) fun _ => composed_discharge ..)

theorem composed_eliminate (goal : Formula) (existential conditional : Nat) :
    Composed Primitive (eliminate goal existential conditional : Build σ Nat) := by
  refine .bind (.note trivial) fun _ => .bind (.rejectPlaceholder goal) fun _ =>
    .bind (.quantifiedAt .existential existential) fun ⟨x, body⟩ =>
    .bind (.formulaAt conditional) fun _ => .bind (.require ..) fun _ =>
    .guard (e := .freeVariable x goal) not_false ?_
  exact .bind (.liftCapture _) fun _ => .transaction
    (.bind (.base (.generalize ..)) fun _ => .bind (.base (.instantiate ..)) fun _ =>
      composed_conclude ..)

theorem composed_flip (goal : Formula) (line : Nat) :
    Composed Primitive (flip goal line : Build σ Nat) :=
  .bind (.note trivial) fun _ => .bind (.rejectPlaceholder goal) fun _ =>
    .bind (.equalityAt line) fun _ => .bind (.require ..) fun _ => .transaction
    (.bind (.base (.instantiate ..)) fun _ => .bind (.base (.modusPonens ..)) fun _ =>
      .bind (.base (.instantiate ..)) fun _ => .base (.modusPonens ..))

theorem composed_replaceEqual (goal : Formula) (line : Nat) (parametrized : Term) :
    Composed Primitive (replaceEqual goal line parametrized : Build σ Nat) :=
  .bind (.note trivial) fun _ => .bind (.rejectPlaceholder goal) fun _ =>
    .bind (.equalityAt line) fun _ => .bind (.liftCapture _) fun _ =>
    .bind (.liftCapture _) fun _ => .bind (.require ..) fun _ => .transaction
    (.bind (.base (.instantiate ..)) fun _ => .bind (.base (.modusPonens ..)) fun _ =>
      .bind (.base (.instantiate ..)) fun _ => .base (.modusPonens ..))

theorem composed_chainAll (a : Term) : ∀ (links : List (Nat × Term × Term)) (left : Nat),
    Composed Primitive (chainAll a left links : Build σ Nat)
  | [], left => .pure left
  | _ :: rest, _ => .bind
    (.bind (composed_flip ..) fun _ => .bind (.base (.instantiate ..)) fun _ =>
      .bind (.base (.modusPonens ..)) fun _ => .base (.modusPonens ..))
    fun left => composed_chainAll a rest left

theorem composed_chain (goal : Formula) (lines : List Nat) :
    Composed Primitive (chain goal lines : Build σ Nat) := by
  refine .bind (.note trivial) fun _ => .bind (.rejectPlaceholder goal) fun _ => ?_
  split
  · refine .bind (.equalityAt _) fun _ =>
      .bind (.mapM (fun line => .bind (.equalityAt line) fun _ => .pure _) _) fun links => ?_
    split
    · exact .throw not_false
    · exact .bind (.require ..) fun _ => .transaction (composed_chainAll ..)
  · exact .throw not_false

theorem composed_build (step : Step) : Composed Primitive (step.build : Build σ Nat) := by
  cases step with
  | assume goal => exact .base (.instantiate ..)
  | instantiate goal schema bindings => exact .base (.instantiate ..)
  | tautology goal => exact .base (.tautology goal)
  | modusPonens goal antecedent conditional => exact .base (.modusPonens ..)
  | generalize goal line => exact .base (.generalize ..)
  | specialize goal line term => exact composed_specialize goal line term
  | conclude goal lines => exact composed_conclude goal lines
  | eliminate goal existential conditional =>
    exact composed_eliminate goal existential conditional
  | instantiateFree goal line m => exact composed_instantiateFree goal line m
  | flip goal line => exact composed_flip goal line
  | replaceEqual goal line parametrized => exact composed_replaceEqual goal line parametrized
  | chain goal lines => exact composed_chain goal lines
  | inline goal proof => exact .base (.inline goal proof)

theorem composed_close : Composed base (close : Build σ Proof) := by
  refine .bind .get fun s => ?_
  split
  · exact .throw not_false
  · exact .bind (.note trivial) fun _ => .pure _

end Session

end Deduction
