import Deduction.Proofs.Meaning

/-!
# The meaning of an instance

An instance of a schema says what the schema says, if its templates are taken to mean what they are
bound to (`Schema.instance_holds_iff`). So all instances of a schema that is true in every structure
are true in every structure.

On the way down the schema and its instance part: a quantifier of the schema assigns its variable,
the same quantifier of the instance the variable that this one is renamed to, and renaming need not
be one to one. What stays the same is the value of each variable that the schema mentions and of
its instance (`Bindings.Tracks`), as long as the instance is not refused. All that comes in from
outside has the value it had there, since no quantifier on the way has touched its variables.
-/

namespace Deduction

universe u

variable {D : Type u}

/-- The structure in which each bound constant means what its term means in `M` under `s`, and each
bound relation what its formula means there: as it is, if the relation has no argument, and with
the argument for the placeholder, if it has one. -/
def Interpretation.reinterpret (M : Interpretation D) (bindings : Bindings) (s : String → D) :
    Interpretation D where
  const c := match bindings.get? c with
    | some (.term t) => t.value M s
    | _ => M.const c
  func := M.func
  rel R values := match bindings.get? R.name, values with
    | some (.formula f), [] => f.Holds M s
    | some (.formula f), [d] => f.Holds (M.fill d) s
    | _, _ => M.rel R values

/-- The assignment that gives each bound variable the value of the variable that it is bound to. -/
def Bindings.reassign (bindings : Bindings) (s : String → D) : String → D := fun x =>
  match bindings.get? x with
  | some (.var y) => s y
  | _ => s x

/-! ## Bindings of the right kind -/

namespace Bindings

/-- Each name is bound to a value of the kind that its category takes. -/
def Sorted (bindings : Bindings) : Prop :=
  ∀ name b, bindings.get? name = some b →
    (Category.of? name).bind Category.bindingKind? = some b.kind

variable {bindings : Bindings}

theorem Sorted.of_isVar (h : bindings.Sorted) {x : String} (hx : isVar x) {b : Binding}
    (hb : bindings.get? x = some b) : ∃ y, b = .var y := by
  have hk := h x b hb
  simp only [isVar, decide_eq_true_eq] at hx
  simp only [hx, Option.bind_some, Category.bindingKind?, Option.some.injEq] at hk
  cases b with
  | var y => exact ⟨y, rfl⟩
  | term t => cases hk
  | formula f => cases hk

theorem Sorted.of_isConst (h : bindings.Sorted) {c : String} (hc : isConst c) {b : Binding}
    (hb : bindings.get? c = some b) : ∃ t, b = .term t := by
  have hk := h c b hb
  simp only [isConst, decide_eq_true_eq] at hc
  simp only [hc, Option.bind_some, Category.bindingKind?, Option.some.injEq] at hk
  cases b with
  | var y => cases hk
  | term t => exact ⟨t, rfl⟩
  | formula f => cases hk

theorem Sorted.reassign_apply (h : bindings.Sorted) {x : String} (hx : isVar x)
    (s : String → D) : bindings.reassign s x = s (bindings.rename x) := by
  simp only [reassign, rename, term?]
  cases hb : bindings.get? x with
  | none => rfl
  | some b =>
    obtain ⟨y, rfl⟩ := h.of_isVar hx hb
    rfl

/-- A bound constant means its term, and any other what it meant before. -/
theorem Sorted.const_reinterpret (h : bindings.Sorted) {c : String} (hc : isConst c)
    (M : Interpretation D) (s : String → D) :
    (M.reinterpret bindings s).const c = match bindings.term? c with
      | some t => t.value M s
      | none => M.const c := by
  simp only [Interpretation.reinterpret, term?]
  cases hb : bindings.get? c with
  | none => rfl
  | some b =>
    obtain ⟨t, rfl⟩ := h.of_isConst hc hb
    rfl

theorem get?_of_formula? {name : String} {f : Formula} (h : bindings.formula? name = some f) :
    bindings.get? name = some (.formula f) := by
  simp only [formula?] at h
  split at h
  · rename_i f' hb
    cases h
    exact hb
  · cases h

theorem rel_reinterpret_of_none {R : Symbol} (h : bindings.formula? R.name = none)
    (M : Interpretation D) (s : String → D) (values : List D) :
    (M.reinterpret bindings s).rel R values ↔ M.rel R values := by
  simp only [Interpretation.reinterpret]
  split
  · rename_i f hb
    simp [formula?, hb] at h
  · rename_i f d hb
    simp [formula?, hb] at h
  · exact Iff.rfl

end Bindings

theorem Schema.checkBinding_eq_ok {S : Schema} {name : String} {b : Binding} :
    S.checkBinding name b = .ok () ↔
      name ∈ S.templates ∧ (Category.of? name).bind Category.bindingKind? = some b.kind := by
  simp only [checkBinding]
  split_ifs with hn hk
  · simp [hn, hk]
  · simp [hk]
  · simp [hn]

theorem forM_eq_ok {ε α : Type} {check : α → Except ε Unit} : ∀ {xs : List α},
    xs.forM check = .ok () ↔ ∀ x ∈ xs, check x = .ok ()
  | [] => by simp [List.forM]
  | x :: xs => by
    have ih : xs.forM check = .ok () ↔ ∀ y ∈ xs, check y = .ok () := forM_eq_ok
    simp only [List.forM_eq_forM, List.forM_cons, bind_eq_ok, List.mem_cons,
      forall_eq_or_imp] at ih ⊢
    rw [ih]
    constructor
    · rintro ⟨_, h⟩
      exact h
    · exact fun h => ⟨(), h⟩

theorem Schema.instantiate_of_checked {S : Schema} {bindings : Bindings}
    (h : ∀ e ∈ bindings.entries, S.checkBinding e.1 e.2 = .ok ()) :
    S.instantiate bindings = S.formula.instantiate bindings [] :=
  congrArg (· >>= fun _ => S.formula.instantiate bindings []) (forM_eq_ok.2 h)

theorem Schema.instantiate_eq_ok {S : Schema} {bindings : Bindings} {g : Formula} :
    S.instantiate bindings = .ok g ↔
      (∀ e ∈ bindings.entries, S.checkBinding e.1 e.2 = .ok ()) ∧
        S.formula.instantiate bindings [] = .ok g := by
  constructor
  · intro hok
    simp only [instantiate, bind_eq_ok] at hok
    obtain ⟨_, h, hg⟩ := hok
    exact ⟨forM_eq_ok.1 h, hg⟩
  · rintro ⟨h, hg⟩
    rwa [instantiate_of_checked h]

theorem Schema.sorted_of_instantiate {S : Schema} {bindings : Bindings} {g : Formula}
    (h : S.instantiate bindings = .ok g) : bindings.Sorted := fun _ _ hb =>
  (checkBinding_eq_ok.1 ((instantiate_eq_ok.1 h).1 _ (Table.mem_of_get? hb))).2

/-! ## Along the quantifiers -/

/-- The instance of a variable of the schema is that of its own quantifier, which no quantifier
further in may share. -/
theorem Bindings.variableInstance_cons {bindings : Bindings} {b : Binder} {scope : List Binder}
    {x y : String} : bindings.variableInstance (b :: scope) x = .ok y ↔
      (b.template = x ∧ b.renamed = y) ∨
        (b.template ≠ x ∧ b.renamed ≠ y ∧ bindings.variableInstance scope x = .ok y) := by
  by_cases hb : b.template = x
  · simp [variableInstance, hb]
  · have hrefuse : ∀ (r : String) (taken : Bool),
        (if (decide (b.renamed = r) || taken) = true then .error ⟨r⟩ else .ok r :
          Except Capture String) = .ok y ↔ b.renamed ≠ y ∧
            (if taken = true then .error ⟨r⟩ else .ok r : Except Capture String) = .ok y := by
      intro r taken
      by_cases hr : b.renamed = r
      · cases taken <;> simp [hr]
      · cases taken <;> simp only [hr, decide_false, Bool.or_false, Bool.or_true, if_true,
          Bool.false_eq_true, if_false, Except.ok.injEq, reduceCtorEq, and_false]
        exact ⟨fun h => ⟨h ▸ hr, h⟩, fun h => h.2⟩
    simp only [variableInstance, List.takeWhile_cons, List.dropWhile_cons, hb, ne_eq,
      not_false_eq_true, decide_true, if_true, List.any_cons, false_and, true_and, false_or]
    exact hrefuse _ _

/-- Under the quantifiers of `scope`, with `s` outside of all of them, the instance `y` of a
variable has under `σ` the value that the variable has under `τ`, and what is quantified nowhere
around has the value it has outside. -/
structure Bindings.Tracks (bindings : Bindings) (scope : List Binder) (s σ τ : String → D) :
    Prop where
  inner : ∀ x y, isVar x → bindings.variableInstance scope x = .ok y → σ y = τ x
  outer : ∀ y, y ∉ scope.map Binder.renamed → σ y = s y

namespace Bindings

variable {bindings : Bindings}

theorem Sorted.tracks (h : bindings.Sorted) (s : String → D) :
    bindings.Tracks [] s s (bindings.reassign s) where
  inner x y hx hy := by
    simp only [variableInstance, List.takeWhile_nil, List.dropWhile_nil, List.any_nil,
      Bool.false_eq_true, if_false, Except.ok.injEq] at hy
    rw [h.reassign_apply hx, hy]
  outer _ _ := rfl

/-- One quantifier further in. -/
theorem Tracks.update {scope : List Binder} {s σ τ : String → D}
    (h : bindings.Tracks scope s σ τ) (b : Binder) (d : D) :
    bindings.Tracks (b :: scope) s (Function.update σ b.renamed d)
      (Function.update τ b.template d) where
  inner x y hx hy := by
    rcases variableInstance_cons.1 hy with ⟨rfl, rfl⟩ | ⟨hb, hne, hy⟩
    · simp
    · rw [Function.update_of_ne hne.symm, Function.update_of_ne (Ne.symm hb)]
      exact h.inner x y hx hy
  outer y hy := by
    simp only [List.map_cons, List.mem_cons, not_or] at hy
    rw [Function.update_of_ne hy.1]
    exact h.outer y hy.2

/-- What comes in from outside has the value it had there. -/
theorem Tracks.value_eq {scope : List Binder} {s σ τ : String → D}
    (h : bindings.Tracks scope s σ τ) {t : Term} (ht : ∀ x ∈ t.vars, x ∉ scope.map Binder.renamed)
    (M : Interpretation D) : t.value M σ = t.value M s :=
  Term.value_congr fun x hx => h.outer x (ht x hx)

theorem Tracks.holds_iff {scope : List Binder} {s σ τ : String → D}
    (h : bindings.Tracks scope s σ τ) {f : Formula}
    (hf : ∀ x ∈ f.freeVars, x ∉ scope.map Binder.renamed) (M : Interpretation D) :
    f.Holds M σ ↔ f.Holds M s :=
  Formula.holds_congr fun x hx => h.outer x (hf x hx)

end Bindings

/-! ## The meaning of an instance -/

@[simp]
theorem Capture.lift_eq_ok {α : Type} {x : Except Capture α} {a : α} :
    Capture.lift x = .ok a ↔ x = .ok a := by
  cases x <;> simp [Capture.lift, Except.mapError]

section

variable {bindings : Bindings} {M : Interpretation D} {s : String → D}

namespace Term

mutual

theorem value_instantiate (hs : bindings.Sorted) {scope : List Binder} {σ τ : String → D}
    (h : bindings.Tracks scope s σ τ) : ∀ {t t' : Term}, t.WellFormed →
      t.instantiate bindings scope = .ok t' → t'.value M σ = t.value (M.reinterpret bindings s) τ
  | .var x, t', ht, hi => by
    simp only [instantiate, bind_eq_ok, pure_eq_ok] at hi
    obtain ⟨y, hy, rfl⟩ := hi
    exact h.inner x y ht hy
  | .const c, t', ht, hi => by
    simp only [value, hs.const_reinterpret ht]
    simp only [instantiate] at hi
    cases hc : bindings.term? c with
    | some u =>
      simp only [hc, admit_eq_ok] at hi
      obtain ⟨rfl, hv⟩ := hi
      exact h.value_eq hv M
    | none =>
      simp only [hc, Except.ok.injEq] at hi
      rw [← hi]
      rfl
  | .app f args, t', ht, hi => by
    simp only [instantiate, bind_eq_ok, pure_eq_ok] at hi
    obtain ⟨args', hargs, rfl⟩ := hi
    simp only [value, values_instantiate hs h ht.2.2 hargs]
    rfl

theorem values_instantiate (hs : bindings.Sorted) {scope : List Binder} {σ τ : String → D}
    (h : bindings.Tracks scope s σ τ) : ∀ {ts ts' : List Term}, WellFormedList ts →
      instantiateList bindings scope ts = .ok ts' →
      values M σ ts' = values (M.reinterpret bindings s) τ ts
  | [], ts', _, hi => by
    simp only [instantiateList, Except.ok.injEq] at hi
    rw [← hi]
    rfl
  | t :: ts, ts', ht, hi => by
    simp only [instantiateList, bind_eq_ok, pure_eq_ok] at hi
    obtain ⟨u, hu, us, hus, rfl⟩ := hi
    simp only [values, value_instantiate hs h ht.1 hu, values_instantiate hs h ht.2 hus]

end

end Term

namespace Formula

/-- The formula in the place of a bound relation, which takes at most one argument. -/
theorem instantiateRelation_eq_ok {scope : List Binder} {relation : String} {body g : Formula}
    {args : List Term} : instantiateRelation bindings scope relation body args = .ok g ↔
      (∀ x ∈ body.freeVars, x ∉ scope.map Binder.renamed) ∧
        ((args = [] ∧ body = g) ∨ ∃ t t', args = [t] ∧ t.instantiate bindings scope = .ok t' ∧
          body.substitute (.single placeholder t') [] = .ok g) := by
  have hleast : NameSet.least? (body.freeVars.filter (· ∈ scope.map Binder.renamed)) = none ↔
      ∀ x ∈ body.freeVars, x ∉ scope.map Binder.renamed := by
    simp [NameSet.least?_eq_none, List.filter_eq_nil_iff]
  unfold instantiateRelation
  rw [← hleast]
  -- Two arguments are refused at once, and one is looked at only behind the free variables.
  match args with
  | [] => cases NameSet.least? (body.freeVars.filter (· ∈ scope.map Binder.renamed)) <;> simp
  | [t] => cases NameSet.least? (body.freeVars.filter (· ∈ scope.map Binder.renamed)) <;> simp
  | _ :: _ :: _ => simp

theorem holds_instantiateRelation (hs : bindings.Sorted) (hb : bindings.WellFormed)
    {scope : List Binder} {σ τ : String → D} (h : bindings.Tracks scope s σ τ) {R : Symbol}
    {body g : Formula} {args : List Term} (hR : bindings.formula? R.name = some body)
    (hargs : Term.WellFormedList args)
    (hi : instantiateRelation bindings scope R.name body args = .ok g) :
    g.Holds M σ ↔
      (M.reinterpret bindings s).rel R (Term.values (M.reinterpret bindings s) τ args) := by
  have hget := Bindings.get?_of_formula? hR
  have hwf : body.WellFormed := hb.get? hget
  obtain ⟨hfree, ⟨rfl, rfl⟩ | ⟨t, t', rfl, ht', hsub⟩⟩ := instantiateRelation_eq_ok.1 hi
  · simp only [Term.values, Interpretation.reinterpret, hget]
    exact h.holds_iff hfree M
  · rw [holds_fill hwf hsub, Term.value_instantiate hs h hargs.1 ht']
    simp only [Term.values, Interpretation.reinterpret, hget]
    exact h.holds_iff hfree _

theorem holds_instantiate (hs : bindings.Sorted) (hb : bindings.WellFormed) :
    ∀ {f g : Formula} {scope : List Binder} {σ τ : String → D}, bindings.Tracks scope s σ τ →
      f.WellFormed → f.instantiate bindings scope = .ok g →
      (g.Holds M σ ↔ f.Holds (M.reinterpret bindings s) τ)
  | .equality l r, g, scope, σ, τ, h, hf, hi => by
    simp only [instantiate, Capture.lift_eq_ok, bind_eq_ok, pure_eq_ok] at hi
    obtain ⟨l', hl, r', hr, rfl⟩ := hi
    simp only [Holds, Term.value_instantiate hs h hf.1 hl, Term.value_instantiate hs h hf.2 hr]
  | .relation R args, g, scope, σ, τ, h, hf, hi => by
    simp only [instantiate] at hi
    split at hi
    · rename_i body hR
      exact holds_instantiateRelation hs hb h hR hf.2.2 hi
    · rename_i hR
      simp only [Capture.lift_eq_ok, bind_eq_ok, pure_eq_ok] at hi
      obtain ⟨args', hargs, rfl⟩ := hi
      simp only [Holds, Term.values_instantiate hs h hf.2.2 hargs,
        Bindings.rel_reinterpret_of_none hR]
  | .neg f, g, scope, σ, τ, h, hf, hi => by
    simp only [instantiate, bind_eq_ok, pure_eq_ok] at hi
    obtain ⟨f', hf', rfl⟩ := hi
    simp only [Holds, holds_instantiate hs hb (f := f) h hf hf']
  | .binary op l r, g, scope, σ, τ, h, hf, hi => by
    simp only [instantiate, bind_eq_ok, pure_eq_ok] at hi
    obtain ⟨l', hl, r', hr, rfl⟩ := hi
    simp only [Holds, holds_instantiate hs hb h hf.1 hl, holds_instantiate hs hb h hf.2 hr]
  | .quantified q x f, g, scope, σ, τ, h, hf, hi => by
    simp only [instantiate, bind_eq_ok, pure_eq_ok] at hi
    obtain ⟨f', hf', rfl⟩ := hi
    exact Quantifier.ranges_congr fun d =>
      holds_instantiate hs hb (h.update ⟨x, bindings.rename x⟩ d) hf.2 hf'

end Formula

end

/-- An instance of a schema is true just where the schema is, with its templates taken to mean what
they are bound to. -/
theorem Schema.instance_holds_iff {S : Schema} (hS : S.WellFormed) {bindings : Bindings}
    (hb : bindings.WellFormed) {g : Formula} (h : S.instantiate bindings = .ok g)
    (M : Interpretation D) (s : String → D) :
    g.Holds M s ↔ S.formula.Holds (M.reinterpret bindings s) (bindings.reassign s) :=
  have hs := sorted_of_instantiate h
  Formula.holds_instantiate hs hb (hs.tracks s) hS (instantiate_eq_ok.1 h).2

/-- `(Ax[R(x)]&R(x))` with `y` for `x`, in its quantifier too, and `Ex[S(_,x)]` for `R`, where `S`
says of natural numbers that the first is less than the second, and `y` is zero. -/
theorem Schema.instance_holds_iff_renamed :
    let S := Schema.ofTemplates (.conj (.all "x" (.holds "R" [.var "x"])) (.holds "R" [.var "x"]))
      ["R", "x"]
    let bindings : Bindings := .ofList
      [("R", .formula (.ex "x" (.holds "S" [.const "_", .var "x"]))), ("x", .var "y")]
    let g := Formula.conj (.all "y" (.ex "x" (.holds "S" [.var "y", .var "x"])))
      (.ex "x" (.holds "S" [.var "y", .var "x"]))
    let M : Interpretation Nat := ⟨fun _ => 1, fun _ _ => 2, fun _ ds => ds.getD 0 0 < ds.getD 1 0⟩
    S.WellFormed ∧ bindings.WellFormed ∧ S.instantiate bindings = .ok g ∧
      (g.Holds M (fun _ => 0) ↔
        S.formula.Holds (M.reinterpret bindings fun _ => 0) (bindings.reassign fun _ => 0)) :=
  ⟨by decide, by decide, rfl, instance_holds_iff (by decide) (by decide) rfl _ _⟩

end Deduction
