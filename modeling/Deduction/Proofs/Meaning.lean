import Deduction.Proofs.Substitution
import Mathlib.Logic.Function.Basic
import Mathlib.Tactic.SplitIfs

/-!
# Truth in a structure

An interpretation gives each constant, the placeholder among them, an element of its domain, each
function symbol a function and each relation symbol a relation on it. Equality means identity. The
domain is not empty, since the constants are in it. A term then has a value and a formula is true
or not, both depending on what the variables are assigned.

A formula after a substitution says what the formula said before of the values of the replacements
(`Formula.holds_substitute`). The values are those outside of all quantifiers. A replacement keeps
its value on the way down to its place, because none of the variables that are assigned anew on
the way occurs in it.
-/

namespace Deduction

universe u

/-- A first-order structure on the domain `D`. -/
structure Interpretation (D : Type u) where
  const : String → D
  func : Symbol → List D → D
  rel : Symbol → List D → Prop

variable {D : Type u}

/-- The structure with the value `d` for the placeholder. -/
def Interpretation.fill (M : Interpretation D) (d : D) : Interpretation D :=
  { M with const := Function.update M.const placeholder d }

theorem Interpretation.const_fill (M : Interpretation D) (d : D) (c : String) :
    (M.fill d).const c = if c = placeholder then d else M.const c :=
  Function.update_apply ..

namespace Term

mutual

def value (M : Interpretation D) (s : String → D) : Term → D
  | .var x => s x
  | .const c => M.const c
  | .app f args => M.func f (values M s args)

def values (M : Interpretation D) (s : String → D) : List Term → List D
  | [] => []
  | t :: ts => value M s t :: values M s ts

end

end Term

/-- The meaning of a connective. -/
def Connective.Joins : Connective → Prop → Prop → Prop
  | .and, p, q => p ∧ q
  | .or, p, q => p ∨ q
  | .implies, p, q => p → q

/-- The meaning of a quantifier. -/
def Quantifier.Ranges : Quantifier → (D → Prop) → Prop
  | .universal, P => ∀ d, P d
  | .existential, P => ∃ d, P d

theorem Quantifier.ranges_congr {q : Quantifier} {P Q : D → Prop} (h : ∀ d, P d ↔ Q d) :
    q.Ranges P ↔ q.Ranges Q := by
  cases q with
  | universal => exact forall_congr' h
  | existential => exact exists_congr h

/-- The formula is true in the structure `M` if the variables have the values that `s` assigns. -/
def Formula.Holds (M : Interpretation D) (s : String → D) : Formula → Prop
  | .equality l r => l.value M s = r.value M s
  | .relation R args => M.rel R (Term.values M s args)
  | .neg f => ¬ f.Holds M s
  | .binary op l r => op.Joins (l.Holds M s) (r.Holds M s)
  | .quantified q x f => q.Ranges fun d => f.Holds M (Function.update s x d)

/-- The formula is true in the structure, whatever the variables are assigned. -/
def Interpretation.Satisfies (M : Interpretation D) (f : Formula) : Prop := ∀ s, f.Holds M s

/-! ## What the meaning depends on -/

namespace Term

mutual

theorem value_congr {M : Interpretation D} {s s' : String → D} : ∀ {t : Term},
    (∀ x ∈ t.vars, s x = s' x) → t.value M s = t.value M s'
  | .var x, h => h x (by simp [vars])
  | .const _, _ => rfl
  | .app f args, h => by
    simp only [vars] at h
    simp only [value, values_congr h]

theorem values_congr {M : Interpretation D} {s s' : String → D} : ∀ {ts : List Term},
    (∀ x ∈ varsOfList ts, s x = s' x) → values M s ts = values M s' ts
  | [], _ => rfl
  | t :: ts, h => by
    simp only [varsOfList, List.mem_append] at h
    have ht : t.value M s = t.value M s' := value_congr fun x hx => h x (.inl hx)
    have hts : values M s ts = values M s' ts := values_congr fun x hx => h x (.inr hx)
    simp only [values, ht, hts]

end

end Term

theorem Formula.holds_congr {M : Interpretation D} : ∀ {f : Formula} {s s' : String → D},
    (∀ x ∈ f.freeVars, s x = s' x) → (f.Holds M s ↔ f.Holds M s')
  | .equality l r, s, s', h => by
    simp only [freeVars, List.mem_append] at h
    have hl : l.value M s = l.value M s' := Term.value_congr fun x hx => h x (.inl hx)
    have hr : r.value M s = r.value M s' := Term.value_congr fun x hx => h x (.inr hx)
    simp only [Holds, hl, hr]
  | .relation R args, s, s', h => by
    simp only [freeVars] at h
    simp only [Holds, Term.values_congr h]
  | .neg f, s, s', h => by
    simp only [Holds, holds_congr (f := f) h]
  | .binary op l r, s, s', h => by
    simp only [freeVars, List.mem_append] at h
    have hl : l.Holds M s ↔ l.Holds M s' := holds_congr fun x hx => h x (.inl hx)
    have hr : r.Holds M s ↔ r.Holds M s' := holds_congr fun x hx => h x (.inr hx)
    simp only [Holds, hl, hr]
  | .quantified q x f, s, s', h => by
    simp only [freeVars, List.mem_filter, decide_eq_true_eq] at h
    refine Quantifier.ranges_congr fun d => holds_congr fun y hy => ?_
    by_cases hyx : y = x
    · simp [hyx]
    · rw [Function.update_of_ne hyx, Function.update_of_ne hyx]
      exact h y ⟨hy, hyx⟩

/-! ## The meaning of a substitution -/

/-- The structure `M'` and the assignment `s'` give each name the value that its replacement has in
`M` under `s`. Nothing is said of replacements with forbidden variables. -/
structure Substitution.Read (m : Substitution) (forbidden : List String) (M M' : Interpretation D)
    (s s' : String → D) : Prop where
  func : M'.func = M.func
  rel : M'.rel = M.rel
  var_none : ∀ x, isVar x → m.get? x = none → s' x = s x
  var_some : ∀ x t, isVar x → m.get? x = some t → (∀ y ∈ t.vars, y ∉ forbidden) →
    s' x = t.value M s
  const_none : ∀ c, isConst c → m.get? c = none → M'.const c = M.const c
  const_some : ∀ c t, isConst c → m.get? c = some t → (∀ y ∈ t.vars, y ∉ forbidden) →
    M'.const c = t.value M s

/-- Under a quantifier both assignments give its variable the same new value. -/
theorem Substitution.Read.update {m : Substitution} {forbidden : List String}
    {M M' : Interpretation D} {s s' : String → D} (h : m.Read forbidden M M' s s') {x : String}
    (hx : isVar x) (d : D) : Read (m.erase x) (x :: forbidden) M M' (Function.update s x d)
      (Function.update s' x d) := by
  have hkeep : ∀ t : Term, (∀ y ∈ t.vars, y ∉ x :: forbidden) →
      t.value M (Function.update s x d) = t.value M s := by
    intro t ht
    refine Term.value_congr fun y hy => Function.update_of_ne ?_ _ _
    rintro rfl
    exact ht y hy (List.mem_cons_self ..)
  have hfew : ∀ t : Term, (∀ y ∈ t.vars, y ∉ x :: forbidden) → ∀ y ∈ t.vars, y ∉ forbidden :=
    fun t ht y hy hm => ht y hy (List.mem_cons_of_mem _ hm)
  refine ⟨h.func, h.rel, fun y hy hn => ?_, fun y t hy ht hv => ?_, fun c hc hn => ?_,
    fun c t hc ht hv => ?_⟩
  · by_cases hyx : y = x
    · simp [hyx]
    · rw [Table.get?_erase, if_neg hyx] at hn
      rw [Function.update_of_ne hyx, Function.update_of_ne hyx]
      exact h.var_none y hy hn
  · rw [Table.get?_erase] at ht
    split_ifs at ht with hyx
    rw [Function.update_of_ne hyx, hkeep t hv]
    exact h.var_some y t hy ht (hfew t hv)
  · rw [Table.get?_erase, if_neg (isVar_ne_isConst hx hc).symm] at hn
    exact h.const_none c hc hn
  · rw [Table.get?_erase] at ht
    split_ifs at ht with hcx
    rw [hkeep t hv]
    exact h.const_some c t hc ht (hfew t hv)

namespace Term

mutual

theorem value_substitute {m : Substitution} {forbidden : List String} {M M' : Interpretation D}
    {s s' : String → D} (hr : m.Read forbidden M M' s s') : ∀ {t t' : Term}, t.WellFormed →
      t.substitute m forbidden = .ok t' → t'.value M s = t.value M' s'
  | .var x, t', ht, h => by
    rcases substitute_var_eq_ok.1 h with ⟨hx, hv⟩ | ⟨hx, rfl⟩
    · exact (hr.var_some x t' ht hx hv).symm
    · exact (hr.var_none x ht hx).symm
  | .const c, t', ht, h => by
    rcases substitute_const_eq_ok.1 h with ⟨hc, hv⟩ | ⟨hc, rfl⟩
    · exact (hr.const_some c t' ht hc hv).symm
    · exact (hr.const_none c ht hc).symm
  | .app f args, t', ht, h => by
    simp only [substitute, bind_eq_ok, pure_eq_ok] at h
    obtain ⟨args', hargs, rfl⟩ := h
    simp only [value, hr.func, values_substitute hr ht.2.2 hargs]

theorem values_substitute {m : Substitution} {forbidden : List String} {M M' : Interpretation D}
    {s s' : String → D} (hr : m.Read forbidden M M' s s') : ∀ {ts ts' : List Term},
      WellFormedList ts → substituteList m forbidden ts = .ok ts' →
      values M s ts' = values M' s' ts
  | [], ts', _, h => by
    simp only [substituteList, Except.ok.injEq] at h
    rw [← h]
    rfl
  | t :: ts, ts', ht, h => by
    simp only [substituteList, bind_eq_ok, pure_eq_ok] at h
    obtain ⟨u, hu, us, hus, rfl⟩ := h
    simp only [values, value_substitute hr ht.1 hu, values_substitute hr ht.2 hus]

end

end Term

theorem Formula.holds_substitute : ∀ {f g : Formula} {m : Substitution} {forbidden : List String}
    {M M' : Interpretation D} {s s' : String → D}, m.Read forbidden M M' s s' → f.WellFormed →
      f.substitute m forbidden = .ok g → (g.Holds M s ↔ f.Holds M' s')
  | .equality l r, g, m, forbidden, M, M', s, s', hr, hf, h => by
    simp only [substitute, bind_eq_ok, pure_eq_ok] at h
    obtain ⟨l', hl, r', hr', rfl⟩ := h
    simp only [Holds, Term.value_substitute hr hf.1 hl, Term.value_substitute hr hf.2 hr']
  | .relation R args, g, m, forbidden, M, M', s, s', hr, hf, h => by
    simp only [substitute, bind_eq_ok, pure_eq_ok] at h
    obtain ⟨args', hargs, rfl⟩ := h
    simp only [Holds, hr.rel, Term.values_substitute hr hf.2.2 hargs]
  | .neg f, g, m, forbidden, M, M', s, s', hr, hf, h => by
    simp only [substitute, bind_eq_ok, pure_eq_ok] at h
    obtain ⟨f', hf', rfl⟩ := h
    simp only [Holds, holds_substitute (f := f) hr hf hf']
  | .binary op l r, g, m, forbidden, M, M', s, s', hr, hf, h => by
    simp only [substitute, bind_eq_ok, pure_eq_ok] at h
    obtain ⟨l', hl, r', hr', rfl⟩ := h
    simp only [Holds, holds_substitute hr hf.1 hl, holds_substitute hr hf.2 hr']
  | .quantified q x f, g, m, forbidden, M, M', s, s', hr, hf, h => by
    simp only [substitute, bind_eq_ok, pure_eq_ok] at h
    obtain ⟨f', hf', rfl⟩ := h
    exact Quantifier.ranges_congr fun d => holds_substitute (hr.update hf.1 d) hf.2 hf'

/-- The structure in which each constant that has a replacement means what this one means in `M`
under `s`. -/
def Interpretation.replace (M : Interpretation D) (m : Substitution) (s : String → D) :
    Interpretation D where
  const c := match m.get? c with
    | some t => t.value M s
    | none => M.const c
  func := M.func
  rel := M.rel

/-- The assignment that gives each variable which has a replacement the value of this one. -/
def Substitution.assign (m : Substitution) (M : Interpretation D) (s : String → D) : String → D :=
  fun x => match m.get? x with
    | some t => t.value M s
    | none => s x

theorem Substitution.read_replace (m : Substitution) (forbidden : List String)
    (M : Interpretation D) (s : String → D) :
    m.Read forbidden M (M.replace m s) s (m.assign M s) where
  func := rfl
  rel := rfl
  var_none x _ hx := by simp only [assign, hx]
  var_some x t _ hx _ := by simp only [assign, hx]
  const_none c _ hc := by simp only [Interpretation.replace, hc]
  const_some c t _ hc _ := by simp only [Interpretation.replace, hc]

/-- A formula after a substitution is true just when the formula before it is true in the structure
and under the assignment that have the values of the replacements for what is replaced. A term after
a substitution has the value that the term before it has there. -/
theorem Substitution.substitute_means (m : Substitution) (forbidden : List String)
    (M : Interpretation D) (s : String → D) :
    (∀ f g : Formula, f.WellFormed → f.substitute m forbidden = .ok g →
      (g.Holds M s ↔ f.Holds (M.replace m s) (m.assign M s))) ∧
    ∀ t t' : Term, t.WellFormed → t.substitute m forbidden = .ok t' →
      t'.value M s = t.value (M.replace m s) (m.assign M s) := by
  have hread := m.read_replace forbidden M s
  exact ⟨fun f g hf h => Formula.holds_substitute hread hf h,
    fun t t' ht h => Term.value_substitute hread ht h⟩

/-- `(Ex[S(x,y)]&~x=c)` with `d` for `x`, `p(c,z)` for `y` and `x` for `c`, where `p` is a sum and
`S` says that the first is not less than the second. The quantified `x` stays, and the `c` that
comes in with the replacement for `y` keeps its meaning. -/
theorem Substitution.substitute_means_simultaneous :
    let p : List Term → Term := .app ⟨"p", 2⟩
    let m : Substitution := .ofList
      [("x", .const "d"), ("y", p [.const "c", .var "z"]), ("c", .var "x")]
    let f := Formula.conj (.ex "x" (.holds "S" [.var "x", .var "y"]))
      (.neg (.equality (.var "x") (.const "c")))
    let g := Formula.conj (.ex "x" (.holds "S" [.var "x", p [.const "c", .var "z"]]))
      (.neg (.equality (.const "d") (.var "x")))
    let M : Interpretation Nat := ⟨fun c => if c = "c" then 3 else 7,
      fun _ ds => ds.getD 0 0 + ds.getD 1 0, fun _ ds => ds.getD 1 0 ≤ ds.getD 0 0⟩
    let s : String → Nat := fun x => if x = "z" then 2 else 4
    let t := p [.var "x", .var "y"]
    let t' := p [.const "d", p [.const "c", .var "z"]]
    f.WellFormed ∧ f.substitute m ["y"] = .ok g ∧
      (g.Holds M s ↔ f.Holds (M.replace m s) (m.assign M s)) ∧
      t.WellFormed ∧ t.substitute m ["y"] = .ok t' ∧
      t'.value M s = t.value (M.replace m s) (m.assign M s) :=
  ⟨by decide, rfl, (substitute_means _ ["y"] _ _).1 _ _ (by decide) rfl, by decide, rfl,
    (substitute_means _ ["y"] _ _).2 _ _ (by decide) rfl⟩

/-- A term in the place of the placeholder. -/
theorem Formula.holds_fill {f g : Formula} {t : Term} {M : Interpretation D} {s : String → D}
    (hf : f.WellFormed) (h : f.substitute (.single placeholder t) [] = .ok g) :
    g.Holds M s ↔ f.Holds (M.fill (t.value M s)) s := by
  refine holds_substitute ⟨rfl, rfl, fun _ _ _ => rfl, fun x u hx hu _ => ?_, fun c _ hn => ?_,
    fun c u _ hu _ => ?_⟩ hf h
  · rw [Table.get?_single, if_neg (isVar_ne_isConst hx isConst_placeholder)] at hu
    cases hu
  · rw [Table.get?_single] at hn
    split_ifs at hn with hc
    rw [Interpretation.const_fill, if_neg hc]
  · rw [Table.get?_single] at hu
    split_ifs at hu with hc
    cases hu
    rw [Interpretation.const_fill, if_pos hc]

end Deduction
