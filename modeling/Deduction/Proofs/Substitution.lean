import Deduction.Proofs.WellFormed

/-!
# Substitution, place by place

A substitution looks at the constants and the free variables of a formula and at nothing else
(`Formula.substitute_congr`), so one that has no entry for any of them changes nothing
(`Formula.substitute_eq_self`).

Two substitutions one after the other do what one does at once (`Formula.substitute_trans`). What
the first puts in is looked at by the second, under the same quantifiers. It mentions none of their
variables, since it was admitted there, so it does not matter that the second has lost its entries
for them.
-/

namespace Deduction

@[simp]
theorem bind_eq_ok {ε α β : Type} {x : Except ε α} {next : α → Except ε β} {b : β} :
    x >>= next = .ok b ↔ ∃ a, x = .ok a ∧ next a = .ok b := by
  cases x <;> simp [bind, Except.bind]

@[simp]
theorem pure_eq_ok {ε α : Type} {a b : α} : (pure a : Except ε α) = .ok b ↔ a = b := by
  simp [pure, Except.pure]

theorem NameSet.least?_eq_none {names : List String} : least? names = none ↔ names = [] := by
  simp only [least?, List.head?_eq_none_iff]
  constructor
  · intro h
    rw [List.eq_nil_iff_forall_not_mem]
    intro name hn
    have : name ∈ (ofList names).toList := mem_ofList.2 hn
    rw [h] at this
    simp at this
  · rintro rfl
    rfl

namespace Term

theorem offender?_eq_none {forbidden : List String} {t : Term} :
    t.offender? forbidden = none ↔ ∀ x ∈ t.vars, x ∉ forbidden := by
  simp [offender?, NameSet.least?_eq_none, List.filter_eq_nil_iff]

@[simp]
theorem admit_eq_ok {forbidden : List String} {t t' : Term} :
    t.admit forbidden = .ok t' ↔ t = t' ∧ ∀ x ∈ t.vars, x ∉ forbidden := by
  rw [← offender?_eq_none, Term.admit]
  split
  · rename_i x h
    simp [h]
  · rename_i h
    simp [h]

/-- What a substitution makes of a name that stands alone. -/
theorem substitute_var_eq_ok {m : Substitution} {forbidden : List String} {x : String} {t : Term} :
    (Term.var x).substitute m forbidden = .ok t ↔
      (m.get? x = some t ∧ ∀ y ∈ t.vars, y ∉ forbidden) ∨ (m.get? x = none ∧ .var x = t) := by
  simp only [substitute]
  split
  · rename_i u h
    simp only [admit_eq_ok, h, Option.some.injEq, reduceCtorEq, false_and, or_false]
    constructor <;> rintro ⟨rfl, h'⟩ <;> exact ⟨rfl, h'⟩
  · rename_i h
    simp [h]

theorem substitute_const_eq_ok {m : Substitution} {forbidden : List String} {c : String}
    {t : Term} : (Term.const c).substitute m forbidden = .ok t ↔
      (m.get? c = some t ∧ ∀ y ∈ t.vars, y ∉ forbidden) ∨ (m.get? c = none ∧ .const c = t) := by
  simp only [substitute]
  split
  · rename_i u h
    simp only [admit_eq_ok, h, Option.some.injEq, reduceCtorEq, false_and, or_false]
    constructor <;> rintro ⟨rfl, h'⟩ <;> exact ⟨rfl, h'⟩
  · rename_i h
    simp [h]

end Term

/-! ## What a substitution looks at -/

namespace Term

mutual

theorem substitute_congr {m m' : Substitution} {forbidden : List String} : ∀ {t : Term},
    (∀ x ∈ t.vars, m.get? x = m'.get? x) → (∀ c ∈ t.constants, m.get? c = m'.get? c) →
      t.substitute m forbidden = t.substitute m' forbidden
  | .var x, hv, _ => by simp only [substitute, hv x (by simp [vars])]
  | .const c, _, hc => by simp only [substitute, hc c (by simp [constants])]
  | .app f args, hv, hc => by
    simp only [vars] at hv
    simp only [constants] at hc
    simp only [substitute, substituteList_congr hv hc]

theorem substituteList_congr {m m' : Substitution} {forbidden : List String} : ∀ {ts : List Term},
    (∀ x ∈ varsOfList ts, m.get? x = m'.get? x) →
      (∀ c ∈ constantsOfList ts, m.get? c = m'.get? c) →
      substituteList m forbidden ts = substituteList m' forbidden ts
  | [], _, _ => rfl
  | t :: ts, hv, hc => by
    simp only [varsOfList, List.mem_append] at hv
    simp only [constantsOfList, List.mem_append] at hc
    have h : t.substitute m forbidden = t.substitute m' forbidden :=
      substitute_congr (fun x hx => hv x (.inl hx)) fun c hx => hc c (.inl hx)
    have hs : substituteList m forbidden ts = substituteList m' forbidden ts :=
      substituteList_congr (fun x hx => hv x (.inr hx)) fun c hx => hc c (.inr hx)
    simp only [substituteList, h, hs]

end

mutual

theorem substitute_eq_self {m : Substitution} {forbidden : List String} : ∀ {t : Term},
    (∀ x ∈ t.vars, m.get? x = none) → (∀ c ∈ t.constants, m.get? c = none) →
      t.substitute m forbidden = .ok t
  | .var x, hv, _ => by simp only [substitute, hv x (by simp [vars])]
  | .const c, _, hc => by simp only [substitute, hc c (by simp [constants])]
  | .app f args, hv, hc => by
    simp only [vars] at hv
    simp only [constants] at hc
    simp only [substitute, substituteList_eq_self hv hc]
    rfl

theorem substituteList_eq_self {m : Substitution} {forbidden : List String} : ∀ {ts : List Term},
    (∀ x ∈ varsOfList ts, m.get? x = none) → (∀ c ∈ constantsOfList ts, m.get? c = none) →
      substituteList m forbidden ts = .ok ts
  | [], _, _ => rfl
  | t :: ts, hv, hc => by
    simp only [varsOfList, List.mem_append] at hv
    simp only [constantsOfList, List.mem_append] at hc
    have h : t.substitute m forbidden = .ok t :=
      substitute_eq_self (fun x hx => hv x (.inl hx)) fun c hx => hc c (.inl hx)
    have hs : substituteList m forbidden ts = .ok ts :=
      substituteList_eq_self (fun x hx => hv x (.inr hx)) fun c hx => hc c (.inr hx)
    simp only [substituteList, h, hs]
    rfl

end

end Term

namespace Formula

theorem get?_erase_congr {m m' : Substitution} {x : String} {names : List String}
    (h : ∀ n ∈ names, n ≠ x → m.get? n = m'.get? n) :
    ∀ n ∈ names, (m.erase x).get? n = (m'.erase x).get? n := by
  intro n hn
  rw [Table.get?_erase, Table.get?_erase]
  split
  · rfl
  · exact h n hn ‹_›

theorem substitute_congr : ∀ {f : Formula} {m m' : Substitution} {forbidden : List String},
    (∀ x ∈ f.freeVars, m.get? x = m'.get? x) → (∀ c ∈ f.constants, m.get? c = m'.get? c) →
      f.substitute m forbidden = f.substitute m' forbidden
  | .equality l r, m, m', forbidden, hv, hc => by
    simp only [freeVars, List.mem_append] at hv
    simp only [constants, List.mem_append] at hc
    have hl : l.substitute m forbidden = l.substitute m' forbidden :=
      Term.substitute_congr (fun x hx => hv x (.inl hx)) fun c hx => hc c (.inl hx)
    have hr : r.substitute m forbidden = r.substitute m' forbidden :=
      Term.substitute_congr (fun x hx => hv x (.inr hx)) fun c hx => hc c (.inr hx)
    simp only [substitute, hl, hr]
  | .relation s args, m, m', forbidden, hv, hc => by
    simp only [freeVars] at hv
    simp only [constants] at hc
    simp only [substitute, Term.substituteList_congr hv hc]
  | .neg f, m, m', forbidden, hv, hc => by
    simp only [substitute, substitute_congr (f := f) hv hc]
  | .binary op l r, m, m', forbidden, hv, hc => by
    simp only [freeVars, List.mem_append] at hv
    simp only [constants, List.mem_append] at hc
    have hl : l.substitute m forbidden = l.substitute m' forbidden :=
      substitute_congr (fun x hx => hv x (.inl hx)) fun c hx => hc c (.inl hx)
    have hr : r.substitute m forbidden = r.substitute m' forbidden :=
      substitute_congr (fun x hx => hv x (.inr hx)) fun c hx => hc c (.inr hx)
    simp only [substitute, hl, hr]
  | .quantified q x f, m, m', forbidden, hv, hc => by
    simp only [freeVars, List.mem_filter, decide_eq_true_eq] at hv
    simp only [constants] at hc
    have h : f.substitute (m.erase x) (x :: forbidden)
        = f.substitute (m'.erase x) (x :: forbidden) :=
      substitute_congr (get?_erase_congr fun n hn hne => hv n ⟨hn, hne⟩)
        (get?_erase_congr fun n hn _ => hc n hn)
    simp only [substitute, h]

theorem substitute_empty : ∀ (f : Formula) (m : Substitution) (forbidden : List String),
    (∀ n, m.get? n = none) → f.substitute m forbidden = .ok f
  | .equality l r, m, forbidden, h => by
    simp only [substitute, Term.substitute_eq_self (fun x _ => h x) fun c _ => h c]
    rfl
  | .relation s args, m, forbidden, h => by
    simp only [substitute, Term.substituteList_eq_self (fun x _ => h x) fun c _ => h c]
    rfl
  | .neg f, m, forbidden, h => by
    simp only [substitute, substitute_empty f m forbidden h]
    rfl
  | .binary op l r, m, forbidden, h => by
    simp only [substitute, substitute_empty l m forbidden h, substitute_empty r m forbidden h]
    rfl
  | .quantified q x f, m, forbidden, h => by
    have hx : ∀ n, (m.erase x).get? n = none := by
      intro n
      rw [Table.get?_erase, h n]
      split <;> rfl
    simp only [substitute, substitute_empty f _ _ hx]
    rfl

/-- A substitution without an entry for any constant or free variable changes nothing. -/
theorem substitute_eq_self {f : Formula} {m : Substitution} {forbidden : List String}
    (hv : ∀ x ∈ f.freeVars, m.get? x = none) (hc : ∀ c ∈ f.constants, m.get? c = none) :
    f.substitute m forbidden = .ok f := by
  have hempty : f.substitute m forbidden = f.substitute .empty forbidden := substitute_congr hv hc
  rw [hempty]
  exact substitute_empty f _ _ fun _ => rfl

end Formula

/-! ## Well-formed results -/

namespace Term

theorem length_substituteList {m : Substitution} {forbidden : List String} :
    ∀ {ts ts' : List Term}, substituteList m forbidden ts = .ok ts' → ts'.length = ts.length
  | [], ts', h => by
    simp only [substituteList, Except.ok.injEq] at h
    rw [← h]
  | t :: ts, ts', h => by
    simp only [substituteList, bind_eq_ok, pure_eq_ok] at h
    obtain ⟨u, -, us, hus, rfl⟩ := h
    simp [length_substituteList hus]

mutual

theorem WellFormed.substitute {m : Substitution} (hm : m.WellFormed) {forbidden : List String} :
    ∀ {t t' : Term}, t.WellFormed → t.substitute m forbidden = .ok t' → t'.WellFormed
  | .var x, t', ht, h => by
    rcases substitute_var_eq_ok.1 h with ⟨hx, -⟩ | ⟨-, rfl⟩
    · exact hm.get? hx
    · exact ht
  | .const c, t', ht, h => by
    rcases substitute_const_eq_ok.1 h with ⟨hc, -⟩ | ⟨-, rfl⟩
    · exact hm.get? hc
    · exact ht
  | .app f args, t', ht, h => by
    simp only [Term.substitute, bind_eq_ok, pure_eq_ok] at h
    obtain ⟨args', hargs, rfl⟩ := h
    obtain ⟨hf, hlen, hwf⟩ := ht
    exact ⟨hf, hlen.trans (length_substituteList hargs).symm,
      WellFormedList.substitute hm hwf hargs⟩

theorem WellFormedList.substitute {m : Substitution} (hm : m.WellFormed)
    {forbidden : List String} : ∀ {ts ts' : List Term}, WellFormedList ts →
      substituteList m forbidden ts = .ok ts' → WellFormedList ts'
  | [], ts', _, h => by
    simp only [substituteList, Except.ok.injEq] at h
    rw [← h]
    trivial
  | t :: ts, ts', ht, h => by
    simp only [substituteList, bind_eq_ok, pure_eq_ok] at h
    obtain ⟨u, hu, us, hus, rfl⟩ := h
    exact ⟨WellFormed.substitute hm ht.1 hu, WellFormedList.substitute hm ht.2 hus⟩

end

end Term

theorem Substitution.admits_of_isVar {x : String} (hx : isVar x) : admits x := by
  rw [admits, hx, Bool.or_true]

theorem Substitution.WellFormed.empty : Substitution.WellFormed .empty := List.forall_mem_nil _

theorem Substitution.WellFormed.erase {m : Substitution} (hm : m.WellFormed) (x : String) :
    WellFormed (m.erase x) := fun e he => hm e (List.mem_filter.1 he).1

theorem Substitution.WellFormed.insert {m : Substitution} (hm : m.WellFormed) {x : String}
    {t : Term} (hx : admits x) (ht : t.WellFormed) : WellFormed (m.insert x t) := by
  intro e he
  rcases Table.mem_insert he with rfl | he
  · exact ⟨hx, ht⟩
  · exact hm e he

theorem Substitution.WellFormed.single {x : String} {t : Term} (hx : admits x)
    (ht : t.WellFormed) : WellFormed (.single x t) :=
  empty.insert hx ht

theorem Formula.WellFormed.substitute : ∀ {f g : Formula} {m : Substitution}
    {forbidden : List String}, f.WellFormed → m.WellFormed →
      f.substitute m forbidden = .ok g → g.WellFormed
  | .equality l r, g, m, forbidden, hf, hm, h => by
    simp only [Formula.substitute, bind_eq_ok, pure_eq_ok] at h
    obtain ⟨l', hl, r', hr, rfl⟩ := h
    exact ⟨hf.1.substitute hm hl, hf.2.substitute hm hr⟩
  | .relation s args, g, m, forbidden, hf, hm, h => by
    simp only [Formula.substitute, bind_eq_ok, pure_eq_ok] at h
    obtain ⟨args', hargs, rfl⟩ := h
    obtain ⟨hs, hlen, hwf⟩ := hf
    exact ⟨hs, hlen.trans (Term.length_substituteList hargs).symm, hwf.substitute hm hargs⟩
  | .neg f, g, m, forbidden, hf, hm, h => by
    simp only [Formula.substitute, bind_eq_ok, pure_eq_ok] at h
    obtain ⟨f', hf', rfl⟩ := h
    have hwf : f'.WellFormed := WellFormed.substitute (f := f) hf hm hf'
    exact hwf
  | .binary op l r, g, m, forbidden, hf, hm, h => by
    simp only [Formula.substitute, bind_eq_ok, pure_eq_ok] at h
    obtain ⟨l', hl, r', hr, rfl⟩ := h
    exact ⟨WellFormed.substitute hf.1 hm hl, WellFormed.substitute hf.2 hm hr⟩
  | .quantified q x f, g, m, forbidden, hf, hm, h => by
    simp only [Formula.substitute, bind_eq_ok, pure_eq_ok] at h
    obtain ⟨f', hf', rfl⟩ := h
    exact ⟨hf.1, WellFormed.substitute hf.2 (hm.erase x) hf'⟩

namespace Term

mutual

theorem WellFormed.isConst {c : String} : ∀ {t : Term}, t.WellFormed → c ∈ t.constants → isConst c
  | .var x, _, h => by simp [constants] at h
  | .const d, ht, h => by
    simp only [constants, List.mem_singleton] at h
    exact h ▸ ht
  | .app f args, ht, h => WellFormedList.isConst ht.2.2 h

theorem WellFormedList.isConst {c : String} : ∀ {ts : List Term}, WellFormedList ts →
    c ∈ constantsOfList ts → Deduction.isConst c
  | [], _, h => by simp [constantsOfList] at h
  | t :: ts, ht, h => by
    simp only [constantsOfList, List.mem_append] at h
    rcases h with h | h
    · exact WellFormed.isConst ht.1 h
    · exact WellFormedList.isConst ht.2 h

end

mutual

theorem WellFormed.isVar {x : String} : ∀ {t : Term}, t.WellFormed → x ∈ t.vars → isVar x
  | .var y, ht, h => by
    simp only [vars, List.mem_singleton] at h
    exact h ▸ ht
  | .const c, _, h => by simp [vars] at h
  | .app f args, ht, h => WellFormedList.isVar ht.2.2 h

theorem WellFormedList.isVar {x : String} : ∀ {ts : List Term}, WellFormedList ts →
    x ∈ varsOfList ts → Deduction.isVar x
  | [], _, h => by simp [varsOfList] at h
  | t :: ts, ht, h => by
    simp only [varsOfList, List.mem_append] at h
    rcases h with h | h
    · exact WellFormed.isVar ht.1 h
    · exact WellFormedList.isVar ht.2 h

end

end Term

theorem Formula.WellFormed.isConst {c : String} : ∀ {f : Formula}, f.WellFormed →
    c ∈ f.constants → isConst c
  | .equality l r, hf, h => by
    rcases List.mem_append.1 h with h | h
    · exact hf.1.isConst h
    · exact hf.2.isConst h
  | .relation s args, hf, h => hf.2.2.isConst h
  | .neg f, hf, h => isConst (f := f) hf h
  | .binary op l r, hf, h => by
    rcases List.mem_append.1 h with h | h
    · exact isConst hf.1 h
    · exact isConst hf.2 h
  | .quantified q x f, hf, h => isConst (f := f) hf.2 h

theorem Formula.WellFormed.isVar {x : String} : ∀ {f : Formula}, f.WellFormed → x ∈ f.vars →
    isVar x
  | .equality l r, hf, h => by
    rcases List.mem_append.1 h with h | h
    · exact hf.1.isVar h
    · exact hf.2.isVar h
  | .relation s args, hf, h => hf.2.2.isVar h
  | .neg f, hf, h => isVar (f := f) hf h
  | .binary op l r, hf, h => by
    rcases List.mem_append.1 h with h | h
    · exact isVar hf.1 h
    · exact isVar hf.2 h
  | .quantified q y f, hf, h => by
    rcases List.mem_cons.1 h with rfl | h
    · exact hf.1
    · exact isVar (f := f) hf.2 h

/-! ## One substitution after another -/

namespace Term

mutual

theorem substitute_of_subset {m : Substitution} {forbidden fewer : List String}
    (hF : fewer ⊆ forbidden) : ∀ {t t' : Term}, t.substitute m forbidden = .ok t' →
      t.substitute m fewer = .ok t'
  | .var x, t', h => by
    rcases substitute_var_eq_ok.1 h with ⟨hx, hv⟩ | h
    · exact substitute_var_eq_ok.2 (.inl ⟨hx, fun y hy hm => hv y hy (hF hm)⟩)
    · exact substitute_var_eq_ok.2 (.inr h)
  | .const c, t', h => by
    rcases substitute_const_eq_ok.1 h with ⟨hc, hv⟩ | h
    · exact substitute_const_eq_ok.2 (.inl ⟨hc, fun y hy hm => hv y hy (hF hm)⟩)
    · exact substitute_const_eq_ok.2 (.inr h)
  | .app f args, t', h => by
    simp only [substitute, bind_eq_ok, pure_eq_ok] at h ⊢
    obtain ⟨args', hargs, rfl⟩ := h
    exact ⟨args', substituteList_of_subset hF hargs, rfl⟩

theorem substituteList_of_subset {m : Substitution} {forbidden fewer : List String}
    (hF : fewer ⊆ forbidden) : ∀ {ts ts' : List Term},
      substituteList m forbidden ts = .ok ts' → substituteList m fewer ts = .ok ts'
  | [], ts', h => h
  | t :: ts, ts', h => by
    simp only [substituteList, bind_eq_ok, pure_eq_ok] at h ⊢
    obtain ⟨u, hu, us, hus, rfl⟩ := h
    exact ⟨u, substitute_of_subset hF hu, us, substituteList_of_subset hF hus, rfl⟩

end

mutual

/-- A term without forbidden variables stays one. -/
theorem substitute_avoids {m : Substitution} {forbidden : List String} : ∀ {t t' : Term},
    t.substitute m forbidden = .ok t' → (∀ x ∈ t.vars, x ∉ forbidden) →
      ∀ x ∈ t'.vars, x ∉ forbidden
  | .var x, t', h, hv => by
    rcases substitute_var_eq_ok.1 h with ⟨-, hv'⟩ | ⟨-, rfl⟩
    · exact hv'
    · exact hv
  | .const c, t', h, hv => by
    rcases substitute_const_eq_ok.1 h with ⟨-, hv'⟩ | ⟨-, rfl⟩
    · exact hv'
    · exact hv
  | .app f args, t', h, hv => by
    simp only [substitute, bind_eq_ok, pure_eq_ok] at h
    obtain ⟨args', hargs, rfl⟩ := h
    exact substituteList_avoids hargs hv

theorem substituteList_avoids {m : Substitution} {forbidden : List String} :
    ∀ {ts ts' : List Term}, substituteList m forbidden ts = .ok ts' →
      (∀ x ∈ varsOfList ts, x ∉ forbidden) → ∀ x ∈ varsOfList ts', x ∉ forbidden
  | [], ts', h, hv => by
    simp only [substituteList, Except.ok.injEq] at h
    exact h ▸ hv
  | t :: ts, ts', h, hv => by
    simp only [substituteList, bind_eq_ok, pure_eq_ok] at h
    obtain ⟨u, hu, us, hus, rfl⟩ := h
    simp only [varsOfList, List.mem_append] at hv ⊢
    intro x hx
    rcases hx with hx | hx
    · exact substitute_avoids hu (fun y hy => hv y (.inl hy)) x hx
    · exact substituteList_avoids hus (fun y hy => hv y (.inr hy)) x hx

end

end Term

/-- At the name `n`, the substitution `m` puts in what `m₁` and `m₂` do one after the other, if the
forbidden variables let them. -/
def Substitution.JoinsAt (m₁ m₂ m : Substitution) (forbidden : List String) (n : String) : Prop :=
  (m₁.get? n = none → m.get? n = m₂.get? n) ∧
    ∀ t t', m₁.get? n = some t → (∀ x ∈ t.vars, x ∉ forbidden) →
      t.substitute m₂ forbidden = .ok t' → m.get? n = some t'

namespace Term

mutual

theorem substitute_trans {m₁ m₂ m : Substitution} {forbidden : List String} :
    ∀ {t t' t'' : Term}, (∀ x ∈ t.vars, Substitution.JoinsAt m₁ m₂ m forbidden x) →
      (∀ c ∈ t.constants, Substitution.JoinsAt m₁ m₂ m forbidden c) →
      t.substitute m₁ forbidden = .ok t' → t'.substitute m₂ forbidden = .ok t'' →
      t.substitute m forbidden = .ok t''
  | .var x, t', t'', hv, _, h₁, h₂ => by
    obtain ⟨hnone, hsome⟩ := hv x (by simp [vars])
    rcases substitute_var_eq_ok.1 h₁ with ⟨hx, hav⟩ | ⟨hx, rfl⟩
    · exact substitute_var_eq_ok.2 (.inl ⟨hsome t' t'' hx hav h₂, substitute_avoids h₂ hav⟩)
    · rw [substitute_var_eq_ok, hnone hx]
      exact substitute_var_eq_ok.1 h₂
  | .const c, t', t'', _, hc, h₁, h₂ => by
    obtain ⟨hnone, hsome⟩ := hc c (by simp [constants])
    rcases substitute_const_eq_ok.1 h₁ with ⟨hx, hav⟩ | ⟨hx, rfl⟩
    · exact substitute_const_eq_ok.2 (.inl ⟨hsome t' t'' hx hav h₂, substitute_avoids h₂ hav⟩)
    · rw [substitute_const_eq_ok, hnone hx]
      exact substitute_const_eq_ok.1 h₂
  | .app f args, t', t'', hv, hc, h₁, h₂ => by
    simp only [vars] at hv
    simp only [constants] at hc
    simp only [substitute, bind_eq_ok, pure_eq_ok] at h₁ ⊢
    obtain ⟨args', h₁, rfl⟩ := h₁
    simp only [substitute, bind_eq_ok, pure_eq_ok] at h₂
    obtain ⟨args'', h₂, rfl⟩ := h₂
    exact ⟨args'', substituteList_trans hv hc h₁ h₂, rfl⟩

theorem substituteList_trans {m₁ m₂ m : Substitution} {forbidden : List String} :
    ∀ {ts ts' ts'' : List Term},
      (∀ x ∈ varsOfList ts, Substitution.JoinsAt m₁ m₂ m forbidden x) →
      (∀ c ∈ constantsOfList ts, Substitution.JoinsAt m₁ m₂ m forbidden c) →
      substituteList m₁ forbidden ts = .ok ts' → substituteList m₂ forbidden ts' = .ok ts'' →
      substituteList m forbidden ts = .ok ts''
  | [], ts', ts'', _, _, h₁, h₂ => by
    simp only [substituteList, Except.ok.injEq] at h₁
    subst h₁
    exact h₂
  | t :: ts, ts', ts'', hv, hc, h₁, h₂ => by
    simp only [varsOfList, List.mem_append] at hv
    simp only [constantsOfList, List.mem_append] at hc
    simp only [substituteList, bind_eq_ok, pure_eq_ok] at h₁ ⊢
    obtain ⟨u, hu, us, hus, rfl⟩ := h₁
    simp only [substituteList, bind_eq_ok, pure_eq_ok] at h₂
    obtain ⟨u', hu', us', hus', rfl⟩ := h₂
    exact ⟨u', substitute_trans (fun x hx => hv x (.inl hx)) (fun c hx => hc c (.inl hx)) hu hu',
      us', substituteList_trans (fun x hx => hv x (.inr hx)) (fun c hx => hc c (.inr hx)) hus hus',
      rfl⟩

end

end Term

/-- No constant in the terms of the substitution has the name of a variable, as it is with terms that
are well formed. -/
def Substitution.ConstantsApart (m : Substitution) : Prop :=
  ∀ e ∈ m.entries, ∀ c ∈ e.2.constants, ¬ isVar c

instance (m : Substitution) : Decidable m.ConstantsApart :=
  inferInstanceAs (Decidable (∀ e ∈ m.entries, ∀ c ∈ e.2.constants, ¬ isVar c))

theorem Substitution.ConstantsApart.erase {m : Substitution} (hm : m.ConstantsApart) (x : String) :
    ConstantsApart (m.erase x) := fun e he => hm e (List.mem_filter.1 he).1

/-- Under a quantifier each substitution loses its entry for the variable. What `m₁` may still put
in mentions the variable neither free nor as a constant. -/
theorem Substitution.JoinsAt.erase {m₁ m₂ m : Substitution} (hm : m₁.ConstantsApart)
    {forbidden : List String} {n x : String} (hx : isVar x)
    (h : n ≠ x → JoinsAt m₁ m₂ m forbidden n) :
    JoinsAt (m₁.erase x) (m₂.erase x) (m.erase x) (x :: forbidden) n := by
  by_cases hn : n = x
  · simp [JoinsAt, Table.get?_erase, hn]
  obtain ⟨hnone, hsome⟩ := h hn
  simp only [JoinsAt, Table.get?_erase, if_neg hn, List.mem_cons, not_or]
  refine ⟨hnone, fun t t' ht hv h' => hsome t t' ht (fun y hy => (hv y hy).2) ?_⟩
  have hdrop : t.substitute (m₂.erase x) (x :: forbidden) = t.substitute m₂ (x :: forbidden) := by
    refine Term.substitute_congr (fun y hy => ?_) fun c hc => ?_
    · rw [Table.get?_erase, if_neg (hv y hy).1]
    · have hcx : c ≠ x := by
        rintro rfl
        exact hm _ (Table.mem_of_get? ht) c hc hx
      rw [Table.get?_erase, if_neg hcx]
  rw [hdrop] at h'
  exact Term.substitute_of_subset (List.subset_cons_self ..) h'

theorem Formula.substitute_trans : ∀ {f g h : Formula} {m₁ m₂ m : Substitution}
    {forbidden : List String}, f.WellFormed → m₁.ConstantsApart →
      (∀ x ∈ f.freeVars, Substitution.JoinsAt m₁ m₂ m forbidden x) →
      (∀ c ∈ f.constants, Substitution.JoinsAt m₁ m₂ m forbidden c) →
      f.substitute m₁ forbidden = .ok g → g.substitute m₂ forbidden = .ok h →
      f.substitute m forbidden = .ok h
  | .equality l r, g, h, m₁, m₂, m, forbidden, _, _, hv, hc, h₁, h₂ => by
    simp only [freeVars, List.mem_append] at hv
    simp only [constants, List.mem_append] at hc
    simp only [substitute, bind_eq_ok, pure_eq_ok] at h₁ ⊢
    obtain ⟨l', hl, r', hr, rfl⟩ := h₁
    simp only [substitute, bind_eq_ok, pure_eq_ok] at h₂
    obtain ⟨l'', hl', r'', hr', rfl⟩ := h₂
    exact ⟨l'', Term.substitute_trans (fun x hx => hv x (.inl hx)) (fun c hx => hc c (.inl hx))
      hl hl', r'', Term.substitute_trans (fun x hx => hv x (.inr hx))
      (fun c hx => hc c (.inr hx)) hr hr', rfl⟩
  | .relation s args, g, h, m₁, m₂, m, forbidden, _, _, hv, hc, h₁, h₂ => by
    simp only [freeVars] at hv
    simp only [constants] at hc
    simp only [substitute, bind_eq_ok, pure_eq_ok] at h₁ ⊢
    obtain ⟨args', h₁, rfl⟩ := h₁
    simp only [substitute, bind_eq_ok, pure_eq_ok] at h₂
    obtain ⟨args'', h₂, rfl⟩ := h₂
    exact ⟨args'', Term.substituteList_trans hv hc h₁ h₂, rfl⟩
  | .neg f, g, h, m₁, m₂, m, forbidden, hf, hm, hv, hc, h₁, h₂ => by
    simp only [substitute, bind_eq_ok, pure_eq_ok] at h₁ ⊢
    obtain ⟨f', h₁, rfl⟩ := h₁
    simp only [substitute, bind_eq_ok, pure_eq_ok] at h₂
    obtain ⟨f'', h₂, rfl⟩ := h₂
    exact ⟨f'', substitute_trans (f := f) hf hm hv hc h₁ h₂, rfl⟩
  | .binary op l r, g, h, m₁, m₂, m, forbidden, hf, hm, hv, hc, h₁, h₂ => by
    simp only [freeVars, List.mem_append] at hv
    simp only [constants, List.mem_append] at hc
    simp only [substitute, bind_eq_ok, pure_eq_ok] at h₁ ⊢
    obtain ⟨l', hl, r', hr, rfl⟩ := h₁
    simp only [substitute, bind_eq_ok, pure_eq_ok] at h₂
    obtain ⟨l'', hl', r'', hr', rfl⟩ := h₂
    exact ⟨l'', substitute_trans hf.1 hm (fun x hx => hv x (.inl hx))
      (fun c hx => hc c (.inl hx)) hl hl', r'', substitute_trans hf.2 hm
      (fun x hx => hv x (.inr hx)) (fun c hx => hc c (.inr hx)) hr hr', rfl⟩
  | .quantified q x f, g, h, m₁, m₂, m, forbidden, hf, hm, hv, hc, h₁, h₂ => by
    simp only [freeVars, List.mem_filter, decide_eq_true_eq] at hv
    simp only [constants] at hc
    simp only [substitute, bind_eq_ok, pure_eq_ok] at h₁ ⊢
    obtain ⟨f', h₁, rfl⟩ := h₁
    simp only [substitute, bind_eq_ok, pure_eq_ok] at h₂
    obtain ⟨f'', h₂, rfl⟩ := h₂
    exact ⟨f'', substitute_trans hf.2 (hm.erase x)
      (fun y hy => .erase hm hf.1 fun hne => hv y ⟨hy, hne⟩)
      (fun c hx => .erase hm hf.1 fun _ => hc c hx) h₁ h₂, rfl⟩

theorem Formula.freeVars_subset_vars : ∀ f : Formula, f.freeVars ⊆ f.vars
  | .equality .. | .relation .. => List.Subset.refl _
  | .neg f => freeVars_subset_vars f
  | .binary _ l r => by
    simp only [freeVars, vars]
    exact List.append_subset.2 ⟨List.subset_append_of_subset_left _ (freeVars_subset_vars l),
      List.subset_append_of_subset_right _ (freeVars_subset_vars r)⟩
  | .quantified _ x f => fun _ hy =>
    List.mem_cons_of_mem _ (freeVars_subset_vars f (List.mem_filter.1 hy).1)

end Deduction
