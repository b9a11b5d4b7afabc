import Mathlib.Data.List.Forall2
import Deduction.Proofs.Rules

/-!
# Primitive steps keep a session clean

First the actions that only look at the session: each is skipped in an action that begins with it,
and what it has found out is known in the rest. Then the steps that add lines. A line that was added
has been checked in its place, so a clean session stays clean if the line is well formed and does
not mention the placeholder, which the steps see to.
-/

namespace Deduction

namespace Session

variable {σ α β : Type} {s : Session σ} {undone : Bool} {Q : β → Session σ → Prop}

/-! ## Looking -/

theorem leads_get {next : Session σ → Build σ β} (h : s.Leads undone (next s) Q) :
    s.Leads undone (get >>= next) Q :=
  after_get.2 h

theorem reaches_noted (s : Session σ) (e : Event) : s.Reaches (s.noted e) :=
  .of_same rfl rfl rfl rfl rfl

theorem leads_note {e : Event} {next : Unit → Build σ β}
    (h : ∀ t, s.Reaches t → t.lines = s.lines → t.Leads undone (next ()) Q) :
    s.Leads undone (note e >>= next) Q :=
  leads_bind_same ⟨⟨reaches_noted s e, rfl⟩, h _ (reaches_noted s e) rfl⟩

theorem leads_rejectPlaceholder {f : Formula} {next : Unit → Build σ β}
    (h : placeholder ∉ f.constants → s.Leads undone (next ()) Q) :
    s.Leads undone (rejectPlaceholder f >>= next) Q := by
  rw [Leads, after_rejectPlaceholder]
  split_ifs with hf
  · exact ⟨.refl s, fun _ => rfl⟩
  · exact h hf

theorem leads_rejectPlaceholderTerm {t : Term} {next : Unit → Build σ β}
    (h : placeholder ∉ t.constants → s.Leads undone (next ()) Q) :
    s.Leads undone (rejectPlaceholderTerm t >>= next) Q := by
  rw [Leads, after_rejectPlaceholderTerm]
  split_ifs with ht
  · exact ⟨.refl s, fun _ => rfl⟩
  · exact h ht

theorem leads_require {expected found : Formula} {next : Unit → Build σ β}
    (h : expected = found → s.Leads undone (next ()) Q) :
    s.Leads undone (require expected found >>= next) Q := by
  rw [Leads, after_require]
  split_ifs with he
  · exact h he
  · exact ⟨.refl s, fun _ => rfl⟩

theorem leads_liftCapture {result : Except Capture α} {next : α → Build σ β}
    (h : ∀ a, result = .ok a → s.Leads undone (next a) Q) :
    s.Leads undone (liftCapture result >>= next) Q := by
  rw [Leads, after_liftCapture]
  cases result with
  | ok a => exact h a rfl
  | error cause => exact ⟨.refl s, fun _ => rfl⟩

theorem leads_formulaAt {line : Nat} {next : Formula → Build σ β}
    (h : ∀ f, s.Says line f → s.Leads undone (next f) Q) :
    s.Leads undone (formulaAt line >>= next) Q := by
  rw [Leads, after_formulaAt]
  cases hline : s.lines[line]? with
  | some l => exact h l.formula (by simp [Says, hline])
  | none => exact ⟨.refl s, fun _ => rfl⟩

theorem leads_equalityAt {line : Nat} {next : Term × Term → Build σ β}
    (h : ∀ a b, s.Says line (.equality a b) → s.Leads undone (next (a, b)) Q) :
    s.Leads undone (equalityAt line >>= next) Q := by
  rw [equalityAt, bind_assoc]
  refine leads_formulaAt fun f hf => ?_
  cases f with
  | equality a b => exact leads_bind_same ⟨⟨.refl s, rfl⟩, h a b hf⟩
  | _ => exact leads_bind_same ⟨.refl s, rfl⟩

theorem leads_quantifiedAt {q : Quantifier} {line : Nat} {next : String × Formula → Build σ β}
    (h : ∀ x body, s.Says line (.quantified q x body) → s.Leads undone (next (x, body)) Q) :
    s.Leads undone (quantifiedAt q line >>= next) Q := by
  unfold quantifiedAt
  rw [bind_assoc]
  refine leads_formulaAt fun f hf => ?_
  cases hq : f.quantified? q with
  | some parts =>
    rw [Formula.quantified?_eq_some.1 hq] at hf
    exact leads_bind_same ⟨⟨.refl s, rfl⟩, h parts.1 parts.2 hf⟩
  | none => exact leads_bind_same ⟨.refl s, rfl⟩

/-- A check that is made of each of some values, one after the other. -/
theorem leads_forM {γ : Type} {check : γ → Build σ Unit} {P : γ → Prop}
    (hcheck : ∀ x (next : Unit → Build σ β), (P x → s.Leads undone (next ()) Q) →
      s.Leads undone (check x >>= next) Q) :
    ∀ {xs : List γ} {next : Unit → Build σ β}, ((∀ x ∈ xs, P x) → s.Leads undone (next ()) Q) →
      s.Leads undone (xs.forM check >>= next) Q
  | [], next, h => h (by simp)
  | x :: xs, next, h => by
    rw [List.forM_eq_forM, List.forM_cons, bind_assoc]
    refine hcheck x _ fun hx => leads_forM hcheck fun hxs => h fun y hy => ?_
    rcases List.mem_cons.1 hy with rfl | hy
    · exact hx
    · exact hxs y hy

/-- Something that is looked up for each of some values. -/
theorem leads_mapM {γ δ : Type} {look : γ → Build σ δ} {R : γ → δ → Prop}
    (hlook : ∀ x (next : δ → Build σ β), (∀ y, R x y → s.Leads undone (next y) Q) →
      s.Leads undone (look x >>= next) Q) :
    ∀ {xs : List γ} {next : List δ → Build σ β},
      (∀ ys, List.Forall₂ R xs ys → s.Leads undone (next ys) Q) →
      s.Leads undone (xs.mapM look >>= next) Q
  | [], next, h => h [] .nil
  | x :: xs, next, h => by
    rw [List.mapM_cons, bind_assoc]
    refine hlook x _ fun y hy => ?_
    rw [bind_assoc]
    exact leads_mapM hlook fun ys hys => h (y :: ys) (.cons hy hys)

theorem forall_mem_of_forall₂ {γ δ : Type} {R : γ → δ → Prop} {P : δ → Prop}
    (hR : ∀ x y, R x y → P y) : ∀ {xs : List γ} {ys : List δ}, List.Forall₂ R xs ys →
      ∀ y ∈ ys, P y
  | _, _, .nil => List.forall_mem_nil _
  | _, _, .cons h hs => List.forall_mem_cons.2 ⟨hR _ _ h, forall_mem_of_forall₂ hR hs⟩

theorem leads_lift {x : StateM (Session σ) α} {next : α → Build σ β} {r : α × σ}
    (hx : x.run s = s.withMemory r) (h : Leads { s with memory := r.2 } undone (next r.1) Q) :
    s.Leads undone ((liftM x : Build σ α) >>= next) Q := by
  refine leads_bind_same ?_
  change (s.Reaches (x.run s).2 ∧ (x.run s).2.lines = s.lines) ∧
    (x.run s).2.Leads undone (next (x.run s).1) Q
  rw [hx]
  exact ⟨⟨.of_same rfl rfl rfl rfl rfl, rfl⟩, h⟩

/-! ## Adding lines -/

theorem reaches_of_append {t : Session σ} (ha : t.assumptions = s.assumptions)
    (hs : t.settings = s.settings) (ho : t.oracle = s.oracle) (hf : t.fresh.stem = s.fresh.stem)
    {line : Line} (hl : t.lines = s.lines ++ [line]) (hw : line.WellFormed)
    (hp : placeholder ∉ line.formula.constants)
    (hj : line.Justified s.oracle.Accepts s.assumptions s.lines s.lines.length) :
    s.Reaches t := by
  have hpre : s.lines <+: t.lines := hl ▸ List.prefix_append ..
  refine ⟨ha, hs, ho, hf, hpre, fun h => ⟨hf ▸ h.stem, ?_, ?_, fun i l hi => ?_⟩⟩
  · rw [hl]
    intro l hmem
    rcases List.mem_append.1 hmem with hmem | hmem
    · exact h.wellFormed l hmem
    · exact List.mem_singleton.1 hmem ▸ hw
  · rw [hl]
    intro l hmem
    rcases List.mem_append.1 hmem with hmem | hmem
    · exact h.noPlaceholder l hmem
    · exact List.mem_singleton.1 hmem ▸ hp
  · rw [ho, ha]
    by_cases hlt : i < s.lines.length
    · rw [hl, List.getElem?_append_left hlt] at hi
      exact (h.justified i l hi).mono hpre
    · -- The new line is the only one that has a number beyond those of the old ones.
      rw [hl, List.getElem?_append_right (by omega), List.getElem?_singleton] at hi
      split_ifs at hi with hzero
      simp only [Option.some.injEq] at hi
      rw [← hi, show i = s.lines.length by omega]
      exact hj.mono hpre

theorem leads_append {line : Line} (hw : line.WellFormed)
    (hp : placeholder ∉ line.formula.constants) :
    s.Leads undone (append line) fun i t => i = s.lines.length ∧ t.lines = s.lines ++ [line] := by
  rw [Leads, after_append]
  rcases hcheck : (line.checkM s.oracle s.assumptions s.lines s.lines.length).run s.memory with
    ⟨cause | _, memory⟩
  · exact ⟨.of_same rfl rfl rfl rfl rfl, fun _ => rfl⟩
  · have hj := Line.justified_of_checkM (congrArg Prod.fst hcheck)
    exact ⟨reaches_of_append rfl rfl rfl rfl rfl hw hp hj, rfl, rfl⟩

theorem leads_append_formula {line : Line} (hw : line.WellFormed)
    (hp : placeholder ∉ line.formula.constants) :
    s.Leads undone (append line) fun i t => t.Says i line.formula := by
  refine (leads_append hw hp).mono ?_
  rintro i t - ⟨hi, hl⟩
  simp [Says, hl, hi]

theorem leads_instantiate {goal : Formula} {schema : Schema} {bindings : Bindings}
    (hg : goal.WellFormed) (hs : schema.WellFormed) (hb : bindings.WellFormed) :
    s.Leads undone (instantiate goal schema bindings) fun i t => t.Says i goal := by
  unfold instantiate
  refine leads_rejectPlaceholder fun hp => leads_get ?_
  dsimp only
  split_ifs
  · cases schema.instantiate bindings with
    | error cause => exact leads_throw
    | ok expected => exact leads_require fun _ => leads_append_formula ⟨hg, hs, hb⟩ hp
  · exact leads_bind_same ⟨.refl s, rfl⟩

theorem leads_assume {goal : Formula} (hg : goal.WellFormed) :
    s.Leads undone (assume goal) fun i t => t.Says i goal :=
  leads_instantiate hg hg (List.forall_mem_nil _)

theorem leads_tautology {goal : Formula} (hg : goal.WellFormed) :
    s.Leads undone (tautology goal) fun i t => t.Says i goal := by
  unfold tautology
  refine leads_rejectPlaceholder fun hp => leads_lift (run_ask ..) ?_
  split_ifs
  · exact leads_append_formula ⟨hg, trivial⟩ hp
  · exact leads_throw

theorem leads_modusPonens {goal : Formula} {antecedent conditional : Nat} (hg : goal.WellFormed) :
    s.Leads undone (modusPonens goal antecedent conditional) fun i t => t.Says i goal :=
  leads_rejectPlaceholder fun hp => leads_formulaAt fun _ _ => leads_formulaAt fun _ _ =>
    leads_require fun _ => leads_append_formula ⟨hg, trivial⟩ hp

theorem leads_generalize {goal : Formula} {line : Nat} (hg : goal.WellFormed) :
    s.Leads undone (generalize goal line) fun i t => t.Says i goal := by
  unfold generalize
  refine leads_rejectPlaceholder fun hp => leads_formulaAt fun body _ => ?_
  split
  · split_ifs
    · exact leads_append_formula ⟨hg, trivial⟩ hp
    · exact leads_throw
  · exact leads_throw

/-! ## Inlining -/

theorem leads_appendAll : ∀ {lines : List Line} {s : Session σ} {last : Nat},
    (∀ line ∈ lines, line.WellFormed) →
      (∀ line ∈ lines, placeholder ∉ line.formula.constants) →
      s.Leads false (appendAll last lines) fun i t => (lines = [] → i = last) ∧
        ∀ f, lines.getLast?.map Line.formula = some f → t.Says i f
  | [], s, last, _, _ => leads_pure ⟨fun _ => rfl, fun _ h => by cases h⟩
  | line :: rest, s, last, hw, hp => by
    refine leads_bind (leads_append_formula (hw line (List.mem_cons_self ..))
      (hp line (List.mem_cons_self ..))) fun i t _ hi => ?_
    refine (leads_appendAll (fun l hl => hw l (List.mem_cons_of_mem _ hl))
      fun l hl => hp l (List.mem_cons_of_mem _ hl)).mono ?_
    rintro j u htu ⟨hnil, hlast⟩
    refine ⟨fun h => (by cases h), fun f hf => ?_⟩
    cases rest with
    | nil =>
      simp only [List.getLast?_singleton, Option.map_some, Option.some.injEq] at hf
      rw [hnil rfl, ← hf]
      exact htu.keeps hi
    | cons l rest =>
      rw [List.getLast?_cons_cons] at hf
      exact hlast f hf

theorem leads_inline {goal : Formula} {proof : Proof} (hproof : proof.WellFormed) :
    s.Leads undone (inline goal proof) fun i t => t.Says i goal := by
  unfold inline
  refine leads_note fun s _ _ => leads_rejectPlaceholder fun hgoal =>
    leads_forM (fun line next => leads_rejectPlaceholder) fun hp => leads_require fun hc =>
    leads_get ?_
  split
  · exact leads_throw
  refine leads_lift (run_verifyM_ask ..) ?_
  cases hverify : ((proof.verifyM s.oracle).run s.memory).1 with
  | error cause => exact leads_throw
  | ok _ =>
    have hw : ∀ line ∈ proof.lines.map (·.shift s.lines.length), line.WellFormed := by
      intro line hline
      obtain ⟨l, hl, rfl⟩ := List.mem_map.1 hline
      exact (hproof.lines l hl).shift
    have hnp : ∀ line ∈ proof.lines.map (·.shift s.lines.length),
        placeholder ∉ line.formula.constants := by
      intro line hline
      obtain ⟨l, hl, rfl⟩ := List.mem_map.1 hline
      exact hp l hl
    refine leads_transaction ((leads_appendAll hw hnp).mono fun i t _ hi => hi.2 goal ?_)
    rw [List.getLast?_map, Option.map_map, hc]
    exact (Proof.justified_of_verifyM hverify).1

end Session

end Deduction
