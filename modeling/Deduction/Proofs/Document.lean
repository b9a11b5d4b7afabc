import Mathlib.Data.List.Dedup
import Mathlib.Data.List.Forall2
import Deduction.Document.Conversion
import Deduction.Proofs.Instance
import Deduction.Proofs.Oracle
import Deduction.Proofs.OrderedSet
import Deduction.Proofs.Reading

/-!
# Loading and saving

What was loaded from a document is legible, its templates and bindings have names of their kind, and
it is saved as that document in normal form (`Proof.normal_of_ofDoc`). What is legible and has names
of their kind is loaded again from the document that it was saved as (`Proof.ofDoc_toDoc`). So it is
with schemas, bindings and lines.

The kind of a binding is not saved. It is read off the name, and in a line that has passed its check
each binding is of the kind that its name says, whatever oracle was asked
(`Proof.named_of_verifyM`).
-/

namespace Deduction

/-! ## Values that are loaded one by one -/

theorem mapM_eq_ok {ε α β : Type} {f : α → Except ε β} : ∀ {xs : List α} {ys : List β},
    xs.mapM f = .ok ys ↔ List.Forall₂ (fun x y => f x = .ok y) xs ys
  | [], ys => by rw [List.mapM_nil, pure_eq_ok, List.forall₂_nil_left_iff, eq_comm]
  | x :: xs, ys => by
    simp only [List.mapM_cons, bind_eq_ok, pure_eq_ok, mapM_eq_ok, List.forall₂_cons_left_iff]
    constructor
    · rintro ⟨y, hy, ys, hys, rfl⟩
      exact ⟨y, ys, hy, hys, rfl⟩
    · rintro ⟨y, ys, hy, hys, rfl⟩
      exact ⟨y, hy, ys, hys, rfl⟩

theorem map_eq_of_forall₂ {α β γ : Type} {R : α → β → Prop} {P : β → Prop} {f : β → γ} {g : α → γ}
    {xs : List α} {ys : List β} (hall : List.Forall₂ R xs ys)
    (h : ∀ x y, R x y → P y ∧ f y = g x) : (∀ y ∈ ys, P y) ∧ ys.map f = xs.map g := by
  induction hall with
  | nil => exact ⟨List.forall_mem_nil _, rfl⟩
  | cons hxy _ ih =>
    obtain ⟨hP, hmap⟩ := h _ _ hxy
    refine ⟨List.forall_mem_cons.2 ⟨hP, ih.1⟩, ?_⟩
    rw [List.map_cons, List.map_cons, hmap, ih.2]

theorem forall₂_map_self {α β : Type} {R : α → β → Prop} {g : β → α} {ys : List β}
    (h : ∀ y ∈ ys, R (g y) y) : List.Forall₂ R (ys.map g) ys :=
  List.forall₂_map_left_iff.2 (List.forall₂_same.2 h)

theorem Table.ext {α : Type} {t u : Table α} (h : t.entries = u.entries) : t = u := by
  cases t
  cases u
  cases h
  rfl

theorem Table.traverse_eq_ok {ε α β : Type} {f : String → α → Except ε β} {t : Table α}
    {u : Table β} : t.traverse f = .ok u ↔
      List.Forall₂ (fun e e' => e.1 = e'.1 ∧ f e.1 e.2 = .ok e'.2) t.entries u.entries := by
  have hentry : ∀ (e : String × α) (e' : String × β),
      (do return (e.1, ← f e.1 e.2) : Except ε (String × β)) = .ok e' ↔
        e.1 = e'.1 ∧ f e.1 e.2 = .ok e'.2 := by
    rintro ⟨k, v⟩ ⟨k', v'⟩
    simp only [bind_eq_ok, pure_eq_ok, Prod.mk.injEq]
    constructor
    · rintro ⟨_, hv, hk, rfl⟩
      exact ⟨hk, hv⟩
    · rintro ⟨hk, hv⟩
      exact ⟨v', hv, hk, rfl⟩
  simp only [traverse, bind_eq_ok, pure_eq_ok, mapM_eq_ok, hentry]
  constructor
  · rintro ⟨entries, h, rfl⟩
    -- The names are those of the table, so none comes twice and none is put in another's place.
    have hkeys : entries.map Prod.fst = t.entries.map Prod.fst :=
      (map_eq_of_forall₂ (P := fun _ => True) h fun _ _ he => ⟨trivial, he.1.symm⟩).2
    rwa [entries_ofList (hkeys ▸ t.nodup)]
  · exact fun h => ⟨u.entries, h, ofList_entries u⟩

/-! ## Trees and names of a proof -/

def Binding.Legible : Binding → Prop
  | .var x => isVar x
  | .term t => t.Legible
  | .formula f => f.Legible

instance : (b : Binding) → Decidable b.Legible
  | .var x => inferInstanceAs (Decidable (isVar x = true))
  | .term t => inferInstanceAs (Decidable t.Legible)
  | .formula f => inferInstanceAs (Decidable f.Legible)

def Reason.Legible : Reason → Prop
  | .assumption schema bindings => schema.formula.Legible ∧ ∀ e ∈ bindings.entries, e.2.Legible
  | .tautology | .modusPonens .. | .generalization _ => True

instance : (r : Reason) → Decidable r.Legible
  | .assumption .. => inferInstanceAs (Decidable (_ ∧ _))
  | .tautology | .modusPonens .. | .generalization _ => inferInstanceAs (Decidable True)

def Line.Legible (line : Line) : Prop := line.formula.Legible ∧ line.reason.Legible

instance (line : Line) : Decidable line.Legible := inferInstanceAs (Decidable (_ ∧ _))

/-- All trees of the proof are legible. -/
structure Proof.Legible (p : Proof) : Prop where
  assumptions : ∀ s ∈ p.assumptions.toList, s.formula.Legible
  conclusion : p.conclusion.Legible
  lines : ∀ line ∈ p.lines, line.Legible

instance (p : Proof) : Decidable p.Legible :=
  decidable_of_iff ((∀ s ∈ p.assumptions.toList, s.formula.Legible) ∧ p.conclusion.Legible
      ∧ ∀ line ∈ p.lines, line.Legible)
    ⟨fun h => ⟨h.1, h.2.1, h.2.2⟩, fun h => ⟨h.assumptions, h.conclusion, h.lines⟩⟩

/-- The templates are constants, variables and relations, and the placeholder is none of them. -/
def Schema.Named (s : Schema) : Prop :=
  ∀ name ∈ s.templates.toList, name ≠ placeholder ∧ (isConst name ∨ isVar name ∨ isRel name)

instance (s : Schema) : Decidable s.Named :=
  inferInstanceAs (Decidable (∀ name ∈ s.templates.toList, _))

/-- Templates can be templates, and each binding is of the kind that its name says. -/
def Reason.Named : Reason → Prop
  | .assumption schema bindings => schema.Named ∧ bindings.Sorted
  | .tautology | .modusPonens .. | .generalization _ => True

structure Proof.Named (p : Proof) : Prop where
  assumptions : ∀ s ∈ p.assumptions.toList, s.Named
  lines : ∀ line ∈ p.lines, line.reason.Named

/-! ## Normal forms -/

/-- The templates in the order of their code points, each once. -/
def SchemaDoc.normalize (d : SchemaDoc) : SchemaDoc :=
  ⟨d.formula, d.templates.dedup.mergeSort fun a b => a ≤ b⟩

def LineDoc.normalize (d : LineDoc) : LineDoc :=
  ⟨d.formula, match d.reason with
    | .assumption schema bindings => .assumption schema.normalize bindings
    | reason => reason⟩

/-- All schemas in normal form, and of assumptions that are the same then, the first. -/
def ProofDoc.normalize (d : ProofDoc) : ProofDoc :=
  ⟨(d.assumptions.map SchemaDoc.normalize).eraseDups, d.conclusion, d.lines.map LineDoc.normalize⟩

namespace NameSet

theorem toList_ofList (names : List String) :
    (ofList names).toList = names.dedup.mergeSort fun a b => a ≤ b := by
  refine pairwise_ext (ofList names).sorted ?_ fun name => ?_
  · have hle : (names.dedup.mergeSort fun a b => a ≤ b).Pairwise fun a b => decide (a ≤ b) := by
      refine List.pairwise_mergeSort (fun a b c hab hbc => ?_) (fun a b => ?_) _
      · rw [decide_eq_true_eq] at hab hbc ⊢
        exact String.le_trans hab hbc
      · simpa using String.le_total a b
    have hnodup : (names.dedup.mergeSort fun a b => a ≤ b).Nodup :=
      (List.mergeSort_perm _ _).nodup_iff.2 (List.nodup_dedup names)
    refine hle.imp₂ (fun a b hab hne => ?_) hnodup
    rw [decide_eq_true_eq] at hab
    exact String.not_le.1 fun hba => hne (String.le_antisymm hab hba)
  · rw [List.mem_mergeSort, List.mem_dedup]
    exact mem_ofList

theorem ofList_toList (s : NameSet) : ofList s.toList = s := ext_mem fun _ => mem_ofList

end NameSet

/-! ## Schemas -/

theorem loadTerm_eq_ok {text : String} {t : Term} :
    loadTerm text = .ok t ↔ t.Legible ∧ t.text = text := by
  rw [← Term.parse_eq_ok, loadTerm]
  cases Term.parse text <;> simp [Except.mapError]

theorem loadFormula_eq_ok {text : String} {f : Formula} :
    loadFormula text = .ok f ↔ f.Legible ∧ f.text = text := by
  rw [← Formula.parse_eq_ok, loadFormula]
  cases Formula.parse text <;> simp [Except.mapError]

namespace Schema

theorem isTemplateName_iff {name : String} : isTemplateName name ↔
    name ≠ placeholder ∧ (isConst name ∨ isVar name ∨ isRel name) := by
  simp [isTemplateName, or_assoc]

theorem named_ofTemplates_iff {f : Formula} {names : List String} :
    (ofTemplates f names).Named ↔ names.find? (!isTemplateName ·) = none := by
  have hmem : ∀ name, name ∈ (ofTemplates f names).templates.toList ↔ name ∈ names :=
    fun _ => NameSet.mem_ofList
  simp [Named, hmem, isTemplateName_iff]

theorem normal_of_ofDoc {d : SchemaDoc} {s : Schema} (h : Schema.ofDoc d = .ok s) :
    (s.formula.Legible ∧ s.Named) ∧ s.toDoc = d.normalize := by
  unfold ofDoc at h
  split at h
  · cases h
  · rename_i hnames
    obtain ⟨f, hf, h⟩ := bind_eq_ok.1 h
    cases h
    obtain ⟨hleg, htext⟩ := loadFormula_eq_ok.1 hf
    refine ⟨⟨hleg, named_ofTemplates_iff.2 hnames⟩, ?_⟩
    rw [toDoc, SchemaDoc.normalize, ← NameSet.toList_ofList]
    exact congrArg (SchemaDoc.mk · _) htext

theorem ofDoc_toDoc {s : Schema} (hleg : s.formula.Legible) (hnamed : s.Named) :
    Schema.ofDoc s.toDoc = .ok s := by
  have hs : ofTemplates s.formula s.templates.toList = s := by
    rw [ofTemplates, NameSet.ofList_toList]
  have hnames : s.templates.toList.find? (!isTemplateName ·) = none :=
    named_ofTemplates_iff.1 (hs.symm ▸ hnamed)
  have hf : loadFormula s.formula.text = .ok s.formula := loadFormula_eq_ok.2 ⟨hleg, rfl⟩
  simp only [ofDoc, toDoc, hnames, hf]
  exact congrArg Except.ok hs

end Schema

/-! ## Bindings -/

theorem Binding.ofText_eq_ok {name value : String} {b : Binding} :
    Binding.ofText name value = .ok b ↔
      (b.Legible ∧ (Category.of? name).bind Category.bindingKind? = some b.kind) ∧
        b.text = value := by
  unfold ofText
  cases Category.of? name with
  | none => simp
  | some k =>
    cases k with
    | const =>
      simp only [bind_eq_ok, pure_eq_ok, loadTerm_eq_ok]
      cases b <;> simp [Legible, kind, text, Category.bindingKind?]
    | var =>
      constructor
      · intro h
        dsimp only at h
        split_ifs at h with hx
        cases h
        exact ⟨⟨hx, rfl⟩, rfl⟩
      · rintro ⟨⟨hleg, hkind⟩, rfl⟩
        cases b with
        | var x => exact if_pos hleg
        | term t => cases hkind
        | formula f => cases hkind
    | rel =>
      simp only [bind_eq_ok, pure_eq_ok, loadFormula_eq_ok]
      cases b <;> simp [Legible, kind, text, Category.bindingKind?]
    | func => simp [Category.bindingKind?]

namespace Bindings

theorem normal_of_ofTexts {texts : Table String} {bindings : Bindings}
    (h : Bindings.ofTexts texts = .ok bindings) :
    ((∀ e ∈ bindings.entries, e.2.Legible) ∧ bindings.Sorted) ∧ bindings.toTexts = texts := by
  have hentry : ∀ (e : String × String) (e' : String × Binding),
      e.1 = e'.1 ∧ Binding.ofText e.1 e.2 = .ok e'.2 →
        (e'.2.Legible ∧ (Category.of? e'.1).bind Category.bindingKind? = some e'.2.kind) ∧
          (e'.1, e'.2.text) = id e := by
    rintro ⟨k, v⟩ ⟨k', b⟩ ⟨rfl, hb⟩
    obtain ⟨h, htext⟩ := Binding.ofText_eq_ok.1 hb
    exact ⟨h, congrArg (Prod.mk k) htext⟩
  obtain ⟨hall, hmap⟩ := map_eq_of_forall₂ (Table.traverse_eq_ok.1 h) hentry
  refine ⟨⟨fun e he => (hall e he).1, fun name b hb => ?_⟩, Table.ext ?_⟩
  · exact (hall _ (Table.mem_of_get? hb)).2
  · exact hmap.trans (List.map_id _)

theorem ofTexts_toTexts {bindings : Bindings} (hleg : ∀ e ∈ bindings.entries, e.2.Legible)
    (hsorted : bindings.Sorted) : Bindings.ofTexts bindings.toTexts = .ok bindings := by
  refine Table.traverse_eq_ok.2 (forall₂_map_self fun e he => ⟨rfl, ?_⟩)
  exact Binding.ofText_eq_ok.2 ⟨⟨hleg e he, hsorted e.1 e.2 (Table.get?_of_mem he)⟩, rfl⟩

end Bindings

/-! ## Lines -/

namespace Line

theorem normal_of_ofDoc {d : LineDoc} {line : Line} (h : Line.ofDoc d = .ok line) :
    (line.Legible ∧ line.reason.Named) ∧ line.toDoc = d.normalize := by
  obtain ⟨text, reason⟩ := d
  obtain ⟨f, hf, h⟩ := bind_eq_ok.1 h
  obtain ⟨hleg, rfl⟩ := loadFormula_eq_ok.1 hf
  cases reason with
  | assumption schemaDoc texts =>
    simp only [bind_eq_ok, pure_eq_ok] at h
    obtain ⟨schema, hschema, bindings, hbindings, rfl⟩ := h
    obtain ⟨⟨hsleg, hsnamed⟩, hsdoc⟩ := Schema.normal_of_ofDoc hschema
    obtain ⟨⟨hbleg, hbsorted⟩, rfl⟩ := Bindings.normal_of_ofTexts hbindings
    refine ⟨⟨⟨hleg, hsleg, hbleg⟩, hsnamed, hbsorted⟩, ?_⟩
    simp only [toDoc, LineDoc.normalize, hsdoc]
  | tautology =>
    cases h
    exact ⟨⟨⟨hleg, trivial⟩, trivial⟩, rfl⟩
  | modusPonens antecedent conditional =>
    cases h
    exact ⟨⟨⟨hleg, trivial⟩, trivial⟩, rfl⟩
  | generalization predicate =>
    cases h
    exact ⟨⟨⟨hleg, trivial⟩, trivial⟩, rfl⟩

theorem ofDoc_toDoc {line : Line} (hleg : line.Legible) (hnamed : line.reason.Named) :
    Line.ofDoc line.toDoc = .ok line := by
  obtain ⟨f, reason⟩ := line
  refine bind_eq_ok.2 ⟨f, loadFormula_eq_ok.2 ⟨hleg.1, rfl⟩, ?_⟩
  cases reason with
  | assumption schema bindings =>
    have hschema : Schema.ofDoc schema.toDoc = .ok schema := Schema.ofDoc_toDoc hleg.2.1 hnamed.1
    have hbindings : Bindings.ofTexts bindings.toTexts = .ok bindings :=
      Bindings.ofTexts_toTexts hleg.2.2 hnamed.2
    simp only [toDoc, hschema, hbindings]
    rfl
  | tautology => rfl
  | modusPonens antecedent conditional => rfl
  | generalization predicate => rfl

end Line

/-! ## Proofs -/

namespace Proof

theorem ofDoc_eq_ok {d : ProofDoc} {p : Proof} : Proof.ofDoc d = .ok p ↔ ∃ schemas,
    d.assumptions.mapM Schema.ofDoc = .ok schemas ∧ p.assumptions = .ofList schemas ∧
      d.lines.mapM Line.ofDoc = .ok p.lines ∧ loadFormula d.conclusion = .ok p.conclusion := by
  simp only [ofDoc, bind_eq_ok, pure_eq_ok]
  constructor
  · rintro ⟨schemas, hs, lines, hl, conclusion, hc, rfl⟩
    exact ⟨schemas, hs, rfl, hl, hc⟩
  · rintro ⟨schemas, hs, ha, hl, hc⟩
    exact ⟨schemas, hs, p.lines, hl, p.conclusion, hc, by rw [← ha]⟩

theorem ofDoc_toDoc {p : Proof} (hleg : p.Legible) (hnamed : p.Named) :
    Proof.ofDoc p.toDoc = .ok p := by
  refine ofDoc_eq_ok.2 ⟨p.assumptions.toList, mapM_eq_ok.2 (forall₂_map_self fun s hs => ?_),
    (OrderedSet.ofList_toList _).symm, mapM_eq_ok.2 (forall₂_map_self fun line hl => ?_), ?_⟩
  · exact Schema.ofDoc_toDoc (hleg.assumptions s hs) (hnamed.assumptions s hs)
  · exact Line.ofDoc_toDoc (hleg.lines line hl) (hnamed.lines line hl)
  · exact loadFormula_eq_ok.2 ⟨hleg.conclusion, rfl⟩

theorem normal_of_ofDoc {d : ProofDoc} {p : Proof} (h : Proof.ofDoc d = .ok p) :
    (p.Legible ∧ p.Named) ∧ p.toDoc = d.normalize := by
  obtain ⟨schemas, hs, ha, hl, hc⟩ := ofDoc_eq_ok.1 h
  obtain ⟨hschemas, hsdoc⟩ :=
    map_eq_of_forall₂ (mapM_eq_ok.1 hs) fun _ _ => Schema.normal_of_ofDoc
  obtain ⟨hlines, hldoc⟩ := map_eq_of_forall₂ (mapM_eq_ok.1 hl) fun _ _ => Line.normal_of_ofDoc
  obtain ⟨hcleg, hctext⟩ := loadFormula_eq_ok.1 hc
  -- Schemas are dropped as repetitions, but no two of them have the same document.
  have hinj : ∀ s ∈ schemas, ∀ t ∈ schemas, s.toDoc = t.toDoc → s = t := by
    intro s hs t ht hdoc
    have hload := Schema.ofDoc_toDoc (hschemas s hs).1 (hschemas s hs).2
    rw [hdoc, Schema.ofDoc_toDoc (hschemas t ht).1 (hschemas t ht).2] at hload
    exact (Except.ok.inj hload).symm
  have hlist : p.assumptions.toList = schemas.eraseDups := by
    rw [ha, OrderedSet.toList_ofList]
  have hmem : ∀ s ∈ p.assumptions.toList, s ∈ schemas := by
    intro s hs
    rw [hlist] at hs
    exact List.mem_eraseDups.1 hs
  refine ⟨⟨⟨fun s hs => ?_, hcleg, fun line hline => ?_⟩, fun s hs => ?_, fun line hline => ?_⟩, ?_⟩
  · exact (hschemas s (hmem s hs)).1
  · exact (hlines line hline).1
  · exact (hschemas s (hmem s hs)).2
  · exact (hlines line hline).2
  · rw [toDoc, ProofDoc.normalize, hlist, ← eraseDups_map hinj, hsdoc, hldoc, hctext]

/-- A proof that was loaded, whether it verifies or not, is saved as the document that it was loaded
from in normal form, and what was saved is loaded as the same proof. -/
theorem saved_of_loaded {d : ProofDoc} {p : Proof} (h : Proof.ofDoc d = .ok p) :
    p.toDoc = d.normalize ∧ Proof.ofDoc p.toDoc = .ok p := by
  obtain ⟨⟨hleg, hnamed⟩, hdoc⟩ := normal_of_ofDoc h
  exact ⟨hdoc, ofDoc_toDoc hleg hnamed⟩

/-- The third assumption is the first again, with its templates in another order. The second line
refers to one that does not exist, so the proof does not verify. -/
theorem saved_of_loaded_repeated :
    let ui := "(Ax[R(x)]->R(c))"
    let bindings : Table String := .ofList [("x", "y"), ("R", "S(_,d)"), ("c", "f(a)")]
    let d : ProofDoc := ⟨[⟨ui, ["x", "R", "c", "R"]⟩, ⟨"c=c", []⟩, ⟨ui, ["c", "x", "R"]⟩], "Q()",
      [⟨"(Ay[S(y,d)]->S(f(a),d))", .assumption ⟨ui, ["x", "c", "R"]⟩ bindings⟩,
        ⟨"Q()", .modusPonens 0 7⟩]⟩
    let d' : ProofDoc := ⟨[⟨ui, ["R", "c", "x"]⟩, ⟨"c=c", []⟩], "Q()",
      [⟨"(Ay[S(y,d)]->S(f(a),d))", .assumption ⟨ui, ["R", "c", "x"]⟩ bindings⟩,
        ⟨"Q()", .modusPonens 0 7⟩]⟩
    ∃ p, Proof.ofDoc d = .ok p ∧ p.isValid = false ∧
      p.toDoc = d' ∧ d.normalize = d' ∧ Proof.ofDoc d' = .ok p := by
  intro ui bindings d d'
  have hload : (Proof.ofDoc d).toOption.map (fun p => (p.toDoc, p.isValid)) = some (d', false) := by
    decide +kernel
  cases hp : Proof.ofDoc d with
  | error e =>
    rw [hp] at hload
    cases hload
  | ok p =>
    rw [hp] at hload
    obtain ⟨hdoc, hvalid⟩ := Prod.mk.inj (Option.some.inj hload)
    obtain ⟨hnormal, hreload⟩ := saved_of_loaded hp
    exact ⟨p, rfl, hvalid, hdoc, hnormal.symm.trans hdoc, hdoc ▸ hreload⟩

end Proof

/-! ## Proofs that verify -/

section

variable {σ : Type} {oracle : Oracle σ}

namespace Proof

/-- The names of templates are not looked at when a proof is verified, but those of bindings are. -/
theorem named_of_verifyM {memory : σ} {p : Proof} (h : ((p.verifyM oracle).run memory).1 = .ok ())
    (htemplates : ∀ s ∈ p.assumptions.toList, s.Named) : p.Named := by
  refine ⟨htemplates, fun line hline => ?_⟩
  obtain ⟨i, hi⟩ := List.mem_iff_getElem?.1 hline
  have hj := (justified_of_verifyM h).2 i line hi
  obtain ⟨formula, reason⟩ := line
  cases reason with
  | assumption schema bindings =>
    obtain ⟨hmem, hinst⟩ := hj
    exact ⟨htemplates schema hmem, Schema.sorted_of_instantiate hinst⟩
  | _ => trivial

/-- A proof that verifies under some oracle is loaded again from the document that it was saved as,
if its trees are legible and its templates have names that templates can have. -/
theorem loaded_of_verified {memory : σ} {p : Proof}
    (hverify : ((p.verifyM oracle).run memory).1 = .ok ()) (hlegible : p.Legible)
    (htemplates : ∀ s ∈ p.assumptions.toList, s.Named) : Proof.ofDoc p.toDoc = .ok p :=
  ofDoc_toDoc hlegible (named_of_verifyM hverify htemplates)

/-- The oracle says yes to everything and counts what it was asked, so the proof has a line that is
no tautology. Its second line has a binding of each kind. -/
theorem loaded_of_verified_unsound :
    let R := fun t : Term => Formula.holds "R" [t]
    let Q := Formula.holds "Q" []
    let fc : Term := .app ⟨"f", 1⟩ [.const "c"]
    let oracle : Oracle Nat := fun _ => modifyGet fun n => (true, n + 1)
    let ui := LogicalAxiom.universalInstantiation.schema
    let p : Proof := ⟨.ofList [ui, .fixed (.all "y" (R (.var "y")))], Q,
      [⟨.all "y" (R (.var "y")), .assumption (.fixed (.all "y" (R (.var "y")))) .empty⟩,
        ⟨.imp (.all "y" (R (.var "y"))) (R fc), .assumption ui (.ofList [("x", .var "y"),
          ("R", .formula (R (.const "_"))), ("c", .term fc)])⟩,
        ⟨R fc, .modusPonens 0 1⟩, ⟨Q, .tautology⟩]⟩
    (((p.verifyM oracle).run 0).1 = .ok () ∧ p.Legible ∧ ∀ s ∈ p.assumptions.toList, s.Named) ∧
      p.isValid = false ∧ Proof.ofDoc p.toDoc = .ok p := by
  intro R Q fc oracle ui p
  have hverify : ((p.verifyM oracle).run 0).1 = .ok () := by decide +kernel
  have hlegible : p.Legible := by decide +kernel
  have htemplates : ∀ s ∈ p.assumptions.toList, s.Named := by decide +kernel
  have hvalid : p.isValid = false := by decide +kernel
  exact ⟨⟨hverify, hlegible, htemplates⟩, hvalid, loaded_of_verified hverify hlegible htemplates⟩

end Proof

end

end Deduction
