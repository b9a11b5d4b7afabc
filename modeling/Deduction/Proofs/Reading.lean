import Deduction.Expression.Reader
import Deduction.Proofs.Substitution
import Mathlib.Tactic.SplitIfs

/-!
# Reading is the inverse of writing

A text is accepted as a formula just when it is the written form of a legible one, and then it is
read as that formula (`Formula.parse_eq_ok`); so it is with terms (`Term.parse_eq_ok`).

For one direction, whatever a reader reads stood at the front of the text in its written form
(`Term.sound_read`, `Formula.sound_read`). For the other, a written form is read back whatever
follows it, as long as no letter or digit does (`Term.recovers_read`, `Formula.recovers_read`): a
name is read as far as it goes, and the first character of a written form, or its first name, says
which of the forms it is.
-/

namespace Deduction

/-! ## Legible trees -/

namespace Term

theorem wellFormedList_iff : ∀ {ts : List Term}, WellFormedList ts ↔ ∀ t ∈ ts, t.WellFormed
  | [] => by simp [WellFormedList]
  | t :: ts => by rw [WellFormedList, wellFormedList_iff, List.forall_mem_cons]

theorem mem_functionsOfList {g : Symbol} : ∀ {ts : List Term},
    g ∈ functionsOfList ts ↔ ∃ t ∈ ts, g ∈ t.functions
  | [] => by simp [functionsOfList]
  | t :: ts => by
    rw [functionsOfList, List.mem_append, mem_functionsOfList]
    simp

/-- The term is well formed and each function in it has an argument. -/
def Legible (t : Term) : Prop := t.WellFormed ∧ ∀ g ∈ t.functions, 0 < g.arity

instance (t : Term) : Decidable t.Legible := inferInstanceAs (Decidable (_ ∧ _))

theorem legible_var {x : String} : (Term.var x).Legible ↔ isVar x := by
  simp [Legible, WellFormed, functions]

theorem legible_const {c : String} : (Term.const c).Legible ↔ isConst c := by
  simp [Legible, WellFormed, functions]

theorem forall_legible {ts : List Term} : (∀ t ∈ ts, t.Legible) ↔
    WellFormedList ts ∧ ∀ g ∈ functionsOfList ts, 0 < g.arity := by
  simp only [Legible, wellFormedList_iff, mem_functionsOfList]
  constructor
  · intro h
    exact ⟨fun t ht => (h t ht).1, fun g ⟨t, ht, hg⟩ => (h t ht).2 g hg⟩
  · intro h t ht
    exact ⟨h.1 t ht, fun g hg => h.2 g ⟨t, ht, hg⟩⟩

theorem legible_app {f : Symbol} {args : List Term} : (Term.app f args).Legible ↔
    isFunc f.name ∧ f.arity = args.length ∧ args ≠ [] ∧ ∀ t ∈ args, t.Legible := by
  rw [forall_legible]
  simp only [Legible, WellFormed, functions, List.forall_mem_cons, ← List.length_pos_iff]
  constructor
  · rintro ⟨⟨hf, hlen, hargs⟩, hpos, happ⟩
    exact ⟨hf, hlen, hlen ▸ hpos, hargs, happ⟩
  · rintro ⟨hf, hlen, hpos, hargs, happ⟩
    exact ⟨⟨hf, hlen, hargs⟩, hlen ▸ hpos, happ⟩

end Term

namespace Formula

/-- The formula is well formed and each function in it has an argument. A relation need not have
one. -/
def Legible (f : Formula) : Prop := f.WellFormed ∧ ∀ g ∈ f.functions, 0 < g.arity

instance (f : Formula) : Decidable f.Legible := inferInstanceAs (Decidable (_ ∧ _))

theorem legible_equality {l r : Term} : (Formula.equality l r).Legible ↔ l.Legible ∧ r.Legible := by
  simp only [Legible, Term.Legible, WellFormed, functions, List.forall_mem_append]
  exact and_and_and_comm

theorem legible_relation {s : Symbol} {args : List Term} : (Formula.relation s args).Legible ↔
    isRel s.name ∧ s.arity = args.length ∧ ∀ t ∈ args, t.Legible := by
  simp only [Legible, WellFormed, functions, Term.forall_legible, and_assoc]

theorem legible_neg {f : Formula} : (Formula.neg f).Legible ↔ f.Legible := Iff.rfl

theorem legible_binary {op : Connective} {l r : Formula} :
    (Formula.binary op l r).Legible ↔ l.Legible ∧ r.Legible := by
  simp only [Legible, WellFormed, functions, List.forall_mem_append]
  exact and_and_and_comm

theorem legible_quantified {q : Quantifier} {x : String} {f : Formula} :
    (Formula.quantified q x f).Legible ↔ isVar x ∧ f.Legible := and_assoc

end Formula

/-! ## Names -/

/-- No letter or digit comes next, so that a name which stands before ends here. -/
def Stops (rest : List Char) : Prop := ∀ c ∈ rest.head?, ¬ c.isAlphanum

theorem stops_nil : Stops [] := by simp [Stops]

theorem stops_cons {c : Char} {rest : List Char} : Stops (c :: rest) ↔ ¬ c.isAlphanum := by
  simp [Stops]

theorem Category.of?_eq_some {n : String} {k : Category} (h : of? n = some k) :
    n = placeholder ∨ ∃ c rest, n.toList = c :: rest ∧ n.toList.all Char.isAlphanum ∧
      ofInitial? c = some k := by
  refine (ofChars?_eq_some.1 h).imp_left fun ⟨hn, _⟩ => ?_
  rw [← String.toList_inj, hn]
  rfl

namespace Reader

variable {α : Type} {s rest : List Char}

/-- Whatever is read has the property `P` and stood at the front of the text, as `write` has it. -/
def Sound (reader : Reader α) (P : α → Prop) (write : α → List Char) : Prop :=
  ∀ s a rest, reader s = .ok (a, rest) → P a ∧ s = write a ++ rest

/-- The value is read from its written form, whatever follows that cannot belong to a name. -/
def Recovers (reader : Reader α) (a : α) (written : List Char) : Prop :=
  ∀ rest, Stops rest → reader (written ++ rest) = .ok (a, rest)

theorem takeWhile_append_of_stops {cs : List Char} (hcs : cs.all Char.isAlphanum)
    (hrest : Stops rest) : (cs ++ rest).takeWhile Char.isAlphanum = cs ∧
      (cs ++ rest).dropWhile Char.isAlphanum = rest := by
  rw [List.all_eq_true] at hcs
  have htake : rest.takeWhile Char.isAlphanum = [] := by
    cases rest with
    | nil => rfl
    | cons c rest => rw [List.takeWhile_cons_of_neg (stops_cons.1 hrest)]
  have hdrop : rest.dropWhile Char.isAlphanum = rest := by
    cases rest with
    | nil => rfl
    | cons c rest => rw [List.dropWhile_cons_of_neg (stops_cons.1 hrest)]
  rw [List.takeWhile_append_of_pos hcs, List.dropWhile_append_of_pos hcs, htake, hdrop]
  exact ⟨List.append_nil cs, rfl⟩

theorem name_append {n : String} {k : Category} (hn : Category.of? n = some k)
    (hrest : Stops rest) : name (n.toList ++ rest) = .ok (n, rest) := by
  rcases Category.of?_eq_some hn with rfl | ⟨c, cs, hcs, hall, -⟩
  · rfl
  rw [hcs, List.all_cons, Bool.and_eq_true] at hall
  have hc : c ≠ '_' := by
    rintro rfl
    exact absurd hall.1 (by decide)
  obtain ⟨htake, hdrop⟩ := takeWhile_append_of_stops hall.2 hrest
  rw [hcs, List.cons_append, name.eq_3 c _ (by simpa using hc), if_pos hall.1, htake, hdrop, ← hcs,
    String.ofList_toList]

theorem eq_append_of_name {n : String} (h : name s = .ok (n, rest)) : s = n.toList ++ rest := by
  unfold name at h
  split at h
  · cases h
  · cases h
    rfl
  · rename_i c rest' _
    split_ifs at h with hc
    cases h
    rw [String.toList_ofList, List.cons_append, List.takeWhile_append_dropWhile]

theorem nameOf_eq_ok {k : Category} {n : String} :
    nameOf k s = .ok (n, rest) ↔ name s = .ok (n, rest) ∧ Category.of? n = some k := by
  simp only [nameOf, bind_eq_ok]
  constructor
  · rintro ⟨⟨n', rest'⟩, hname, h⟩
    split_ifs at h with hk
    cases h
    exact ⟨hname, hk⟩
  · rintro ⟨hname, hk⟩
    exact ⟨_, hname, if_pos hk⟩

/-! ## Characters and brackets -/

theorem char_eq_ok {c : Char} : char c s = .ok ((), rest) ↔ s = c :: rest := by
  cases s with
  | nil => simp [char]
  | cons d s =>
    simp only [char]
    split_ifs with hd
    · simp [hd]
    · simp [hd]

theorem literal_eq_ok {cs : List Char} : literal cs s = .ok ((), rest) ↔ s = cs ++ rest := by
  simp only [literal]
  constructor
  · intro h
    split_ifs at h with hp
    cases h
    exact (List.prefix_iff_eq_append.1 (List.isPrefixOf_iff_prefix.1 hp)).symm
  · rintro rfl
    rw [if_pos (List.isPrefixOf_iff_prefix.2 (List.prefix_append cs rest)), List.drop_left]

theorem between_eq_ok {opening closing : Char} {inner : Reader α} {a : α} :
    between opening closing inner s = .ok (a, rest) ↔
      ∃ s', s = opening :: s' ∧ inner s' = .ok (a, closing :: rest) := by
  simp only [between, bind_eq_ok, pure_eq_ok, Prod.exists, Prod.mk.injEq]
  constructor
  · rintro ⟨_, s', hs, a', s'', ha, _, rest', hrest, rfl, rfl⟩
    rw [char_eq_ok.1 hrest] at ha
    exact ⟨s', char_eq_ok.1 hs, ha⟩
  · rintro ⟨s', hs, ha⟩
    exact ⟨(), s', char_eq_ok.2 hs, a, _, ha, (), rest, char_eq_ok.2 rfl, rfl, rfl⟩

/-- A character or literal that stands for a value. -/
theorem sign_eq_ok {sign : Reader Unit} {a b : α}
    (h : (do let (_, s) ← sign s; return (a, s)) = .ok (b, rest)) :
    a = b ∧ sign s = .ok ((), rest) := by
  obtain ⟨⟨_, s'⟩, hs, h⟩ := bind_eq_ok.1 h
  cases h
  exact ⟨rfl, hs⟩

theorem orElse_eq_ok {ε : Type} {x y : Except ε α} {a : α} (h : (x <|> y) = .ok a) :
    x = .ok a ∨ y = .ok a := by
  cases x with
  | ok b => exact .inl h
  | error e => exact .inr h

/-- An alternative that does not fit is passed over. -/
theorem orElse_of_ne_ok {ε : Type} {x y : Except ε α} (h : ∀ a, x ≠ .ok a) : (x <|> y) = y := by
  cases x with
  | ok b => exact absurd rfl (h b)
  | error e => rfl

end Reader

open Reader

/-! ## Terms -/

namespace Term

theorem length_chars_le_rest {t : Term} : ∀ {ts : List Term}, t ∈ ts →
    t.chars.length ≤ (charsOfRest ts).length
  | u :: ts, h => by
    simp only [charsOfRest, List.length_cons, List.length_append]
    rcases List.mem_cons.1 h with rfl | h
    · omega
    · have := length_chars_le_rest h
      omega

theorem length_chars_le {t : Term} {ts : List Term} (h : t ∈ ts) :
    t.chars.length ≤ (charsOfList ts).length := by
  cases ts with
  | nil => cases h
  | cons u ts =>
    simp only [charsOfList, List.length_append]
    rcases List.mem_cons.1 h with rfl | h
    · omega
    · have := length_chars_le_rest h
      omega

theorem length_le_rest : ∀ ts : List Term, ts.length ≤ (charsOfRest ts).length
  | [] => Nat.zero_le _
  | t :: ts => by
    have := length_le_rest ts
    simp only [charsOfRest, List.length_cons, List.length_append]
    omega

theorem stops_rest_append {rest : List Char} (hrest : Stops rest) :
    ∀ ts : List Term, Stops (charsOfRest ts ++ rest)
  | [] => hrest
  | t :: ts => stops_cons.2 (by decide)

section

variable {item : Reader Term} {s rest : List Char} {ts : List Term}

theorem legible_of_listTail (hitem : item.Sound Legible chars) {limit : Nat}
    (h : listTail item limit s = (ts, rest)) :
    (∀ t ∈ ts, t.Legible) ∧ s = charsOfRest ts ++ rest := by
  fun_induction listTail item limit s generalizing ts with
  | case1 limit s t s' ht more s'' hmore ih =>
    obtain ⟨hleg, hs⟩ := hitem s t s' ht
    cases h
    obtain ⟨hlegs, hs'⟩ := ih hmore
    refine ⟨List.forall_mem_cons.2 ⟨hleg, hlegs⟩, ?_⟩
    rw [hs, hs', charsOfRest, List.cons_append, List.append_assoc]
  | case2 limit s e ht =>
    cases h
    exact ⟨List.forall_mem_nil _, rfl⟩
  | case3 limit s hs =>
    cases h
    exact ⟨List.forall_mem_nil _, rfl⟩

theorem legible_of_list1 (hitem : item.Sound Legible chars) (h : list1 item s = .ok (ts, rest)) :
    ts ≠ [] ∧ (∀ t ∈ ts, t.Legible) ∧ s = charsOfList ts ++ rest := by
  simp only [list1, bind_eq_ok, pure_eq_ok, Prod.exists] at h
  obtain ⟨t, s', ht, h⟩ := h
  obtain ⟨hleg, hs⟩ := hitem s t s' ht
  cases h
  obtain ⟨hlegs, hs'⟩ := legible_of_listTail hitem
    (rfl : listTail item s'.length s' = (_, (listTail item s'.length s').2))
  refine ⟨List.cons_ne_nil _ _, List.forall_mem_cons.2 ⟨hleg, hlegs⟩, ?_⟩
  rw [charsOfList, List.append_assoc, ← hs', hs]

theorem legible_of_list0 (hitem : item.Sound Legible chars) (h : list0 item s = .ok (ts, rest)) :
    (∀ t ∈ ts, t.Legible) ∧ s = charsOfList ts ++ rest := by
  unfold list0 at h
  split at h
  · rename_i hlist
    exact (legible_of_list1 hitem (hlist.trans h)).2
  · cases h
    exact ⟨List.forall_mem_nil _, rfl⟩

/-- The list goes on as long as commas follow, and a closing bracket is none. -/
theorem listTail_append : ∀ {limit : Nat} {ts : List Term}, ts.length ≤ limit →
    (∀ t ∈ ts, item.Recovers t t.chars) →
      listTail item limit (charsOfRest ts ++ ')' :: rest) = (ts, ')' :: rest)
  | 0, [], _, _ => rfl
  | limit + 1, [], _, _ => rfl
  | limit + 1, t :: ts, hlen, hitem => by
    obtain ⟨ht, hts⟩ := List.forall_mem_cons.1 hitem
    have hstop : Stops (charsOfRest ts ++ ')' :: rest) :=
      stops_rest_append (stops_cons.2 (by decide)) ts
    have ih : listTail item limit (charsOfRest ts ++ ')' :: rest) = (ts, ')' :: rest) :=
      listTail_append (Nat.le_of_succ_le_succ hlen) hts
    simp only [charsOfRest, List.cons_append, List.append_assoc, listTail, ht _ hstop, ih]

theorem list1_append (hne : ts ≠ []) (hitem : ∀ t ∈ ts, item.Recovers t t.chars) :
    list1 item (charsOfList ts ++ ')' :: rest) = .ok (ts, ')' :: rest) := by
  cases ts with
  | nil => exact absurd rfl hne
  | cons t ts =>
    obtain ⟨ht, hts⟩ := List.forall_mem_cons.1 hitem
    have hstop : Stops (charsOfRest ts ++ ')' :: rest) :=
      stops_rest_append (stops_cons.2 (by decide)) ts
    have hlen : ts.length ≤ (charsOfRest ts ++ ')' :: rest).length := by
      rw [List.length_append]
      exact Nat.le_add_right_of_le (length_le_rest ts)
    have htail : listTail item (charsOfRest ts ++ ')' :: rest).length
        (charsOfRest ts ++ ')' :: rest) = (ts, ')' :: rest) := listTail_append hlen hts
    rw [charsOfList, List.append_assoc, list1, ht _ hstop]
    simp only [bind, Except.bind, htail]
    rfl

theorem list0_append (hnone : ∀ a, item (')' :: rest) ≠ .ok a)
    (hitem : ∀ t ∈ ts, item.Recovers t t.chars) :
    list0 item (charsOfList ts ++ ')' :: rest) = .ok (ts, ')' :: rest) := by
  by_cases hne : ts = []
  · subst hne
    have hlist : ∀ a, list1 item (')' :: rest) ≠ .ok a := by
      intro a h
      obtain ⟨t, ht, -⟩ := bind_eq_ok.1 h
      exact hnone t ht
    rw [charsOfList, List.nil_append, list0]
    cases h : list1 item (')' :: rest) with
    | ok a => exact absurd h (hlist a)
    | error _ => rfl
  · rw [list0, list1_append hne hitem]

end

theorem sound_read : ∀ depth : Nat, (read depth).Sound Legible chars
  | 0, s, t, rest, h => by cases h
  | depth + 1, s, t, rest, h => by
    simp only [read, readWith, bind_eq_ok, Prod.exists] at h
    obtain ⟨n, s', hn, h⟩ := h
    have hs : s = n.toList ++ s' := eq_append_of_name hn
    split at h
    · rename_i hk
      cases h
      exact ⟨legible_const.2 (decide_eq_true hk), hs⟩
    · rename_i hk
      cases h
      exact ⟨legible_var.2 (decide_eq_true hk), hs⟩
    · rename_i hk
      simp only [bind_eq_ok, pure_eq_ok, Prod.exists, Prod.mk.injEq] at h
      obtain ⟨args, _, hargs, rfl, rfl⟩ := h
      obtain ⟨s'', rfl, hlist⟩ := between_eq_ok.1 hargs
      obtain ⟨hne, hleg, rfl⟩ := legible_of_list1 (sound_read depth) hlist
      refine ⟨legible_app.2 ⟨decide_eq_true hk, rfl, hne, hleg⟩, ?_⟩
      rw [hs, chars]
      simp
    · cases h
    · cases h

theorem recovers_read : ∀ {depth : Nat} {t : Term}, t.Legible → t.chars.length < depth →
    (read depth).Recovers t t.chars
  | depth + 1, .var x, ht, _, rest, hrest => by
    have hk : Category.of? x = some .var := of_decide_eq_true (legible_var.1 ht)
    simp only [read, readWith, chars, name_append hk hrest, bind, Except.bind, hk]
    rfl
  | depth + 1, .const c, ht, _, rest, hrest => by
    have hk : Category.of? c = some .const := of_decide_eq_true (legible_const.1 ht)
    simp only [read, readWith, chars, name_append hk hrest, bind, Except.bind, hk]
    rfl
  | depth + 1, .app ⟨f, arity⟩ args, ht, hlen, rest, hrest => by
    obtain ⟨hf, harity, hne, hargs⟩ := legible_app.1 ht
    have hk : Category.of? f = some .func := of_decide_eq_true hf
    have hstop : Stops ('(' :: (charsOfList args ++ ')' :: rest)) := stops_cons.2 (by decide)
    have hshorter : ∀ t ∈ args, t.chars.length < depth := by
      intro t ht
      have := length_chars_le ht
      simp only [chars, List.length_append, List.length_cons] at hlen
      omega
    have hlist : between '(' ')' (list1 (read depth)) ('(' :: (charsOfList args ++ ')' :: rest))
        = .ok (args, rest) :=
      between_eq_ok.2 ⟨_, rfl, list1_append hne fun t ht =>
        recovers_read (hargs t ht) (hshorter t ht)⟩
    simp only [read, readWith, chars, List.append_assoc, List.cons_append, List.nil_append,
      name_append hk hstop, bind, Except.bind, hk, hlist]
    simp only at harity
    rw [harity]
    rfl

/-- A term begins with its outermost name, which is no relation. -/
theorem name_chars_append {t : Term} {rest : List Char} (ht : t.Legible) (hrest : Stops rest) :
    ∃ k s', k ≠ .rel ∧ Category.of? t.root = some k ∧
      name (t.chars ++ rest) = .ok (t.root, s') := by
  cases t with
  | var x =>
    have hk : Category.of? x = some .var := of_decide_eq_true (legible_var.1 ht)
    exact ⟨.var, rest, by decide, hk, name_append hk hrest⟩
  | const c =>
    have hk : Category.of? c = some .const := of_decide_eq_true (legible_const.1 ht)
    exact ⟨.const, rest, by decide, hk, name_append hk hrest⟩
  | app f args =>
    have hk : Category.of? f.name = some .func := of_decide_eq_true (legible_app.1 ht).1
    refine ⟨.func, '(' :: (charsOfList args ++ [')'] ++ rest), by decide, hk, ?_⟩
    rw [chars, List.append_assoc]
    exact name_append hk (stops_cons.2 (by decide))

end Term

/-! ## Formulas -/

namespace Formula

theorem sound_readTerm : readTerm.Sound Term.Legible Term.chars :=
  fun s => Term.sound_read (s.length + 1) s

theorem recovers_readTerm {t : Term} (ht : t.Legible) : readTerm.Recovers t t.chars := by
  intro rest hrest
  refine Term.recovers_read ht ?_ rest hrest
  rw [List.length_append]
  omega

theorem readConnective_eq_ok {op : Connective} {s rest : List Char} :
    readConnective s = .ok (op, rest) ↔ s = op.chars ++ rest := by
  constructor
  · intro h
    rcases orElse_eq_ok h with h | h
    · obtain ⟨rfl, hs⟩ := sign_eq_ok h
      exact literal_eq_ok.1 hs
    rcases orElse_eq_ok h with h | h
    · obtain ⟨rfl, hs⟩ := sign_eq_ok h
      exact literal_eq_ok.1 hs
    · obtain ⟨rfl, hs⟩ := sign_eq_ok h
      exact literal_eq_ok.1 hs
  · rintro rfl
    cases op <;> rfl

theorem readQuantifier_eq_ok {q : Quantifier} {s rest : List Char} :
    readQuantifier s = .ok (q, rest) ↔ s = q.char :: rest := by
  constructor
  · intro h
    rcases orElse_eq_ok h with h | h
    · obtain ⟨rfl, hs⟩ := sign_eq_ok h
      exact char_eq_ok.1 hs
    · obtain ⟨rfl, hs⟩ := sign_eq_ok h
      exact char_eq_ok.1 hs
  · rintro rfl
    cases q <;> rfl

section

variable {inner : Reader Formula} {f : Formula} {s rest : List Char}

theorem readNegation_eq_ok : readNegation inner s = .ok (f, rest) ↔
    ∃ g s', s = '~' :: s' ∧ inner s' = .ok (g, rest) ∧ f = .neg g := by
  simp only [readNegation, bind_eq_ok, pure_eq_ok, Prod.exists, Prod.mk.injEq]
  constructor
  · rintro ⟨_, s', hs, g, _, hg, rfl, rfl⟩
    exact ⟨g, s', char_eq_ok.1 hs, hg, rfl⟩
  · rintro ⟨g, s', hs, hg, rfl⟩
    exact ⟨(), s', char_eq_ok.2 hs, g, rest, hg, rfl, rfl⟩

theorem readBinary_eq_ok : readBinary inner s = .ok (f, rest) ↔
    ∃ op l r s' s'', s = '(' :: s' ∧ inner s' = .ok (l, op.chars ++ s'') ∧
      inner s'' = .ok (r, ')' :: rest) ∧ f = .binary op l r := by
  simp only [readBinary, between_eq_ok, bind_eq_ok, pure_eq_ok, Prod.exists, Prod.mk.injEq]
  constructor
  · rintro ⟨s', hs, l, _, hl, op, s'', hop, r, _, hr, rfl, rfl⟩
    rw [readConnective_eq_ok.1 hop] at hl
    exact ⟨op, l, r, s', s'', hs, hl, hr, rfl⟩
  · rintro ⟨op, l, r, s', s'', hs, hl, hr, rfl⟩
    exact ⟨s', hs, l, _, hl, op, s'', readConnective_eq_ok.2 rfl, r, _, hr, rfl, rfl⟩

theorem readQuantified_eq_ok : readQuantified inner s = .ok (f, rest) ↔
    ∃ q x g s' s'', s = q.char :: s' ∧ nameOf .var s' = .ok (x, '[' :: s'') ∧
      inner s'' = .ok (g, ']' :: rest) ∧ f = .quantified q x g := by
  simp only [readQuantified, between_eq_ok, bind_eq_ok, pure_eq_ok, Prod.exists, Prod.mk.injEq]
  constructor
  · rintro ⟨q, s', hs, x, _, hx, g, _, ⟨s'', rfl, hg⟩, rfl, rfl⟩
    exact ⟨q, x, g, s', s'', readQuantifier_eq_ok.1 hs, hx, hg, rfl⟩
  · rintro ⟨q, x, g, s', s'', hs, hx, hg, rfl⟩
    exact ⟨q, s', readQuantifier_eq_ok.2 hs, x, _, hx, g, rest, ⟨s'', rfl, hg⟩, rfl, rfl⟩

theorem readRelation_eq_ok : readRelation s = .ok (f, rest) ↔
    ∃ n args s', nameOf .rel s = .ok (n, '(' :: s') ∧ list0 readTerm s' = .ok (args, ')' :: rest) ∧
      f = .relation ⟨n, args.length⟩ args := by
  simp only [readRelation, between_eq_ok, bind_eq_ok, pure_eq_ok, Prod.exists, Prod.mk.injEq]
  constructor
  · rintro ⟨n, _, hn, args, _, ⟨s', rfl, hargs⟩, rfl, rfl⟩
    exact ⟨n, args, s', hn, hargs, rfl⟩
  · rintro ⟨n, args, s', hn, hargs, rfl⟩
    exact ⟨n, _, hn, args, rest, ⟨s', rfl, hargs⟩, rfl, rfl⟩

theorem readEquality_eq_ok : readEquality s = .ok (f, rest) ↔
    ∃ l r s', readTerm s = .ok (l, '=' :: s') ∧ readTerm s' = .ok (r, rest) ∧
      f = .equality l r := by
  simp only [readEquality, bind_eq_ok, pure_eq_ok, Prod.exists, Prod.mk.injEq]
  constructor
  · rintro ⟨l, _, hl, _, s', hs', r, _, hr, rfl, rfl⟩
    rw [char_eq_ok.1 hs'] at hl
    exact ⟨l, r, s', hl, hr, rfl⟩
  · rintro ⟨l, r, s', hl, hr, rfl⟩
    exact ⟨l, _, hl, (), s', char_eq_ok.2 rfl, r, rest, hr, rfl, rfl⟩

end

theorem read_succ (depth : Nat) (s : List Char) : read (depth + 1) s =
    (readNegation (read depth) s <|> readBinary (read depth) s <|> readQuantified (read depth) s
      <|> readRelation s <|> readEquality s) := rfl

theorem sound_read : ∀ depth : Nat, (read depth).Sound Legible chars
  | 0, s, f, rest, h => by cases h
  | depth + 1, s, f, rest, h => by
    have ih := sound_read depth
    rcases orElse_eq_ok h with h | h
    · obtain ⟨g, s', rfl, hg, rfl⟩ := readNegation_eq_ok.1 h
      obtain ⟨hleg, rfl⟩ := ih s' g rest hg
      exact ⟨legible_neg.2 hleg, rfl⟩
    rcases orElse_eq_ok h with h | h
    · obtain ⟨op, l, r, s', s'', rfl, hl, hr, rfl⟩ := readBinary_eq_ok.1 h
      obtain ⟨hlegl, rfl⟩ := ih s' l _ hl
      obtain ⟨hlegr, rfl⟩ := ih s'' r _ hr
      exact ⟨legible_binary.2 ⟨hlegl, hlegr⟩, by simp [chars]⟩
    rcases orElse_eq_ok h with h | h
    · obtain ⟨q, x, g, s', s'', rfl, hx, hg, rfl⟩ := readQuantified_eq_ok.1 h
      obtain ⟨hx, hk⟩ := nameOf_eq_ok.1 hx
      obtain ⟨hleg, rfl⟩ := ih s'' g _ hg
      rw [eq_append_of_name hx]
      exact ⟨legible_quantified.2 ⟨decide_eq_true hk, hleg⟩, by simp [chars]⟩
    rcases orElse_eq_ok h with h | h
    · obtain ⟨n, args, s', hn, hargs, rfl⟩ := readRelation_eq_ok.1 h
      obtain ⟨hn, hk⟩ := nameOf_eq_ok.1 hn
      obtain ⟨hlegs, rfl⟩ := Term.legible_of_list0 sound_readTerm hargs
      rw [eq_append_of_name hn]
      exact ⟨legible_relation.2 ⟨decide_eq_true hk, rfl, hlegs⟩, by simp [chars]⟩
    · obtain ⟨l, r, s', hl, hr, rfl⟩ := readEquality_eq_ok.1 h
      obtain ⟨hlegl, rfl⟩ := sound_readTerm s l _ hl
      obtain ⟨hlegr, rfl⟩ := sound_readTerm s' r _ hr
      exact ⟨legible_equality.2 ⟨hlegl, hlegr⟩, by simp [chars]⟩

/-! The first character says which form is to be read: no name begins with one of the signs. -/

/-- The first characters of the forms that have a sign of their own. -/
def signs : List Char := ['~', '(', 'A', 'E']

theorem initial_not_sign {n : String} {k : Category} {s s' : List Char}
    (hn : name s = .ok (n, s')) (hk : Category.of? n = some k) :
    ∀ c ∈ s.head?, c ∉ signs := by
  have hs := eq_append_of_name hn
  rcases Category.of?_eq_some hk with rfl | ⟨c, cs, hcs, -, hc⟩
  · rw [hs]
    rintro c ⟨⟩
    decide
  · rw [hs, hcs]
    rintro c ⟨⟩ hmem
    simp only [signs, List.mem_cons, List.not_mem_nil, or_false] at hmem
    rcases hmem with rfl | rfl | rfl | rfl <;> cases hc

section

variable {inner : Reader Formula} {s : List Char}

theorem readNegation_ne_ok (hs : s.head? ≠ some '~') (a : Formula × List Char) :
    readNegation inner s ≠ .ok a := by
  intro h
  obtain ⟨_, s', rfl, -⟩ := readNegation_eq_ok.1 h
  exact hs rfl

theorem readBinary_ne_ok (hs : s.head? ≠ some '(') (a : Formula × List Char) :
    readBinary inner s ≠ .ok a := by
  intro h
  obtain ⟨_, _, _, s', _, rfl, -⟩ := readBinary_eq_ok.1 h
  exact hs rfl

theorem readQuantified_ne_ok (hs : ∀ q : Quantifier, s.head? ≠ some q.char)
    (a : Formula × List Char) : readQuantified inner s ≠ .ok a := by
  intro h
  obtain ⟨q, _, _, s', _, rfl, -⟩ := readQuantified_eq_ok.1 h
  exact hs q rfl

/-- Where a name comes first, only a relation or an equality can be read. -/
theorem read_of_name {n : String} {k : Category} {s s' : List Char} {depth : Nat}
    (hn : name s = .ok (n, s')) (hk : Category.of? n = some k) :
    read (depth + 1) s = (readRelation s <|> readEquality s) := by
  have hsign : ∀ c ∈ signs, s.head? ≠ some c := fun c hc hs => initial_not_sign hn hk c hs hc
  rw [read_succ, orElse_of_ne_ok (readNegation_ne_ok (hsign _ (by decide))),
    orElse_of_ne_ok (readBinary_ne_ok (hsign _ (by decide))),
    orElse_of_ne_ok (readQuantified_ne_ok fun q => hsign _ (by cases q <;> decide))]

end

/-! Each form is read back, if its parts are. -/

theorem stops_connective (op : Connective) (s : List Char) : Stops (op.chars ++ s) := by
  cases op <;> exact stops_cons.2 (by decide)

section

variable {inner : Reader Formula} {f l r : Formula}

theorem recovers_readNegation (hf : inner.Recovers f f.chars) :
    (readNegation inner).Recovers (.neg f) (Formula.neg f).chars :=
  fun rest hrest => readNegation_eq_ok.2 ⟨f, f.chars ++ rest, rfl, hf rest hrest, rfl⟩

theorem recovers_readBinary {op : Connective} (hl : inner.Recovers l l.chars)
    (hr : inner.Recovers r r.chars) :
    (readBinary inner).Recovers (.binary op l r) (Formula.binary op l r).chars := by
  intro rest _
  have hchars : (Formula.binary op l r).chars ++ rest
      = '(' :: (l.chars ++ (op.chars ++ (r.chars ++ ')' :: rest))) := by
    simp [chars]
  rw [hchars]
  refine readBinary_eq_ok.2 ⟨op, l, r, _, r.chars ++ ')' :: rest, rfl, ?_, ?_, rfl⟩
  · exact hl _ (stops_connective op _)
  · exact hr _ (stops_cons.2 (by decide))

theorem recovers_readQuantified {q : Quantifier} {x : String} (hx : isVar x)
    (hf : inner.Recovers f f.chars) :
    (readQuantified inner).Recovers (.quantified q x f) (Formula.quantified q x f).chars := by
  intro rest _
  have hchars : (Formula.quantified q x f).chars ++ rest
      = q.char :: (x.toList ++ '[' :: (f.chars ++ ']' :: rest)) := by
    simp [chars]
  have hk : Category.of? x = some .var := of_decide_eq_true hx
  rw [hchars]
  refine readQuantified_eq_ok.2 ⟨q, x, f, _, f.chars ++ ']' :: rest, rfl, ?_, ?_, rfl⟩
  · exact nameOf_eq_ok.2 ⟨name_append hk (stops_cons.2 (by decide)), hk⟩
  · exact hf _ (stops_cons.2 (by decide))

end

/-- A relation is read, and no other form is tried before it. -/
theorem recovers_read_relation {s : Symbol} {args : List Term}
    (h : (Formula.relation s args).Legible) (depth : Nat) :
    (read (depth + 1)).Recovers (.relation s args) (Formula.relation s args).chars := by
  intro rest _
  obtain ⟨n, arity⟩ := s
  obtain ⟨hn, harity, hargs⟩ := legible_relation.1 h
  have hk : Category.of? n = some .rel := of_decide_eq_true hn
  have hchars : (Formula.relation ⟨n, arity⟩ args).chars ++ rest
      = n.toList ++ '(' :: (Term.charsOfList args ++ ')' :: rest) := by
    simp [chars]
  have hname : name (n.toList ++ '(' :: (Term.charsOfList args ++ ')' :: rest))
      = .ok (n, '(' :: (Term.charsOfList args ++ ')' :: rest)) :=
    name_append hk (stops_cons.2 (by decide))
  have hlist : list0 readTerm (Term.charsOfList args ++ ')' :: rest)
      = .ok (args, ')' :: rest) := by
    refine Term.list0_append (fun a ha => ?_) fun t ht => recovers_readTerm (hargs t ht)
    cases ha
  have hread : readRelation (n.toList ++ '(' :: (Term.charsOfList args ++ ')' :: rest))
      = .ok (.relation ⟨n, args.length⟩ args, rest) :=
    readRelation_eq_ok.2 ⟨n, args, _, nameOf_eq_ok.2 ⟨hname, hk⟩, hlist, rfl⟩
  rw [hchars, read_of_name hname hk, hread, ← harity]
  rfl

/-- An equality is read after all else: its left side is no relation. -/
theorem recovers_read_equality {l r : Term} (h : (Formula.equality l r).Legible) (depth : Nat) :
    (read (depth + 1)).Recovers (.equality l r) (Formula.equality l r).chars := by
  intro rest hrest
  obtain ⟨hl, hr⟩ := legible_equality.1 h
  have hchars : (Formula.equality l r).chars ++ rest = l.chars ++ '=' :: (r.chars ++ rest) := by
    simp [chars]
  have hstop : Stops ('=' :: (r.chars ++ rest)) := stops_cons.2 (by decide)
  obtain ⟨k, s', hrel, hk, hname⟩ := Term.name_chars_append hl hstop
  have hno : ∀ a, readRelation (l.chars ++ '=' :: (r.chars ++ rest)) ≠ .ok a := by
    intro a ha
    obtain ⟨n, _, _, hn, -⟩ := readRelation_eq_ok.1 ha
    obtain ⟨hn, hk'⟩ := nameOf_eq_ok.1 hn
    rw [hname] at hn
    cases hn
    rw [hk] at hk'
    exact hrel (Option.some.inj hk')
  rw [hchars, read_of_name hname hk, orElse_of_ne_ok hno]
  exact readEquality_eq_ok.2
    ⟨l, r, _, recovers_readTerm hl _ hstop, recovers_readTerm hr _ hrest, rfl⟩

theorem recovers_read : ∀ {depth : Nat} {f : Formula}, f.Legible → f.chars.length < depth →
    (read depth).Recovers f f.chars
  | depth + 1, .neg f, hf, hlen, rest, hrest => by
    have hf : (read depth).Recovers f f.chars :=
      recovers_read (legible_neg.1 hf) (by simpa [chars] using hlen)
    rw [read_succ, recovers_readNegation hf rest hrest]
    rfl
  | depth + 1, .binary op l r, hf, hlen, rest, hrest => by
    obtain ⟨hl, hr⟩ := legible_binary.1 hf
    simp only [chars, List.length_cons, List.length_append] at hlen
    have hl : (read depth).Recovers l l.chars := recovers_read hl (by omega)
    have hr : (read depth).Recovers r r.chars := recovers_read hr (by omega)
    rw [read_succ, recovers_readBinary hl hr rest hrest,
      orElse_of_ne_ok (readNegation_ne_ok (by simp [chars]))]
    rfl
  | depth + 1, .quantified q x f, hf, hlen, rest, hrest => by
    obtain ⟨hx, hf⟩ := legible_quantified.1 hf
    simp only [chars, List.length_cons, List.length_append] at hlen
    have hf : (read depth).Recovers f f.chars := recovers_read hf (by omega)
    rw [read_succ, recovers_readQuantified hx hf rest hrest,
      orElse_of_ne_ok (readNegation_ne_ok (by cases q <;> simp [chars, Quantifier.char])),
      orElse_of_ne_ok (readBinary_ne_ok (by cases q <;> simp [chars, Quantifier.char]))]
    rfl
  | depth + 1, .relation s args, hf, _, rest, hrest =>
    recovers_read_relation hf depth rest hrest
  | depth + 1, .equality l r, hf, _, rest, hrest =>
    recovers_read_equality hf depth rest hrest

end Formula

/-! ## Whole texts -/

theorem Reader.whole_eq_ok {α : Type} {goal : Goal} {reader : Reader α} {input : String} {a : α} :
    reader.whole goal input = .ok a ↔ reader input.toList = .ok (a, []) := by
  unfold whole
  split
  · rename_i h
    simp [h]
  · rename_i b rest hne h
    simp only [h, reduceCtorEq, Except.ok.injEq, Prod.mk.injEq, false_iff, not_and]
    exact fun _ => hne
  · rename_i h
    simp [h]

theorem Reader.whole_eq_ok_iff {α : Type} {goal : Goal} {reader : Reader α} {P : α → Prop}
    {write : α → List Char} (hsound : reader.Sound P write) {input : String} {a : α}
    (hback : P a → write a = input.toList → reader.Recovers a (write a)) :
    reader.whole goal input = .ok a ↔ P a ∧ String.ofList (write a) = input := by
  rw [whole_eq_ok]
  constructor
  · intro h
    obtain ⟨ha, hs⟩ := hsound _ _ _ h
    refine ⟨ha, ?_⟩
    rw [List.append_nil] at hs
    rw [← hs, String.ofList_toList]
  · rintro ⟨ha, rfl⟩
    rw [String.toList_ofList]
    simpa using hback ha (by simp) [] stops_nil

theorem Term.parse_eq_ok {s : String} {t : Term} :
    Term.parse s = .ok t ↔ t.Legible ∧ t.text = s := by
  refine whole_eq_ok_iff (sound_read _) fun ht hs => recovers_read ht ?_
  rw [hs, String.length_toList]
  omega

theorem Formula.parse_eq_ok {s : String} {f : Formula} :
    Formula.parse s = .ok f ↔ f.Legible ∧ f.text = s := by
  refine whole_eq_ok_iff (sound_read _) fun hf hs => recovers_read hf ?_
  rw [hs, String.length_toList]
  omega

/-- A text is accepted as a formula or as a term just when it is the written form of a legible one,
and is read as that one. -/
theorem parse_eq_ok_iff_text (s : String) :
    (∀ f : Formula, Formula.parse s = .ok f ↔ f.Legible ∧ f.text = s) ∧
      ∀ t : Term, Term.parse s = .ok t ↔ t.Legible ∧ t.text = s :=
  ⟨fun _ => Formula.parse_eq_ok, fun _ => Term.parse_eq_ok⟩

end Deduction
