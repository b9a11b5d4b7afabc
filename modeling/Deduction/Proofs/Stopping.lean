import Deduction.Proofs.Reading
import Mathlib.Control.Monad.Basic

/-!
# Where reading stops

A text that is refused is refused at a place up to which it was in order: what stands before the
place begins some text that is accepted (`parse_stops_viable`).

A reader is followed through the ways in which it can stop. What it has passed before are whole
parts in their written form, and the part in which it stopped is completed by itself, so the parts
that are still missing can be put behind it (`Term.stopsWithin_read`). Of the forms of a formula the
last one that is tried is the equality. It alone says where reading stopped, however far the forms
before it had come (`Formula.readEquality_of_read`). A list gives back a comma with no item behind
it, so what it has passed are whole items, and a closing bracket completes them.
-/

namespace Deduction

theorem bind_eq_error {ε α β : Type} {x : Except ε α} {next : α → Except ε β} {e : ε} :
    x >>= next = .error e ↔ x = .error e ∨ ∃ a, x = .ok a ∧ next a = .error e := by
  cases x <;> simp [bind, Except.bind]

namespace Reader

variable {α : Type} {s rest : List Char}

/-- Where the reader stops, what it has passed is such as `Q` says. -/
def StopsWithin (reader : Reader α) (Q : List Char → Prop) : Prop :=
  ∀ s rest, reader s = .error rest → ∃ passed, s = passed ++ rest ∧ Q passed

/-! ## The ways to stop -/

theorem eq_of_char {c : Char} (h : char c s = .error rest) : s = rest := by
  rcases s with _ | ⟨d, s⟩
  · simpa [char] using h
  · simp only [char] at h
    split_ifs at h
    simpa using h

theorem eq_of_name (h : name s = .error rest) : s = rest := by
  unfold name at h
  split at h
  · simpa using h
  · cases h
  · split_ifs at h
    simpa using h

theorem error_of_list1 {item : Reader α} (h : list1 item s = .error rest) :
    item s = .error rest := by
  rcases bind_eq_error.1 h with h | ⟨_, _, h⟩
  · exact h
  · cases h

/-- Between brackets reading stops before the first one, inside, or before the second one. -/
theorem stops_of_between {opening closing : Char} {inner : Reader α}
    (h : between opening closing inner s = .error rest) :
    s = rest ∨ ∃ s', s = opening :: s' ∧
      (inner s' = .error rest ∨ ∃ a, inner s' = .ok (a, rest)) := by
  rcases bind_eq_error.1 h with h | ⟨⟨_, s'⟩, hs, h⟩
  · exact .inl (eq_of_char h)
  refine .inr ⟨s', char_eq_ok.1 hs, ?_⟩
  rcases bind_eq_error.1 h with h | ⟨⟨a, s''⟩, ha, h⟩
  · exact .inl h
  rcases bind_eq_error.1 h with h | ⟨_, _, h⟩
  · rw [eq_of_char h] at ha
    exact .inr ⟨a, ha⟩
  · cases h

/-- Of several alternatives the last one says where reading stopped. -/
theorem orElse_eq_error {ε : Type} {x y : Except ε α} {e : ε} (h : (x <|> y) = .error e) :
    y = .error e := by
  cases x with
  | ok b => cases h
  | error e' => exact h

end Reader

open Reader

/-! ## Terms -/

namespace Term

/-- The characters begin the written form of a term. -/
def Begins (passed : List Char) : Prop := ∃ t : Term, t.Legible ∧ passed <+: t.chars

theorem begins_nil : Begins [] :=
  ⟨.const placeholder, legible_const.2 isConst_placeholder, List.nil_prefix⟩

theorem begins_arguments {n : String} (hn : isFunc n) {args : List Term} (hne : args ≠ [])
    (hargs : ∀ t ∈ args, t.Legible) {passed : List Char} (h : passed <+: charsOfList args) :
    Begins (n.toList ++ '(' :: passed) := by
  refine ⟨.app ⟨n, args.length⟩ args, legible_app.2 ⟨hn, rfl, hne, hargs⟩, ?_⟩
  obtain ⟨more, hmore⟩ := h
  refine ⟨more ++ [')'], ?_⟩
  simp [chars, ← hmore]

theorem begins_argument {n : String} (hn : isFunc n) {passed : List Char} (h : Begins passed) :
    Begins (n.toList ++ '(' :: passed) := by
  obtain ⟨t, ht, hpassed⟩ := h
  refine begins_arguments hn (List.cons_ne_nil t []) (by simpa using ht) ?_
  simpa [charsOfList, charsOfRest] using hpassed

theorem begins_function {n : String} (hn : isFunc n) : Begins n.toList := by
  obtain ⟨t, ht, hpassed⟩ := begins_argument hn begins_nil
  exact ⟨t, ht, (List.prefix_append ..).trans hpassed⟩

/-- The arguments of a function stop before the bracket, in the first of them, or behind the last
that was read. A later one that does not fit is given back with its comma. -/
theorem begins_of_arguments {inner : Reader Term} (hsound : inner.Sound Legible chars)
    (hstops : inner.StopsWithin Begins) {n : String} (hn : isFunc n) {s rest : List Char}
    (h : between '(' ')' (list1 inner) s = .error rest) :
    ∃ passed, s = passed ++ rest ∧ Begins (n.toList ++ passed) := by
  rcases stops_of_between h with rfl | ⟨s', rfl, hinner | ⟨args, hargs⟩⟩
  · exact ⟨[], rfl, by simpa using begins_function hn⟩
  · obtain ⟨passed, rfl, hpassed⟩ := hstops _ _ (error_of_list1 hinner)
    exact ⟨'(' :: passed, rfl, begins_argument hn hpassed⟩
  · obtain ⟨hne, hleg, rfl⟩ := legible_of_list1 hsound hargs
    exact ⟨'(' :: charsOfList args, rfl, begins_arguments hn hne hleg List.prefix_rfl⟩

theorem stopsWithin_read : ∀ depth : Nat, (read depth).StopsWithin Begins
  | 0, s, rest, h => by
    cases h
    exact ⟨[], rfl, begins_nil⟩
  | depth + 1, s, rest, h => by
    rcases bind_eq_error.1 h with h | ⟨⟨n, s'⟩, hn, h⟩
    · exact ⟨[], eq_of_name h, begins_nil⟩
    have hs : s = n.toList ++ s' := eq_append_of_name hn
    simp only at h
    split at h
    · cases h
    · cases h
    · rename_i hk
      rcases bind_eq_error.1 h with h | ⟨_, _, h⟩
      · obtain ⟨passed, rfl, hpassed⟩ :=
          begins_of_arguments (sound_read depth) (stopsWithin_read depth) (decide_eq_true hk) h
        exact ⟨n.toList ++ passed, by simp [hs], hpassed⟩
      · cases h
    -- A name that begins no term is not passed at all.
    · cases h
      exact ⟨[], rfl, begins_nil⟩
    · cases h
      exact ⟨[], rfl, begins_nil⟩

end Term

/-! ## Formulas -/

namespace Formula

/-- The characters begin the written form of a formula. -/
def Begins (passed : List Char) : Prop := ∃ f : Formula, f.Legible ∧ passed <+: f.chars

theorem begins_equality {l : Term} (hl : l.Legible) {passed : List Char}
    (h : Term.Begins passed) : Begins (l.chars ++ '=' :: passed) := by
  obtain ⟨r, hr, more, hmore⟩ := h
  refine ⟨.equality l r, legible_equality.2 ⟨hl, hr⟩, more, ?_⟩
  simp [chars, ← hmore]

/-- A term can be the left side of an equality, so what begins a term begins a formula. -/
theorem begins_of_term {passed : List Char} (h : Term.Begins passed) : Begins passed := by
  obtain ⟨l, hl, hpassed⟩ := h
  obtain ⟨f, hf, heq⟩ := begins_equality hl Term.begins_nil
  exact ⟨f, hf, hpassed.trans ((List.prefix_append ..).trans heq)⟩

theorem stopsWithin_readTerm : readTerm.StopsWithin Term.Begins :=
  fun s => Term.stopsWithin_read (s.length + 1) s

theorem stopsWithin_readEquality : readEquality.StopsWithin Begins := by
  intro s rest h
  rcases bind_eq_error.1 h with h | ⟨⟨l, s'⟩, hl, h⟩
  · obtain ⟨passed, hs, hpassed⟩ := stopsWithin_readTerm s rest h
    exact ⟨passed, hs, begins_of_term hpassed⟩
  obtain ⟨hleg, hs⟩ := sound_readTerm s l s' hl
  rcases bind_eq_error.1 h with h | ⟨⟨_, s''⟩, hsign, h⟩
  · rw [eq_of_char h] at hs
    exact ⟨l.chars, hs, begins_of_term ⟨l, hleg, List.prefix_rfl⟩⟩
  rcases bind_eq_error.1 h with h | ⟨_, _, h⟩
  · obtain ⟨passed, rfl, hpassed⟩ := stopsWithin_readTerm s'' rest h
    rw [char_eq_ok.1 hsign] at hs
    exact ⟨l.chars ++ '=' :: passed, by simp [hs], begins_equality hleg hpassed⟩
  · cases h

theorem readEquality_of_read {depth : Nat} {s rest : List Char}
    (h : read (depth + 1) s = .error rest) : readEquality s = .error rest := by
  rw [read_succ] at h
  exact orElse_eq_error (orElse_eq_error (orElse_eq_error (orElse_eq_error h)))

theorem stopsWithin_read : ∀ depth : Nat, (read depth).StopsWithin Begins
  | 0, s, rest, h => by
    cases h
    exact ⟨[], rfl, begins_of_term Term.begins_nil⟩
  | _ + 1, s, rest, h => stopsWithin_readEquality s rest (readEquality_of_read h)

end Formula

/-! ## Whole texts -/

namespace Reader

variable {α : Type} {goal : Goal} {reader : Reader α} {P : α → Prop} {write : α → List Char}

/-- Of a text that goes on after what was read, all that was read has been passed. -/
theorem stops_of_whole (hsound : reader.Sound P write)
    (hstops : reader.StopsWithin fun passed => ∃ a, P a ∧ passed <+: write a) {input : String}
    {e : ParseFault} (h : reader.whole goal input = .error e) :
    e.goal = goal ∧ e.input = input ∧ ∃ passed more : String,
      passed ++ e.remaining = input ∧ ∃ a, P a ∧ String.ofList (write a) = passed ++ more := by
  have hstop : ∃ rest, e = ⟨goal, input, String.ofList rest⟩ ∧
      ∃ passed, input.toList = passed ++ rest ∧ ∃ a, P a ∧ passed <+: write a := by
    unfold whole at h
    split at h
    · cases h
    · rename_i a rest _ hread
      cases h
      obtain ⟨ha, hinput⟩ := hsound _ _ _ hread
      exact ⟨rest, rfl, write a, hinput, a, ha, List.prefix_rfl⟩
    · rename_i rest hread
      cases h
      exact ⟨rest, rfl, hstops _ _ hread⟩
  obtain ⟨rest, rfl, passed, hinput, a, ha, more, hmore⟩ := hstop
  refine ⟨rfl, rfl, String.ofList passed, String.ofList more, ?_, a, ha, ?_⟩
  · rw [← String.ofList_append, ← hinput, String.ofList_toList]
  · rw [← hmore, String.ofList_append]

/-- What follows a written form and cannot belong to it is left over. -/
theorem whole_of_recovers {a : α} {rest : String} (hread : reader.Recovers a (write a))
    (hne : rest ≠ "") (hrest : Stops rest.toList) :
    reader.whole goal (String.ofList (write a) ++ rest)
      = .error ⟨goal, String.ofList (write a) ++ rest, rest⟩ := by
  have hleft : rest.toList ≠ [] := by simpa using hne
  have h : reader (String.ofList (write a) ++ rest).toList = .ok (a, rest.toList) := by
    rw [String.toList_append, String.toList_ofList]
    exact hread _ hrest
  unfold whole
  rw [h]
  rcases hcs : rest.toList with _ | ⟨c, cs⟩
  · exact absurd hcs hleft
  · simp only [← hcs, String.ofList_toList]

end Reader

/-- A refusal says what was asked for and repeats the text. What is left of the text where reading
stopped is the end of it, and what comes before can be completed to a text that is accepted. If
nothing is wrong but that an accepted text goes on, then reading stops where it goes on. -/
theorem parse_stops_viable (s : String) :
    (∀ e, Formula.parse s = .error e → e.goal = .formula ∧ e.input = s ∧
        ∃ passed, passed ++ e.remaining = s ∧ ∃ more f, Formula.parse (passed ++ more) = .ok f) ∧
      (∀ e, Term.parse s = .error e → e.goal = .term ∧ e.input = s ∧
        ∃ passed, passed ++ e.remaining = s ∧ ∃ more t, Term.parse (passed ++ more) = .ok t) ∧
      ∀ rest, rest ≠ "" → Stops rest.toList →
        (∀ f, Formula.parse s = .ok f →
          Formula.parse (s ++ rest) = .error ⟨.formula, s ++ rest, rest⟩) ∧
        ∀ t, Term.parse s = .ok t → Term.parse (s ++ rest) = .error ⟨.term, s ++ rest, rest⟩ := by
  refine ⟨fun e h => ?_, fun e h => ?_, fun rest hne hrest => ⟨fun f h => ?_, fun t h => ?_⟩⟩
  · obtain ⟨hgoal, hinput, passed, more, hpassed, f, hf, htext⟩ :=
      stops_of_whole (Formula.sound_read _) (Formula.stopsWithin_read _) h
    exact ⟨hgoal, hinput, passed, hpassed, more, f, Formula.parse_eq_ok.2 ⟨hf, htext⟩⟩
  · obtain ⟨hgoal, hinput, passed, more, hpassed, t, ht, htext⟩ :=
      stops_of_whole (Term.sound_read _) (Term.stopsWithin_read _) h
    exact ⟨hgoal, hinput, passed, hpassed, more, t, Term.parse_eq_ok.2 ⟨ht, htext⟩⟩
  · obtain ⟨hf, rfl⟩ := Formula.parse_eq_ok.1 h
    refine whole_of_recovers (Formula.recovers_read hf ?_) hne hrest
    rw [Formula.text, String.length_append, String.length_ofList]
    omega
  · obtain ⟨ht, rfl⟩ := Term.parse_eq_ok.1 h
    refine whole_of_recovers (Term.recovers_read ht ?_) hne hrest
    rw [Term.text, String.length_append, String.length_ofList]
    omega

/-- The comma at which `f(x,g(c,)=c` stops is the outer one: the list in `g(c,` gives its own comma
back, so there is no second argument of `f`. In `g(c` nothing is wrong but that it ends. Behind the
term `g(c)` and the equality `x=g(c)` a bracket is too many. -/
theorem parse_stops_viable_at_comma :
    let s := "f(x,g(c,)=c"
    Formula.parse s = .error ⟨.formula, s, ",g(c,)=c"⟩ ∧
      (∃ passed, passed ++ ",g(c,)=c" = s ∧ ∃ more f, Formula.parse (passed ++ more) = .ok f) ∧
      Term.parse "g(c" = .error ⟨.term, "g(c", ""⟩ ∧
      (∃ passed, passed ++ "" = "g(c" ∧ ∃ more t, Term.parse (passed ++ more) = .ok t) ∧
      Formula.parse "x=g(c))" = .error ⟨.formula, "x=g(c))", ")"⟩ ∧
      Term.parse "g(c))" = .error ⟨.term, "g(c))", ")"⟩ := by
  intro s
  let g : Term := .app ⟨"g", 1⟩ [.const "c"]
  have hs : Formula.parse s = .error ⟨.formula, s, ",g(c,)=c"⟩ := by decide +kernel
  have hopen : Term.parse "g(c" = .error ⟨.term, "g(c", ""⟩ := by decide +kernel
  have hx : Formula.parse "x=g(c)" = .ok (.equality (.var "x") g) := by decide +kernel
  have hg : Term.parse "g(c)" = .ok g := by decide +kernel
  have hstop : Stops ")".toList := stops_cons.2 (by decide)
  exact ⟨hs, ((parse_stops_viable s).1 _ hs).2.2, hopen,
    ((parse_stops_viable "g(c").2.1 _ hopen).2.2,
    ((parse_stops_viable "x=g(c)").2.2 ")" (by decide) hstop).1 _ hx,
    ((parse_stops_viable "g(c)").2.2 ")" (by decide) hstop).2 _ hg⟩

end Deduction
