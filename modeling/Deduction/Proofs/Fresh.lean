import Mathlib.Data.Finset.Card
import Deduction.Proofs.WellFormed

/-!
# Fresh names are fresh

The search for a name that is not in use has no bound of its own: it takes one name after the other
until it meets such a one (`Fresh.Finds`). Names with different numbers differ, so among one more
name than there are used ones is one that is not, and the search ends (`Fresh.exists_finds`). That
many tries are what `Fresh.nextAvoiding` has, which therefore ends where the search does
(`Fresh.finds_nextAvoiding`). Digits after the name of a variable make the name of a variable
(`Fresh.isVar_nameAt`).

Whatever is asked for, the name that is given has the number at which its source stands afterwards,
and the number has grown (`Fresh.serve_eq`). So no name is given twice (`Fresh.serveAll_fresh`).
-/

namespace Deduction

namespace Fresh

/-! ## Names by their numbers -/

theorem nameAt_injective (f : Fresh) : Function.Injective f.nameAt := by
  intro n n' h
  have hrepr : n.repr = n'.repr := (String.append_right_inj f.stem).1 h
  have hdigits : Nat.toDigits 10 n = Nat.toDigits 10 n' := by
    rw [← Nat.toList_repr, ← Nat.toList_repr, hrepr]
  calc n = Nat.ofDigitChars 10 (Nat.toDigits 10 n) 0 := Nat.ofDigitChars_ten_toDigits.symm
    _ = Nat.ofDigitChars 10 (Nat.toDigits 10 n') 0 := by rw [hdigits]
    _ = n' := Nat.ofDigitChars_ten_toDigits

theorem isVar_nameAt {f : Fresh} (h : isVar f.stem) (n : Nat) : isVar (f.nameAt n) := by
  rw [isVar, decide_eq_true_eq] at h ⊢
  obtain ⟨-, hk⟩ | ⟨c, rest, hcs, hall, hc⟩ := Category.ofChars?_eq_some.1 h
  · cases hk
  have hlist : (f.nameAt n).toList = f.stem.toList ++ Nat.toDigits 10 n := by
    rw [nameAt, String.toList_append, Nat.toString_eq_repr, Nat.toList_repr]
  refine Category.ofChars?_eq_some.2 (.inr ⟨c, rest ++ Nat.toDigits 10 n, ?_, ?_, hc⟩)
  · rw [hlist, hcs, List.cons_append]
  · rw [hlist, List.all_append, hall, Bool.true_and, List.all_eq_true]
    intro d hd
    have hdigit : d.isDigit = true := Nat.isDigit_of_mem_toDigits (by decide) (by decide) hd
    rw [Char.isAlphanum, hdigit, Bool.or_true]

/-- If the next names are all used, there are no more of them than used ones. -/
theorem le_card_of_nameAt_mem {used : List String} {f : Fresh} {count : Nat}
    (h : ∀ n, f.taken < n → n ≤ f.taken + count → f.nameAt n ∈ used) :
    count ≤ used.toFinset.card := by
  have hinj : Function.Injective fun i => f.nameAt (f.taken + 1 + i) := by
    intro i j h
    have hsum := f.nameAt_injective h
    omega
  have hsubset : (Finset.range count).image (fun i => f.nameAt (f.taken + 1 + i))
      ⊆ used.toFinset := by
    intro name hname
    simp only [Finset.mem_image, Finset.mem_range] at hname
    obtain ⟨i, hi, rfl⟩ := hname
    exact List.mem_toFinset.2 (h _ (by omega) (by omega))
  have hcard := Finset.card_le_card hsubset
  rwa [Finset.card_image_of_injective _ hinj, Finset.card_range] at hcard

/-! ## The search -/

/-- The search, begun at a source of names, ends with a name and the source after it, and has taken
so many names. -/
inductive Finds (used : List String) : Fresh → Nat → String × Fresh → Prop where
  | found {f : Fresh} : f.next.1 ∉ used → Finds used f 1 f.next
  | again {f : Fresh} {attempts : Nat} {result : String × Fresh} :
    f.next.1 ∈ used → Finds used f.next.2 attempts result → Finds used f (attempts + 1) result

section

variable {used : List String} {f : Fresh} {attempts : Nat} {result : String × Fresh}

theorem Finds.attempts_pos (h : Finds used f attempts result) : 0 < attempts := by
  cases h <;> omega

theorem Finds.not_mem (h : Finds used f attempts result) : result.1 ∉ used := by
  induction h with
  | found hname => exact hname
  | again _ _ ih => exact ih

theorem Finds.result_eq (h : Finds used f attempts result) :
    result = (f.nameAt (f.taken + attempts), ⟨f.stem, f.taken + attempts⟩) := by
  induction h with
  | found _ => rfl
  | @again f attempts result _ _ ih =>
    rw [ih, show f.taken + (attempts + 1) = f.taken + 1 + attempts by omega]
    rfl

/-- A search that has tries enough ends where the one without a bound does. -/
theorem Finds.search_eq (h : Finds used f attempts result) :
    ∀ {tries : Nat}, attempts ≤ tries + 1 → search used tries f = result := by
  induction h with
  | found hname =>
    intro tries _
    rcases tries with _ | tries
    · rfl
    · exact if_neg hname
  | again hname h ih =>
    intro tries hle
    have hpos := h.attempts_pos
    rcases tries with _ | tries
    · omega
    · exact (if_pos hname).trans (ih (by omega))

end

/-- Among the next names one is not in use, and the search ends there, or all are in use. -/
theorem finds_or_nameAt_mem (used : List String) : ∀ (count : Nat) (f : Fresh),
    (∃ attempts ≤ count, ∃ result, Finds used f attempts result) ∨
      ∀ n, f.taken < n → n ≤ f.taken + count → f.nameAt n ∈ used
  | 0, f => .inr fun n hlt hle => by omega
  | count + 1, f => by
    by_cases hname : f.next.1 ∈ used
    · rcases finds_or_nameAt_mem used count f.next.2 with ⟨attempts, hle, result, h⟩ | hall
      · exact .inl ⟨attempts + 1, by omega, result, .again hname h⟩
      · refine .inr fun n hlt hle => ?_
        have hnext : f.next.2.taken = f.taken + 1 := rfl
        by_cases hn : n = f.taken + 1
        · rw [hn]
          exact hname
        · exact hall n (by omega) (by omega)
    · exact .inl ⟨1, by omega, f.next, .found hname⟩

theorem exists_finds (f : Fresh) (used : List String) :
    ∃ attempts ≤ used.toFinset.card + 1, ∃ result, Finds used f attempts result := by
  rcases finds_or_nameAt_mem used (used.toFinset.card + 1) f with h | hall
  · exact h
  · have hcount := le_card_of_nameAt_mem hall
    omega

theorem finds_nextAvoiding (f : Fresh) (used : List String) :
    ∃ attempts ≤ used.toFinset.card + 1, Finds used f attempts (f.nextAvoiding used) := by
  obtain ⟨attempts, hle, result, h⟩ := f.exists_finds used
  have hcard := used.toFinset_card_le
  rw [nextAvoiding, h.search_eq (by omega)]
  exact ⟨attempts, hle, h⟩

theorem nextAvoiding_not_mem (f : Fresh) (used : List String) : (f.nextAvoiding used).1 ∉ used := by
  obtain ⟨_, _, h⟩ := f.finds_nextAvoiding used
  exact h.not_mem

theorem stem_nextAvoiding (f : Fresh) (used : List String) :
    (f.nextAvoiding used).2.stem = f.stem := by
  obtain ⟨_, _, h⟩ := f.finds_nextAvoiding used
  rw [h.result_eq]

theorem isVar_nextAvoiding {f : Fresh} (hf : isVar f.stem) (used : List String) :
    isVar (f.nextAvoiding used).1 := by
  obtain ⟨_, _, h⟩ := f.finds_nextAvoiding used
  rw [h.result_eq]
  exact isVar_nameAt hf _

/-! ## One request after another -/

/-- A request for the next name, or for the next that is not in use. -/
inductive Request where
  | any
  | avoiding (used : List String)

/-- The name may be given for the request. -/
def Request.Allows : Request → String → Prop
  | .any, _ => True
  | .avoiding used, name => name ∉ used

def serve (f : Fresh) : Request → String × Fresh
  | .any => f.next
  | .avoiding used => f.nextAvoiding used

/-- The names for requests that are made one after the other. -/
def serveAll : Fresh → List Request → List String × Fresh
  | f, [] => ([], f)
  | f, request :: requests =>
    let (name, f) := f.serve request
    let (names, f) := f.serveAll requests
    (name :: names, f)

theorem serve_eq (f : Fresh) (request : Request) :
    ∃ n, f.taken < n ∧ f.serve request = (f.nameAt n, ⟨f.stem, n⟩) := by
  cases request with
  | any => exact ⟨f.taken + 1, Nat.lt_succ_self _, rfl⟩
  | avoiding used =>
    obtain ⟨attempts, -, h⟩ := f.finds_nextAvoiding used
    have hpos := h.attempts_pos
    exact ⟨f.taken + attempts, by omega, h.result_eq⟩

theorem allows_serve (f : Fresh) (request : Request) : request.Allows (f.serve request).1 := by
  cases request with
  | any => trivial
  | avoiding used => exact f.nextAvoiding_not_mem used

theorem allows_serveAll : ∀ (requests : List Request) (f : Fresh),
    List.Forall₂ Request.Allows requests (f.serveAll requests).1
  | [], _ => .nil
  | request :: requests, f => .cons (f.allows_serve request) (allows_serveAll requests _)

/-- The names have numbers that grow from where the source stands. -/
theorem serveAll_eq_map : ∀ (requests : List Request) (f : Fresh), ∃ ns : List Nat,
    (f.serveAll requests).1 = ns.map f.nameAt ∧ ns.Pairwise (· < ·) ∧ ∀ n ∈ ns, f.taken < n
  | [], f => ⟨[], rfl, .nil, by simp⟩
  | request :: requests, f => by
    obtain ⟨n, hn, hserve⟩ := f.serve_eq request
    obtain ⟨ns, hns, hsorted, hlt⟩ := serveAll_eq_map requests ⟨f.stem, n⟩
    refine ⟨n :: ns, ?_, List.pairwise_cons.2 ⟨hlt, hsorted⟩, ?_⟩
    · simp only [serveAll, hserve, hns, List.map_cons]
      rfl
    · rw [List.forall_mem_cons]
      exact ⟨hn, fun m hm => Nat.lt_trans hn (hlt m hm)⟩

/-- Wherever a source of names stands, the search for a name that is not in use ends, after at most
one name more than there are used ones. Whatever is asked for, one request after the other, no name
that is given is among those to be avoided, and none is given twice. If a session can be opened with
the stem, all of them are variables. -/
theorem serveAll_fresh {σ : Type} (f : Fresh) :
    (∀ used : List String, ∃ attempts ≤ used.toFinset.card + 1,
        Finds used f attempts (f.nextAvoiding used)) ∧
      ∀ requests : List Request,
        let names := (f.serveAll requests).1
        List.Forall₂ Request.Allows requests names ∧ names.Nodup ∧
          ∀ (assumptions : List Schema) (settings : Settings) (oracle : Oracle σ) (memory : σ)
            (s : Session σ), settings.stem = f.stem →
              Session.startWith assumptions settings oracle memory = .ok s →
                ∀ name ∈ names, isVar name := by
  refine ⟨f.finds_nextAvoiding, fun requests => ?_⟩
  obtain ⟨ns, hns, hsorted, -⟩ := serveAll_eq_map requests f
  refine ⟨allows_serveAll requests f, ?_, ?_⟩
  · rw [hns]
    exact List.Nodup.map f.nameAt_injective (hsorted.imp Nat.ne_of_lt)
  · intro assumptions settings oracle memory s hstem hstart name hname
    unfold Session.startWith at hstart
    split_ifs at hstart with hvar
    rw [hstem] at hvar
    rw [hns] at hname
    obtain ⟨n, -, rfl⟩ := List.mem_map.1 hname
    exact isVar_nameAt hvar n

/-- The stem `z1` ends in a digit. Two of its names are in use, of which one is listed twice, and the
third is found. The last request passes over `z15`. -/
theorem serveAll_fresh_digit :
    let f := ofStem "z1"
    let used := ["z11", "z12", "z11"]
    let requests : List Request := [.avoiding used, .any, .avoiding ["z15"]]
    let names := ["z13", "z14", "z16"]
    (f.serveAll requests).1 = names ∧ names.Nodup ∧ (∀ name ∈ names, isVar name) ∧
      ∃ attempts ≤ 3, Finds used f attempts ("z13", ⟨"z1", 3⟩) := by
  intro f used requests names
  have hnames : (f.serveAll requests).1 = names := by decide +kernel
  have hfirst : f.nextAvoiding used = ("z13", ⟨"z1", 3⟩) := by decide +kernel
  have hcard : used.toFinset.card + 1 = 3 := by decide +kernel
  obtain ⟨hfinds, hserve⟩ := serveAll_fresh (σ := Unit) f
  obtain ⟨-, hnodup, hvar⟩ := hserve requests
  rw [hnames] at hnodup hvar
  refine ⟨hnames, hnodup, hvar [] { stem := "z1" } .truthTable () _ rfl rfl, ?_⟩
  rw [← hfirst, ← hcard]
  exact hfinds used

end Fresh

end Deduction
