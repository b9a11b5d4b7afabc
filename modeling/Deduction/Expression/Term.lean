/-!
# Terms

A term is a variable, a constant, or a function symbol applied to terms. A symbol carries an arity
of its own: terms that are read from text have as many arguments as the arity says, and terms built
by hand need not.

The names in a term are listed in the order in which they stand, with repetition.
-/

namespace Deduction

/-- A function or relation name together with its number of arguments. -/
structure Symbol where
  name : String
  arity : Nat
deriving DecidableEq

inductive Term where
  | var (name : String)
  | const (name : String)
  | app (symbol : Symbol) (args : List Term)

namespace Term

mutual

def decEq : (s t : Term) → Decidable (s = t)
  | .var x, .var y =>
    if h : x = y then isTrue (h ▸ rfl) else isFalse fun e => h (Term.var.inj e)
  | .const c, .const d =>
    if h : c = d then isTrue (h ▸ rfl) else isFalse fun e => h (Term.const.inj e)
  | .app f ss, .app g ts =>
    if h : f = g then
      match decEqList ss ts with
      | isTrue h' => isTrue (h ▸ h' ▸ rfl)
      | isFalse h' => isFalse fun e => h' (Term.app.inj e).2
    else isFalse fun e => h (Term.app.inj e).1
  | .var _, .const _ | .var _, .app .. | .const _, .var _ | .const _, .app .. | .app .., .var _
  | .app .., .const _ => isFalse nofun

def decEqList : (ss ts : List Term) → Decidable (ss = ts)
  | [], [] => isTrue rfl
  | s :: ss, t :: ts =>
    match decEq s t, decEqList ss ts with
    | isTrue h, isTrue h' => isTrue (h ▸ h' ▸ rfl)
    | isFalse h, _ => isFalse fun e => h (List.cons.inj e).1
    | _, isFalse h' => isFalse fun e => h' (List.cons.inj e).2
  | [], _ :: _ | _ :: _, [] => isFalse nofun

end

instance : DecidableEq Term := decEq

/-- The outermost name. -/
def root : Term → String
  | .var x => x
  | .const c => c
  | .app f _ => f.name

mutual

def vars : Term → List String
  | .var x => [x]
  | .const _ => []
  | .app _ args => varsOfList args

def varsOfList : List Term → List String
  | [] => []
  | t :: ts => vars t ++ varsOfList ts

end

mutual

def constants : Term → List String
  | .var _ => []
  | .const c => [c]
  | .app _ args => constantsOfList args

def constantsOfList : List Term → List String
  | [] => []
  | t :: ts => constants t ++ constantsOfList ts

end

mutual

def functions : Term → List Symbol
  | .var _ => []
  | .const _ => []
  | .app f args => f :: functionsOfList args

def functionsOfList : List Term → List Symbol
  | [] => []
  | t :: ts => functions t ++ functionsOfList ts

end

/-- The function symbol `name` applied to `args`, with the arity that fits. A function takes at
least one argument. -/
def ofFunction? (name : String) : List Term → Option Term
  | [] => none
  | t :: ts => some (.app ⟨name, (t :: ts).length⟩ (t :: ts))

end Term

end Deduction
