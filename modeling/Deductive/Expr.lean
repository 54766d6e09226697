import Deductive.Name

/-!
Expressions: variables and applications of term constructors. A constant is an application to no
arguments. Whether names are declared and arguments fit is not their matter.
-/
namespace Deductive

inductive Expr where
  | var (name : Name)
  | app (term : Name) (args : List Expr)
  deriving Inhabited, Repr

namespace Expr

mutual

protected def decEq : (a b : Expr) → Decidable (a = b)
  | var x, var y =>
    if h : x = y then isTrue (h ▸ rfl) else isFalse fun he => h (Expr.var.inj he)
  | var _, app _ _ => isFalse nofun
  | app _ _, var _ => isFalse nofun
  | app f as, app g bs =>
    if h : f = g then
      match decEqAll as bs with
      | isTrue hs => isTrue (h ▸ hs ▸ rfl)
      | isFalse hs => isFalse fun he => hs (Expr.app.inj he).2
    else isFalse fun he => h (Expr.app.inj he).1

def decEqAll : (as bs : List Expr) → Decidable (as = bs)
  | [], [] => isTrue rfl
  | [], _ :: _ => isFalse nofun
  | _ :: _, [] => isFalse nofun
  | a :: as, b :: bs =>
    match Expr.decEq a b with
    | isTrue h =>
      match decEqAll as bs with
      | isTrue hs => isTrue (h ▸ hs ▸ rfl)
      | isFalse hs => isFalse fun he => hs (List.cons.inj he).2
    | isFalse h => isFalse fun he => h (List.cons.inj he).1

end

instance : DecidableEq Expr := Expr.decEq

mutual

/-- The variables from left to right, with repetitions. -/
def vars : Expr → List Name
  | var x => [x]
  | app _ args => varsAll args

def varsAll : List Expr → List Name
  | [] => []
  | e :: es => e.vars ++ varsAll es

end

mutual

/-- The term constructors from the root to the right, with repetitions. -/
def terms : Expr → List Name
  | var _ => []
  | app term args => term :: termsAll args

def termsAll : List Expr → List Name
  | [] => []
  | e :: es => e.terms ++ termsAll es

end

mutual

/-- The nesting of applications. -/
def depth : Expr → Nat
  | var _ => 0
  | app _ args => depthAll args + 1

def depthAll : List Expr → Nat
  | [] => 0
  | e :: es => max e.depth (depthAll es)

end

end Expr

/-- What is nested more deeply than this is not worked on. The number stands for the limit of nested
calls, which depends on how much a level of nesting calls and is no exact number of levels. The
nesting of proofs that are checked has no such limit here, only the one that is asked for. -/
def nestingLimit : Nat := 1000

def Expr.isTooDeep (e : Expr) : Bool := nestingLimit < e.depth

/-- Expressions for variables, in the order in which they were found. -/
abbrev Substitution := Registry Name Expr

namespace Expr

mutual

/-- Variables without an entry in `s` stay. -/
def subst (s : Substitution) : Expr → Expr
  | var x => (s.get? x).getD (var x)
  | app term args => app term (substAll s args)

def substAll (s : Substitution) : List Expr → List Expr
  | [] => []
  | e :: es => e.subst s :: substAll s es

end

/-- Every variable of `e` has an entry in `s`. -/
def isGround (s : Substitution) (e : Expr) : Bool := e.vars.all s.contains

end Expr
end Deductive
