import Deductive.Expr

/-!
Matching a pattern against an expression. The variables of the pattern are the ones to be found;
those of the target stand for themselves.
-/
namespace Deductive.Expr

mutual

/-- `s` with the least that makes `pattern` equal to the target. -/
def matchWith (s : Substitution) : (pattern target : Expr) → Option Substitution
  | var x, target =>
    match s.get? x with
    | none => some (s.insert x target)
    | some e => if e = target then some s else none
  | app _ _, var _ => none
  | app f as, app g bs => if f = g then matchAll s as bs else none

def matchAll (s : Substitution) : (patterns targets : List Expr) → Option Substitution
  | [], [] => some s
  | [], _ :: _ => none
  | _ :: _, [] => none
  | a :: as, b :: bs =>
    match matchWith s a b with
    | none => none
    | some s' => matchAll s' as bs

end

end Deductive.Expr
