import Deductive.Position
import Deductive.Registry
import Deductive.Expr

/-!
Proofs as trees: an assertion is applied to expressions for its binders and to proofs of its
hypotheses.
-/
namespace Deductive

/-- A bare name is a hypothesis, an assertion applied to nothing, or, as an argument, a variable or
a constant. Expressions and holes stand only as arguments; a hole is an argument to be found. -/
inductive ProofTerm where
  | ref (name : String) (position : Position)
  | app (name : String) (items : List ProofTerm) (position : Position)
  | expr (e : Expr)
  | hole
  deriving Repr, Inhabited

structure ProofDecl where
  label : String
  proof : ProofTerm
  line : Int
  deriving Repr, Inhabited

/-- Proofs by label, in the order of the file. -/
abbrev ProofFile := Registry Name ProofDecl

end Deductive
