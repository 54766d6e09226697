import Deductive.Formula.Reader
import Deductive.Proof
import Deductive.Token.Reader

/-!
Reading proof files.

    proof NAME = term ;
    term: NAME | ( NAME item* )
    item: term | MATH | _
-/
namespace Deductive

open TokenReader

namespace ProofTerm

/-- An item of an application, where `term` reads the proofs among them. -/
def item (sig : Signature) (term : TokenReader ProofTerm) : TokenReader ProofTerm := do
  let t ← peek
  if t.kind = .math then
    let _ ← advance
    fun s =>
      match parseMath t.text sig (t.position.right 1) with
      | .ok e => .ok (.expr e) s
      | .error err => .error err s
  else if t.isKeyword "_" then
    let _ ← advance
    pure .hole
  else if t.kind = .finish then fail t.position .unclosedProof
  else term

/-- A proof at a depth, with at most `n` proofs around one another from there. -/
def read (sig : Signature) (limit : Int) : Nat → Nat → TokenReader ProofTerm
  | 0, _ => do
    let t ← peek
    fail t.position .proofTooDeep
  | n + 1, depth => do
    let t ← peek
    if limit < depth then fail t.position (.nestingLimit limit)
    else if t.isWord then
      let _ ← advance
      if t.text = "_" then fail t.position .holeAsProof
      else pure (.ref t.text t.position)
    else
      let _ ← expectMark "("
      let name ← expectWord "assertion label"
      let items ← manyWhile (fun t => !t.isMark ")") (item sig (read sig limit n (depth + 1)))
      let _ ← expectMark ")"
      pure (.app name.text items t.position)

end ProofTerm

namespace ProofFile

/-- One statement, under a label that has no proof yet. -/
def statement (sig : Signature) (limit : Int) (proofs : ProofFile) : TokenReader ProofFile := do
  let _ ← expectKeyword "proof"
  let label ← expectWord "theorem label"
  let _ ← expectMark "="
  let proof ← ProofTerm.read sig limit nestingLimit 0
  let _ ← expectMark ";"
  if proofs.contains label.text then fail label.position (.duplicateProof label.text)
  else pure (proofs.insert label.text ⟨label.text, proof, label.position.line⟩)

/-- At most `n` statements up to the end of the text. -/
def read (sig : Signature) (limit : Int) : Nat → ProofFile → TokenStream → Except ParseError ProofFile
  | 0, proofs, _ => .ok proofs
  | n + 1, proofs, s =>
    if s.isAtEnd then .ok proofs
    else match statement sig limit proofs s with
      | .error e _ => .error e
      | .ok proofs s => read sig limit n proofs s

/-- The proofs of a text, nested no deeper than `limit`. -/
def parse (text : String) (sig : Signature) (limit : Int) : Except ParseError ProofFile :=
  match tokenize text with
  | .error e => .error e
  | .ok s => read sig limit s.pending.length .empty s

end ProofFile
end Deductive
