import Deductive.Declaration.Parser
import Deductive.Proof.Reader

/-!
The bundled theory: propositional calculus with implication and negation over three axioms and
modus ponens, and the proofs of its theorems.
-/
namespace Deductive.Library

/-- The name of the bundled theory. -/
def name : String := "prop"

/-- The directory of the bundled files, as messages name it. -/
def directory : String := "<library>"

def declarationsPath : String := directory ++ "/prop.mm0"

def proofsPath : String := directory ++ "/prop.mmp"

/-- The lines of a text, each with its line feed. -/
def textOf (lines : List String) : String := String.join (lines.map (· ++ "\n"))

def declarationLines : List String := [
    "-- Propositional calculus over Lukasiewicz's axioms.",
    "",
    "delimiter $ ( ) ~ $;",
    "",
    "provable sort wff;",
    "",
    "term im (a b: wff): wff;",
    "infixr im: $->$ prec 25;",
    "",
    "term not (a: wff): wff;",
    "prefix not: $~$ prec 41;",
    "",
    "axiom ax_1 (a b: wff): $ a -> b -> a $;",
    "axiom ax_2 (a b c: wff): $ (a -> b -> c) -> (a -> b) -> a -> c $;",
    "axiom ax_3 (a b: wff): $ (~a -> ~b) -> b -> a $;",
    "axiom ax_mp (a b: wff): $ a -> b $ > $ a $ > $ b $;",
    "",
    "-- Derived rules, proved in prop.mmp.",
    "",
    "theorem a1i (a b: wff) (h: $ a $): $ b -> a $;",
    "theorem id (a: wff): $ a -> a $;",
    "theorem mpd (a b c: wff): $ a -> b $ > $ a -> b -> c $ > $ a -> c $;",
    "theorem syl (a b c: wff) (h1: $ a -> b $) (h2: $ b -> c $): $ a -> c $;",
    "theorem con4i (a b: wff) (h: $ ~a -> ~b $): $ b -> a $;"]

def proofLines : List String := [
    "-- Proofs of the theorems in prop.mm0.",
    "",
    "proof a1i = (ax_mp ax_1 h);",
    "",
    "-- ax_2 needs its arguments spelled out: nothing below it fixes `a`.",
    "proof id = (ax_mp $ a -> a -> a $ _",
    "  (ax_mp $ a -> (a -> a) -> a $ $ (a -> a -> a) -> a -> a $ ax_2 ax_1)",
    "  ax_1);",
    "",
    "proof mpd = (ax_mp (ax_mp ax_2 h2) h1);",
    "",
    "proof syl = (mpd h1 (a1i h2));",
    "",
    "proof con4i = (ax_mp ax_3 h);"]

def declarations : String := textOf declarationLines

def proofs : String := textOf proofLines

end Deductive.Library
