import Deductive.Declaration.Reader
import Deductive.Proofs.Lexing
import Deductive.Theory.Demands

/-!
The tokens that declarations are written with, and the text of a theory as the tokens of its
declarations one after the other.
-/
namespace Deductive

def Lexeme.word (s : String) : Lexeme := (.word, s)

def Lexeme.mark (s : String) : Lexeme := (.mark, s)

/-- What stands between dollar signs, with a space at both ends. -/
def Lexeme.math (s : String) : Lexeme := (.math, " " ++ s ++ " ")

def Name.lexeme (n : Name) : Lexeme := .word (toString n)

/-- A formula as it is written in the notations of a signature. -/
def Expr.lexeme (sig : Signature) (e : Expr) : Lexeme := .math (e.format sig)

def TypeContent.lexemes (sig : Signature) : TypeContent → List Lexeme
  | .sort name deps => (name :: deps).map Name.lexeme
  | .formula e => [e.lexeme sig]

/-- Some names with their type, in parentheses or in braces. -/
structure Group where
  names : List Name
  bound : Bool
  type : TypeContent

def Group.lexemes (sig : Signature) (g : Group) : List Lexeme :=
  .mark (if g.bound then "\x7b" else "(") ::
    (g.names.map Name.lexeme ++ .mark ":" :: (g.type.lexemes sig ++
      [.mark (if g.bound then "\x7d" else ")")]))

/-- The groups that binders are written in. -/
def Binder.written (binders : List Binder) : List Group :=
  (Binder.groups binders).map fun (names, b) => ⟨names, b.bound.holds, .sort b.sort b.deps⟩

/-- The group of a hypothesis under its label. -/
def Hypothesis.written (label : Name) (h : Hypothesis) : Group := ⟨[label], false, .formula h.formula⟩

def SortDecl.lexemes (decl : SortDecl) : List Lexeme :=
  decl.modifiers.keywords.map Lexeme.word ++ [.word "sort", decl.name.lexeme, .mark ";"]

def bodyLexemes (sig : Signature) : Option Expr → List Lexeme
  | some e => [.mark "=", e.lexeme sig]
  | none => []

def TermDecl.lexemes (sig : Signature) (t : TermDecl) : List Lexeme :=
  .word (if t.isDef.holds then "def" else "term") :: t.name.lexeme ::
    ((Binder.written t.binders).flatMap (Group.lexemes sig) ++ .mark ":" ::
      ((t.resultSort :: t.resultDeps).map Name.lexeme ++
        (bodyLexemes sig t.body ++ [.mark ";"])))

def Notation.lexemes (n : Notation) : List Lexeme :=
  [.word n.fixity.keyword, n.term.lexeme, .mark ":", .math (toString n.token),
    .word "prec", if n.prec = maxPrec then .word "max" else (.number, toString n.prec),
    .mark ";"]

/-- The characters of the two sides, which are written once if they are the same. -/
def Delimiters.lexemes (d : Delimiters) : List Lexeme :=
  .word "delimiter" :: .math (joinNames d.leftMembers) ::
    ((if d.leftMembers = d.rightMembers then []
      else [.math (joinNames d.rightMembers)]) ++ [.mark ";"])

/-- The hypotheses with names, and the formulas with arrows between them. -/
def Assertion.lexemes (sig : Signature) (a : Assertion) : List Lexeme :=
  let (named, arrows) := Signature.splitNamed a.hypotheses
  .word a.kind.keyword :: a.label.lexeme ::
    ((Binder.written a.binders ++
        (a.hypothesisLabels.zip named).map fun p => p.2.written p.1).flatMap
      (Group.lexemes sig) ++ .mark ":" ::
        ([.mark ">"].intercalate ((arrows.map Hypothesis.formula ++ [a.conclusion]).map fun e =>
          [e.lexeme sig]) ++ [.mark ";"]))

def Declaration.lexemes (sig : Signature) : Declaration → List Lexeme
  | .sort decl => decl.lexemes
  | .term t => t.lexemes sig
  | .notated n => n.lexemes
  | .delimiters d => d.lexemes
  | .assertion a => a.lexemes sig

theorem Declaration.lexemes_ne_nil (sig : Signature) (d : Declaration) : d.lexemes sig ≠ [] := by
  cases d with
  | sort decl => simp [Declaration.lexemes, SortDecl.lexemes]
  | term t => exact List.cons_ne_nil _ _
  | notated n => exact List.cons_ne_nil _ _
  | delimiters d => exact List.cons_ne_nil _ _
  | assertion a => exact List.cons_ne_nil _ _

/-! Names that are words, and what else can be written in declarations. -/

/-- The name is a word of declaration files. -/
def Name.IsWord (n : Name) : Prop := ∃ s, n = .text s ∧ Deductive.IsWord s

theorem Name.IsWord.of_chars {s : String} {c : Char} {w : List Char} (hs : s.toList = c :: w)
    (hc : isLetter c = true) (hw : w.all isWordChar = true) : Name.IsWord s :=
  ⟨s, rfl, Deductive.IsWord.of_chars hs hc hw⟩

structure Binder.IsSpelled (b : Binder) : Prop where
  name : b.name.IsWord
  sort : b.sort.IsWord
  deps : ∀ d ∈ b.deps, d.IsWord
  bound : ∃ bound, b.bound = .bool bound ∧ (bound = true → b.deps = [])

structure TermDecl.IsSpelled (t : TermDecl) : Prop where
  name : t.name.IsWord
  binders : ∀ b ∈ t.binders, b.IsSpelled
  resultSort : t.resultSort.IsWord
  resultDeps : ∀ d ∈ t.resultDeps, d.IsWord
  isDef : ∃ isDef, t.isDef = .bool isDef ∧ (isDef = false → t.body = none)

structure Notation.IsSpelled (n : Notation) : Prop where
  term : n.term.IsWord
  token : ∃ s, n.token = .text s ∧ s.toList ≠ [] ∧ ∀ c ∈ s.toList, Text.isBlank c = false ∧ c ≠ '$'
  prec : 0 ≤ n.prec ∧ n.prec ≤ maxPrec

structure Delimiters.IsSpelled (d : Delimiters) : Prop where
  strays : d.strayLeft = [] ∧ d.strayRight = []
  members : ∀ s, s ∈ d.left ∨ s ∈ d.right →
    ∃ c, s = String.singleton c ∧ Text.isBlank c = false ∧ c ≠ '$'

structure Assertion.IsSpelled (a : Assertion) : Prop where
  label : a.label.IsWord
  binders : ∀ b ∈ a.binders, b.IsSpelled
  hypotheses : ∃ named arrows, a.hypotheses = named ++ arrows ∧
    (∀ h ∈ named, ∃ n, h.name = some n ∧ n.IsWord) ∧ ∀ h ∈ arrows, h.name = none

def Declaration.IsSpelled : Declaration → Prop
  | .sort decl => decl.name.IsWord
  | .term t => t.IsSpelled
  | .notated n => n.IsSpelled
  | .delimiters d => d.IsSpelled
  | .assertion a => a.IsSpelled

def TermDecl.formulas (t : TermDecl) : List Expr := t.body.toList

/-- The formulas of a declaration. -/
def Declaration.formulas : Declaration → List Expr
  | .term t => t.formulas
  | .assertion a => a.formulas
  | _ => []

/-! Texts of words and marks. -/

section

variable {sig : Signature} {n : Name} {ns : List Name} {e : Expr}

theorem Name.IsWord.spells (h : n.IsWord) : SpellsOpen (toString n) [n.lexeme] := by
  obtain ⟨s, rfl, hs⟩ := h
  exact .word hs

theorem Parts.of_singleton {s : String} {c : Char} (hs : s.toList = [c]) (hc : isWordChar c = false) :
    Parts s :=
  ⟨c, [], hs, hc⟩

theorem SpellsOpen.joinWords {texts : List (String × List Lexeme)}
    (h : ∀ t ∈ texts, SpellsOpen t.1 t.2) :
    SpellsOpen (joinWords (texts.map Prod.fst)) (texts.flatMap Prod.snd) := by
  have hflat : ∀ ls : List (List Lexeme), [].intercalate ls = ls.flatten := by
    intro ls
    induction ls with
    | nil => rfl
    | cons l ls ih =>
      cases ls with
      | nil => simp
      | cons l' ls =>
        rw [List.intercalate_cons_cons, ih, List.append_nil, List.flatten_cons (l := l)]
  have := Spells.space.intercalate (.of_singleton rfl (by decide)) h
  rwa [hflat, ← List.flatMap_def] at this

theorem SpellsOpen.joinNames (h : ∀ n ∈ ns, n.IsWord) :
    SpellsOpen (joinNames ns) (ns.map Name.lexeme) := by
  have hwords : ∀ t ∈ ns.map fun n => (toString n, [n.lexeme]), SpellsOpen t.1 t.2 := by
    intro t ht
    obtain ⟨n, hn, rfl⟩ := List.mem_map.mp ht
    exact (h n hn).spells
  have := SpellsOpen.joinWords hwords
  rw [List.map_map, List.flatMap_map] at this
  rw [List.map_eq_flatMap]
  exact this

theorem Spells.colon : Spells ": " [.mark ":"] :=
  (Spells.mark (c := ':') rfl (by decide)).append .space

theorem Parts.colon : Parts ": " := ⟨':', [' '], rfl, by decide⟩

theorem Spells.semicolon : Spells ";" [.mark ";"] := .mark (c := ';') rfl (by decide)

theorem Parts.semicolon : Parts ";" := .of_singleton rfl (by decide)

theorem Spells.formula (h : '$' ∉ (e.format sig).toList) : Spells (sig.writeMath e) [e.lexeme sig] :=
  .mathString h

theorem spells_inGroup {inner : String} {ls : List Lexeme} (bound : Bool) (h : SpellsOpen inner ls) :
    Spells (if bound then "\x7b" ++ inner ++ "\x7d" else "(" ++ inner ++ ")")
      (.mark (if bound then "\x7b" else "(") ::
        (ls ++ [.mark (if bound then "\x7d" else ")")])) := by
  cases bound with
  | true =>
    exact ((Spells.mark (c := '\x7b') rfl (by decide)).append_open h).append
      (.mark (c := '\x7d') rfl (by decide)) (.of_singleton rfl (by decide))
  | false =>
    exact ((Spells.mark (c := '(') rfl (by decide)).append_open h).append
      (.mark (c := ')') rfl (by decide)) (.of_singleton rfl (by decide))

theorem mem_intercalate {separator : String} {parts : List String} {c : Char}
    (h : c ∈ (separator.intercalate parts).toList) :
    c ∈ separator.toList ∨ ∃ w ∈ parts, c ∈ w.toList := by
  induction parts with
  | nil => cases h
  | cons w parts ih =>
    cases parts with
    | nil => exact .inr ⟨w, List.mem_cons_self, by simpa using h⟩
    | cons w' parts =>
      rw [String.intercalate_cons_cons, String.toList_append, String.toList_append,
        List.mem_append, List.mem_append] at h
      rcases h with (h | h) | h
      · exact .inr ⟨w, List.mem_cons_self, h⟩
      · exact .inl h
      · rcases ih h with h | ⟨w'', hw, hc⟩
        · exact .inl h
        · exact .inr ⟨w'', List.mem_cons_of_mem _ hw, hc⟩

theorem mem_joinWords {words : List String} {c : Char} (h : c ∈ (joinWords words).toList) :
    c = ' ' ∨ ∃ w ∈ words, c ∈ w.toList :=
  (mem_intercalate h).imp_left List.mem_singleton.mp

end

theorem mem_joinWords_of_mem {words : List String} {w : String} {c : Char} (hw : w ∈ words)
    (hc : c ∈ w.toList) : c ∈ (joinWords words).toList := by
  induction words with
  | nil => cases hw
  | cons w' words ih =>
    cases words with
    | nil =>
      cases List.mem_singleton.mp hw
      simpa [joinWords] using hc
    | cons w'' words =>
      rw [joinWords, String.intercalate_cons_cons, String.toList_append, String.toList_append,
        List.mem_append, List.mem_append]
      rcases List.mem_cons.mp hw with rfl | hw
      · exact .inl (.inl hc)
      · exact .inr (ih hw)

/-- A set of strings is known by its members. -/
theorem StringSet.ext {t u : StringSet} (h : ∀ s, s ∈ t ↔ s ∈ u) : t = u := by
  obtain ⟨xs, hxs⟩ := t
  obtain ⟨ys, hys⟩ := u
  have hlists : xs = ys := by
    induction xs generalizing ys with
    | nil =>
      cases ys with
      | nil => rfl
      | cons y ys => exact absurd ((h y).mpr List.mem_cons_self) List.not_mem_nil
    | cons x xs ih =>
      cases ys with
      | nil => exact absurd ((h x).mp List.mem_cons_self) List.not_mem_nil
      | cons y ys =>
        obtain ⟨hx, hxs'⟩ := List.pairwise_cons.mp hxs
        obtain ⟨hy, hys'⟩ := List.pairwise_cons.mp hys
        -- The least members are the same, and the others are larger.
        have hhead : x = y := by
          rcases List.mem_cons.mp ((h x).mp List.mem_cons_self) with he | hmem
          · exact he
          rcases List.mem_cons.mp ((h y).mpr List.mem_cons_self) with he | hmem'
          · exact he.symm
          exact absurd (String.lt_trans (hy x hmem) (hx y hmem')) (String.lt_irrefl y)
        subst hhead
        have hrest : ∀ s, (s ∈ (⟨xs, hxs'⟩ : StringSet)) ↔ s ∈ (⟨ys, hys'⟩ : StringSet) := by
          intro s
          constructor
          · intro hs
            rcases List.mem_cons.mp ((h s).mp (List.mem_cons_of_mem _ hs)) with rfl | hmem
            · exact absurd (hx s hs) (String.lt_irrefl s)
            · exact hmem
          · intro hs
            rcases List.mem_cons.mp ((h s).mpr (List.mem_cons_of_mem _ hs)) with rfl | hmem
            · exact absurd (hy s hs) (String.lt_irrefl s)
            · exact hmem
        rw [ih hxs' ys hys' hrest]
  subst hlists
  rfl

namespace Binder

theorem mem_groups {binders : List Binder} {names : List Name} {b : Binder}
    (h : (names, b) ∈ groups binders) :
    b ∈ binders ∧ ∀ n ∈ names, ∃ b' ∈ binders, b'.name = n := by
  induction binders generalizing names b with
  | nil => cases h
  | cons b₀ binders ih =>
    have hfirst : b₀ ∈ b₀ :: binders ∧ ∀ n ∈ [b₀.name], ∃ b' ∈ b₀ :: binders, b'.name = n :=
      ⟨List.mem_cons_self, by simp⟩
    have hlater {names : List Name} {b : Binder} (h : (names, b) ∈ groups binders) :
        b ∈ b₀ :: binders ∧ ∀ n ∈ names, ∃ b' ∈ b₀ :: binders, b'.name = n := by
      obtain ⟨hb, hnames⟩ := ih h
      refine ⟨List.mem_cons_of_mem _ hb, fun n hn => ?_⟩
      obtain ⟨b', hb', he⟩ := hnames n hn
      exact ⟨b', List.mem_cons_of_mem _ hb', he⟩
    rw [groups] at h
    split at h
    · rename_i names' first rest hgroups
      split at h
      · rcases List.mem_cons.mp h with he | h
        · cases he
          have hfound := (hlater (hgroups ▸ List.mem_cons_self)).2
          exact ⟨List.mem_cons_self, List.forall_mem_cons.mpr
            ⟨⟨_, List.mem_cons_self, rfl⟩, hfound⟩⟩
        · exact hlater (hgroups ▸ List.mem_cons_of_mem _ h)
      · rcases List.mem_cons.mp h with he | h
        · cases he
          exact hfirst
        · exact hlater (hgroups ▸ h)
    · cases List.mem_singleton.mp h
      exact hfirst

theorem groups_nonempty {binders : List Binder} {names : List Name} {b : Binder}
    (h : (names, b) ∈ groups binders) : names ≠ [] := by
  induction binders with
  | nil => cases h
  | cons b₀ binders ih =>
    rw [groups] at h
    split at h
    · rename_i names' first rest hgroups
      rw [hgroups] at ih
      split at h
      · rcases List.mem_cons.mp h with he | h
        · cases he
          exact List.cons_ne_nil _ _
        · exact ih (List.mem_cons_of_mem _ h)
      · rcases List.mem_cons.mp h with he | h
        · cases he
          exact List.cons_ne_nil _ _
        · exact ih h
    · cases List.mem_singleton.mp h
      exact List.cons_ne_nil _ _

theorem spells_writeGroup {sig : Signature} {names : List Name} {b : Binder}
    (hnames : ∀ n ∈ names, n.IsWord) (hb : b.IsSpelled) :
    Spells (writeGroup names b) (Group.lexemes sig ⟨names, b.bound.holds, .sort b.sort b.deps⟩) := by
  have htype : SpellsOpen (joinNames (b.sort :: b.deps)) ((b.sort :: b.deps).map Name.lexeme) :=
    .joinNames (List.forall_mem_cons.mpr ⟨hb.sort, hb.deps⟩)
  have hinner := ((SpellsOpen.joinNames hnames).append .colon .colon).append_open htype
  have hgroup := spells_inGroup b.bound.holds hinner
  simp only [List.append_assoc, List.cons_append] at hgroup
  exact hgroup

/-- The groups of binders, with their lexemes. -/
def texts (sig : Signature) (binders : List Binder) : List (String × List Lexeme) :=
  (groups binders).map fun g =>
    (writeGroup g.1 g.2, Group.lexemes sig ⟨g.1, g.2.bound.holds, .sort g.2.sort g.2.deps⟩)

theorem spells_texts {sig : Signature} {binders : List Binder} (h : ∀ b ∈ binders, b.IsSpelled) :
    ∀ t ∈ texts sig binders, Spells t.1 t.2 := by
  intro t ht
  obtain ⟨⟨names, b⟩, hg, rfl⟩ := List.mem_map.mp ht
  obtain ⟨hb, hnames⟩ := mem_groups hg
  refine spells_writeGroup (fun n hn => ?_) (h b hb)
  obtain ⟨b', hb', rfl⟩ := hnames n hn
  exact (h b' hb').name

end Binder

/-! Each declaration is written in one line. -/

section

variable {sig : Signature}

theorem SortDecl.spells_write {decl : SortDecl} (h : decl.name.IsWord) :
    Spells (Signature.writeSort decl) decl.lexemes := by
  have hkeyword : ∀ s ∈ ["pure", "strict", "provable", "free", "sort"], Deductive.IsWord s := by
    intro s hs
    simp only [List.mem_cons, List.not_mem_nil, or_false] at hs
    rcases hs with rfl | rfl | rfl | rfl | rfl <;> exact .of_chars rfl (by decide) (by decide)
  have hmodifier : ∀ s ∈ decl.modifiers.keywords, Deductive.IsWord s := by
    intro s hs
    apply hkeyword
    simp only [SortModifiers.keywords, List.mem_append] at hs
    rcases hs with ((hs | hs) | hs) | hs <;> split at hs <;> simp_all
  have hwords : ∀ t ∈ decl.modifiers.keywords.map (fun s => (s, [Lexeme.word s])) ++
      [("sort", [.word "sort"]), (toString decl.name, [decl.name.lexeme])], SpellsOpen t.1 t.2 := by
    intro t ht
    rcases List.mem_append.mp ht with ht | ht
    · obtain ⟨s, hs, rfl⟩ := List.mem_map.mp ht
      exact .word (hmodifier s hs)
    · simp only [List.mem_cons, List.not_mem_nil, or_false] at ht
      rcases ht with rfl | rfl
      · exact .word (hkeyword "sort" (by simp))
      · exact h.spells
  have hline := (SpellsOpen.joinWords hwords).append .semicolon .semicolon
  simpa [Signature.writeSort, SortDecl.lexemes, Function.comp_def, List.flatMap_append,
    List.flatMap_map, ← List.map_eq_flatMap] using hline

theorem TermDecl.spells_write {t : TermDecl} (h : t.IsSpelled)
    (hmath : ∀ e ∈ t.formulas, '$' ∉ (e.format sig).toList) :
    Spells (sig.writeTerm t) (t.lexemes sig) := by
  obtain ⟨keyword, hkey⟩ : ∃ keyword, keyword = if t.isDef.holds then "def" else "term" := ⟨_, rfl⟩
  have hkeyword : Deductive.IsWord keyword := by
    rw [hkey]
    split <;> exact .of_chars rfl (by decide) (by decide)
  have hwords : ∀ w ∈ (keyword, [Lexeme.word keyword]) :: (toString t.name, [t.name.lexeme]) ::
      Binder.texts sig t.binders, SpellsOpen w.1 w.2 :=
    List.forall_mem_cons.mpr ⟨.word hkeyword, List.forall_mem_cons.mpr
      ⟨h.name.spells, fun w hw => (Binder.spells_texts h.binders w hw).isOpen⟩⟩
  have htype : SpellsOpen (joinNames (t.resultSort :: t.resultDeps))
      ((t.resultSort :: t.resultDeps).map Name.lexeme) :=
    .joinNames (List.forall_mem_cons.mpr ⟨h.resultSort, h.resultDeps⟩)
  have hhead := ((SpellsOpen.joinWords hwords).append .colon .colon).append_open htype
  cases hbody : t.body with
  | none =>
    have hline := hhead.append .semicolon .semicolon
    simpa [Signature.writeTerm, TermDecl.lexemes, bodyLexemes, hbody, ← hkey, Binder.texts, Binder.writeAll,
      Binder.written, List.flatMap_map, Function.comp_def] using hline
  | some e =>
    have hformula := Spells.formula (hmath e (by simp [TermDecl.formulas, hbody]))
    have hequals : Spells " = " [.mark "="] :=
      (Spells.space.append (.mark (c := '=') rfl (by decide))).append .space
    have hparts : Parts " = " := ⟨' ', _, rfl, by decide⟩
    have hline := (hhead.append (hequals.append hformula) (hparts.append _)).append .semicolon
    simpa [Signature.writeTerm, TermDecl.lexemes, bodyLexemes, hbody, ← hkey, Binder.texts, Binder.writeAll,
      Binder.written, List.flatMap_map, Function.comp_def] using hline

theorem Notation.spells_write {n : Notation} (h : n.IsSpelled) :
    Spells (Signature.writeNotation n) n.lexemes := by
  have hkeyword : Deductive.IsWord n.fixity.keyword := by
    cases n.fixity <;> exact .of_chars rfl (by decide) (by decide)
  have htoken : '$' ∉ (toString n.token).toList := by
    obtain ⟨s, hs, _, hsolid⟩ := h.token
    rw [hs]
    exact fun hmem => (hsolid _ hmem).2 rfl
  have hprec : Spells " prec " [.word "prec"] := by
    have hword : Deductive.IsWord "prec" := .of_chars rfl (by decide) (by decide)
    exact (Spells.space.append_open (.word hword)).append .space (.of_singleton rfl (by decide))
  have hlevel : SpellsOpen n.precKeyword
      [if n.prec = maxPrec then .word "max" else (.number, toString n.prec)] := by
    unfold Notation.precKeyword
    split
    · exact .word (.of_chars rfl (by decide) (by decide))
    · obtain ⟨k, hk⟩ := Int.eq_ofNat_of_zero_le h.prec.1
      rw [hk]
      have hdigits : (toString (k : Int)).toList = Nat.toDigits 10 k := Nat.toList_repr
      refine .number (hdigits ▸ Nat.toDigits_ne_nil) fun c hc => ?_
      rw [hdigits] at hc
      have := Nat.isDigit_of_mem_toDigits (by decide) (by decide) hc
      simpa [Char.isDigit, isDigit, Char.le_def] using this
  have hfixity := (SpellsOpen.word hkeyword).append .space (.of_singleton rfl (by decide))
  have hterm := (hfixity.append_open h.term.spells).append .colon .colon
  have hline : Spells (Signature.writeNotation n) _ :=
    ((((hterm.append (.mathString htoken)).append hprec).append_open hlevel).append .semicolon
      .semicolon)
  simpa [Notation.lexemes, Lexeme.word, Lexeme.math] using hline

namespace Delimiters

def line (d : Delimiters) : String :=
  if d.leftMembers = d.rightMembers then "delimiter " ++ mathString (joinNames d.leftMembers) ++ ";"
  else
    "delimiter " ++ mathString (joinNames d.leftMembers) ++ " " ++
      mathString (joinNames d.rightMembers) ++ ";"

theorem IsSpelled.members_eq {d : Delimiters} (h : d.IsSpelled) :
    d.leftMembers = d.left.toList.map Name.text ∧ d.rightMembers = d.right.toList.map Name.text := by
  obtain ⟨hleft, hright⟩ := h.strays
  constructor <;> simp [leftMembers, rightMembers, Delimiters.members, hleft, hright]

theorem IsSpelled.dollar {d : Delimiters} (h : d.IsSpelled) {ss : List String}
    (hss : ∀ s ∈ ss, s ∈ d.left ∨ s ∈ d.right) : '$' ∉ (joinNames (ss.map Name.text)).toList := by
  intro hmem
  rcases mem_joinWords hmem with hspace | ⟨w, hw, hc⟩
  · exact absurd hspace (by decide)
  · rw [List.map_map] at hw
    obtain ⟨s, hs, rfl⟩ := List.mem_map.mp hw
    obtain ⟨c, rfl, _, hdollar⟩ := h.members s (hss s hs)
    change '$' ∈ (String.singleton c).toList at hc
    rw [String.toList_singleton, List.mem_singleton] at hc
    exact hdollar hc.symm

theorem spells_line {d : Delimiters} (h : d.IsSpelled) : Spells d.line d.lexemes := by
  have hkeyword : Spells "delimiter " [.word "delimiter"] := by
    have hword : Deductive.IsWord "delimiter" := .of_chars rfl (by decide) (by decide)
    exact (SpellsOpen.word hword).append .space (.of_singleton rfl (by decide))
  obtain ⟨hleft, hright⟩ := h.members_eq
  have hl : '$' ∉ (joinNames d.leftMembers).toList := hleft ▸ h.dollar fun s hs => .inl hs
  have hr : '$' ∉ (joinNames d.rightMembers).toList := hright ▸ h.dollar fun s hs => .inr hs
  unfold line lexemes
  have hone := hkeyword.append (.mathString hl)
  split
  · exact hone.append .semicolon
  · exact ((hone.append .space).append (.mathString hr)).append .semicolon

end Delimiters

/-! Hypotheses with names come first, so that they are written as binders and the others are not. -/

theorem hypothesisLabels_zip {named arrows : List Hypothesis} {i : Nat}
    (h : ∀ h ∈ named, ∃ n, h.name = some n ∧ n.IsWord) :
    ∀ p ∈ (hypothesisLabels i (named ++ arrows)).zip named,
      p.2 ∈ named ∧ p.2.name = some p.1 ∧ p.1.IsWord := by
  induction named generalizing i with
  | nil => simp
  | cons h₀ named ih =>
    obtain ⟨⟨n, hn, hword⟩, hnamed⟩ := List.forall_mem_cons.mp h
    rw [List.cons_append, hypothesisLabels, List.zip_cons_cons, hn]
    refine List.forall_mem_cons.mpr ⟨⟨List.mem_cons_self, hn, hword⟩, fun p hp => ?_⟩
    obtain ⟨hmem, hrest⟩ := ih hnamed p hp
    exact ⟨List.mem_cons_of_mem _ hmem, hrest⟩

theorem splitNamed_append {named arrows : List Hypothesis}
    (hn : ∀ h ∈ named, ∃ n, h.name = some n ∧ n.IsWord) (ha : ∀ h ∈ arrows, h.name = none) :
    Signature.splitNamed (named ++ arrows) = (named, arrows) := by
  induction named with
  | nil =>
    induction arrows with
    | nil => rfl
    | cons h arrows ih =>
      obtain ⟨hnone, harrows⟩ := List.forall_mem_cons.mp ha
      have := ih harrows
      rw [List.nil_append] at this ⊢
      simp [Signature.splitNamed, this, hnone]
  | cons h named ih =>
    obtain ⟨⟨n, hsome, _⟩, hnamed⟩ := List.forall_mem_cons.mp hn
    rw [List.cons_append, Signature.splitNamed, ih hnamed]
    simp [hsome]

theorem Hypothesis.spells_written {label : Name} {h : Hypothesis} (hlabel : label.IsWord)
    (hmath : '$' ∉ (h.formula.format sig).toList) :
    Spells s!"({label}: {sig.writeMath h.formula})" ((h.written label).lexemes sig) := by
  have hinner := (hlabel.spells.append .colon .colon).append (.formula hmath)
  have hgroup := spells_inGroup false hinner.isOpen
  simp only [Bool.false_eq_true, ↓reduceIte, ← String.append_assoc] at hgroup
  exact hgroup

theorem Assertion.spells_write {a : Assertion} (h : a.IsSpelled)
    (hmath : ∀ e ∈ a.formulas, '$' ∉ (e.format sig).toList) :
    Spells (sig.writeAssertion a) (a.lexemes sig) := by
  obtain ⟨named, arrows, hhyps, hnamed, harrows⟩ := h.hypotheses
  have hsplit : Signature.splitNamed a.hypotheses = (named, arrows) := by
    rw [hhyps, splitNamed_append hnamed harrows]
  have hformula : ∀ p ∈ named ++ arrows, '$' ∉ (p.formula.format sig).toList := fun p hp =>
    hmath _ (List.mem_append_left _ (List.mem_map_of_mem (hhyps ▸ hp)))
  have hkeyword : Deductive.IsWord a.kind.keyword := by
    cases a.kind <;> exact .of_chars rfl (by decide) (by decide)
  have hlabels : ∀ t ∈ (a.hypothesisLabels.zip named).map fun p =>
      (s!"({p.1}: {sig.writeMath p.2.formula})", (p.2.written p.1).lexemes sig),
      SpellsOpen t.1 t.2 := by
    intro t ht
    obtain ⟨p, hp, rfl⟩ := List.mem_map.mp ht
    rw [Assertion.hypothesisLabels, hhyps] at hp
    obtain ⟨hmem, _, hword⟩ := hypothesisLabels_zip hnamed p hp
    exact (Hypothesis.spells_written hword (hformula _ (List.mem_append_left _ hmem))).isOpen
  have hwords : ∀ t ∈ (a.kind.keyword, [Lexeme.word a.kind.keyword]) ::
      (toString a.label, [a.label.lexeme]) :: (Binder.texts sig a.binders ++
        (a.hypothesisLabels.zip named).map fun p =>
          (s!"({p.1}: {sig.writeMath p.2.formula})", (p.2.written p.1).lexemes sig)),
      SpellsOpen t.1 t.2 :=
    List.forall_mem_cons.mpr ⟨.word hkeyword, List.forall_mem_cons.mpr ⟨h.label.spells,
      List.forall_mem_append.mpr
        ⟨fun t ht => (Binder.spells_texts h.binders t ht).isOpen, hlabels⟩⟩⟩
  have hformulas : ∀ t ∈ (arrows.map Hypothesis.formula ++ [a.conclusion]).map fun e =>
      (sig.writeMath e, [e.lexeme sig]), SpellsOpen t.1 t.2 := by
    intro t ht
    obtain ⟨e, he, rfl⟩ := List.mem_map.mp ht
    refine (Spells.formula ?_).isOpen
    rcases List.mem_append.mp he with he | he
    · obtain ⟨p, hp, rfl⟩ := List.mem_map.mp he
      exact hformula p (List.mem_append_right _ hp)
    · exact hmath e (List.mem_append_right _ he)
  have harrow : Spells " > " [.mark ">"] :=
    (Spells.space.append (.mark (c := '>') rfl (by decide))).append .space
  have hstatement := harrow.intercalate ⟨' ', _, rfl, by decide⟩ hformulas
  have hline := (((SpellsOpen.joinWords hwords).append .colon .colon).append_open hstatement).append
    .semicolon .semicolon
  simpa [Signature.writeAssertion, Assertion.lexemes, hsplit, Binder.texts, Binder.writeAll,
    Binder.written, List.flatMap_map, Function.comp_def] using hline

end

def Declaration.line (sig : Signature) : Declaration → String
  | .sort decl => Signature.writeSort decl
  | .term t => sig.writeTerm t
  | .notated n => Signature.writeNotation n
  | .delimiters d => d.line
  | .assertion a => sig.writeAssertion a

theorem Declaration.spells_line {sig : Signature} {d : Declaration} (h : d.IsSpelled)
    (hmath : ∀ e ∈ d.formulas, '$' ∉ (e.format sig).toList) :
    Spells (d.line sig) (d.lexemes sig) := by
  cases d with
  | sort decl => exact decl.spells_write h
  | term t => exact TermDecl.spells_write h hmath
  | notated n => exact Notation.spells_write h
  | delimiters d => exact Delimiters.spells_line h
  | assertion a => exact Assertion.spells_write h hmath

/-! The declarations that the text of a theory consists of. -/

namespace Signature

variable (sig : Signature)

/-- The notations of a term in the order of their declaration. -/
def notationsOf (term : Name) : List Notation := sig.notations.values.filter fun n => n.term = term

def delimiterDeclarations : List Declaration :=
  if sig.delimiters.leftMembers.isEmpty && sig.delimiters.rightMembers.isEmpty then []
  else [.delimiters sig.delimiters]

/-- Each term is declared with its notations after it. -/
def termDeclarations (terms : List TermDecl) : List Declaration :=
  terms.flatMap fun t => .term t :: (sig.notationsOf t.name).map .notated

end Signature

namespace Theory

variable (t : Theory)

def declarations : List Declaration :=
  t.signature.delimiterDeclarations ++ (t.signature.sorts.values.map .sort ++
    (t.signature.termDeclarations t.signature.terms.values ++ t.assertions.map .assertion))

theorem write_eq :
    t.write = "-- " ++ toString t.name ++ "\n" ++
      writeBlock (t.signature.delimiterDeclarations.map (Declaration.line t.signature)) ++
      writeBlock ((t.signature.sorts.values.map .sort).map (Declaration.line t.signature)) ++
      writeBlock ((t.signature.termDeclarations t.signature.terms.values).map
        (Declaration.line t.signature)) ++
      writeBlock ((t.assertions.map .assertion).map (Declaration.line t.signature)) := by
  have hdelimiters : t.signature.writeDelimiters =
      t.signature.delimiterDeclarations.map (Declaration.line t.signature) := by
    unfold Signature.writeDelimiters Signature.delimiterDeclarations
    dsimp only
    split
    · rfl
    · simp only [List.map_cons, List.map_nil, Declaration.line, Delimiters.line]
      split <;> rfl
  have hterms : t.signature.writeTerms = (t.signature.termDeclarations
      t.signature.terms.values).map (Declaration.line t.signature) := by
    simp [Signature.writeTerms, Signature.termDeclarations, List.map_flatMap, Declaration.line,
      Signature.notationsOf, Function.comp_def]
  rw [write, hdelimiters, hterms, List.map_map, List.map_map]
  rfl

variable {t}

theorem spells_writeBlock {sig : Signature} {ds : List Declaration}
    (h : ∀ d ∈ ds, Spells (d.line sig) (d.lexemes sig)) :
    Spells (writeBlock (ds.map (Declaration.line sig))) (ds.flatMap (Declaration.lexemes sig)) := by
  have hlines : Spells (String.join ((ds.map (Declaration.line sig)).map (· ++ "\n")))
      (ds.flatMap (Declaration.lexemes sig)) := by
    induction ds with
    | nil => exact .empty
    | cons d ds ih =>
      obtain ⟨hd, hds⟩ := List.forall_mem_cons.mp h
      rw [List.map_cons, List.map_cons, String.join_cons, List.flatMap_cons]
      have hline := hd.append .newline
      rw [List.append_nil] at hline
      exact hline.append (ih hds)
  unfold writeBlock
  split
  · rename_i hempty
    rw [List.map_eq_nil_iff.mp (List.isEmpty_iff.mp hempty)]
    exact .empty
  · rw [String.join_cons]
    exact Spells.newline.append hlines

/-- The text of a theory is cut into the tokens of its declarations. -/
theorem write_lexes {name : String} (hname : t.name = name) (hline : '\n' ∉ name.toList)
    (h : ∀ d ∈ t.declarations, d.IsSpelled)
    (hmath : ∀ d ∈ t.declarations, ∀ e ∈ d.formulas, '$' ∉ (e.format t.signature).toList) :
    Lexes t.write.toList (t.declarations.flatMap (Declaration.lexemes t.signature)) := by
  have hblock (ds : List Declaration) (hds : ∀ d ∈ ds, d ∈ t.declarations) :
      Spells (writeBlock (ds.map (Declaration.line t.signature)))
        (ds.flatMap (Declaration.lexemes t.signature)) :=
    spells_writeBlock fun d hd => d.spells_line (h d (hds d hd)) (hmath d (hds d hd))
  have hdelimiters := hblock t.signature.delimiterDeclarations fun d hd =>
    List.mem_append_left _ hd
  have hsorts := hblock (t.signature.sorts.values.map .sort) fun d hd =>
    List.mem_append_right _ (List.mem_append_left _ hd)
  have hterms := hblock (t.signature.termDeclarations t.signature.terms.values) fun d hd =>
    List.mem_append_right _ (List.mem_append_right _ (List.mem_append_left _ hd))
  have hassertions := hblock (t.assertions.map .assertion) fun d hd =>
    List.mem_append_right _ (List.mem_append_right _ (List.mem_append_right _ hd))
  have hblocks := (hdelimiters.append (hsorts.append (hterms.append hassertions))).lexes.gap
    (c := '\n') (by decide)
  have hheading : '\n' ∉ ' ' :: name.toList := by simpa using hline
  have htext := hblocks.comment hheading (by simp)
  rw [write_eq, hname, declarations]
  simpa [toString, Name.toString, List.flatMap_append] using htext

end Theory
end Deductive
