import Deductive.Proof.Reader
import Deductive.Proofs.Parsing
import Deductive.Proofs.Places
import Deductive.Proofs.Results

/-!
How the readers of declarations and of proofs end. What is read uses the signature that it is read
with, and every error is at a token of the text, or in a math string of it.
-/
namespace Deductive

open TokenReader

/-- A reader of tokens that stand in a text. -/
abbrev Reports {α : Type} (text : List Char) (long : Nat → Prop) (P : α → Prop)
    (r : TokenReader α) : Prop :=
  Ends (TokenStream.StandIn text) P (ParseError.IsFaithful text long) r

namespace Reports

variable {text : List Char} {long : Nat → Prop}

theorem fail {α : Type} {P : α → Prop} {p : Position} {cause : ParseCause} (hp : p.IsIn text)
    (hcause : ∀ n, cause ≠ .precTooLong n) :
    Reports text long P (TokenReader.fail p cause : TokenReader α) :=
  fun _ _ => .of_isIn hp hcause

theorem peek : Reports text long (Token.StandsIn text) TokenReader.peek :=
  fun _ hs => ⟨hs.peek, hs⟩

theorem advance : Reports text long (Token.StandsIn text) TokenReader.advance :=
  fun s hs => ⟨hs.peek, hs.sublist (List.tail_sublist s.pending)⟩

theorem expect {test : Token → Bool} {what : String} :
    Reports text long (fun t => test t = true ∧ t.StandsIn text) (TokenReader.expect test what) := by
  apply advance.bind
  intro t ht
  split
  · rename_i htest
    exact .pure ⟨htest, ht⟩
  · exact fail ht.isIn nofun

theorem words : Reports text long (fun _ => True) TokenReader.words :=
  fun _ hs => ⟨trivial, hs.sublist (List.dropWhile_sublist _)⟩

section

variable {α : Type} {test : Token → Bool} {item : TokenReader α} {P : α → Prop}

theorem whileNext (h : Reports text long P item) (n : Nat) :
    Reports text long (fun as => ∀ a ∈ as, P a) (TokenReader.whileNext test item n) := by
  induction n with
  | zero => exact .pure nofun
  | succ n ih =>
    apply peek.bind
    intro t _
    split
    · apply h.bind
      intro a ha
      apply ih.bind
      intro as has
      exact .pure (List.forall_mem_cons.mpr ⟨ha, has⟩)
    · exact .pure nofun

theorem manyWhile (h : Reports text long P item) :
    Reports text long (fun as => ∀ a ∈ as, P a) (TokenReader.manyWhile test item) :=
  fun s => h.whileNext (s.pending.length + 1) s

end

variable (long) in
/-- A math string that is read as a formula; where it breaks off, its end is looked for in its first
line. -/
theorem math {t : Token} (ht : t.StandsIn text) (hmath : t.kind = .math) (sig : Signature) :
    match parseMath t.text sig (t.position.right 1) with
    | .ok e => e.IsRead sig
    | .error err => err.IsFaithful text long := by
  have hends := parseMath_ends t.text sig (t.position.right 1)
  cases hread : parseMath t.text sig (t.position.right 1) with
  | ok e =>
    rw [hread] at hends
    exact hends
  | error err =>
    rw [hread] at hends
    obtain ⟨hplace, hcause⟩ := hends
    refine ⟨?_, fun n hn => absurd hn (hcause n)⟩
    rcases hplace with ⟨front, hfront, hposition⟩ | ⟨hposition, hend⟩
    · rw [ParseError.IsPlaced, hposition]
      exact .inl (ht.isIn_math hmath hfront)
    · by_cases hline : '\n' ∈ t.text.toList
      · obtain ⟨before, after, htext, hstart⟩ := ht.place
        refine .inr ⟨hend, before, t.text.toList, after, ?_, hline, ?_⟩
        · simp [htext, Token.source, hmath]
        · rw [hposition, hstart, String.length_toList]
      · have hright := Position.advance_eq_right (t.position.right 1) hline
        rw [String.length_toList] at hright
        rw [ParseError.IsPlaced, hposition, ← hright]
        exact .inl (ht.isIn_math hmath List.prefix_rfl)

end Reports

/-- A type that was read in a text: its place, and its formula, if it is one. -/
structure TypeSpec.IsRead (text : List Char) (sig : Signature) (t : TypeSpec) : Prop where
  place : t.position.IsIn text
  formula : ∀ e, t.content = .formula e → e.IsRead sig

/-- The formulas of the declaration are put together from what the signature knows. -/
def Declaration.IsRead (sig : Signature) (d : Declaration) : Prop := ∀ e ∈ d.formulas, e.IsRead sig

namespace Declaration

variable {text : List Char} {long : Nat → Prop} {sig : Signature}

theorem formula_reports {t : Token} (ht : t.StandsIn text) (hmath : t.kind = .math) :
    Reports text long (Expr.IsRead sig) (formula sig t) := by
  intro s hs
  have hends := Reports.math long ht hmath sig
  unfold formula
  cases hread : parseMath t.text sig (t.position.right 1) with
  | ok e =>
    rw [hread] at hends
    exact ⟨hends, hs⟩
  | error err =>
    rw [hread] at hends
    exact hends

theorem typeSpec_reports : Reports text long (TypeSpec.IsRead text sig) (typeSpec sig) := by
  apply Reports.peek.bind
  intro t ht
  split
  · rename_i hmath
    apply Reports.advance.bind
    intro _ _
    apply (formula_reports ht hmath).bind
    intro e he
    refine .pure ⟨ht.isIn, fun e' he' => ?_⟩
    cases he'
    exact he
  · apply Reports.expect.bind
    intro name hname
    apply Reports.words.bind
    intro deps _
    exact .pure ⟨hname.2.isIn, nofun⟩

theorem arrowType_reports : Reports text long
    (fun a => (∀ t ∈ a.arguments, t.IsRead text sig) ∧ a.result.IsRead text sig)
    (arrowType sig) := by
  apply typeSpec_reports.bind
  intro first hfirst
  have hnext : Reports text long (TypeSpec.IsRead text sig) (do
      let _ ← TokenReader.advance
      typeSpec sig) :=
    Reports.advance.bind fun _ _ => typeSpec_reports
  apply hnext.manyWhile.bind
  intro more hmore
  exact .pure (forall_ofList hfirst hmore)

theorem binderGroup_reports :
    Reports text long (fun es => ∀ b ∈ es, b.type.IsRead text sig) (binderGroup sig) := by
  apply Reports.advance.bind
  intro opening _
  apply Reports.expect.bind
  intro first _
  apply Reports.words.bind
  intro more _
  apply Reports.expect.bind
  intro _ _
  apply typeSpec_reports.bind
  intro type htype
  apply Reports.expect.bind
  intro _ _
  have hentries (bound : Bool) :
      ∀ b ∈ (first :: more).map fun t => (⟨t.text, bound, type⟩ : BinderEntry),
        b.type.IsRead text sig := by
    intro b hb
    obtain ⟨t, _, rfl⟩ := List.mem_map.mp hb
    exact htype
  dsimp only
  split
  · split
    · exact Reports.fail htype.place nofun
    · exact .pure (hentries _)
  · split
    · exact Reports.fail htype.place nofun
    · exact .pure (hentries _)

theorem binderEntries_reports :
    Reports text long (fun es => ∀ b ∈ es, b.type.IsRead text sig) (binderEntries sig) := by
  apply binderGroup_reports.manyWhile.bind
  intro groups hgroups
  apply Ends.pure
  intro b hb
  obtain ⟨group, hgroup, hb⟩ := List.mem_flatten.mp hb
  exact hgroups group hgroup b hb

theorem sortOf_reports (cause : ParseCause) (hcause : ∀ n, cause ≠ .precTooLong n) {t : TypeSpec}
    (ht : t.IsRead text sig) : Reports text long (fun _ => True) (sortOf cause t) := by
  unfold sortOf
  split
  · exact Reports.fail ht.place hcause
  · exact .pure trivial

theorem sortedBinders_reports {es : List BinderEntry} (hes : ∀ b ∈ es, b.type.IsRead text sig) :
    Reports text long (fun _ => True) (sortedBinders es) := by
  induction es with
  | nil => exact .pure trivial
  | cons e es ih =>
    obtain ⟨he, hes⟩ := List.forall_mem_cons.mp hes
    apply (sortOf_reports .termBinderMath nofun he).bind
    intro _ _
    apply (ih hes).bind
    intro _ _
    exact .pure trivial

theorem arrowBinders_reports {ts : List TypeSpec} (hts : ∀ t ∈ ts, t.IsRead text sig) (n : Nat) :
    Reports text long (fun _ => True) (arrowBinders n ts) := by
  induction ts generalizing n with
  | nil => exact .pure trivial
  | cons t ts ih =>
    obtain ⟨ht, hts⟩ := List.forall_mem_cons.mp hts
    apply (sortOf_reports .termTypeMath nofun ht).bind
    intro _ _
    apply (ih hts (n + 1)).bind
    intro _ _
    exact .pure trivial

theorem modifierRun_reports (n : Nat) (m : SortModifiers) :
    Reports text long (fun _ => True) (modifierRun n m) := by
  induction n generalizing m with
  | zero => exact .pure trivial
  | succ n ih =>
    apply Reports.peek.bind
    intro t ht
    split
    · exact .pure trivial
    · apply Reports.advance.bind
      intro _ _
      split
      · exact Reports.fail ht.isIn nofun
      · exact ih _

theorem sortStatement_reports : Reports text long (IsRead sig) (sortStatement sig) := by
  apply (modifierRun_reports _ _).bind
  intro _ _
  apply Reports.expect.bind
  intro _ _
  apply Reports.expect.bind
  intro name hname
  apply Reports.expect.bind
  intro _ _
  split
  · exact Reports.fail hname.2.isIn nofun
  · exact .pure nofun

theorem newTerm_reports {name : Token} (hname : name.StandsIn text) {decl : TermDecl}
    (hbody : ∀ e ∈ decl.formulas, e.IsRead sig) :
    Reports text long (IsRead sig) (newTerm sig name decl) := by
  unfold newTerm
  split
  · exact Reports.fail hname.isIn nofun
  · exact .pure hbody

theorem termStatement_reports : Reports text long (IsRead sig) (termStatement sig) := by
  apply Reports.advance.bind
  intro _ _
  apply Reports.expect.bind
  intro name hname
  apply binderEntries_reports.bind
  intro es hes
  apply (sortedBinders_reports hes).bind
  intro binders _
  apply Reports.expect.bind
  intro _ _
  apply arrowType_reports.bind
  intro arrow harrow
  apply (arrowBinders_reports harrow.1 1).bind
  intro arguments _
  apply (sortOf_reports .termTypeMath nofun harrow.2).bind
  intro result _
  apply Reports.expect.bind
  intro _ _
  exact newTerm_reports hname.2 nofun

theorem definitionBody_reports :
    Reports text long (fun body => ∀ e ∈ body.toList, e.IsRead sig) (definitionBody sig) := by
  apply Reports.peek.bind
  intro t _
  split
  · apply Reports.advance.bind
    intro _ _
    apply Reports.expect.bind
    intro math hmath
    apply (formula_reports hmath.2 (of_decide_eq_true hmath.1)).bind
    intro body hbody
    exact .pure (List.forall_mem_singleton.mpr hbody)
  · exact .pure nofun

theorem definitionStatement_reports : Reports text long (IsRead sig) (definitionStatement sig) := by
  apply Reports.advance.bind
  intro _ _
  apply Reports.expect.bind
  intro name hname
  apply binderEntries_reports.bind
  intro es hes
  apply (sortedBinders_reports hes).bind
  intro binders _
  apply Reports.expect.bind
  intro _ _
  apply typeSpec_reports.bind
  intro type htype
  apply (sortOf_reports .definitionTypeMath nofun htype).bind
  intro result _
  apply definitionBody_reports.bind
  intro body hbody
  apply Reports.expect.bind
  intro _ _
  exact newTerm_reports hname.2 hbody

theorem entryHypotheses_isRead {es : List BinderEntry} (hes : ∀ b ∈ es, b.type.IsRead text sig) :
    ∀ h ∈ entryHypotheses es, h.formula.IsRead sig := by
  intro h hh
  obtain ⟨b, hb, hsome⟩ := List.mem_filterMap.mp hh
  split at hsome
  · cases hsome
  · rename_i e hcontent
    cases hsome
    exact (hes b hb).formula e hcontent

theorem statementOf_reports {kind : AssertionKind} {label : String} {t : TypeSpec}
    (ht : t.IsRead text sig) :
    Reports text long (Expr.IsRead sig) (statementOf kind label t) := by
  unfold statementOf
  split
  · rename_i e hcontent
    exact .pure (ht.formula e hcontent)
  · exact Reports.fail ht.place nofun

theorem arrowHypotheses_reports {kind : AssertionKind} {label : String} {ts : List TypeSpec}
    (hts : ∀ t ∈ ts, t.IsRead text sig) :
    Reports text long (fun hs => ∀ h ∈ hs, h.formula.IsRead sig)
      (arrowHypotheses kind label ts) := by
  induction ts with
  | nil => exact .pure nofun
  | cons t ts ih =>
    obtain ⟨ht, hts⟩ := List.forall_mem_cons.mp hts
    apply (statementOf_reports ht).bind
    intro e he
    apply (ih hts).bind
    intro hs hhs
    exact .pure (List.forall_mem_cons.mpr ⟨he, hhs⟩)

theorem assertionStatement_reports {kind : AssertionKind} :
    Reports text long (IsRead sig) (assertionStatement sig kind) := by
  apply Reports.advance.bind
  intro _ _
  apply Reports.expect.bind
  intro label _
  apply binderEntries_reports.bind
  intro es hes
  apply Reports.expect.bind
  intro _ _
  apply arrowType_reports.bind
  intro arrow harrow
  apply (arrowHypotheses_reports harrow.1).bind
  intro arrows harrows
  apply (statementOf_reports harrow.2).bind
  intro conclusion hconclusion
  apply Reports.expect.bind
  intro _ _
  apply Ends.pure
  have hhypotheses : ∀ h ∈ entryHypotheses es ++ arrows, h.formula.IsRead sig :=
    List.forall_mem_append.mpr ⟨entryHypotheses_isRead hes, harrows⟩
  have hpremises : ∀ e ∈ (entryHypotheses es ++ arrows).map Hypothesis.formula, e.IsRead sig :=
    List.forall_mem_map.mpr hhypotheses
  have hresult : ∀ e ∈ [conclusion], e.IsRead sig := List.forall_mem_singleton.mpr hconclusion
  exact List.forall_mem_append.mpr ⟨hpremises, hresult⟩

/-- The text has a run of as many digits as the number says, and they are too many. -/
def HasDigits (text : List Char) (n : Nat) : Prop :=
  Text.maxDigits < n ∧ ∃ digits, digits <:+: text ∧ digits.length = n ∧ digits.all isDigit = true

theorem decimalOf_reports {t : Token} (ht : t.StandsIn text) (hnumber : t.kind = .number) :
    Reports text (HasDigits text) (fun _ => True) (decimalOf t) := by
  unfold decimalOf
  dsimp only
  split
  · rename_i hlong
    intro s _
    refine ⟨.inl ht.isIn, fun n hn => ?_⟩
    cases hn
    refine ⟨hlong, t.text.toList, ht.digits_infix hnumber, ?_, ht.digits hnumber⟩
    rw [List.length_map]
  · exact .pure trivial

theorem precedence_reports : Reports text (HasDigits text) (fun _ => True) precedence := by
  apply Reports.advance.bind
  intro t ht
  split
  · rename_i hnumber
    apply (decimalOf_reports ht hnumber).bind
    intro _ _
    exact .pure trivial
  · split
    · exact .pure trivial
    · exact Reports.fail ht.isIn nofun

theorem levelOf_reports {p : Position} (hp : p.IsIn text) (written : Option Nat) :
    Reports text long (fun _ => True) (levelOf p written) := by
  unfold levelOf
  split
  · exact .pure trivial
  · split
    · exact Reports.fail hp nofun
    · exact .pure trivial

theorem notationStatement_reports {fixity : Fixity} :
    Reports text (HasDigits text) (IsRead sig) (notationStatement sig fixity) := by
  apply Reports.advance.bind
  intro _ _
  apply Reports.expect.bind
  intro term _
  apply Reports.expect.bind
  intro _ _
  apply Reports.expect.bind
  intro math hmath
  dsimp only
  split
  · exact Reports.fail hmath.2.isIn nofun
  apply Reports.expect.bind
  intro _ _
  apply Reports.peek.bind
  intro level hlevel
  apply precedence_reports.bind
  intro written _
  apply Reports.expect.bind
  intro _ _
  split
  · exact Reports.fail hmath.2.isIn nofun
  apply (levelOf_reports hlevel.isIn written).bind
  intro prec _
  exact .pure nofun

theorem delimiterStatement_reports : Reports text long (IsRead sig) delimiterStatement := by
  apply Reports.advance.bind
  intro _ _
  apply Reports.expect.bind
  intro left _
  apply Reports.peek.bind
  intro t _
  have hrest (right : Token) : Reports text long (IsRead sig) (do
      let _ ← expectMark ";"
      pure (.delimiters
        { left := Delimiters.charsOf left.text, right := Delimiters.charsOf right.text })) := by
    apply Reports.expect.bind
    intro _ _
    exact .pure nofun
  split
  · apply Reports.expect.bind
    intro right _
    exact hrest right
  · exact hrest left

/-- One statement, with the signature of what is declared before it. -/
theorem statement_reports (sig : Signature) :
    Reports text (HasDigits text) (IsRead sig) (statement sig) := by
  apply Reports.peek.bind
  intro t ht
  split
  · exact Reports.fail ht.isIn nofun
  split
  · exact sortStatement_reports
  split
  · exact termStatement_reports
  split
  · exact definitionStatement_reports
  split
  · exact delimiterStatement_reports
  split
  · exact assertionStatement_reports
  · exact notationStatement_reports
  · split
    · exact Reports.fail ht.isIn nofun
    · exact Reports.fail ht.isIn nofun

end Declaration

namespace ProofTerm

mutual

/-- The expressions among the items. -/
def formulas : ProofTerm → List Expr
  | ref _ _ => []
  | app _ items _ => formulasAll items
  | expr e => [e]
  | hole => []

def formulasAll : List ProofTerm → List Expr
  | [] => []
  | p :: ps => p.formulas ++ formulasAll ps

end

theorem mem_formulasAll {e : Expr} {ps : List ProofTerm} :
    e ∈ formulasAll ps ↔ ∃ p ∈ ps, e ∈ p.formulas := by
  induction ps with
  | nil => simp [formulasAll]
  | cons p ps ih => simp [formulasAll, ih]

/-- The expressions of the proof are put together from what the signature knows. -/
def IsRead (sig : Signature) (p : ProofTerm) : Prop := ∀ e ∈ p.formulas, e.IsRead sig

variable {text : List Char} {long : Nat → Prop} {sig : Signature} {limit : Int}

theorem item_reports {term : TokenReader ProofTerm} (h : Reports text long (IsRead sig) term) :
    Reports text long (IsRead sig) (item sig term) := by
  apply Reports.peek.bind
  intro t ht
  split
  · rename_i hmath
    apply Reports.advance.bind
    intro _ _ s hs
    have hends := Reports.math long ht hmath sig
    cases hread : parseMath t.text sig (t.position.right 1) with
    | ok e =>
      rw [hread] at hends
      exact ⟨List.forall_mem_singleton.mpr hends, hs⟩
    | error err =>
      rw [hread] at hends
      exact hends
  split
  · apply Reports.advance.bind
    intro _ _
    exact .pure nofun
  split
  · exact Reports.fail ht.isIn nofun
  · exact h

theorem read_reports (n depth : Nat) : Reports text long (IsRead sig) (read sig limit n depth) := by
  induction n generalizing depth with
  | zero =>
    apply Reports.peek.bind
    intro t ht
    exact Reports.fail ht.isIn nofun
  | succ n ih =>
    apply Reports.peek.bind
    intro t ht
    split
    · exact Reports.fail ht.isIn nofun
    split
    · apply Reports.advance.bind
      intro _ _
      split
      · exact Reports.fail ht.isIn nofun
      · exact .pure nofun
    · apply Reports.expect.bind
      intro _ _
      apply Reports.expect.bind
      intro name _
      apply (item_reports (ih (depth + 1))).manyWhile.bind
      intro items hitems
      apply Reports.expect.bind
      intro _ _
      apply Ends.pure
      intro e he
      obtain ⟨p, hp, he⟩ := mem_formulasAll.mp he
      exact hitems p hp e he

end ProofTerm

namespace ProofFile

/-- Labels are texts, and the expressions of all proofs are put together from what the signature
knows. -/
def IsRead (sig : Signature) (proofs : ProofFile) : Prop :=
  ∀ label decl, proofs.get? label = some decl → label = decl.label ∧ decl.proof.IsRead sig

variable {text : List Char} {long : Nat → Prop} {sig : Signature} {limit : Int}

theorem statement_reports {proofs : ProofFile} (hproofs : IsRead sig proofs) :
    Reports text long (IsRead sig) (statement sig limit proofs) := by
  apply Reports.expect.bind
  intro _ _
  apply Reports.expect.bind
  intro label hlabel
  apply Reports.expect.bind
  intro _ _
  apply (ProofTerm.read_reports _ _).bind
  intro proof hproof
  apply Reports.expect.bind
  intro _ _
  split
  · exact Reports.fail hlabel.2.isIn nofun
  · exact .pure (Draft.forall_insert ⟨rfl, hproof⟩ hproofs)

theorem read_reports {n : Nat} {proofs : ProofFile} (hproofs : IsRead sig proofs) {s : TokenStream}
    (hs : s.StandIn text) :
    match read sig limit n proofs s with
    | .ok proofs => IsRead sig proofs
    | .error e => e.IsFaithful text long := by
  induction n generalizing proofs s with
  | zero => exact hproofs
  | succ n ih =>
    rw [read]
    by_cases hend : s.isAtEnd = true
    · rw [if_pos hend]
      exact hproofs
    · rw [if_neg hend]
      have hstatement : Reports text long (IsRead sig) (statement sig limit proofs) :=
        statement_reports hproofs
      have hstep := hstatement s hs
      cases hread : statement sig limit proofs s with
      | error e s' =>
        rw [hread] at hstep
        exact hstep
      | ok proofs' s' =>
        rw [hread] at hstep
        exact ih hstep.1 hstep.2

/-- A file of proofs is read with the signature, or given up at a place of it; no number is too long,
since there are none. -/
theorem parse_reports (text : String) (sig : Signature) (limit : Int) :
    match parse text sig limit with
    | .ok proofs => IsRead sig proofs
    | .error e => e.IsFaithful text.toList fun _ => False := by
  have htokens := tokenize_standIn text fun _ => False
  unfold parse
  cases hs : tokenize text with
  | error e =>
    rw [hs] at htokens
    exact htokens
  | ok s =>
    rw [hs] at htokens
    have hempty : IsRead sig .empty := fun label decl h => nomatch h
    exact read_reports hempty htokens

end ProofFile

namespace Draft

/-- Each of the declarations is read with the signature of what is declared before it. -/
def ReadsInOrder (d : Draft) : List Declaration → Prop
  | [] => True
  | declaration :: rest => declaration.IsRead d.signature ∧ (d.add declaration).ReadsInOrder rest

theorem ReadsInOrder.of_append {d : Draft} {before after : List Declaration}
    {declaration : Declaration} (h : d.ReadsInOrder (before ++ declaration :: after)) :
    declaration.IsRead (before.foldl Draft.add d).signature := by
  induction before generalizing d with
  | nil => exact h.1
  | cons first before ih => exact ih h.2

end Draft

/-- A run of statements, one added after the other. -/
theorem TheoryParser.run_reports {text : List Char} {n : Nat} {p : TheoryParser}
    (hp : p.tokens.StandIn text) :
    match (run n p).2 with
    | .ok d => p.draft.ReadsInOrder (run n p).1 ∧ d = (run n p).1.foldl Draft.add p.draft
    | .error e => e.IsFaithful text (Declaration.HasDigits text) := by
  induction n generalizing p with
  | zero => exact ⟨trivial, rfl⟩
  | succ n ih =>
    rw [run]
    by_cases hend : p.tokens.isAtEnd = true
    · rw [if_pos hend]
      exact ⟨trivial, rfl⟩
    · rw [if_neg hend]
      have hreports : Reports text _ _ (Declaration.statement p.draft.signature) :=
        Declaration.statement_reports _
      cases hstatement : statement p with
      | error e p₁ => exact hreports.of_error hp (statement_eq_error_iff.mp hstatement).1
      | ok declaration p₁ =>
        obtain ⟨hread, hdraft⟩ := statement_eq_ok_iff.mp hstatement
        obtain ⟨hformulas, hp₁⟩ := hreports.of_ok hp hread
        have hrest := ih hp₁
        dsimp only
        cases hresult : (run n p₁).2 with
        | error e =>
          rw [hresult] at hrest
          exact hrest
        | ok d =>
          rw [hresult, hdraft] at hrest
          exact ⟨⟨hformulas, hrest.1⟩, hrest.2⟩

/-- A theory is what its declarations add up to, each read with those before it; or its text is given
up at a place of it. -/
theorem Theory.parse_reports (text name : String) :
    match (parse text name).2 with
    | .ok t => Draft.empty.ReadsInOrder (parse text name).1 ∧
        t = ((parse text name).1.foldl Draft.add .empty).toTheory name
    | .error e => e.IsFaithful text.toList (Declaration.HasDigits text.toList) := by
  have htokens := tokenize_standIn text (Declaration.HasDigits text.toList)
  unfold parse
  cases hs : tokenize text with
  | error e =>
    rw [hs] at htokens
    exact htokens
  | ok s =>
    rw [hs] at htokens
    have hrun := TheoryParser.run_reports (n := s.pending.length) (p := ⟨.empty, s⟩) htokens
    dsimp only
    cases hresult : (TheoryParser.run s.pending.length ⟨.empty, s⟩).2 with
    | error e =>
      rw [hresult] at hrun
      exact hrun
    | ok d =>
      rw [hresult] at hrun
      exact ⟨hrun.1, by rw [hrun.2]⟩

/-- An error in a text is at a place of it, unless a math string of several lines breaks off. -/
theorem errors_are_placed (text : String) :
    (∀ name e, (Theory.parse text name).2 = .error e → e.IsPlaced text.toList) ∧
      ∀ sig limit e, ProofFile.parse text sig limit = .error e → e.IsPlaced text.toList := by
  constructor
  · intro name e he
    have hends := Theory.parse_reports text name
    rw [he] at hends
    exact hends.placed
  · intro sig limit e he
    have hends := ProofFile.parse_reports text sig limit
    rw [he] at hends
    exact hends.placed

namespace Formulas

/-- A formula with a token too many, in its second line. -/
def leftover : String := "axiom a: $ x\n  y $;\n"

theorem leftover_is_placed :
    (Theory.parse leftover "formulas").2 = .error ⟨⟨2, 3⟩, .leftoverToken "y"⟩ ∧
      ParseError.IsPlaced leftover.toList ⟨⟨2, 3⟩, .leftoverToken "y"⟩ := by
  have herror : (Theory.parse leftover "formulas").2 = .error ⟨⟨2, 3⟩, .leftoverToken "y"⟩ :=
    eq_error_of_errorOf? (by decide +kernel)
  exact ⟨herror, (errors_are_placed leftover).1 _ _ herror⟩

/-- A formula that breaks off in its second line. -/
def brokenOff : String := "axiom a: $ ( \n $;\n"

/-- The end of the formula is looked for in the first line, which has thirteen characters. -/
theorem broken_off_outside :
    (Theory.parse brokenOff "formulas").2 = .error ⟨⟨1, 16⟩, .unexpectedEnd⟩ ∧
      ¬ Position.IsIn brokenOff.toList ⟨1, 16⟩ := by
  refine ⟨eq_error_of_errorOf? (by decide +kernel), ?_⟩
  intro ⟨n, line, hline, hrow, _, hcolumn⟩
  obtain rfl : n = 0 := by
    have : (1 : Int) = n + 1 := hrow
    omega
  have hfirst : (brokenOff.toList.splitOn '\n')[0]? = some "axiom a: $ ( ".toList := by decide
  obtain rfl := Option.some.inj (hfirst.symm.trans hline)
  exact absurd hcolumn (by decide)

end Formulas

end Deductive
