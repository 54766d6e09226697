import Deductive.Proofs.Endings
import Deductive.Proofs.Lexing

/-!
Places of a text: the lines that it has when it is split at line feeds, and the columns up to the
end of each. The tokens of a text stand in it, each at its place, and where the text cannot be cut
into tokens the error is at a place of it.
-/
namespace Deductive

namespace Position

/-- The text has the line, and the column is one of the line or the one after its end. -/
def IsIn (text : List Char) (p : Position) : Prop :=
  ∃ (n : Nat) (line : List Char), (text.splitOn '\n')[n]? = some line ∧ p.line = n + 1 ∧
    1 ≤ p.column ∧ p.column ≤ line.length + 1

/-- Some characters further, counted from a place in the first line of the text that is left. -/
theorem advance_bounds (before after : List Char) {p : Position} (hp : 1 ≤ p.column) :
    ∃ (n : Nat) (line : List Char), ((before ++ after).splitOn '\n')[n]? = some line ∧
      (p.advance before).line = p.line + n ∧ 1 ≤ (p.advance before).column ∧
      (p.advance before).column ≤ line.length + if n = 0 then p.column else 1 := by
  induction before generalizing p with
  | nil =>
    obtain ⟨line, lines, hlines⟩ := List.exists_cons_of_ne_nil (List.splitOn_ne_nil '\n' after)
    refine ⟨0, line, ?_, ?_, hp, ?_⟩
    · rw [List.nil_append, hlines, List.getElem?_cons_zero]
    · simp [advance]
    · simp only [advance, List.foldl_nil, if_true]
      omega
  | cons c before ih =>
    have hsplit : (c :: before ++ after).splitOn '\n' = if c = '\n'
        then [] :: (before ++ after).splitOn '\n'
        else ((before ++ after).splitOn '\n').modifyHead (List.cons c) := by
      simp [List.splitOn, List.splitOnP_cons_eq_if_modifyHead]
    have hadvance : p.advance (c :: before) = (p.next c).advance before := rfl
    rw [hsplit, hadvance]
    by_cases hc : c = '\n'
    · have hnext : p.next c = ⟨p.line + 1, 1⟩ := by simp [next, hc]
      obtain ⟨n, line, hline, hrow, hlow, hhigh⟩ := ih (p := p.next c) (by simp [hnext])
      rw [if_pos hc]
      refine ⟨n + 1, line, hline, ?_, hlow, ?_⟩
      · rw [hrow, hnext]
        push_cast
        omega
      · simpa [hnext] using hhigh
    · have hnext : p.next c = ⟨p.line, p.column + 1⟩ := by simp [next, hc]
      obtain ⟨n, line, hline, hrow, hlow, hhigh⟩ := ih (p := p.next c) (by simp [hnext]; omega)
      rw [if_neg hc]
      rw [hnext] at hrow hhigh
      cases n with
      | zero =>
        refine ⟨0, c :: line, ?_, by rw [hnext, hrow], hlow, ?_⟩
        · simp [List.getElem?_modifyHead, hline]
        · rw [hnext]
          simp only [if_true, List.length_cons] at hhigh ⊢
          push_cast
          omega
      | succ n =>
        refine ⟨n + 1, line, ?_, by rw [hnext, hrow], hlow, ?_⟩
        · simpa [List.getElem?_modifyHead] using hline
        · rw [hnext]
          simpa using hhigh

/-- Counting from the start to some place of a text leads to one of its lines. -/
theorem isIn_advance (before after : List Char) : (start.advance before).IsIn (before ++ after) := by
  obtain ⟨n, line, hline, hrow, hlow, hhigh⟩ :=
    advance_bounds before after (p := start) (Int.le_refl 1)
  refine ⟨n, line, hline, ?_, hlow, ?_⟩
  · simpa [start, Int.add_comm] using hrow
  · simpa [start] using hhigh

/-- In one line the columns are counted by the characters. -/
theorem advance_eq_right (p : Position) {cs : List Char} (h : '\n' ∉ cs) :
    p.advance cs = p.right cs.length := by
  induction cs generalizing p with
  | nil => simp [advance, right]
  | cons c cs ih =>
    have hc : c ≠ '\n' := fun he => h (he ▸ List.mem_cons_self)
    have hcs : '\n' ∉ cs := fun hmem => h (List.mem_cons_of_mem c hmem)
    have hnext : p.next c = p.right 1 := by simp [next, right, hc]
    have hadvance : p.advance (c :: cs) = (p.next c).advance cs := rfl
    rw [hadvance, ih (p.next c) hcs, hnext]
    simp only [right, List.length_cons]
    congr 1
    push_cast
    omega

/-- As far to the right of a dollar sign as there are characters up to the next one, where these are
not all in one line. -/
def IsPastLine (text : List Char) (p : Position) : Prop :=
  ∃ before math after, text = before ++ '$' :: (math ++ '$' :: after) ∧ '\n' ∈ math ∧
    p = ((start.advance before).right 1).right math.length

end Position

/-- The characters that a token is cut off as. -/
def Token.source (t : Token) : List Char :=
  match t.kind with
  | .math => '$' :: (t.text.toList ++ ['$'])
  | _ => t.text.toList

/-- The token stands at its place in the text, and a number consists of digits. -/
structure Token.StandsIn (text : List Char) (t : Token) : Prop where
  place : ∃ before after, text = before ++ (t.source ++ after) ∧ t.position = .advance .start before
  digits : t.kind = .number → t.text.toList.all isDigit = true

/-- All tokens that are left stand in the text, the end of it included. -/
def TokenStream.StandIn (text : List Char) (s : TokenStream) : Prop :=
  ∀ t ∈ s.toList, t.StandsIn text

namespace Token

variable {text : List Char} {t : Token}

theorem StandsIn.isIn (h : t.StandsIn text) : t.position.IsIn text := by
  obtain ⟨before, after, rfl, hposition⟩ := h.place
  rw [hposition]
  exact Position.isIn_advance before _

/-- Some characters into a math string. -/
theorem StandsIn.isIn_math (h : t.StandsIn text) (hmath : t.kind = .math) {front : List Char}
    (hfront : front <+: t.text.toList) : ((t.position.right 1).advance front).IsIn text := by
  obtain ⟨before, after, rfl, hposition⟩ := h.place
  obtain ⟨back, hback⟩ := hfront
  have hplace : (t.position.right 1).advance front =
      Position.start.advance (before ++ '$' :: front) := by
    rw [Position.advance_append, hposition]
    rfl
  have htext : before ++ (t.source ++ after) =
      (before ++ '$' :: front) ++ (back ++ '$' :: after) := by
    simp [source, hmath, ← hback]
  rw [hplace, htext]
  exact Position.isIn_advance _ _

theorem StandsIn.digits_infix (h : t.StandsIn text) (hnumber : t.kind = .number) :
    t.text.toList <:+: text := by
  obtain ⟨before, after, htext, _⟩ := h.place
  refine ⟨before, after, ?_⟩
  rw [htext, List.append_assoc]
  simp [source, hnumber]

end Token

namespace TokenStream

variable {text : List Char} {s : TokenStream}

theorem StandIn.peek (h : s.StandIn text) : s.peek.StandsIn text := by
  apply h
  unfold TokenStream.peek toList
  cases s.pending with
  | nil => exact List.mem_singleton.mpr rfl
  | cons t ts => exact List.mem_cons_self

/-- Tokens that are used up do not count any more. -/
theorem StandIn.sublist (h : s.StandIn text) {ts : List Token} (hts : ts.Sublist s.pending) :
    StandIn text { s with pending := ts } := by
  intro t ht
  apply h
  exact (hts.append_right [s.finish]).mem ht

theorem StandIn.pending (h : s.StandIn text) : ∀ t ∈ s.pending, t.StandsIn text :=
  fun t ht => h t (List.mem_append_left _ ht)

end TokenStream

/-- A token that is cut off has the characters of its piece. -/
theorem piece?_source {c : Char} {cs : List Char} {piece : Piece} {kind : TokenKind} {text : String}
    (h : piece? c cs = some piece) (htoken : piece.token = some (kind, text)) (p : Position) :
    Token.source ⟨kind, text, p⟩ = piece.chars ∧
      (kind = .number → text.toList.all isDigit = true) := by
  unfold piece? at h
  split at h
  · cases h
    cases htoken
  split at h
  · cases h
    cases htoken
  split at h
  · rename_i hdollar
    dsimp only at h
    split at h
    · cases h
      cases htoken
      simp [Token.source, hdollar]
    · cases h
  split at h
  · cases h
    cases htoken
    simp [Token.source]
  split at h
  · rename_i hdigit
    cases h
    cases htoken
    simp [Token.source, hdigit]
  split at h
  · cases h
    cases htoken
    simp [Token.source]
  · cases h

/-- The error is at a place of the text, but where a math string of several lines breaks off. -/
def ParseError.IsPlaced (text : List Char) (e : ParseError) : Prop :=
  e.position.IsIn text ∨ e.cause = .unexpectedEnd ∧ e.position.IsPastLine text

/-- What is known of an error in a text; `long` says of which numbers there are too many digits. -/
structure ParseError.IsFaithful (text : List Char) (long : Nat → Prop) (e : ParseError) : Prop where
  placed : e.IsPlaced text
  digits : ∀ n, e.cause = .precTooLong n → long n

theorem ParseError.IsFaithful.of_isIn {text : List Char} {long : Nat → Prop} {p : Position}
    {cause : ParseCause} (hp : p.IsIn text) (hcause : ∀ n, cause ≠ .precTooLong n) :
    IsFaithful text long ⟨p, cause⟩ :=
  ⟨.inl hp, fun n hn => absurd hn (hcause n)⟩

theorem cutCause_ne (c : Char) (n : Nat) : cutCause c ≠ .precTooLong n := by
  unfold cutCause
  split
  · nofun
  · nofun

/-- What is left after a piece begins where the piece ends. -/
theorem piece?_rest {text before : List Char} {p : Position} {c : Char} {cs : List Char}
    {piece : Piece} (h : piece? c cs = some piece) (hp : p = .advance .start before)
    (htext : text = before ++ c :: cs) :
    p.advance piece.chars = .advance .start (before ++ piece.chars) ∧
      text = (before ++ piece.chars) ++ (c :: cs).drop piece.chars.length := by
  obtain ⟨rest, hrest⟩ := piece?_chars h
  rw [hp, Position.advance_append, htext, hrest, List.drop_left, List.append_assoc]
  exact ⟨rfl, rfl⟩

/-- The tokens of what is left of a text stand in the text, or it is given up where no token can be
cut off. -/
theorem lex_standIn {long : Nat → Prop} {text before cs : List Char} {p : Position}
    (hp : p = .advance .start before) (htext : text = before ++ cs) :
    match lex p cs with
    | .ok (ts, stop) => TokenStream.StandIn text ⟨ts, stop⟩
    | .error e => e.IsFaithful text long := by
  fun_induction lex p cs generalizing before with
  | case1 p =>
    intro t ht
    obtain rfl := List.mem_singleton.mp ht
    exact ⟨⟨before, [], htext, hp⟩, nofun⟩
  | case2 p c cs hnone =>
    rw [hp, htext]
    exact .of_isIn (Position.isIn_advance before _) (cutCause_ne c)
  | case3 p c cs piece hpiece _ e hlex ih =>
    obtain ⟨hp', htext'⟩ := piece?_rest hpiece hp htext
    have hrun := ih hp' htext'
    rwa [hlex] at hrun
  | case4 p c cs piece hpiece _ ts stop hlex htoken ih =>
    obtain ⟨hp', htext'⟩ := piece?_rest hpiece hp htext
    have hrun := ih hp' htext'
    rwa [hlex] at hrun
  | case5 p c cs piece hpiece _ ts stop hlex kind s htoken ih =>
    obtain ⟨hp', htext'⟩ := piece?_rest hpiece hp htext
    have hrun := ih hp' htext'
    rw [hlex] at hrun
    obtain ⟨hsource, hdigits⟩ := piece?_source hpiece htoken p
    have hstands : Token.StandsIn text ⟨kind, s, p⟩ := by
      refine ⟨⟨before, (c :: cs).drop piece.chars.length, ?_, hp⟩, hdigits⟩
      rw [hsource, ← List.append_assoc]
      exact htext'
    exact List.forall_mem_cons.mpr ⟨hstands, hrun⟩

theorem tokenize_standIn (text : String) (long : Nat → Prop) :
    match tokenize text with
    | .ok s => s.StandIn text.toList
    | .error e => e.IsFaithful text.toList long := by
  have hlex : match lex .start text.toList with
      | .ok (ts, stop) => TokenStream.StandIn text.toList ⟨ts, stop⟩
      | .error e => e.IsFaithful text.toList long :=
    lex_standIn rfl (List.nil_append _).symm
  unfold tokenize
  cases hrun : lex .start text.toList with
  | error e =>
    rw [hrun] at hlex
    exact hlex
  | ok r =>
    rw [hrun] at hlex
    exact hlex

end Deductive
