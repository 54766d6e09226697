import Deductive.Proofs.Joining
import Deductive.Theory.Writer
import Deductive.Token

/-!
What a text is cut into, without the places of the tokens, and texts that are put together from
others that spell some tokens.
-/
namespace Deductive

/-- A token without its place. -/
abbrev Lexeme := TokenKind × String

def Token.lexeme (t : Token) : Lexeme := (t.kind, t.text)

/-- A piece is cut off the front. -/
theorem piece?_chars {c : Char} {cs : List Char} {piece : Piece} (h : piece? c cs = some piece) :
    ∃ rest, c :: cs = piece.chars ++ rest := by
  have hwhile (test : Char → Bool) : ∃ rest, c :: cs = c :: cs.takeWhile test ++ rest :=
    ⟨cs.dropWhile test, by rw [List.cons_append, List.takeWhile_append_dropWhile]⟩
  unfold piece? at h
  split at h
  · cases h
    exact hwhile _
  split at h
  · cases h
    exact hwhile _
  split at h
  · dsimp only at h
    split at h
    · rename_i hlength
      cases h
      have hrest : cs.dropWhile (· ≠ '$') ≠ [] := by
        intro hnil
        have := congrArg List.length (List.takeWhile_append_dropWhile (p := (· ≠ '$')) (l := cs))
        rw [List.length_append, hnil] at this
        exact absurd this (Nat.ne_of_lt hlength)
      obtain ⟨d, rest, hcons⟩ := List.exists_cons_of_ne_nil hrest
      have hd := List.head?_dropWhile_not (· ≠ '$') cs
      rw [hcons] at hd
      obtain rfl : d = '$' := by simpa using hd
      refine ⟨rest, ?_⟩
      rw [List.append_assoc, List.cons_append, List.singleton_append, ← hcons,
        List.takeWhile_append_dropWhile]
    · cases h
  split at h
  · cases h
    exact hwhile _
  split at h
  · cases h
    exact hwhile _
  split at h
  · cases h
    exact ⟨cs, rfl⟩
  · cases h

/-- The text is cut into the lexemes. -/
inductive Lexes : List Char → List Lexeme → Prop
  | done : Lexes [] []
  | cut {c : Char} {cs rest : List Char} {piece : Piece} {ls : List Lexeme}
      (front : piece? c cs = some piece) (parts : c :: cs = piece.chars ++ rest)
      (others : Lexes rest ls) : Lexes (c :: cs) (piece.token.toList ++ ls)

/-- One piece after the other. -/
theorem lex_cons {c : Char} {cs : List Char} {piece : Piece} (h : piece? c cs = some piece)
    (p : Position) :
    lex p (c :: cs) = (lex (p.advance piece.chars) ((c :: cs).drop piece.chars.length)).map
      fun r => (piece.token.toList.map (fun l => ⟨l.1, l.2, p⟩) ++ r.1, r.2) := by
  rw [lex]
  split
  · rename_i hnone
    rw [h] at hnone
    cases hnone
  · rename_i piece' hsome
    obtain rfl := Option.some.inj (h.symm.trans hsome)
    cases lex (p.advance piece.chars) ((c :: cs).drop piece.chars.length) with
    | error e => rfl
    | ok r => cases htoken : piece.token <;> simp [Except.map]

theorem Lexes.lex {cs : List Char} {ls : List Lexeme} (h : Lexes cs ls) (p : Position) :
    ∃ ts stop, lex p cs = .ok (ts, stop) ∧ ts.map Token.lexeme = ls := by
  induction h generalizing p with
  | done => exact ⟨[], p, by rw [Deductive.lex], rfl⟩
  | @cut c cs rest piece ls front parts _ ih =>
    obtain ⟨ts, stop, hlex, hts⟩ := ih (p.advance piece.chars)
    rw [lex_cons front, parts, List.drop_left, hlex]
    exact ⟨_, stop, rfl, by cases piece.token <;> simp [hts, Token.lexeme]⟩

/-- What follows does not go on a word or a number. -/
def Stops (cs : List Char) : Prop := ∀ c ∈ cs.head?, isWordChar c = false

/-- A letter, and letters and digits after it. -/
def IsWord (s : String) : Prop :=
  ∃ c w, s.toList = c :: w ∧ isLetter c = true ∧ ∀ c ∈ w, isWordChar c = true

theorem IsWord.of_chars {s : String} {c : Char} {w : List Char} (hs : s.toList = c :: w)
    (hc : isLetter c = true) (hw : w.all isWordChar = true) : IsWord s :=
  ⟨c, w, hs, hc, List.all_eq_true.mp hw⟩

namespace Lexes

variable {c : Char} {cs rest : List Char} {s : String} {ls : List Lexeme}

theorem of_dropWhile (h : Lexes cs ls) : Lexes (cs.dropWhile isGapChar) ls := by
  cases h with
  | done => exact .done
  | @cut c cs rest piece ls front parts others =>
    by_cases hc : isGapChar c = true
    · rw [piece?, if_pos hc] at front
      obtain rfl := Option.some.inj front
      have hparts : cs = cs.takeWhile isGapChar ++ rest := List.cons.inj parts |>.2
      have hrest : rest = cs.dropWhile isGapChar :=
        List.append_cancel_left (hparts.symm.trans List.takeWhile_append_dropWhile.symm)
      rw [List.dropWhile_cons_of_pos hc, ← hrest]
      exact others
    · rw [List.dropWhile_cons_of_neg hc]
      exact .cut front parts others

theorem gap (h : Lexes cs ls) (hc : isGapChar c = true) : Lexes (c :: cs) ls := by
  have front : piece? c cs = some ⟨none, c :: cs.takeWhile isGapChar⟩ := by rw [piece?, if_pos hc]
  refine .cut front ?_ h.of_dropWhile
  rw [List.cons_append, List.takeWhile_append_dropWhile]

theorem comment (h : Lexes rest ls) (hcs : '\n' ∉ cs) (hrest : ∀ c ∈ rest.head?, c = '\n') :
    Lexes ('-' :: '-' :: (cs ++ rest)) ls := by
  have hline : ∀ c ∈ '-' :: cs, decide (c ≠ '\n') = true := by
    intro c hc
    rcases List.mem_cons.mp hc with rfl | hc
    · decide
    · exact decide_eq_true fun he => hcs (he ▸ hc)
  have hend : ∀ c ∈ rest.head?, decide (c ≠ '\n') = false := fun c hc => by simp [hrest c hc]
  have front : piece? '-' ('-' :: (cs ++ rest)) = some ⟨none, '-' :: '-' :: cs⟩ := by
    rw [piece?, if_neg (by decide), if_pos ⟨rfl, rfl⟩, ← List.cons_append,
      takeWhile_append_of_head hline hend]
  exact .cut front rfl h

theorem math (h : Lexes rest ls) (hcs : '$' ∉ cs) :
    Lexes ('$' :: (cs ++ '$' :: rest)) ((.math, String.ofList cs) :: ls) := by
  have hinner : ∀ c ∈ cs, decide (c ≠ '$') = true := fun c hc =>
    decide_eq_true fun he => hcs (he ▸ hc)
  have htake : (cs ++ '$' :: rest).takeWhile (· ≠ '$') = cs :=
    takeWhile_append_of_head hinner (by simp)
  have front : piece? '$' (cs ++ '$' :: rest) =
      some ⟨some (.math, String.ofList cs), '$' :: cs ++ ['$']⟩ := by
    rw [piece?, if_neg (by decide), if_neg (by simp), if_pos rfl]
    dsimp only
    rw [htake, if_pos (by simp)]
  exact .cut front (by simp) h

theorem isLetter_ne (hc : isLetter c = true) :
    isGapChar c = false ∧ c ≠ '-' ∧ c ≠ '$' := by
  refine ⟨Bool.eq_false_iff.mpr fun hgap => ?_, ?_, ?_⟩
  · simp only [isGapChar, Bool.or_eq_true, decide_eq_true_eq] at hgap
    rcases hgap with ((rfl | rfl) | rfl) | rfl <;> exact absurd hc (by decide)
  · rintro rfl
    exact absurd hc (by decide)
  · rintro rfl
    exact absurd hc (by decide)

theorem word (h : Lexes rest ls) (hs : IsWord s) (hrest : Stops rest) :
    Lexes (s.toList ++ rest) ((.word, s) :: ls) := by
  obtain ⟨c, w, hcw, hc, hw⟩ := hs
  obtain ⟨hgap, hminus, hdollar⟩ := isLetter_ne hc
  have front : piece? c (w ++ rest) = some ⟨some (.word, s), c :: w⟩ := by
    rw [piece?, if_neg (by simp [hgap]), if_neg (by simp [hminus]), if_neg hdollar, if_pos hc]
    dsimp only
    rw [takeWhile_append_of_head hw hrest, ← hcw, String.ofList_toList]
  rw [hcw]
  exact .cut front rfl h

theorem number (h : Lexes rest ls) (hs : s.toList ≠ []) (hdigits : ∀ c ∈ s.toList, isDigit c = true)
    (hrest : Stops rest) : Lexes (s.toList ++ rest) ((.number, s) :: ls) := by
  obtain ⟨c, w, hcw⟩ := List.exists_cons_of_ne_nil hs
  rw [hcw] at hdigits
  have hc := hdigits c List.mem_cons_self
  have hw : ∀ c ∈ w, isDigit c = true := fun c hc => hdigits c (List.mem_cons_of_mem _ hc)
  have hend : ∀ c ∈ rest.head?, isDigit c = false := by
    intro c hc
    have := hrest c hc
    rw [isWordChar, Bool.or_eq_false_iff] at this
    exact this.2
  have hother : isGapChar c = false ∧ c ≠ '-' ∧ c ≠ '$' ∧ isLetter c = false := by
    simp only [isDigit, Bool.and_eq_true, decide_eq_true_eq] at hc
    obtain ⟨hlow, hhigh⟩ := hc
    refine ⟨?_, ?_, ?_, ?_⟩
    · simp only [isGapChar, Bool.or_eq_false_iff, decide_eq_false_iff_not]
      refine ⟨⟨⟨?_, ?_⟩, ?_⟩, ?_⟩ <;> rintro rfl <;> exact absurd hlow (by decide)
    · rintro rfl
      exact absurd hlow (by decide)
    · rintro rfl
      exact absurd hlow (by decide)
    · refine Bool.eq_false_iff.mpr fun hletter => ?_
      simp only [isLetter, Bool.or_eq_true, Bool.and_eq_true, decide_eq_true_eq] at hletter
      rcases hletter with (⟨hA, _⟩ | ⟨ha, _⟩) | rfl
      · exact absurd (Char.le_trans hA hhigh) (by decide)
      · exact absurd (Char.le_trans ha hhigh) (by decide)
      · exact absurd hhigh (by decide)
  obtain ⟨hgap, hminus, hdollar, hletter⟩ := hother
  have front : piece? c (w ++ rest) = some ⟨some (.number, s), c :: w⟩ := by
    rw [piece?, if_neg (by simp [hgap]), if_neg (by simp [hminus]), if_neg hdollar,
      if_neg (by simp [hletter]), if_pos hc]
    dsimp only
    rw [takeWhile_append_of_head hw hend, ← hcw, String.ofList_toList]
  rw [hcw]
  exact .cut front rfl h

theorem mark (h : Lexes rest ls) (hc : isMarkChar c = true) :
    Lexes (c :: rest) ((.mark, String.singleton c) :: ls) := by
  have hmarks : c ∈ ['(', ')', '\x7b', '\x7d', ':', ';', '>', '='] :=
    List.contains_iff_mem.mp hc
  have hother : isGapChar c = false ∧ c ≠ '-' ∧ c ≠ '$' ∧ isLetter c = false ∧
      isDigit c = false := by
    simp only [List.mem_cons, List.not_mem_nil, or_false] at hmarks
    rcases hmarks with rfl | rfl | rfl | rfl | rfl | rfl | rfl | rfl <;> decide
  obtain ⟨hgap, hminus, hdollar, hletter, hdigit⟩ := hother
  have front : piece? c rest = some ⟨some (.mark, String.singleton c), [c]⟩ := by
    rw [piece?, if_neg (by simp [hgap]), if_neg (by simp [hminus]), if_neg hdollar,
      if_neg (by simp [hletter]), if_neg (by simp [hdigit]), if_pos hc]
  exact .cut front rfl h

end Lexes

/-- The text is cut into the lexemes, whatever follows it. -/
def Spells (s : String) (ls : List Lexeme) : Prop :=
  ∀ rest more, Lexes rest more → Lexes (s.toList ++ rest) (ls ++ more)

/-- The text is cut into the lexemes where nothing follows that goes on its last word. -/
def SpellsOpen (s : String) (ls : List Lexeme) : Prop :=
  ∀ rest more, Stops rest → Lexes rest more → Lexes (s.toList ++ rest) (ls ++ more)

/-- The text begins with something that ends a word. -/
def Parts (s : String) : Prop := ∃ c cs, s.toList = c :: cs ∧ isWordChar c = false

theorem Parts.stops {s : String} (h : Parts s) (rest : List Char) : Stops (s.toList ++ rest) := by
  obtain ⟨c, cs, hs, hc⟩ := h
  rw [hs]
  intro c' hc'
  cases hc'
  exact hc

theorem Parts.append {s : String} (h : Parts s) (t : String) : Parts (s ++ t) := by
  obtain ⟨c, cs, hs, hc⟩ := h
  exact ⟨c, cs ++ t.toList, by rw [String.toList_append, hs]; rfl, hc⟩

section

variable {s t : String} {ls ms : List Lexeme}

theorem Spells.lexes (h : Spells s ls) : Lexes s.toList ls := by
  simpa using h [] [] .done

theorem Spells.isOpen (h : Spells s ls) : SpellsOpen s ls := fun _ _ _ hmore => h _ _ hmore

theorem Spells.append (h : Spells s ls) (h' : Spells t ms) : Spells (s ++ t) (ls ++ ms) := by
  intro rest more hmore
  rw [String.toList_append, List.append_assoc, List.append_assoc]
  exact h _ _ (h' _ _ hmore)

theorem Spells.append_open (h : Spells s ls) (h' : SpellsOpen t ms) :
    SpellsOpen (s ++ t) (ls ++ ms) := by
  intro rest more hrest hmore
  rw [String.toList_append, List.append_assoc, List.append_assoc]
  exact h _ _ (h' _ _ hrest hmore)

theorem SpellsOpen.append (h : SpellsOpen s ls) (h' : Spells t ms) (ht : Parts t) :
    Spells (s ++ t) (ls ++ ms) := by
  intro rest more hmore
  rw [String.toList_append, List.append_assoc, List.append_assoc]
  exact h _ _ (ht.stops rest) (h' _ _ hmore)

theorem SpellsOpen.append_open (h : SpellsOpen s ls) (h' : SpellsOpen t ms) (ht : Parts t) :
    SpellsOpen (s ++ t) (ls ++ ms) := by
  intro rest more hrest hmore
  rw [String.toList_append, List.append_assoc, List.append_assoc]
  exact h _ _ (ht.stops rest) (h' _ _ hrest hmore)

theorem Spells.empty : Spells "" [] := fun _ _ h => h

theorem SpellsOpen.word (hs : IsWord s) : SpellsOpen s [(.word, s)] :=
  fun _ _ hrest hmore => hmore.word hs hrest

theorem SpellsOpen.number (hs : s.toList ≠ []) (hdigits : ∀ c ∈ s.toList, isDigit c = true) :
    SpellsOpen s [(.number, s)] :=
  fun _ _ hrest hmore => hmore.number hs hdigits hrest

theorem Spells.gap {c : Char} (hs : s.toList = [c]) (hc : isGapChar c = true) : Spells s [] := by
  intro rest more hmore
  rw [hs]
  exact hmore.gap hc

theorem Spells.mark {c : Char} (hs : s = String.singleton c) (hc : isMarkChar c = true) :
    Spells s [(.mark, s)] := by
  intro rest more hmore
  rw [hs, String.toList_singleton]
  exact hmore.mark hc

theorem Spells.space : Spells " " [] := .gap rfl (by decide)

theorem Spells.newline : Spells "\n" [] := .gap rfl (by decide)

theorem Spells.mathString {text : String} (h : '$' ∉ text.toList) :
    Spells (mathString text) [(.math, " " ++ text ++ " ")] := by
  intro rest more hmore
  have hinner : '$' ∉ (" " ++ text ++ " ").toList := by simpa using h
  have hmath := hmore.math hinner
  rw [String.ofList_toList] at hmath
  have htext : (Deductive.mathString text).toList = '$' :: ((" " ++ text ++ " ").toList ++ ['$']) := by
    simp [Deductive.mathString, toString]
  rw [htext, List.cons_append, List.append_assoc]
  exact hmath

/-- Texts with a separator between them. -/
theorem Spells.intercalate {sep : String} (hsep : Spells sep ms) (hparts : Parts sep)
    {texts : List (String × List Lexeme)} (h : ∀ t ∈ texts, SpellsOpen t.1 t.2) :
    SpellsOpen (sep.intercalate (texts.map Prod.fst)) (ms.intercalate (texts.map Prod.snd)) := by
  induction texts with
  | nil => exact Spells.empty.isOpen
  | cons t texts ih =>
    obtain ⟨ht, htexts⟩ := List.forall_mem_cons.mp h
    cases texts with
    | nil => simpa using ht
    | cons u texts =>
      simp only [List.map_cons, String.intercalate_cons_cons, List.intercalate_cons_cons] at ih ⊢
      rw [String.append_assoc, List.append_assoc]
      exact ht.append_open (hsep.append_open (ih htexts)) (hparts.append _)

end
end Deductive
