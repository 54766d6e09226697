import Deductive.Formula.Token
import Mathlib.Data.List.Basic
import Mathlib.Data.List.TakeWhile

/-!
How a math string is cut into tokens. Nothing is left out but white space, and every token is a
delimiter, or a word that goes on at neither end, and stands at its place in the text; there is one
way only to cut a text like this.
-/
namespace Deductive

section

variable {α : Type} {p : α → Bool} {xs ys : List α}

theorem takeWhile_append_of_head (hxs : ∀ x ∈ xs, p x = true) (hys : ∀ y ∈ ys.head?, p y = false) :
    (xs ++ ys).takeWhile p = xs := by
  rw [List.takeWhile_append_of_pos hxs]
  cases ys with
  | nil => simp
  | cons y ys => rw [List.takeWhile_cons_of_neg (by simp [hys y rfl]), List.append_nil]

theorem dropWhile_append_of_head (hxs : ∀ x ∈ xs, p x = true) (hys : ∀ y ∈ ys.head?, p y = false) :
    (xs ++ ys).dropWhile p = ys := by
  rw [List.dropWhile_append_of_pos hxs]
  cases ys with
  | nil => simp
  | cons y ys => rw [List.dropWhile_cons_of_neg (by simp [hys y rfl])]

/-- What is left of a list after all that pass a test does not begin with one that does. -/
theorem head_of_takeWhile (h : xs = xs.takeWhile p ++ ys) : ∀ y ∈ ys.head?, p y = false := by
  have hrest : ys = xs.dropWhile p :=
    List.append_cancel_left (h.symm.trans List.takeWhile_append_dropWhile.symm)
  intro y hy
  have hnot := List.head?_dropWhile_not p xs
  rw [← hrest, hy] at hnot
  exact hnot

end

namespace Text

/-- The characters of a text that are no white space. -/
def solid (cs : List Char) : List Char := cs.filter fun c => !isBlank c

theorem solid_append (cs ds : List Char) : solid (cs ++ ds) = solid cs ++ solid ds :=
  List.filter_append cs ds

theorem solid_blank {c : Char} (hc : isBlank c = true) : solid [c] = [] := by
  simp [solid, hc]

theorem solid_eq_self {cs : List Char} (h : ∀ c ∈ cs, isBlank c = false) : solid cs = cs :=
  List.filter_eq_self.mpr fun c hc => by rw [h c hc, Bool.not_false]

end Text

namespace Delimiters

theorem isInner_iff {d : Delimiters} {c : Char} :
    d.isInner c = true ↔ Text.isBlank c = false ∧ d.separates c = false := by
  rw [isInner, Bool.and_eq_true, Bool.not_eq_true', Bool.not_eq_true']

theorem not_inner_of_separates {d : Delimiters} {c : Char} (hc : d.separates c = true) :
    d.isInner c = false := by
  rw [isInner, hc, Bool.not_true, Bool.and_false]

/-- Between `front` and `back` stands a delimiter, or a word that is as long as it can be. -/
inductive IsPiece (d : Delimiters) (front back : List Char) : List Char → Prop
  | delimiter {c : Char} (solid : Text.isBlank c = false) (separates : d.separates c = true) :
      d.IsPiece front back [c]
  | word {w : List Char} (nonempty : w ≠ []) (inner : ∀ c ∈ w, d.isInner c = true)
      (starts : ∀ c ∈ front.getLast?, d.isInner c = false)
      (ends : ∀ c ∈ back.head?, d.isInner c = false) : d.IsPiece front back w

namespace IsPiece

variable {d : Delimiters} {front front' back back' piece w w' : List Char}

theorem ne_nil (h : d.IsPiece front back w) : w ≠ [] := by
  cases h with
  | delimiter _ _ => exact List.cons_ne_nil _ _
  | word nonempty _ _ _ => exact nonempty

theorem solid (h : d.IsPiece front back w) : ∀ c ∈ w, Text.isBlank c = false := by
  cases h with
  | delimiter solid _ => exact List.forall_mem_singleton.mpr solid
  | word _ inner _ _ => exact fun c hc => (isInner_iff.mp (inner c hc)).1

/-- A piece is one of a longer text too, if no word goes on from what is put in front. -/
theorem prepend (h : d.IsPiece front back piece)
    (hw : (∀ c ∈ w.getLast?, d.isInner c = false) ∨
      ∀ c ∈ (front ++ (piece ++ back)).head?, d.isInner c = false) :
    d.IsPiece (w ++ front) back piece := by
  cases h with
  | delimiter solid separates => exact .delimiter solid separates
  | word nonempty inner starts ends =>
    refine .word nonempty inner ?_ ends
    cases front with
    | cons c front => rwa [List.getLast?_append_of_ne_nil _ (List.cons_ne_nil c front)]
    | nil =>
      -- The word follows at once, and it begins with an inner character.
      rw [List.append_nil]
      refine hw.resolve_right fun hout => ?_
      obtain ⟨c, cs, rfl⟩ := List.exists_cons_of_ne_nil nonempty
      have hc := hout c rfl
      rw [inner c List.mem_cons_self] at hc
      cases hc

theorem of_prepend (h : d.IsPiece (w ++ front) back piece) : d.IsPiece front back piece := by
  cases h with
  | delimiter solid separates => exact .delimiter solid separates
  | word nonempty inner starts ends =>
    refine .word nonempty inner (fun c hc => ?_) ends
    exact starts c (List.mem_getLast?_append_of_mem_getLast? hc)

/-- No word goes on from a piece into what follows. -/
theorem parts (h : d.IsPiece front back w) :
    (∀ c ∈ w.getLast?, d.isInner c = false) ∨ ∀ c ∈ back.head?, d.isInner c = false := by
  cases h with
  | delimiter _ separates =>
    left
    intro c hc
    cases hc
    exact not_inner_of_separates separates
  | word _ _ _ ends => exact .inr ends

/-- A word begins with no delimiter. -/
theorem separates_head {c : Char} {cs : List Char} (nonempty : w ≠ [])
    (inner : ∀ c ∈ w, d.isInner c = true) (h : c :: cs = w ++ back) : d.separates c = false := by
  obtain ⟨x, xs, rfl⟩ := List.exists_cons_of_ne_nil nonempty
  obtain ⟨rfl, -⟩ := List.cons.inj h
  exact (isInner_iff.mp (inner c List.mem_cons_self)).2

/-- Where one piece begins, no other one does. -/
theorem unique (h : d.IsPiece front back w) (h' : d.IsPiece front' back' w')
    (heq : w ++ back = w' ++ back') : w = w' ∧ back = back' := by
  cases h with
  | delimiter _ separates =>
    cases h' with
    | delimiter _ _ =>
      obtain ⟨rfl, rfl⟩ := List.cons.inj heq
      exact ⟨rfl, rfl⟩
    | word nonempty inner _ _ => cases separates.symm.trans (separates_head nonempty inner heq)
  | word nonempty inner _ ends =>
    cases h' with
    | delimiter _ separates => cases separates.symm.trans (separates_head nonempty inner heq.symm)
    | word _ inner' _ ends' =>
      have hw : w = w' := by
        rw [← takeWhile_append_of_head inner ends, heq, takeWhile_append_of_head inner' ends']
      subst hw
      exact ⟨rfl, List.append_cancel_left heq⟩

end IsPiece
end Delimiters

/-- The characters of some tokens, one token after the other. -/
def MathToken.chars (ts : List MathToken) : List Char := ts.flatMap fun t => t.text.toList

/-- The token is the piece between `front` and `back` of a text that starts at `p`, and stands where
`front` ends. The tokens before it have the characters of `front`, and those after it of `back`. -/
structure MathToken.IsCutOff (t : MathToken) (d : Delimiters) (p : Position)
    (front back : List Char) (before after : List MathToken) : Prop where
  piece : d.IsPiece front back t.text.toList
  placed : t.position = p.advance front
  before : chars before = Text.solid front
  after : chars after = Text.solid back

/-- A text that starts at `p` is cut into tokens: they have its characters but for white space, and
each of them is a piece of it. -/
structure IsCutInto (d : Delimiters) (p : Position) (cs : List Char) (ts : List MathToken) :
    Prop where
  chars : MathToken.chars ts = Text.solid cs
  pieces : ∀ before t after, ts = before ++ t :: after → ∃ front back,
    cs = front ++ (t.text.toList ++ back) ∧ t.IsCutOff d p front back before after

section

variable {d : Delimiters} {p : Position} {c : Char} {cs w front back : List Char} {t : MathToken}
  {before after ts us : List MathToken}

namespace MathToken

theorem chars_append : chars (ts ++ us) = chars ts ++ chars us := List.flatMap_append

theorem chars_word : chars [⟨String.ofList w, p⟩] = w := by
  rw [chars, List.flatMap_singleton, String.toList_ofList]

/-- More text in front, with the tokens of it. -/
theorem IsCutOff.prepend (h : t.IsCutOff d (p.advance w) front back before after)
    (hchars : chars ts = Text.solid w)
    (hw : (∀ c ∈ w.getLast?, d.isInner c = false) ∨
      ∀ c ∈ (front ++ (t.text.toList ++ back)).head?, d.isInner c = false) :
    t.IsCutOff d p (w ++ front) back (ts ++ before) after where
  piece := h.piece.prepend hw
  placed := by rw [h.placed, Position.advance_append]
  before := by rw [chars_append, hchars, h.before, Text.solid_append]
  after := h.after

theorem IsCutOff.of_prepend (h : t.IsCutOff d p (w ++ front) back (ts ++ before) after)
    (hchars : chars ts = Text.solid w) :
    t.IsCutOff d (p.advance w) front back before after where
  piece := h.piece.of_prepend
  placed := by rw [h.placed, Position.advance_append]
  before := by
    have hbefore := h.before
    rw [chars_append, hchars, Text.solid_append] at hbefore
    exact List.append_cancel_left hbefore
  after := h.after

end MathToken

namespace IsCutInto

theorem nil_iff : IsCutInto d p [] ts ↔ ts = [] := by
  constructor
  · intro h
    cases ts with
    | nil => rfl
    | cons t ts =>
      obtain ⟨front, back, hcs, hcut⟩ := h.pieces [] t ts rfl
      simp [hcut.piece.ne_nil] at hcs
  · rintro rfl
    exact ⟨rfl, by simp⟩

/-- White space in front of a text belongs to no token. -/
theorem blank_iff (hc : Text.isBlank c = true) :
    IsCutInto d p (c :: cs) ts ↔ IsCutInto d (p.next c) cs ts := by
  have hsolid : Text.solid (c :: cs) = Text.solid cs := by
    rw [← List.singleton_append, Text.solid_append, Text.solid_blank hc, List.nil_append]
  have hnone : MathToken.chars [] = Text.solid [c] := (Text.solid_blank hc).symm
  constructor
  · intro h
    refine ⟨h.chars.trans hsolid, fun before t after hts => ?_⟩
    obtain ⟨front, back, hcs, hcut⟩ := h.pieces before t after hts
    cases front with
    | nil =>
      obtain ⟨x, xs, ht⟩ := List.exists_cons_of_ne_nil hcut.piece.ne_nil
      have hx := hcut.piece.solid x (ht ▸ List.mem_cons_self)
      rw [ht] at hcs
      obtain ⟨rfl, -⟩ := List.cons.inj hcs
      rw [hc] at hx
      cases hx
    | cons x front =>
      obtain ⟨rfl, rfl⟩ := List.cons.inj hcs
      exact ⟨front, back, rfl, hcut.of_prepend (w := [c]) hnone⟩
  · intro h
    refine ⟨h.chars.trans hsolid.symm, fun before t after hts => ?_⟩
    obtain ⟨front, back, rfl, hcut⟩ := h.pieces before t after hts
    refine ⟨c :: front, back, rfl, hcut.prepend (w := [c]) hnone (.inl ?_)⟩
    simp [Delimiters.isInner, hc]

/-- The first token of a text is the piece that it begins with. -/
theorem first (hw : d.IsPiece [] cs w) (h : IsCutInto d p (w ++ cs) (t :: ts)) :
    t = ⟨String.ofList w, p⟩ ∧ MathToken.chars ts = Text.solid cs := by
  obtain ⟨front, back, hparts, hcut⟩ := h.pieces [] t ts rfl
  cases front with
  | nil =>
    obtain ⟨rfl, rfl⟩ := hw.unique hcut.piece hparts
    rw [String.ofList_toList]
    exact ⟨congrArg (MathToken.mk t.text) hcut.placed, hcut.after⟩
  | cons c front =>
    obtain ⟨x, xs, rfl⟩ := List.exists_cons_of_ne_nil hw.ne_nil
    obtain ⟨rfl, -⟩ := List.cons.inj hparts
    have hbefore := hcut.before
    rw [← List.singleton_append, Text.solid_append,
      Text.solid_eq_self (List.forall_mem_singleton.mpr (hw.solid _ List.mem_cons_self))] at hbefore
    cases hbefore

theorem chars_piece (hw : d.IsPiece front back w) :
    MathToken.chars [⟨String.ofList w, p⟩] = Text.solid w := by
  rw [MathToken.chars_word, Text.solid_eq_self hw.solid]

/-- A piece that is put in front of a text is a token more. -/
theorem piece (hw : d.IsPiece [] cs w) (h : IsCutInto d (p.advance w) cs ts) :
    IsCutInto d p (w ++ cs) (⟨String.ofList w, p⟩ :: ts) := by
  refine ⟨?_, fun before t after hts => ?_⟩
  · rw [← List.singleton_append, MathToken.chars_append, chars_piece hw, h.chars, Text.solid_append]
  cases before with
  | nil =>
    obtain ⟨rfl, rfl⟩ := List.cons.inj hts
    refine ⟨[], cs, ?_, ?_, rfl, rfl, h.chars⟩
    · rw [String.toList_ofList, List.nil_append]
    · rwa [String.toList_ofList]
  | cons u before =>
    obtain ⟨rfl, htail⟩ := List.cons.inj hts
    obtain ⟨front, back, hcs, hcut⟩ := h.pieces before t after htail
    refine ⟨w ++ front, back, ?_, hcut.prepend (chars_piece hw) ?_⟩
    · rw [hcs, List.append_assoc]
    · exact hcs ▸ hw.parts

/-- What follows the first piece of a text is cut on its own. -/
theorem rest (hw : d.IsPiece [] cs w)
    (h : IsCutInto d p (w ++ cs) (⟨String.ofList w, p⟩ :: ts)) :
    IsCutInto d (p.advance w) cs ts := by
  refine ⟨(h.first hw).2, fun before t after hts => ?_⟩
  obtain ⟨front, back, hparts, hcut⟩ := h.pieces (_ :: before) t after (by rw [hts]; rfl)
  -- The first piece is among the characters in front of every token but the first one.
  have hlength : w.length ≤ front.length := calc
    w.length ≤ (w ++ MathToken.chars before).length := by simp
    _ = (Text.solid front).length := by
      rw [← hcut.before, ← List.singleton_append, MathToken.chars_append, MathToken.chars_word]
    _ ≤ front.length := List.length_filter_le _ _
  obtain ⟨front', rfl⟩ := List.prefix_of_prefix_length_le (List.prefix_append w cs)
    (hparts ▸ List.prefix_append front _) hlength
  have htoken : t.IsCutOff d p (w ++ front') back ([⟨String.ofList w, p⟩] ++ before) after := hcut
  refine ⟨front', back, ?_, htoken.of_prepend (chars_piece hw)⟩
  rw [List.append_assoc] at hparts
  exact List.append_cancel_left hparts

theorem piece_iff (hw : d.IsPiece [] cs w) :
    IsCutInto d p (w ++ cs) us ↔
      ∃ ts, us = ⟨String.ofList w, p⟩ :: ts ∧ IsCutInto d (p.advance w) cs ts := by
  constructor
  · intro h
    cases us with
    | nil =>
      have hnil := h.chars
      rw [Text.solid_append, Text.solid_eq_self hw.solid] at hnil
      exact absurd (List.append_eq_nil_iff.mp hnil.symm).1 hw.ne_nil
    | cons u ts =>
      obtain ⟨rfl, _⟩ := h.first hw
      exact ⟨ts, rfl, h.rest hw⟩
  · rintro ⟨ts, rfl, h⟩
    exact h.piece hw

end IsCutInto

/-- Its tokens are the only ones that a text can be cut into. -/
theorem isCutInto_iff : IsCutInto d p cs ts ↔ mathTokens d p cs = ts := by
  fun_induction mathTokens d p cs generalizing ts with
  | case1 => rw [IsCutInto.nil_iff, eq_comm]
  | case2 p c cs hblank ih => rw [IsCutInto.blank_iff hblank, ih]
  | case3 p c cs hblank hdelimiter ih =>
    have hpiece : d.IsPiece [] cs [c] := .delimiter (by simpa using hblank) hdelimiter
    have hparts : c :: cs = [c] ++ cs := rfl
    rw [hparts, IsCutInto.piece_iff hpiece]
    simp [Position.advance, ih, eq_comm]
  | case4 p c cs hblank hdelimiter word =>
    rename_i ih
    have hc : d.isInner c = true :=
      Delimiters.isInner_iff.mpr ⟨by simpa using hblank, by simpa using hdelimiter⟩
    have hpiece : d.IsPiece [] (cs.dropWhile d.isInner) word :=
      .word (List.cons_ne_nil _ _)
        (List.forall_mem_cons.mpr ⟨hc, fun _ hx => List.mem_takeWhile_imp hx⟩) nofun
        (head_of_takeWhile List.takeWhile_append_dropWhile.symm)
    have hparts : c :: cs = word ++ cs.dropWhile d.isInner := by
      rw [List.cons_append, List.takeWhile_append_dropWhile]
    rw [hparts, IsCutInto.piece_iff hpiece]
    simp [ih, eq_comm]

theorem mathTokens_isCutInto : IsCutInto d p cs (mathTokens d p cs) := isCutInto_iff.mpr rfl

end

/-- A math string is cut into tokens in one way: they are all its characters but white space, one
after the other, and each of them is a delimiter or a word that goes on at neither end, at the line
and column that its first character has when the first one of the text is at `start`. -/
theorem tokenizeMath_eq_iff (text : String) (d : Delimiters) (start : Position)
    (tokens : List MathToken) :
    tokenizeMath text d start = tokens ↔ IsCutInto d start text.toList tokens :=
  isCutInto_iff.symm

/-- Parentheses, and a sign that is a delimiter on both sides. -/
def Delimiters.signs : Delimiters := { left := .ofList ["(", "~"], right := .ofList [")", "~"] }

/-- A line feed ends a word, and begins a line for the tokens after it. -/
example : tokenizeMath "ab\n ~cd)" .signs ⟨3, 5⟩ =
    [⟨"ab", ⟨3, 5⟩⟩, ⟨"~", ⟨4, 2⟩⟩, ⟨"cd", ⟨4, 3⟩⟩, ⟨")", ⟨4, 5⟩⟩] := by
  decide +kernel

end Deductive
