import Deductive.Proofs.Places
import Deductive.Proofs.Results
import Mathlib.Data.List.DropRight

/-!
How a text is cut into tokens. It is a gap, and then tokens with a gap after each, where every
token stands at its line and column; and where the text cannot be cut any further neither a gap nor
a token begins.
-/
namespace Deductive

/-- The place after the front of a text: lines end with line feeds, and columns are counted from the
last one. -/
def Position.after (front : List Char) : Position :=
  ⟨front.count '\n' + 1, (front.rtakeWhile (· ≠ '\n')).length + 1⟩

theorem Position.advance_start (front : List Char) :
    Position.start.advance front = .after front := by
  induction front using List.reverseRecOn with
  | nil => rfl
  | append_singleton front c ih =>
    rw [advance_append, ih]
    change next _ c = _
    by_cases hc : c = '\n'
    · rw [next, if_pos hc, after, after, List.rtakeWhile_concat_neg _ _ _ (by simp [hc]),
        List.count_append, hc]
      simp
    · rw [next, if_neg hc, after, after, List.rtakeWhile_concat_pos _ _ _ (by simp [hc]),
        List.count_append, List.count_singleton, List.length_append]
      simp [hc]

theorem Position.advance_after (front cs : List Char) :
    (Position.after front).advance cs = .after (front ++ cs) := by
  rw [← advance_start, ← advance_append, advance_start]

/-- White space, and comments that run to the end of their line. `rest` is what follows. -/
inductive IsGap : List Char → List Char → Prop
  | nil {rest : List Char} : IsGap [] rest
  | blank {c : Char} {gap rest : List Char} (blank : c ∈ [' ', '\t', '\r', '\n'])
      (more : IsGap gap rest) : IsGap (c :: gap) rest
  | comment {line gap rest : List Char} (inLine : '\n' ∉ line)
      (ends : ∀ c ∈ (gap ++ rest).head?, c = '\n') (more : IsGap gap rest) :
      IsGap ('-' :: '-' :: (line ++ gap)) rest

namespace Token

/-- What can be a token of its kind. -/
def IsFormed (t : Token) : Prop :=
  match t.kind with
  | .word => IsWord t.text
  | .number => t.text.toList ≠ [] ∧ ∀ c ∈ t.text.toList, isDigit c = true
  | .math => '$' ∉ t.text.toList
  | .mark => ∃ c, t.text = String.singleton c ∧ isMarkChar c = true
  | .finish => False

/-- What follows does not go on the token. -/
def EndsBefore (t : Token) (rest : List Char) : Prop :=
  match t.kind with
  | .word => ∀ c ∈ rest.head?, isWordChar c = false
  | .number => ∀ c ∈ rest.head?, isDigit c = false
  | _ => True

end Token

/-- Between `front` and `rest` a text is cut into gaps and tokens. -/
inductive IsCut : List Char → List Char → List Token → List Char → Prop
  | last {front gap rest : List Char} (blank : IsGap gap rest) : IsCut front gap [] rest
  | token {front gap cs rest : List Char} {t : Token} {ts : List Token}
      (blank : IsGap gap (t.source ++ (cs ++ rest))) (formed : t.IsFormed)
      (ends : t.EndsBefore (cs ++ rest)) (placed : t.position = .after (front ++ gap))
      (more : IsCut (front ++ (gap ++ t.source)) cs ts rest) :
      IsCut front (gap ++ (t.source ++ cs)) (t :: ts) rest

/-- Neither a gap nor a token begins here. -/
structure NothingBegins (rest : List Char) : Prop where
  more : rest ≠ []
  gap : ∀ gap after, rest = gap ++ after → IsGap gap after → gap = []
  token : ∀ (t : Token) after, rest = t.source ++ after → ¬ t.IsFormed

theorem isGapChar_iff {c : Char} : isGapChar c = true ↔ c ∈ [' ', '\t', '\r', '\n'] := by
  simp [isGapChar, or_assoc]

namespace IsGap

variable {gap gap' rest : List Char}

theorem of_blanks (h : ∀ c ∈ gap, isGapChar c = true) : IsGap gap rest := by
  induction gap with
  | nil => exact .nil
  | cons c gap ih =>
    obtain ⟨hc, hgap⟩ := List.forall_mem_cons.mp h
    exact .blank (isGapChar_iff.mp hc) (ih hgap)

theorem append (h : IsGap gap (gap' ++ rest)) (h' : IsGap gap' rest) :
    IsGap (gap ++ gap') rest := by
  generalize hafter : gap' ++ rest = after at h
  induction h with
  | nil => exact h'
  | blank blank _ ih => exact .blank blank (ih hafter)
  | comment inLine ends _ ih =>
    subst hafter
    rw [List.cons_append, List.cons_append, List.append_assoc]
    exact .comment inLine (by rwa [List.append_assoc]) (ih rfl)

end IsGap

theorem IsCut.prepend {front gap cs rest : List Char} {ts : List Token}
    (hgap : IsGap gap (cs ++ rest)) (h : IsCut (front ++ gap) cs ts rest) :
    IsCut front (gap ++ cs) ts rest := by
  cases h with
  | last blank => exact .last (hgap.append blank)
  | token blank formed ends placed more =>
    rw [← List.append_assoc]
    refine .token (IsGap.append ?_ blank) formed ends ?_ ?_
    · simpa only [List.append_assoc] using hgap
    · rw [placed, List.append_assoc]
    · simpa only [List.append_assoc] using more

theorem not_mem_takeWhile_ne (c : Char) (cs : List Char) : c ∉ cs.takeWhile (· ≠ c) := by
  intro hmem
  simpa using List.mem_takeWhile_imp hmem

/-- What is cut off is a gap or a token. -/
theorem piece?_isCut {c : Char} {cs rest : List Char} {piece : Piece}
    (h : piece? c cs = some piece) (hrest : c :: cs = piece.chars ++ rest) :
    match piece.token with
    | none => IsGap piece.chars rest
    | some (kind, text) => ∀ p, Token.IsFormed ⟨kind, text, p⟩ ∧
      Token.EndsBefore ⟨kind, text, p⟩ rest := by
  unfold piece? at h
  split at h
  · rename_i hc
    cases h
    refine .of_blanks ?_
    rw [List.forall_mem_cons]
    exact ⟨hc, fun d hd => List.mem_takeWhile_imp hd⟩
  split at h
  · rename_i hc
    cases h
    obtain ⟨rfl, hc⟩ := hc
    obtain ⟨ds, rfl⟩ := List.head?_eq_some_iff.mp hc
    have hends := head_of_takeWhile (List.cons.inj hrest).2
    dsimp only
    rw [List.takeWhile_cons_of_pos (by simp), ← List.append_nil (List.takeWhile _ ds)]
    refine .comment (not_mem_takeWhile_ne _ _) ?_ .nil
    intro d hd
    simpa using hends d hd
  split at h
  · dsimp only at h
    split at h
    · cases h
      refine fun p => ⟨?_, trivial⟩
      change '$' ∉ (String.ofList _).toList
      rw [String.toList_ofList]
      exact not_mem_takeWhile_ne _ _
    · cases h
  split at h
  · rename_i hc
    cases h
    refine fun p => ⟨⟨c, _, String.toList_ofList, hc, fun d hd => List.mem_takeWhile_imp hd⟩, ?_⟩
    exact head_of_takeWhile (List.cons.inj hrest).2
  split at h
  · rename_i hc
    cases h
    refine fun p => ⟨?_, head_of_takeWhile (List.cons.inj hrest).2⟩
    change (String.ofList _).toList ≠ [] ∧ ∀ d ∈ (String.ofList _).toList, isDigit d = true
    rw [String.toList_ofList, List.forall_mem_cons]
    exact ⟨List.cons_ne_nil _ _, hc, fun d hd => List.mem_takeWhile_imp hd⟩
  split at h
  · rename_i hc
    cases h
    exact fun p => ⟨⟨c, rfl, hc⟩, trivial⟩
  · cases h

/-- A piece, and what else is cut after it. -/
theorem IsCut.cut {front cs cs' rest : List Char} {c : Char} {piece : Piece} {ts : List Token}
    (h : piece? c cs = some piece) (hparts : c :: cs = piece.chars ++ (cs' ++ rest))
    (hmore : IsCut (front ++ piece.chars) cs' ts rest) :
    IsCut front (piece.chars ++ cs')
      (piece.token.toList.map (fun l => ⟨l.1, l.2, .after front⟩) ++ ts) rest := by
  have hpiece := piece?_isCut h hparts
  cases htoken : piece.token with
  | none =>
    rw [htoken] at hpiece
    exact hmore.prepend hpiece
  | some l =>
    obtain ⟨kind, text⟩ := l
    rw [htoken] at hpiece
    obtain ⟨hformed, hends⟩ := hpiece (.after front)
    have hsource := (piece?_source h htoken (.after front)).1
    rw [← hsource] at hmore ⊢
    refine .token .nil hformed hends ?_ hmore
    rw [List.append_nil]

/-- How a token begins. -/
theorem Token.IsFormed.first {t : Token} (h : t.IsFormed) : ∃ c cs, t.source = c :: cs ∧
    (isLetter c = true ∨ isDigit c = true ∨ isMarkChar c = true ∨ c = '$' ∧ '$' ∈ cs) := by
  obtain ⟨kind, text, position⟩ := t
  cases kind with
  | word =>
    obtain ⟨c, w, hcw, hc, _⟩ := h
    exact ⟨c, w, hcw, .inl hc⟩
  | number =>
    obtain ⟨hne, hdigits⟩ := h
    obtain ⟨c, w, hcw⟩ := List.exists_cons_of_ne_nil hne
    exact ⟨c, w, hcw, .inr (.inl (hdigits c (hcw ▸ List.mem_cons_self)))⟩
  | math => exact ⟨'$', _, rfl, .inr (.inr (.inr ⟨rfl, by simp⟩))⟩
  | mark =>
    obtain ⟨c, rfl, hc⟩ := h
    exact ⟨c, [], String.toList_singleton c, .inr (.inr (.inl hc))⟩
  | finish => cases h

/-- Where nothing is cut off, nothing begins. -/
theorem nothingBegins_of_piece? {c : Char} {cs : List Char} (h : piece? c cs = none) :
    NothingBegins (c :: cs) := by
  unfold piece? at h
  split at h
  · cases h
  rename_i hgap
  split at h
  · cases h
  rename_i hcomment
  have hnone : ¬ isLetter c = true ∧ ¬ isDigit c = true ∧ ¬ isMarkChar c = true ∧
      (c = '$' → '$' ∉ cs) := by
    split at h
    · rename_i hdollar
      dsimp only at h
      split at h
      · cases h
      · rename_i hlength
        have hall := (List.takeWhile_prefix (· ≠ '$')).eq_of_length_le (Nat.le_of_not_lt hlength)
        refine ⟨?_, ?_, ?_, fun _ => hall ▸ not_mem_takeWhile_ne '$' cs⟩ <;> rw [hdollar] <;> decide
    rename_i hdollar
    split at h
    · cases h
    rename_i hletter
    split at h
    · cases h
    rename_i hdigit
    split at h
    · cases h
    rename_i hmark
    exact ⟨hletter, hdigit, hmark, fun hc => absurd hc hdollar⟩
  obtain ⟨hletter, hdigit, hmark, hmath⟩ := hnone
  refine ⟨List.cons_ne_nil _ _, ?_, ?_⟩
  · intro gap after heq hgaps
    cases hgaps with
    | nil => rfl
    | blank blank _ =>
      cases heq
      exact absurd (isGapChar_iff.mpr blank) hgap
    | comment _ _ _ =>
      cases heq
      exact absurd ⟨rfl, rfl⟩ hcomment
  · intro t after heq hformed
    obtain ⟨d, ds, hsource, hd⟩ := hformed.first
    rw [hsource] at heq
    cases heq
    rcases hd with hd | hd | hd | ⟨hd, hmem⟩
    · exact hletter hd
    · exact hdigit hd
    · exact hmark hd
    · exact hmath hd (List.mem_append_left _ hmem)

theorem lex_eq_error {c : Char} {cs : List Char} (h : piece? c cs = none) (p : Position) :
    lex p (c :: cs) = .error ⟨p, cutCause c⟩ := by
  rw [lex]
  split
  · rfl
  · rename_i piece hsome
    cases h.symm.trans hsome

/-- What is left of a text, of which `front` was read: piece after piece, of which each one leaves
less. -/
theorem lex_isCut (front cs : List Char) :
    match lex (.after front) cs with
    | .ok (ts, stop) => IsCut front cs ts [] ∧ stop = .after (front ++ cs)
    | .error e => ∃ read rest ts, cs = read ++ rest ∧ IsCut front read ts rest ∧
      e.position = .after (front ++ read) ∧ NothingBegins rest := by
  induction hn : cs.length using Nat.strongRecOn generalizing front cs with
  | ind n ih =>
    cases cs with
    | nil =>
      rw [lex, List.append_nil]
      exact ⟨.last .nil, rfl⟩
    | cons c cs =>
      cases hpiece : piece? c cs with
      | none =>
        rw [lex_eq_error hpiece]
        refine ⟨[], c :: cs, [], rfl, .last .nil, ?_, nothingBegins_of_piece? hpiece⟩
        rw [List.append_nil]
      | some piece =>
        obtain ⟨left, hparts⟩ := piece?_chars hpiece
        have hshorter : left.length < n := by
          have := piece?_pos hpiece
          rw [← hn, hparts, List.length_append]
          omega
        have hrun := ih left.length hshorter (front ++ piece.chars) left rfl
        rw [lex_cons hpiece, hparts, List.drop_left, Position.advance_after]
        cases hlex : lex (.after (front ++ piece.chars)) left with
        | error e =>
          rw [hlex] at hrun
          obtain ⟨read, rest, ts, rfl, hcut, hposition, hnothing⟩ := hrun
          refine ⟨piece.chars ++ read, rest, _, ?_, .cut hpiece hparts hcut, ?_, hnothing⟩
          · rw [List.append_assoc]
          · rw [hposition, List.append_assoc]
        | ok r =>
          rw [hlex] at hrun
          obtain ⟨hcut, hstop⟩ := hrun
          refine ⟨.cut hpiece (by rw [hparts, List.append_nil]) hcut, ?_⟩
          rw [hstop, List.append_assoc]

/-- A text that is cut into tokens consists of these and of the gaps between them, before the first
one and after the last one. Every token stands at its line and column, and the end of the text too.
A text that is not is cut in the same way up to the place of the error, where neither a gap nor a
token begins. -/
theorem tokenize_partitions (text : String) :
    (∀ s, tokenize text = .ok s →
      IsCut [] text.toList s.pending [] ∧ s.finish.position = .after text.toList) ∧
    ∀ e, tokenize text = .error e →
      ∃ read rest ts, text.toList = read ++ rest ∧ IsCut [] read ts rest ∧
        e.position = .after read ∧ NothingBegins rest := by
  have hlex := lex_isCut [] text.toList
  have hstart : Position.after [] = .start := rfl
  rw [hstart] at hlex
  unfold tokenize
  cases hrun : lex .start text.toList with
  | error e =>
    rw [hrun] at hlex
    refine ⟨nofun, fun e' he => ?_⟩
    cases he
    exact hlex
  | ok r =>
    rw [hrun] at hlex
    refine ⟨fun s hs => ?_, nofun⟩
    cases hs
    exact hlex

/-- Two lines of tokens, and a text that breaks off in its second line. -/
theorem second_line_partitions :
    (∃ s, tokenize "a -- b\n $c$" = .ok s ∧ IsCut [] "a -- b\n $c$".toList s.pending [] ∧
      s.pending.map Token.position = [⟨1, 1⟩, ⟨2, 2⟩] ∧ s.finish.position = ⟨2, 5⟩) ∧
    ∃ e read rest ts, tokenize "a\n -b" = .error e ∧ "a\n -b".toList = read ++ rest ∧
      IsCut [] read ts rest ∧ Position.after read = ⟨2, 2⟩ ∧ NothingBegins rest := by
  obtain ⟨hcut, _⟩ := tokenize_partitions "a -- b\n $c$"
  obtain ⟨_, hbroken⟩ := tokenize_partitions "a\n -b"
  have hok : tokenize "a -- b\n $c$" =
      .ok ⟨[⟨.word, "a", ⟨1, 1⟩⟩, ⟨.math, "c", ⟨2, 2⟩⟩], ⟨2, 5⟩⟩ :=
    eq_ok_of_toOption (by decide +kernel)
  have herror : tokenize "a\n -b" = .error ⟨⟨2, 2⟩, .strayCharacter '-'⟩ :=
    eq_error_of_errorOf? (by decide +kernel)
  obtain ⟨read, rest, ts, hparts, hread, hplace, hnothing⟩ := hbroken _ herror
  exact ⟨⟨_, hok, (hcut _ hok).1, rfl, rfl⟩, _, read, rest, ts, herror, hparts, hread, hplace.symm,
    hnothing⟩

end Deductive
