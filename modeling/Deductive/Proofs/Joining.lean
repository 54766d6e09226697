import Deductive.Proofs.Cutting

/-!
Tokens that are joined are cut into the same tokens again, with white space around them or not. What
a text is cut into can be joined.
-/
namespace Deductive

namespace Delimiters

/-- A text that is one token between white space: a delimiter, or characters that are none. -/
structure IsToken (d : Delimiters) (s : String) : Prop where
  nonempty : s.toList ≠ []
  solid : ∀ c ∈ s.toList, Text.isBlank c = false
  undivided : (∃ c, s.toList = [c] ∧ d.separates c = true) ∨ ∀ c ∈ s.toList, d.separates c = false

/-- Every delimiter is a single character. -/
def AreCharacters (d : Delimiters) : Prop :=
  ∀ s, s ∈ d.left ∨ s ∈ d.right → ∃ c, s = String.singleton c

variable {d : Delimiters} {s t : String}

theorem contains_iff {t : StringSet} : t.contains s = true ↔ s ∈ t :=
  List.contains_iff_mem

theorem separates_iff {c : Char} :
    d.separates c = true ↔ String.singleton c ∈ d.left ∨ String.singleton c ∈ d.right := by
  rw [separates, Bool.or_eq_true, contains_iff, contains_iff]

theorem AreCharacters.delimiter (hd : d.AreCharacters) (h : s ∈ d.left ∨ s ∈ d.right) :
    ∃ c, s.toList = [c] ∧ d.separates c = true := by
  obtain ⟨c, rfl⟩ := hd s h
  exact ⟨c, String.toList_singleton c, separates_iff.mpr h⟩

theorem AreCharacters.of_gluesAfter (hd : d.AreCharacters) (h : d.gluesAfter s = true) :
    ∃ c, s.toList = [c] ∧ d.separates c = true := by
  rw [gluesAfter, Bool.and_eq_true, contains_iff] at h
  exact hd.delimiter (.inl h.1)

theorem AreCharacters.of_gluesBefore (hd : d.AreCharacters) (h : d.gluesBefore s = true) :
    ∃ c, s.toList = [c] ∧ d.separates c = true := by
  simp only [gluesBefore, Bool.or_eq_true, Bool.and_eq_true, contains_iff] at h
  rcases h with ⟨h, _⟩ | ⟨_, h⟩
  · exact hd.delimiter (.inr h)
  · exact hd.delimiter h

/-- A token, by tests of its characters that can be evaluated. -/
theorem IsToken.of_chars (hne : s.toList ≠ [])
    (hsolid : s.toList.all (fun c => !Text.isBlank c) = true)
    (hwhole : (∃ c, s.toList = [c] ∧ d.separates c = true) ∨
      s.toList.all (fun c => !d.separates c) = true) : d.IsToken s := by
  simp only [List.all_eq_true, Bool.not_eq_true'] at hsolid hwhole
  exact ⟨hne, hsolid, hwhole⟩

/-- A parenthesis is one token, be it a delimiter or not. -/
theorem isToken_of_char {c : Char} (hs : s.toList = [c]) (hblank : Text.isBlank c = false) :
    d.IsToken s := by
  refine ⟨by simp [hs], by simpa [hs] using hblank, ?_⟩
  cases hc : d.separates c with
  | true => exact .inl ⟨c, hs, hc⟩
  | false => exact .inr (by simpa [hs] using hc)

/-- What is cut off a text is a token between white space too. -/
theorem IsPiece.isToken {front back : List Char} (h : d.IsPiece front back s.toList) :
    d.IsToken s where
  nonempty := h.ne_nil
  solid := h.solid
  undivided := by
    generalize s.toList = w at h
    cases h with
    | delimiter _ separates => exact .inl ⟨_, rfl, separates⟩
    | word _ inner _ _ => exact .inr fun c hc => (isInner_iff.mp (inner c hc)).2

theorem isToken_opening : d.IsToken "(" := isToken_of_char rfl (by decide)

theorem isToken_closing : d.IsToken ")" := isToken_of_char rfl (by decide)

end Delimiters

section

variable {d : Delimiters} {p : Position} {c : Char} {cs w : List Char} {s : String}

theorem mathTokens_blank (hc : Text.isBlank c = true) :
    mathTokens d p (c :: cs) = mathTokens d (p.next c) cs := by
  rw [mathTokens, if_pos hc]

theorem mathTokens_blanks (h : ∀ c ∈ cs, Text.isBlank c = true) : mathTokens d p cs = [] := by
  induction cs generalizing p with
  | nil => rw [mathTokens]
  | cons c cs ih =>
    rw [mathTokens_blank (h c List.mem_cons_self)]
    exact ih fun c hc => h c (List.mem_cons_of_mem _ hc)

theorem mathTokens_after_blanks (cs : List Char) (h : ∀ c ∈ w, Text.isBlank c = true) :
    ∃ q, mathTokens d p (w ++ cs) = mathTokens d q cs := by
  induction w generalizing p with
  | nil => exact ⟨p, rfl⟩
  | cons c w ih =>
    rw [List.cons_append, mathTokens_blank (h c List.mem_cons_self)]
    exact ih fun c hc => h c (List.mem_cons_of_mem _ hc)

/-- A token ends where a delimiter or white space follows, and a delimiter ends at once. -/
theorem mathTokens_token (h : d.IsToken s)
    (hend : (∀ c ∈ s.toList, d.separates c = false) → ∀ c ∈ cs.head?, d.isInner c = false) :
    ∃ q, mathTokens d p (s.toList ++ cs) = ⟨s, p⟩ :: mathTokens d q cs := by
  rcases h.undivided with ⟨c, hs, hc⟩ | hinner
  · have hblank := h.solid c (by simp [hs])
    have hsingle : String.singleton c = s := by rw [← String.toList_inj, String.toList_singleton, hs]
    refine ⟨p.next c, ?_⟩
    rw [hs, List.singleton_append, mathTokens, if_neg (by simp [hblank]), if_pos hc, hsingle]
  · have hword : ∀ c ∈ s.toList, d.isInner c = true := fun c hc => by
      simp [Delimiters.isInner, h.solid c hc, hinner c hc]
    have hrest := hend hinner
    obtain ⟨c, w, hs⟩ := List.exists_cons_of_ne_nil h.nonempty
    rw [hs] at hword
    have hc := Delimiters.isInner_iff.mp (hword c List.mem_cons_self)
    have hw : ∀ c ∈ w, d.isInner c = true := fun c hc => hword c (List.mem_cons_of_mem _ hc)
    refine ⟨p.advance s.toList, ?_⟩
    rw [hs, List.cons_append, mathTokens, if_neg (by simp [hc.1]), if_neg (by simp [hc.2])]
    dsimp only
    rw [takeWhile_append_of_head hw hrest, dropWhile_append_of_head hw hrest, ← hs,
      String.ofList_toList]

/-- What is written after a word does not begin with a character that could go on the word. -/
theorem joinAfter_ends (hd : d.AreCharacters) (ts : List String)
    (hcs : ∀ c ∈ cs, Text.isBlank c = true) (hs : ∀ c ∈ s.toList, d.separates c = false) :
    ∀ c ∈ (joinAfter d s ts ++ cs).head?, d.isInner c = false := by
  cases ts with
  | nil =>
    intro c hc
    simp [Delimiters.isInner, hcs c (List.mem_of_mem_head? hc)]
  | cons t ts =>
    have hafter : d.gluesAfter s = false := by
      refine Bool.eq_false_iff.mpr fun hglue => ?_
      obtain ⟨c, hc, hsep⟩ := hd.of_gluesAfter hglue
      rw [hs c (by simp [hc])] at hsep
      cases hsep
    rw [joinAfter, hafter, Bool.false_or]
    cases hbefore : d.gluesBefore t with
    | true =>
      obtain ⟨c, hc, hsep⟩ := hd.of_gluesBefore hbefore
      simp [hc, Delimiters.isInner, hsep]
    | false =>
      simp [Delimiters.isInner, show Text.isBlank ' ' = true by decide]

theorem mathTokens_joinAfter (hd : d.AreCharacters) {ts : List String} (hs : d.IsToken s)
    (hts : ∀ t ∈ ts, d.IsToken t) (hcs : ∀ c ∈ cs, Text.isBlank c = true) :
    (mathTokens d p (s.toList ++ (joinAfter d s ts ++ cs))).map MathToken.text = s :: ts := by
  induction ts generalizing s p with
  | nil =>
    obtain ⟨q, hq⟩ := mathTokens_token (p := p) hs (joinAfter_ends hd [] hcs)
    rw [hq, joinAfter, List.nil_append, mathTokens_blanks hcs]
    rfl
  | cons t ts ih =>
    obtain ⟨q, hq⟩ := mathTokens_token (p := p) hs (joinAfter_ends hd (t :: ts) hcs)
    have hblank : ∀ c ∈ (if d.gluesAfter s || d.gluesBefore t then [] else [' ']),
        Text.isBlank c = true := by
      intro c hc
      split at hc
      · cases hc
      · cases List.mem_singleton.mp hc
        decide
    obtain ⟨q', hq'⟩ := mathTokens_after_blanks (d := d) (p := q)
      (t.toList ++ (joinAfter d t ts ++ cs)) hblank
    have hrest := ih (p := q') (hts t List.mem_cons_self) fun t ht => hts t (List.mem_cons_of_mem _ ht)
    rw [hq, joinAfter, List.append_assoc, List.append_assoc, hq', List.map_cons, hrest]

end

/-- Joined tokens, also with white space around them, are cut into the same tokens again. -/
theorem mathTokens_joinMath {d : Delimiters} (hd : d.AreCharacters) {p : Position}
    {tokens : List String} {before after : List Char} (ht : ∀ t ∈ tokens, d.IsToken t)
    (hbefore : ∀ c ∈ before, Text.isBlank c = true) (hafter : ∀ c ∈ after, Text.isBlank c = true) :
    (mathTokens d p (before ++ ((joinMath tokens d).toList ++ after))).map MathToken.text =
      tokens := by
  obtain ⟨q, hq⟩ := mathTokens_after_blanks (d := d) (p := p)
    ((joinMath tokens d).toList ++ after) hbefore
  rw [hq]
  cases tokens with
  | nil =>
    rw [joinMath, String.toList_empty, List.nil_append, mathTokens_blanks hafter]
    rfl
  | cons t ts =>
    rw [joinMath, String.toList_ofList, List.append_assoc]
    exact mathTokens_joinAfter hd (ht t List.mem_cons_self)
      (fun t h => ht t (List.mem_cons_of_mem _ h)) hafter

theorem isToken_of_mem_mathTokens {d : Delimiters} {p : Position} {cs : List Char} {t : MathToken}
    (ht : t ∈ mathTokens d p cs) : d.IsToken t.text := by
  obtain ⟨before, after, hts⟩ := List.append_of_mem ht
  obtain ⟨_, _, _, hcut⟩ := mathTokens_isCutInto.pieces before t after hts
  exact hcut.piece.isToken

/-- Some texts are cut into themselves when they are joined if and only if each of them is a token.
The tokens of every text are such texts, and so they are found again. -/
theorem tokenizeMath_joinMath {d : Delimiters} (hd : d.AreCharacters) (p q : Position) :
    (∀ tokens : List String,
      (tokenizeMath (joinMath tokens d) d p).map MathToken.text = tokens ↔
        ∀ t ∈ tokens, d.IsToken t) ∧
    ∀ text : String, (∀ t ∈ tokenizeMath text d q, d.IsToken t.text) ∧
      (tokenizeMath (joinMath ((tokenizeMath text d q).map MathToken.text) d) d p).map
        MathToken.text = (tokenizeMath text d q).map MathToken.text := by
  have hcut (text : String) (start : Position) :
      ∀ t ∈ (tokenizeMath text d start).map MathToken.text, d.IsToken t :=
    List.forall_mem_map.mpr fun t ht => isToken_of_mem_mathTokens ht
  have hjoin (tokens : List String) (ht : ∀ t ∈ tokens, d.IsToken t) :
      (tokenizeMath (joinMath tokens d) d p).map MathToken.text = tokens := by
    have hread : (mathTokens d p ([] ++ ((joinMath tokens d).toList ++ []))).map MathToken.text =
        tokens := mathTokens_joinMath hd ht nofun nofun
    rwa [List.nil_append, List.append_nil] at hread
  refine ⟨fun tokens => ⟨fun h => ?_, hjoin tokens⟩, fun text => ⟨?_, hjoin _ (hcut text q)⟩⟩
  · exact h ▸ hcut _ _
  · exact List.forall_mem_map.mp (hcut text q)

theorem Delimiters.signs_areCharacters : signs.AreCharacters := by
  intro s h
  have hs : s ∈ ["(", "~"] ∨ s ∈ [")", "~"] := h.imp StringSet.mem_ofList.mp StringSet.mem_ofList.mp
  simp only [List.mem_cons, List.not_mem_nil, or_false] at hs
  rcases hs with (rfl | rfl) | (rfl | rfl)
  · exact ⟨'(', rfl⟩
  · exact ⟨'~', rfl⟩
  · exact ⟨')', rfl⟩
  · exact ⟨'~', rfl⟩

/-- A sign on both sides is kept apart from the word before it, not from what follows. -/
theorem Delimiters.signs_read_back :
    joinMath ["(", "~", "ab", "~", ")", "->", "c"] signs = "(~ab ~) -> c" ∧
      (tokenizeMath "(~ab ~) -> c" signs .start).map MathToken.text =
        ["(", "~", "ab", "~", ")", "->", "c"] := by
  have htokens : ∀ t ∈ ["(", "~", "ab", "~", ")", "->", "c"], signs.IsToken t := by
    have hab : signs.IsToken "ab" := .of_chars (by decide) (by decide) (.inr (by decide))
    have harrow : signs.IsToken "->" := .of_chars (by decide) (by decide) (.inr (by decide))
    have htilde : signs.IsToken "~" := isToken_of_char rfl (by decide)
    have hc : signs.IsToken "c" := isToken_of_char rfl (by decide)
    simp only [List.forall_mem_cons, List.not_mem_nil, false_imp_iff, implies_true, and_true]
    exact ⟨isToken_opening, htilde, hab, htilde, isToken_closing, harrow, hc⟩
  have hjoin : joinMath ["(", "~", "ab", "~", ")", "->", "c"] signs = "(~ab ~) -> c" := by
    decide +kernel
  have hread := ((tokenizeMath_joinMath signs_areCharacters .start .start).1 _).mpr htokens
  exact ⟨hjoin, hjoin ▸ hread⟩

/-- Only spaces are written beside the tokens. -/
theorem mem_joinMath {d : Delimiters} {tokens : List String} {c : Char}
    (h : c ∈ (joinMath tokens d).toList) : c = ' ' ∨ ∃ t ∈ tokens, c ∈ t.toList := by
  have hafter {last : String} {ts : List String} (h : c ∈ joinAfter d last ts) :
      c = ' ' ∨ ∃ t ∈ ts, c ∈ t.toList := by
    induction ts generalizing last with
    | nil => cases h
    | cons t ts ih =>
      rw [joinAfter, List.mem_append, List.mem_append] at h
      rcases h with (h | h) | h
      · left
        split at h
        · cases h
        · exact List.mem_singleton.mp h
      · exact .inr ⟨t, List.mem_cons_self, h⟩
      · apply (ih h).imp_right
        rintro ⟨t', ht', hc⟩
        exact ⟨t', List.mem_cons_of_mem _ ht', hc⟩
  cases tokens with
  | nil => cases h
  | cons t ts =>
    rw [joinMath, String.toList_ofList, List.mem_append] at h
    rcases h with h | h
    · exact .inr ⟨t, List.mem_cons_self, h⟩
    · apply (hafter h).imp_right
      rintro ⟨t', ht', hc⟩
      exact ⟨t', List.mem_cons_of_mem _ ht', hc⟩

end Deductive
