import Deductive.Proofs.Results
import Deductive.Proofs.Spelling

/-!
Readers that use up the tokens of given lexemes, and how they are put together.
-/
namespace Deductive

open TokenReader

/-- Before tokens of the lexemes `rest` the reader uses up tokens of the lexemes `ls`, and finds a
value with the property. -/
def Reads {α : Type} (r : TokenReader α) (ls rest : List Lexeme) (P : α → Prop) : Prop :=
  ∀ ts more stop, ts.map Token.lexeme = ls → more.map Token.lexeme = rest →
    ∃ a, P a ∧ r ⟨ts ++ more, stop⟩ = .ok a ⟨more, stop⟩

namespace Reads

section

variable {α β : Type} {r : TokenReader α} {k : α → TokenReader β} {ls ms rest : List Lexeme}
  {P : α → Prop} {Q : β → Prop}

theorem pure {a : α} (h : P a) : Reads (pure a) [] rest P := by
  intro ts more stop hts _
  obtain rfl := List.map_eq_nil_iff.mp hts
  exact ⟨a, h, rfl⟩

theorem bind (h : Reads r ls (ms ++ rest) P) (h' : ∀ a, P a → Reads (k a) ms rest Q) :
    Reads (r >>= k) (ls ++ ms) rest Q := by
  intro ts more stop hts hmore
  obtain ⟨ts₁, ts₂, rfl, hls, hms⟩ := List.map_eq_append_iff.mp hts
  obtain ⟨a, ha, hr⟩ := h ts₁ (ts₂ ++ more) stop hls (by rw [List.map_append, hms, hmore])
  obtain ⟨b, hb, hk⟩ := h' a ha ts₂ more stop hms hmore
  refine ⟨b, hb, ?_⟩
  rw [List.append_assoc, reader_bind_eq_ok_iff]
  exact ⟨a, _, hr, hk⟩

/-- The reader uses up one token. -/
theorem cons_bind {l : Lexeme} (h : Reads r [l] (ms ++ rest) P)
    (h' : ∀ a, P a → Reads (k a) ms rest Q) : Reads (r >>= k) (l :: ms) rest Q :=
  h.bind h'

/-- The reader uses up no token. -/
theorem nil_bind (h : Reads r [] (ms ++ rest) P) (h' : ∀ a, P a → Reads (k a) ms rest Q) :
    Reads (r >>= k) ms rest Q :=
  h.bind h'

/-- The reader uses up all tokens that are used up. -/
theorem last_bind (h : Reads r ls rest P) (h' : ∀ a, P a → Reads (k a) [] rest Q) :
    Reads (r >>= k) ls rest Q := by
  rw [← List.append_nil ls]
  exact Reads.bind h h'

theorem mono {P' : α → Prop} (h : Reads r ls rest P) (h' : ∀ a, P a → P' a) :
    Reads r ls rest P' := by
  intro ts more stop hts hmore
  obtain ⟨a, ha, hr⟩ := h ts more stop hts hmore
  exact ⟨a, h' a ha, hr⟩

end

section

variable {β : Type} {ls rest more : List Lexeme} {l : Lexeme} {Q : β → Prop}
  {k : Token → TokenReader β}

/-- The next token is looked at. -/
theorem peek (h : ∀ t, t.lexeme = l → Reads (k t) ls rest Q) (hnext : ls ++ rest = l :: more) :
    Reads (TokenReader.peek >>= k) ls rest Q := by
  intro ts others stop hts hothers
  have hall : (ts ++ others).map Token.lexeme = l :: more := by
    rw [List.map_append, hts, hothers, hnext]
  obtain ⟨t, tail, hcons, ht, _⟩ := List.map_eq_cons_iff.mp hall
  obtain ⟨b, hb, hk⟩ := h t ht ts others stop hts hothers
  refine ⟨b, hb, ?_⟩
  rw [reader_bind_eq_ok_iff]
  refine ⟨t, _, ?_, hk⟩
  rw [hcons]
  rfl

theorem advance : Reads TokenReader.advance [l] rest (·.lexeme = l) := by
  intro ts others stop hts _
  obtain ⟨t, rfl, ht⟩ := List.map_eq_singleton_iff.mp hts
  exact ⟨t, ht, rfl⟩

theorem expect {test : Token → Bool} {what : String} (h : ∀ t, t.lexeme = l → test t = true) :
    Reads (TokenReader.expect test what) [l] rest (·.lexeme = l) := by
  refine (advance (l := l)).last_bind fun t ht => ?_
  rw [if_pos (h t ht)]
  exact .pure ht

end

section

variable {rest : List Lexeme} {s : String}

theorem lexeme_kind {t : Token} {l : Lexeme} (h : t.lexeme = l) : t.kind = l.1 := congrArg Prod.fst h

theorem lexeme_text {t : Token} {l : Lexeme} (h : t.lexeme = l) : t.text = l.2 := congrArg Prod.snd h

theorem isMark_iff {t : Token} : t.isMark s = true ↔ t.lexeme = .mark s := by
  simp [Token.isMark, Token.lexeme, Lexeme.mark]

theorem isKeyword_iff {t : Token} : t.isKeyword s = true ↔ t.lexeme = .word s := by
  simp [Token.isKeyword, Token.lexeme, Lexeme.word]

theorem isWord_iff {t : Token} : t.isWord = true ↔ t.kind = .word := by
  simp [Token.isWord]

theorem expectMark : Reads (TokenReader.expectMark s) [.mark s] rest (·.lexeme = .mark s) :=
  expect fun _ => isMark_iff.mpr

theorem expectKeyword : Reads (TokenReader.expectKeyword s) [.word s] rest (·.lexeme = .word s) :=
  expect fun _ => isKeyword_iff.mpr

theorem expectWord {what : String} :
    Reads (TokenReader.expectWord what) [.word s] rest (·.lexeme = .word s) :=
  expect fun _ ht => isWord_iff.mpr (lexeme_kind ht)

theorem expectMath : Reads TokenReader.expectMath [.math s] rest (·.lexeme = .math s) :=
  expect fun t ht => by simp [lexeme_kind ht, Lexeme.math]

/-- Words end before something else. -/
theorem words {ws : List String} {l : Lexeme} (hl : l.1 ≠ .word) :
    Reads TokenReader.words (ws.map Lexeme.word) (l :: rest)
      (fun ts => ts.map Token.text = ws) := by
  intro ts more stop hts hmore
  obtain ⟨t, others, rfl, ht, _⟩ := List.map_eq_cons_iff.mp hmore
  have hwords : ∀ t ∈ ts, t.isWord = true := by
    intro t ht
    obtain ⟨w, _, hw⟩ := List.mem_map.mp (hts ▸ List.mem_map_of_mem (f := Token.lexeme) ht)
    exact isWord_iff.mpr (lexeme_kind hw.symm)
  have hend : ∀ t' ∈ (t :: others).head?, t'.isWord = false := by
    intro t' ht'
    cases ht'
    rw [← lexeme_kind ht] at hl
    exact Bool.eq_false_iff.mpr fun hword => hl (isWord_iff.mp hword)
  refine ⟨ts, ?_, ?_⟩
  · have := congrArg (List.map Prod.snd) hts
    simpa [Function.comp_def, Token.lexeme, Lexeme.word] using this
  · unfold TokenReader.words
    dsimp only
    rw [takeWhile_append_of_head hwords hend, dropWhile_append_of_head hwords hend]

end

section

variable {α ι κ : Type} {test : Token → Bool} {item : TokenReader α} {f : ι → List Lexeme}
  {view : α → κ} {value : ι → κ} {rest : List Lexeme} {l : Lexeme}

theorem length_le_length_flatMap {xs : List ι} (h : ∀ x ∈ xs, f x ≠ []) :
    xs.length ≤ (xs.flatMap f).length := by
  induction xs with
  | nil => exact Nat.zero_le _
  | cons x xs ih =>
    obtain ⟨hx, hxs⟩ := List.forall_mem_cons.mp h
    have hpos := List.length_pos_iff.mpr hx
    have := ih hxs
    simp only [List.flatMap_cons, List.length_append, List.length_cons]
    omega

/-- Items one after the other, seen in some view, before something that begins no item. -/
theorem whileNext {xs : List ι}
    (hitem : ∀ x ∈ xs, ∀ rest, Reads item (f x) rest (fun a => view a = value x))
    (hfirst : ∀ x ∈ xs, ∃ l ls, f x = l :: ls ∧ ∀ t : Token, t.lexeme = l → test t = true)
    (hend : ∀ t : Token, t.lexeme = l → test t = false) {n : Nat} (hn : xs.length < n) :
    Reads (TokenReader.whileNext test item n) (xs.flatMap f) (l :: rest)
      (fun as => as.map view = xs.map value) := by
  induction xs generalizing n with
  | nil =>
    obtain ⟨n, rfl⟩ := Nat.exists_eq_succ_of_ne_zero (Nat.ne_of_gt hn)
    rw [TokenReader.whileNext]
    refine peek (l := l) (fun t ht => ?_) rfl
    rw [if_neg (by simp [hend t ht])]
    exact .pure rfl
  | cons x xs ih =>
    obtain ⟨n, rfl⟩ := Nat.exists_eq_succ_of_ne_zero (Nat.ne_of_gt (Nat.zero_lt_of_lt hn))
    obtain ⟨hx, hxs⟩ := List.forall_mem_cons.mp hitem
    obtain ⟨⟨l', ls, hl', htest⟩, hfirsts⟩ := List.forall_mem_cons.mp hfirst
    rw [TokenReader.whileNext]
    refine peek (l := l') (fun t ht => ?_) (by rw [List.flatMap_cons, hl']; rfl)
    rw [if_pos (htest t ht), List.flatMap_cons]
    refine (hx _).bind fun a ha => ?_
    have hothers := ih hxs hfirsts (Nat.lt_of_succ_lt_succ hn)
    refine hothers.last_bind fun as has => .pure ?_
    rw [List.map_cons, List.map_cons, ha, has]

theorem manyWhile {xs : List ι}
    (hitem : ∀ x ∈ xs, ∀ rest, Reads item (f x) rest (fun a => view a = value x))
    (hfirst : ∀ x ∈ xs, ∃ l ls, f x = l :: ls ∧ ∀ t : Token, t.lexeme = l → test t = true)
    (hend : ∀ t : Token, t.lexeme = l → test t = false) :
    Reads (TokenReader.manyWhile test item) (xs.flatMap f) (l :: rest)
      (fun as => as.map view = xs.map value) := by
  intro ts more stop hts hmore
  have hlength : xs.length ≤ (xs.flatMap f).length := by
    refine length_le_length_flatMap fun x hx => ?_
    obtain ⟨l, ls, hl, _⟩ := hfirst x hx
    simp [hl]
  have htokens : ts.length = (xs.flatMap f).length := by rw [← hts, List.length_map]
  exact whileNext hitem hfirst hend (by simp; omega) ts more stop hts hmore

end
end Reads

end Deductive
