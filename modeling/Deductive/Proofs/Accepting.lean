import Deductive.Proofs.Results
import Deductive.Token.Reader

/-!
Readers and what they accept. What tokens a value is read from is said by a relation, and a reader
accepts it if it uses up exactly these tokens for the value, whatever follows them.
-/
namespace Deductive

/-- The stream with some tokens in front of its own. -/
def TokenStream.push (used : List Token) (s : TokenStream) : TokenStream :=
  ⟨used ++ s.pending, s.stop⟩

theorem TokenStream.push_append (used more : List Token) (s : TokenStream) :
    s.push (used ++ more) = (s.push more).push used := by
  rw [push, List.append_assoc]
  rfl

/-- What the reader uses up stands in the relation to its value, and it reads all that does,
whatever follows. -/
structure Accepts {α : Type} (r : TokenReader α) (R : List Token → α → Prop) : Prop where
  sound : ∀ {s a s'}, r s = .ok a s' → ∃ used, R used a ∧ s = s'.push used
  complete : ∀ {used a}, R used a → ∀ s : TokenStream, r (s.push used) = .ok a s

/-- `Rs` has for values one after the other what `R` has for each. -/
structure Repeats {α : Type} (R : List Token → α → Prop) (Rs : List Token → List α → Prop) :
    Prop where
  nil_iff : ∀ used, Rs used [] ↔ used = []
  cons_iff : ∀ used a as, Rs used (a :: as) ↔
    ∃ front rest, used = front ++ rest ∧ R front a ∧ Rs rest as

namespace Accepts

variable {α β : Type} {r : TokenReader α} {k : α → TokenReader β} {R : List Token → α → Prop}
  {S : α → List Token → β → Prop}

theorem pure {a : α} : Accepts (pure a) fun used b => used = [] ∧ b = a where
  sound h := by
    obtain ⟨rfl, rfl⟩ := reader_pure_eq_ok_iff.mp h
    exact ⟨[], ⟨rfl, rfl⟩, rfl⟩
  complete := by
    rintro _ _ ⟨rfl, rfl⟩ s
    rfl

theorem fail_if {c : Bool} {position : Position} {cause : ParseCause}
    (h : Accepts r R) : Accepts (if c then TokenReader.fail position cause else r)
      fun used a => c = false ∧ R used a where
  sound {s a s'} hr := by
    split at hr
    · cases hr
    · rename_i hc
      obtain ⟨used, hused, hs⟩ := h.sound hr
      exact ⟨used, ⟨Bool.eq_false_iff.mpr hc, hused⟩, hs⟩
  complete := by
    rintro used a ⟨rfl, hused⟩ s
    exact h.complete hused s

theorem bind (h : Accepts r R) (hk : ∀ a, Accepts (k a) (S a)) :
    Accepts (r >>= k) fun used b =>
      ∃ front a rest, used = front ++ rest ∧ R front a ∧ S a rest b where
  sound hr := by
    obtain ⟨a, s₁, hfirst, hlast⟩ := reader_bind_eq_ok_iff.mp hr
    obtain ⟨rest, hrest, rfl⟩ := (hk a).sound hlast
    obtain ⟨front, hfront, rfl⟩ := h.sound hfirst
    exact ⟨front ++ rest, ⟨front, a, rest, rfl, hfront, hrest⟩, (TokenStream.push_append ..).symm⟩
  complete := by
    rintro _ b ⟨front, a, rest, rfl, hfront, hrest⟩ s
    rw [TokenStream.push_append]
    exact reader_bind_eq_ok_iff.mpr ⟨a, _, h.complete hfront _, (hk a).complete hrest s⟩

theorem of_iff {R' : List Token → α → Prop} (h : Accepts r R)
    (hR : ∀ used a, R used a ↔ R' used a) : Accepts r R' where
  sound hr := by
    obtain ⟨used, hused, hs⟩ := h.sound hr
    exact ⟨used, (hR used _).mp hused, hs⟩
  complete hused := h.complete ((hR _ _).mpr hused)

/-- A token is expected that is not the end of the text. -/
theorem expect {test : Token → Bool} {what : String}
    (hfinish : ∀ p, test ⟨.finish, "", p⟩ = false) :
    Accepts (TokenReader.expect test what) fun used t => used = [t] ∧ test t = true where
  sound {s t s'} h := by
    obtain ⟨t', _, hadvance, h⟩ := reader_bind_eq_ok_iff.mp h
    cases hadvance
    split at h
    · rename_i htest
      obtain ⟨rfl, rfl⟩ := reader_pure_eq_ok_iff.mp h
      obtain ⟨_ | ⟨t, ts⟩, stop⟩ := s
      · exact absurd (htest.symm.trans (hfinish stop)) nofun
      · exact ⟨[t], ⟨rfl, htest⟩, rfl⟩
    · cases h
  complete := by
    rintro _ t ⟨rfl, htest⟩ s
    refine reader_bind_eq_ok_iff.mpr ⟨t, s, rfl, ?_⟩
    rw [if_pos htest]
    rfl

/-- A reader that uses up one token. -/
theorem token_bind {r : TokenReader Token} {P : Token → Prop} {k : Token → TokenReader β}
    {S : Token → List Token → β → Prop} (h : Accepts r fun used t => used = [t] ∧ P t)
    (hk : ∀ t, Accepts (k t) (S t)) :
    Accepts (r >>= k) fun used b => ∃ t rest, used = t :: rest ∧ P t ∧ S t rest b := by
  refine (h.bind hk).of_iff fun used b => ⟨?_, ?_⟩
  · rintro ⟨_, t, rest, rfl, ⟨rfl, ht⟩, hrest⟩
    exact ⟨t, rest, rfl, ht, hrest⟩
  · rintro ⟨t, rest, rfl, ht, hrest⟩
    exact ⟨[t], t, rest, rfl, ⟨rfl, ht⟩, hrest⟩

theorem mark_bind {m : String} {k : Token → TokenReader β} {S : Token → List Token → β → Prop}
    (hk : ∀ t, Accepts (k t) (S t)) : Accepts (TokenReader.expectMark m >>= k) fun used b =>
      ∃ t rest, used = t :: rest ∧ t.isMark m = true ∧ S t rest b :=
  (expect fun _ => rfl).token_bind hk

theorem word_bind {what : String} {k : Token → TokenReader β} {S : Token → List Token → β → Prop}
    (hk : ∀ t, Accepts (k t) (S t)) : Accepts (TokenReader.expectWord what >>= k) fun used b =>
      ∃ t rest, used = t :: rest ∧ t.isWord = true ∧ S t rest b :=
  (expect fun _ => rfl).token_bind hk

theorem keyword_bind {word : String} {k : Token → TokenReader β}
    {S : Token → List Token → β → Prop} (hk : ∀ t, Accepts (k t) (S t)) :
    Accepts (TokenReader.expectKeyword word >>= k) fun used b =>
      ∃ t rest, used = t :: rest ∧ t.isKeyword word = true ∧ S t rest b :=
  (expect fun _ => rfl).token_bind hk

section

variable {item : TokenReader α} {test : Token → Bool} {Rs : List Token → List α → Prop}
  {k : List α → TokenReader β} {S : List α → List Token → β → Prop}

/-- An item uses up a token, so that the fuel that is left is enough for what is left. -/
theorem length_lt_of_first (hfirst : ∀ used a, R used a → ∃ t ts, used = t :: ts ∧ test t = true)
    {front : List Token} {a : α} (ha : R front a) {s : TokenStream} {n : Nat}
    (hn : (s.push front).pending.length < n + 1) : s.pending.length < n := by
  obtain ⟨t, ts, rfl, _⟩ := hfirst front a ha
  simp only [TokenStream.push, List.length_append, List.length_cons] at hn
  omega

/-- What is read are items, before a token that does not pass the test. -/
theorem whileNext_sound (h : Accepts item R)
    (hfirst : ∀ used a, R used a → ∃ t ts, used = t :: ts ∧ test t = true)
    (hRs : Repeats R Rs) {n : Nat} {s s' : TokenStream} {as : List α} (hn : s.pending.length < n)
    (hr : TokenReader.whileNext test item n s = .ok as s') :
    ∃ used, Rs used as ∧ s = s'.push used := by
  induction n generalizing s as with
  | zero => exact absurd hn (Nat.not_lt_zero _)
  | succ n ih =>
    rw [TokenReader.whileNext] at hr
    obtain ⟨_, _, hpeek, hr⟩ := reader_bind_eq_ok_iff.mp hr
    cases hpeek
    split at hr
    · obtain ⟨a, s₁, hitem, hr⟩ := reader_bind_eq_ok_iff.mp hr
      obtain ⟨as, s₂, hmore, hr⟩ := reader_bind_eq_ok_iff.mp hr
      obtain ⟨rfl, rfl⟩ := reader_pure_eq_ok_iff.mp hr
      obtain ⟨front, hfront, rfl⟩ := h.sound hitem
      obtain ⟨rest, hrest, rfl⟩ := ih (length_lt_of_first hfirst hfront hn) hmore
      exact ⟨front ++ rest, (hRs.cons_iff ..).mpr ⟨front, rest, rfl, hfront, hrest⟩,
        (TokenStream.push_append ..).symm⟩
    · obtain ⟨rfl, rfl⟩ := reader_pure_eq_ok_iff.mp hr
      exact ⟨[], (hRs.nil_iff _).mpr rfl, rfl⟩

/-- Items that each begin with a token that passes the test, before a token that does not. -/
theorem whileNext_complete (h : Accepts item R)
    (hfirst : ∀ used a, R used a → ∃ t ts, used = t :: ts ∧ test t = true)
    (hRs : Repeats R Rs) {n : Nat} {s : TokenStream} {used : List Token} {as : List α}
    (hn : (s.push used).pending.length < n) (hused : Rs used as) (hend : test s.peek = false) :
    TokenReader.whileNext test item n (s.push used) = .ok as s := by
  induction n generalizing used as with
  | zero => exact absurd hn (Nat.not_lt_zero _)
  | succ n ih =>
    rw [TokenReader.whileNext]
    refine reader_bind_eq_ok_iff.mpr ⟨_, _, rfl, ?_⟩
    cases as with
    | nil =>
      obtain rfl := (hRs.nil_iff _).mp hused
      have hstop : ¬ test (s.push []).peek = true := Bool.eq_false_iff.mp hend
      rw [if_neg hstop]
      rfl
    | cons a as =>
      obtain ⟨front, rest, rfl, hfront, hrest⟩ := (hRs.cons_iff ..).mp hused
      rw [TokenStream.push_append] at hn ⊢
      have htest : test ((s.push rest).push front).peek = true := by
        obtain ⟨t, ts, rfl, ht⟩ := hfirst front a hfront
        exact ht
      rw [if_pos htest]
      refine reader_bind_eq_ok_iff.mpr ⟨a, _, h.complete hfront _, ?_⟩
      have hmore := ih (length_lt_of_first hfirst hfront hn) hrest
      exact reader_bind_eq_ok_iff.mpr ⟨as, s, hmore, rfl⟩

/-- What comes after the items begins with a token that does not pass the test. -/
theorem manyWhile_bind (h : Accepts item R)
    (hfirst : ∀ used a, R used a → ∃ t ts, used = t :: ts ∧ test t = true)
    (hRs : Repeats R Rs) (hk : ∀ as, Accepts (k as) (S as))
    (hend : ∀ as used b, S as used b → ∃ t ts, used = t :: ts ∧ test t = false) :
    Accepts (TokenReader.manyWhile test item >>= k) fun used b =>
      ∃ front as rest, used = front ++ rest ∧ Rs front as ∧ S as rest b where
  sound hr := by
    obtain ⟨as, s₁, hitems, hlast⟩ := reader_bind_eq_ok_iff.mp hr
    obtain ⟨rest, hrest, rfl⟩ := (hk as).sound hlast
    obtain ⟨front, hfront, rfl⟩ := whileNext_sound h hfirst hRs (Nat.lt_succ_self _) hitems
    exact ⟨front ++ rest, ⟨front, as, rest, rfl, hfront, hrest⟩, (TokenStream.push_append ..).symm⟩
  complete := by
    rintro _ b ⟨front, as, rest, rfl, hfront, hrest⟩ s
    rw [TokenStream.push_append]
    refine reader_bind_eq_ok_iff.mpr ⟨as, _, ?_, (hk as).complete hrest s⟩
    refine whileNext_complete h hfirst hRs (Nat.lt_succ_self _) hfront ?_
    obtain ⟨t, ts, rfl, ht⟩ := hend as rest b hrest
    exact ht

end

end Accepts

end Deductive
