import Deductive.Proofs.Digits
import Deductive.Proofs.Joining
import Deductive.Proofs.JsonStrings
import Deductive.Proofs.Registry
import Mathlib.Data.List.TakeDrop

/-!
JSON text is read as the value that it was written for, in every style.
-/
namespace Deductive.Json

/-- Values that are the same after they are written and read. Fractions are left out, which stand
only where a name or a flag is expected. -/
inductive IsStable : Json → Prop
  | null : IsStable .null
  | bool (b : Bool) : IsStable (.bool b)
  | int {n : Int} (digits : (Nat.toDigits 10 n.natAbs).length ≤ Text.maxDigits) : IsStable (.int n)
  | infinity (negative : Bool) : IsStable (.infinity negative)
  | string {s : JsonString} (points : s.IsStable) : IsStable (.string s)
  | array {items : List Json} (items_stable : ∀ v ∈ items, IsStable v) : IsStable (.array items)
  | object {fields : List (JsonString × Json)} (nodup : (fields.map Prod.fst).Nodup)
      (names : ∀ f ∈ fields, f.1.IsStable) (values : ∀ f ∈ fields, IsStable f.2) :
      IsStable (.object fields)

/-! Between the parts of a value there is only white space. -/

theorem skipSpace_append {spaces : List Char} (h : ∀ c ∈ spaces, isSpace c = true) {c : Char}
    (hc : isSpace c = false) (cs : List Char) : skipSpace (spaces ++ c :: cs) = c :: cs := by
  refine dropWhile_append_of_head h fun c' hc' => ?_
  cases hc'
  exact hc

namespace Style

variable (st : Style) (level : Nat)

theorem edge_isSpace : ∀ c ∈ (st.edge level).toList, isSpace c = true := by
  intro c hc
  unfold edge at hc
  split at hc
  · cases hc
  · rename_i n _
    have hpush (k : Nat) : ("".pushn ' ' k).toList = List.replicate k ' ' := by
      induction k with
      | zero => rfl
      | succ k ih => rw [List.replicate_succ', ← ih]; exact String.toList_push ..
    rw [String.toList_append, hpush] at hc
    rcases List.mem_append.mp hc with hc | hc
    · obtain rfl : c = '\n' := List.mem_singleton.mp hc
      rfl
    · rw [(List.mem_replicate.mp hc).2]
      rfl

theorem separator_toList : ∃ spaces, (st.separator level).toList = ',' :: spaces ∧
    ∀ c ∈ spaces, isSpace c = true := by
  have hedge := st.edge_isSpace level
  unfold separator
  split
  · exact ⟨[' '], rfl, List.forall_mem_singleton.mpr rfl⟩
  · exact ⟨(st.edge level).toList, by rw [String.toList_append]; rfl, hedge⟩

end Style

/-! Numbers end where something else begins. -/

/-- The text does not go on a number. -/
def EndsNumber (cs : List Char) : Prop :=
  ∀ c ∈ cs.head?, isDigit c = false ∧ c ≠ '.' ∧ c ≠ 'e' ∧ c ≠ 'E'

theorem isDigit_of_mem_toDigits {n : Nat} {c : Char} (h : c ∈ Nat.toDigits 10 n) :
    isDigit c = true := by
  rw [isDigit, Bool.and_eq_true, decide_eq_true_eq, decide_eq_true_eq]
  exact toDigits_bounds h

theorem wholeDigits_toDigits (n : Nat) {rest : List Char} (hrest : EndsNumber rest) :
    wholeDigits (Nat.toDigits 10 n ++ rest) = some (Nat.toDigits 10 n, rest) := by
  by_cases hn : n = 0
  · subst hn
    rfl
  · obtain ⟨c, cs, hcs, hc⟩ := toDigits_of_pos (Nat.pos_of_ne_zero hn)
    have hdigits : ∀ d ∈ c :: cs, isDigit d = true := fun d hd =>
      isDigit_of_mem_toDigits (hcs ▸ hd)
    have hend : ∀ d ∈ rest.head?, isDigit d = false := fun d hd => (hrest d hd).1
    rw [hcs, List.cons_append, wholeDigits, if_pos (hdigits c List.mem_cons_self),
      List.span_eq_takeWhile_dropWhile, ← List.cons_append,
      takeWhile_append_of_head hdigits hend, dropWhile_append_of_head hdigits hend]
    exact fun he => hc he

theorem readNumber_toString {n : Int} (hn : (Nat.toDigits 10 n.natAbs).length ≤ Text.maxDigits)
    {rest : List Char} (hrest : EndsNumber rest) :
    readNumber ((toString n).toList ++ rest) = .ok (.int n, rest) := by
  have hfraction : fractionDigits rest = ([], rest) := by
    unfold fractionDigits
    split
    · exact absurd rfl (hrest _ rfl).2.1
    · rfl
  have hexponent : exponent? rest = none := by
    unfold exponent?
    split
    · rename_i c rest
      obtain ⟨_, _, he, hE⟩ := hrest c rfl
      rw [if_neg (by simp [he, hE])]
    · rfl
  have hminus {cs : List Char} : Nat.toDigits 10 n.natAbs ++ rest ≠ '-' :: cs := by
    obtain ⟨c, ds, hds⟩ := List.exists_cons_of_ne_nil (Nat.toDigits_ne_nil (n := n.natAbs) (b := 10))
    have hlow := (toDigits_bounds (hds ▸ List.mem_cons_self (a := c))).1
    rw [hds]
    rintro heq
    obtain rfl : c = '-' := (List.cons.inj heq).1
    exact absurd hlow (by decide)
  rw [toList_toString]
  unfold readNumber
  split
  · rename_i negative body hpair
    have hsign : negative = decide (n < 0) ∧ body = Nat.toDigits 10 n.natAbs ++ rest := by
      by_cases hneg : n < 0
      · rw [if_pos hneg] at hpair
        cases hpair
        exact ⟨(decide_eq_true hneg).symm, rfl⟩
      · rw [if_neg hneg, List.nil_append] at hpair
        split at hpair
        · exact absurd ‹_› hminus
        · cases hpair
          exact ⟨(decide_eq_false hneg).symm, rfl⟩
    obtain ⟨rfl, rfl⟩ := hsign
    rw [wholeDigits_toDigits _ hrest]
    dsimp only
    rw [hfraction]
    dsimp only
    rw [hexponent]
    dsimp only
    rw [if_pos List.isEmpty_nil, if_neg (Nat.not_lt.mpr hn), List.append_nil, digitsOf,
      Text.ofDigits_toDigits, Text.applySign_natAbs]

/-! Values are told from each other by their first characters. -/

/-- A value may begin with the character. -/
def Begins (c : Char) : Prop := isSpace c = false ∧ c ≠ ']' ∧ c ≠ '\x7d' ∧ c ≠ '\ufeff'

instance (c : Char) : Decidable (Begins c) := inferInstanceAs (Decidable (_ ∧ _))

theorem readValue_other {n : Nat} {c : Char} {cs : List Char}
    (hc : c ≠ '"' ∧ c ≠ '[' ∧ c ≠ '\x7b') :
    readValue (n + 1) (c :: cs) = match readWord? (c :: cs) with
      | some r => .ok r
      | none => readNumber (c :: cs) := by
  unfold readValue
  split
  · rename_i he
    exact absurd (List.cons.inj he).1 hc.1
  · rename_i he
    exact absurd (List.cons.inj he).1 hc.2.1
  · rename_i he
    exact absurd (List.cons.inj he).1 hc.2.2
  · rfl

theorem toString_cases (n : Int) :
    (∃ c cs, (toString n).toList = c :: cs ∧ isDigit c = true) ∨
      ∃ c cs, (toString n).toList = '-' :: c :: cs ∧ isDigit c = true := by
  obtain ⟨c, cs, hcs⟩ := List.exists_cons_of_ne_nil (Nat.toDigits_ne_nil (n := n.natAbs) (b := 10))
  have hc : isDigit c = true := isDigit_of_mem_toDigits (hcs ▸ List.mem_cons_self)
  rw [toList_toString, hcs]
  by_cases hneg : n < 0
  · exact .inr ⟨c, cs, by rw [if_pos hneg]; rfl, hc⟩
  · exact .inl ⟨c, cs, by rw [if_neg hneg]; rfl, hc⟩

theorem begins_of_isDigit {c : Char} (h : isDigit c = true) :
    Begins c ∧ c ≠ '"' ∧ c ≠ '[' ∧ c ≠ '\x7b' := by
  have hne {d : Char} (hd : isDigit d = false) : c ≠ d := by
    rintro rfl
    rw [h] at hd
    cases hd
  refine ⟨⟨?_, hne rfl, hne rfl, hne rfl⟩, hne rfl, hne rfl, hne rfl⟩
  simp only [isSpace, Bool.or_eq_false_iff, decide_eq_false_iff_not]
  exact ⟨⟨⟨hne rfl, hne rfl⟩, hne rfl⟩, hne rfl⟩

theorem begins_toString (n : Int) : ∃ c cs, (toString n).toList = c :: cs ∧ Begins c ∧
    c ≠ '"' ∧ c ≠ '[' ∧ c ≠ '\x7b' := by
  rcases toString_cases n with ⟨c, cs, hcs, hc⟩ | ⟨c, cs, hcs, _⟩
  · exact ⟨c, cs, hcs, begins_of_isDigit hc⟩
  · exact ⟨'-', c :: cs, hcs, ⟨rfl, by decide, by decide, by decide⟩, by decide, by decide, by decide⟩

/-- Numbers have a digit among their first two characters, and words have none there. -/
theorem readWord?_toString (n : Int) (rest : List Char) :
    readWord? ((toString n).toList ++ rest) = none := by
  have hwords : ∀ w ∈ words, 2 ≤ w.1.length ∧ (w.1.take 2).any isDigit = false := by decide
  have hdigit : (((toString n).toList ++ rest).take 2).any isDigit = true := by
    rcases toString_cases n with ⟨c, cs, hcs, hc⟩ | ⟨c, cs, hcs, hc⟩
    · rw [hcs, List.cons_append, List.take_succ_cons, List.any_cons, hc, Bool.true_or]
    · rw [hcs, List.cons_append, List.cons_append, List.take_succ_cons, List.take_succ_cons,
        List.any_cons, List.any_cons, hc, Bool.true_or, Bool.or_true]
  refine List.findSome?_eq_none_iff.mpr fun w hw => if_neg fun hprefix => ?_
  obtain ⟨tail, htail⟩ := List.isPrefixOf_iff_prefix.mp hprefix
  obtain ⟨hlength, hnone⟩ := hwords w hw
  rw [← htail, List.take_append_of_le_length hlength, hnone] at hdigit
  cases hdigit

theorem readValue_toString {m : Nat} {n : Int}
    (hn : (Nat.toDigits 10 n.natAbs).length ≤ Text.maxDigits) {rest : List Char}
    (hrest : EndsNumber rest) :
    readValue (m + 1) ((toString n).toList ++ rest) = .ok (.int n, rest) := by
  have hword := readWord?_toString n rest
  have hnumber := readNumber_toString hn hrest
  obtain ⟨c, cs, hcs, _, hc⟩ := begins_toString n
  rw [hcs, List.cons_append] at hword hnumber ⊢
  rw [readValue_other hc, hword]
  exact hnumber

/-- The text of a value begins with a character that no white space and no bracket at an end is. -/
theorem writeAt_begins {v : Json} (h : v.IsStable) (st : Style) (level : Nat) :
    ∃ c cs, (writeAt st level v).toList = c :: cs ∧ Begins c := by
  have hbracket {opening closing : String} {c : Char} (hopening : opening.toList = [c])
      (hc : Begins c) (items : List String) :
      ∃ c cs, (st.bracket level opening closing items).toList = c :: cs ∧ Begins c := by
    unfold Style.bracket
    split
    · exact ⟨c, closing.toList, by rw [String.toList_append, hopening]; rfl, hc⟩
    · simp only [String.append_assoc]
      exact ⟨c, _, by rw [String.toList_append, hopening]; rfl, hc⟩
  cases h with
  | null =>
    rw [writeAt]
    exact ⟨'n', _, rfl, by decide⟩
  | bool b =>
    cases b
    · rw [writeAt]
      exact ⟨'f', _, rfl, by decide⟩
    · rw [writeAt]
      exact ⟨'t', _, rfl, by decide⟩
  | int =>
    obtain ⟨c, cs, hcs, hc, _⟩ := begins_toString _
    rw [writeAt]
    exact ⟨c, cs, hcs, hc⟩
  | infinity negative =>
    cases negative
    · rw [writeAt]
      exact ⟨'I', _, rfl, by decide⟩
    · rw [writeAt]
      exact ⟨'-', _, rfl, by decide⟩
  | string =>
    rw [writeAt]
    exact ⟨'"', _, String.toList_ofList, by decide⟩
  | array =>
    rw [writeAt]
    exact hbracket rfl (by decide) _
  | object =>
    rw [writeAt]
    exact hbracket rfl (by decide) _

/-! Every value is read from its text, whatever follows that does not go on a number. -/

/-- The value is read from the text with as much fuel as the text is long. -/
def ReadsBack (text : String) (v : Json) : Prop :=
  ∀ n rest, 2 * text.length ≤ n → EndsNumber rest →
    readValue n (text.toList ++ rest) = .ok (v, rest)

theorem readsBack_word {word : String} {v : Json} (hlength : 0 < word.length)
    (h : ∀ rest, readWord? (word.toList ++ rest) = some (v, rest))
    (hword : ∃ c cs, word.toList = c :: cs ∧ c ≠ '"' ∧ c ≠ '[' ∧ c ≠ '\x7b') :
    ReadsBack word v := by
  intro n rest hn _
  obtain ⟨n, rfl⟩ := Nat.exists_eq_succ_of_ne_zero (n := n) (by omega)
  obtain ⟨c, cs, hcs, hc⟩ := hword
  have hw := h rest
  rw [hcs, List.cons_append] at hw ⊢
  rw [readValue_other hc, hw]

theorem intercalate_begins (sep : String) {t : String} {c : Char} {cs : List Char}
    (h : t.toList = c :: cs) (ts : List String) : ∃ cs', (sep.intercalate (t :: ts)).toList = c :: cs' := by
  cases ts with
  | nil => exact ⟨cs, by rw [String.intercalate_singleton, h]⟩
  | cons u ts =>
    refine ⟨cs ++ sep.toList ++ (sep.intercalate (u :: ts)).toList, ?_⟩
    rw [String.intercalate_cons_cons, String.toList_append, String.toList_append, h]
    rfl

section

variable {n : Nat} {v : Json} {name : JsonString} {cs colon value rest more : List Char}

theorem readItems_close (hv : readValue n cs = .ok (v, rest))
    (hrest : skipSpace rest = ']' :: more) : readItems (n + 1) cs = .ok ([v], more) := by
  rw [readItems, hv]
  dsimp only
  rw [hrest]
  rfl

theorem readItems_comma (hv : readValue n cs = .ok (v, rest))
    (hrest : skipSpace rest = ',' :: more) {vs : List Json} {last : List Char}
    (hvs : readItems n (skipSpace more) = .ok (vs, last)) :
    readItems (n + 1) cs = .ok (v :: vs, last) := by
  rw [readItems, hv]
  dsimp only
  rw [hrest]
  change (readItems n (skipSpace more)).map _ = _
  rw [hvs]
  rfl

theorem readFields_close (hname : readString cs = .ok (name, colon))
    (hcolon : skipSpace colon = ':' :: value) (hv : readValue n (skipSpace value) = .ok (v, rest))
    (hrest : skipSpace rest = '\x7d' :: more) :
    readFields (n + 1) ('"' :: cs) = .ok ([(name, v)], more) := by
  rw [readFields, hname]
  dsimp only
  rw [hcolon]
  split
  · rename_i he
    cases he
    rw [hv]
    dsimp only
    rw [hrest]
    rfl
  · rename_i hother
    exact absurd rfl (hother value)

theorem readFields_comma (hname : readString cs = .ok (name, colon))
    (hcolon : skipSpace colon = ':' :: value) (hv : readValue n (skipSpace value) = .ok (v, rest))
    (hrest : skipSpace rest = ',' :: more) {fs : List (JsonString × Json)} {last : List Char}
    (hfs : readFields n (skipSpace more) = .ok (fs, last)) :
    readFields (n + 1) ('"' :: cs) = .ok ((name, v) :: fs, last) := by
  rw [readFields, hname]
  dsimp only
  rw [hcolon]
  split
  · rename_i he
    cases he
    rw [hv]
    dsimp only
    rw [hrest]
    change (readFields n (skipSpace more)).map _ = _
    rw [hfs]
    rfl
  · rename_i hother
    exact absurd rfl (hother value)

end

section

variable {st : Style} {level : Nat} {spaces rest : List Char}

theorem readItems_intercalate {items : List Json} (hstable : ∀ v ∈ items, v.IsStable)
    (hread : ∀ v ∈ items, ReadsBack (writeAt st level v) v) (hne : items ≠ [])
    (hspaces : ∀ c ∈ spaces, isSpace c = true) (hend : EndsNumber (spaces ++ ']' :: rest)) {n : Nat}
    (hn : 2 * ((st.separator level).intercalate (writeItems st level items)).length + 1 ≤ n) :
    readItems n (((st.separator level).intercalate (writeItems st level items)).toList ++
      (spaces ++ ']' :: rest)) = .ok (items, rest) := by
  induction items generalizing n with
  | nil => exact absurd rfl hne
  | cons v items ih =>
    obtain ⟨n, rfl⟩ := Nat.exists_eq_succ_of_ne_zero (n := n) (by omega)
    obtain ⟨hv, hitems⟩ := List.forall_mem_cons.mp hread
    cases items with
    | nil =>
      rw [writeItems, writeItems, String.intercalate_singleton] at hn ⊢
      exact readItems_close (hv n _ (by omega) hend) (skipSpace_append hspaces (by decide) _)
    | cons w items =>
      obtain ⟨_, hstables⟩ := List.forall_mem_cons.mp hstable
      have hih := ih hstables hitems (List.cons_ne_nil _ _) (n := n)
      obtain ⟨gap, hsep, hgap⟩ := st.separator_toList level
      obtain ⟨c, cs, hcs, hc⟩ := writeAt_begins (hstables w List.mem_cons_self) st level
      obtain ⟨cs', hinner⟩ := intercalate_begins (st.separator level) hcs
        (writeItems st level items)
      rw [writeItems, writeItems, String.intercalate_cons_cons] at hn ⊢
      rw [writeItems] at hih
      have hlength := congrArg List.length hsep
      rw [String.length_append, String.length_append] at hn
      rw [String.length_toList, List.length_cons] at hlength
      rw [String.toList_append, String.toList_append, hsep, List.append_assoc, List.append_assoc,
        List.cons_append]
      refine readItems_comma (hv n _ (by omega) (by rintro _ ⟨⟩; decide)) rfl ?_
      rw [hinner, List.cons_append, skipSpace_append hgap hc.1, ← List.cons_append, ← hinner]
      exact hih (by omega)

theorem field_begins (name : JsonString) (text : String) :
    ∃ cs, (writeString name ++ ": " ++ text).toList = '"' :: cs := by
  rw [String.toList_append, String.toList_append, writeString, String.toList_ofList]
  exact ⟨_, rfl⟩

/-- The text of a field, as it is read. -/
theorem field_append {name : JsonString} {v : Json} (hname : name.IsStable) (hv : v.IsStable)
    (st : Style) (level : Nat) (tail : List Char) :
    ∃ cs value, (writeString name ++ ": " ++ writeAt st level v).toList ++ tail = '"' :: cs ∧
      readString cs = .ok (name, ':' :: value) ∧
      skipSpace value = (writeAt st level v).toList ++ tail := by
  obtain ⟨cs, hcs, hread⟩ :=
    readString_writeString hname (':' :: ' ' :: ((writeAt st level v).toList ++ tail))
  obtain ⟨c, ds, hds, hc⟩ := writeAt_begins hv st level
  refine ⟨cs, _, ?_, hread, ?_⟩
  · rw [String.toList_append, String.toList_append, List.append_assoc, List.append_assoc]
    exact hcs
  · rw [hds]
    have hspace : ∀ c ∈ [' '], isSpace c = true := List.forall_mem_singleton.mpr rfl
    exact skipSpace_append hspace hc.1 _

theorem readFields_intercalate {fields : List (JsonString × Json)}
    (hnames : ∀ f ∈ fields, f.1.IsStable) (hstable : ∀ f ∈ fields, f.2.IsStable)
    (hread : ∀ f ∈ fields, ReadsBack (writeAt st level f.2) f.2) (hne : fields ≠ [])
    (hspaces : ∀ c ∈ spaces, isSpace c = true) (hend : EndsNumber (spaces ++ '\x7d' :: rest))
    {n : Nat}
    (hn : 2 * ((st.separator level).intercalate (writeFields st level fields)).length + 1 ≤ n) :
    readFields n (((st.separator level).intercalate (writeFields st level fields)).toList ++
      (spaces ++ '\x7d' :: rest)) = .ok (fields, rest) := by
  induction fields generalizing n with
  | nil => exact absurd rfl hne
  | cons f fields ih =>
    obtain ⟨name, v⟩ := f
    obtain ⟨n, rfl⟩ := Nat.exists_eq_succ_of_ne_zero (n := n) (by omega)
    obtain ⟨hname, hnames'⟩ := List.forall_mem_cons.mp hnames
    obtain ⟨hv, hstables⟩ := List.forall_mem_cons.mp hstable
    obtain ⟨hr, hreads⟩ := List.forall_mem_cons.mp hread
    dsimp only at hname hv hr
    have hfield := field_append hname hv st level
    have hlength : (writeAt st level v).length ≤
        (writeString name ++ ": " ++ writeAt st level v).length := by
      rw [String.length_append, String.length_append]
      omega
    cases fields with
    | nil =>
      rw [writeFields, writeFields, String.intercalate_singleton] at hn ⊢
      obtain ⟨cs, value, hcs, hstring, hvalue⟩ := hfield (spaces ++ '\x7d' :: rest)
      rw [hcs]
      refine readFields_close hstring rfl ?_ (skipSpace_append hspaces (by decide) _)
      rw [hvalue]
      exact hr n _ (by omega) hend
    | cons g fields =>
      have hih := ih hnames' hstables hreads (List.cons_ne_nil _ _) (n := n)
      obtain ⟨gap, hsep, hgap⟩ := st.separator_toList level
      obtain ⟨key, w⟩ := g
      obtain ⟨ds, hds⟩ := field_begins key (writeAt st level w)
      obtain ⟨cs', hinner⟩ := intercalate_begins (st.separator level) hds
        (writeFields st level fields)
      rw [← writeFields] at hinner
      obtain ⟨cs, value, hcs, hstring, hvalue⟩ := hfield (',' :: (gap ++
        (((st.separator level).intercalate (writeFields st level ((key, w) :: fields))).toList ++
          (spaces ++ '\x7d' :: rest))))
      rw [writeFields, writeFields, String.intercalate_cons_cons, ← writeFields] at hn ⊢
      have hlengths := congrArg List.length hsep
      rw [String.length_append, String.length_append] at hn
      rw [String.length_toList, List.length_cons] at hlengths
      rw [String.toList_append, String.toList_append, hsep, List.append_assoc, List.append_assoc,
        List.cons_append, hcs]
      have hread := hr n (',' :: (gap ++ (((st.separator level).intercalate
        (writeFields st level ((key, w) :: fields))).toList ++ (spaces ++ '\x7d' :: rest))))
        (by omega) (by rintro _ ⟨⟩; decide)
      rw [← hvalue] at hread
      refine readFields_comma hstring rfl hread rfl ?_
      rw [hinner, List.cons_append, skipSpace_append hgap (by decide), ← List.cons_append, ← hinner]
      exact hih (by omega)

theorem ofFields_of_nodup {fields : List (JsonString × Json)}
    (h : (fields.map Prod.fst).Nodup) : ofFields fields = .object fields :=
  congrArg object ((Registry.foldl_place (by rwa [List.nil_append])).trans (List.nil_append _))

theorem readValue_array {n : Nat} {cs inner : List Char} {items : List Json}
    (hinner : skipSpace cs = inner) (hne : ∀ more, inner ≠ ']' :: more)
    (hitems : readItems n inner = .ok (items, rest)) :
    readValue (n + 1) ('[' :: cs) = .ok (.array items, rest) := by
  rw [readValue, hinner]
  split
  · exact absurd rfl (hne _)
  · rw [hitems]
    rfl

theorem readValue_object {n : Nat} {cs inner : List Char} {fields : List (JsonString × Json)}
    (hinner : skipSpace cs = inner) (hne : ∀ more, inner ≠ '\x7d' :: more)
    (hfields : readFields n inner = .ok (fields, rest)) :
    readValue (n + 1) ('\x7b' :: cs) = .ok (ofFields fields, rest) := by
  rw [readValue, hinner]
  split
  · exact absurd rfl (hne _)
  · rw [hfields]
    rfl

theorem endsNumber_append (h : ∀ c ∈ spaces, isSpace c = true) (hrest : EndsNumber rest) :
    EndsNumber (spaces ++ rest) := by
  cases spaces with
  | nil => exact hrest
  | cons c spaces =>
    rintro _ ⟨⟩
    have hc := (List.forall_mem_cons.mp h).1
    simp only [isSpace, Bool.or_eq_true, decide_eq_true_eq] at hc
    rcases hc with ((rfl | rfl) | rfl) | rfl <;> decide

variable (st level) in
theorem bracket_append {opening closing : String} {o c : Char} (ho : opening.toList = [o])
    (hc : closing.toList = [c]) (t : String) (ts : List String) (rest : List Char) :
    (st.bracket level opening closing (t :: ts)).toList ++ rest =
      o :: ((st.edge (level + 1)).toList ++
        (((st.separator (level + 1)).intercalate (t :: ts)).toList ++
          ((st.edge level).toList ++ c :: rest))) := by
  simp only [Style.bracket, List.isEmpty_cons, Bool.false_eq_true, if_false, String.toList_append,
    List.append_assoc, ho, hc, List.cons_append, List.nil_append]

variable (st level) in
theorem length_bracket (opening closing : String) {o c : Char} (ho : opening.toList = [o])
    (hc : closing.toList = [c]) (t : String) (ts : List String) :
    ((st.separator (level + 1)).intercalate (t :: ts)).length + 2 ≤
      (st.bracket level opening closing (t :: ts)).length := by
  have hlength := congrArg List.length (bracket_append st level ho hc t ts [])
  simp only [List.append_nil, List.length_cons, List.length_append, List.length_nil,
    String.length_toList] at hlength
  omega

theorem readsBack_array {items : List Json} (hstable : ∀ v ∈ items, v.IsStable)
    (hread : ∀ v ∈ items, ReadsBack (writeAt st (level + 1) v) v) :
    ReadsBack (writeAt st level (.array items)) (.array items) := by
  intro n rest hn hrest
  cases items with
  | nil =>
    have htext : writeAt st level (.array []) = "[]" := by rw [writeAt, writeItems]; rfl
    have hlength : "[]".length = 2 := rfl
    rw [htext] at hn ⊢
    obtain ⟨n, rfl⟩ := Nat.exists_eq_succ_of_ne_zero (n := n) (by omega)
    rfl
  | cons v items =>
    obtain ⟨c, cs, hcs, hc⟩ := writeAt_begins (hstable v List.mem_cons_self) st (level + 1)
    obtain ⟨cs', hinner⟩ := intercalate_begins (st.separator (level + 1)) hcs
      (writeItems st (level + 1) items)
    rw [writeAt, writeItems] at hn ⊢
    have hlength := length_bracket st level "[" "]" rfl rfl (writeAt st (level + 1) v)
      (writeItems st (level + 1) items)
    obtain ⟨n, rfl⟩ := Nat.exists_eq_succ_of_ne_zero (n := n) (by omega)
    rw [bracket_append st level rfl rfl, hinner, List.cons_append]
    refine readValue_array (skipSpace_append (st.edge_isSpace _) hc.1 _) ?_ ?_
    · exact fun _ he => hc.2.1 (List.cons.inj he).1
    · rw [← List.cons_append, ← hinner, ← writeItems]
      rw [← writeItems] at hlength hn
      refine readItems_intercalate hstable hread (List.cons_ne_nil _ _) (st.edge_isSpace _) ?_ ?_
      · exact endsNumber_append (st.edge_isSpace _) (by rintro _ ⟨⟩; decide)
      · omega

theorem readsBack_object {fields : List (JsonString × Json)} (hnodup : (fields.map Prod.fst).Nodup)
    (hnames : ∀ f ∈ fields, f.1.IsStable) (hstable : ∀ f ∈ fields, f.2.IsStable)
    (hread : ∀ f ∈ fields, ReadsBack (writeAt st (level + 1) f.2) f.2) :
    ReadsBack (writeAt st level (.object fields)) (.object fields) := by
  intro n rest hn hrest
  cases fields with
  | nil =>
    have htext : writeAt st level (.object []) = "\x7b\x7d" := by rw [writeAt, writeFields]; rfl
    have hlength : "\x7b\x7d".length = 2 := rfl
    rw [htext] at hn ⊢
    obtain ⟨n, rfl⟩ := Nat.exists_eq_succ_of_ne_zero (n := n) (by omega)
    rfl
  | cons f fields =>
    obtain ⟨name, v⟩ := f
    obtain ⟨cs, hcs⟩ := field_begins name (writeAt st (level + 1) v)
    obtain ⟨cs', hinner⟩ := intercalate_begins (st.separator (level + 1)) hcs
      (writeFields st (level + 1) fields)
    rw [writeAt, writeFields] at hn ⊢
    have hlength := length_bracket st level "\x7b" "\x7d" rfl rfl
      (writeString name ++ ": " ++ writeAt st (level + 1) v)
      (writeFields st (level + 1) fields)
    obtain ⟨n, rfl⟩ := Nat.exists_eq_succ_of_ne_zero (n := n) (by omega)
    rw [bracket_append st level rfl rfl, hinner, List.cons_append, ← ofFields_of_nodup hnodup]
    refine readValue_object (skipSpace_append (st.edge_isSpace _) (by decide) _) ?_ ?_
    · exact fun _ he => absurd (List.cons.inj he).1 (by decide)
    · rw [← List.cons_append, ← hinner, ← writeFields]
      rw [← writeFields] at hlength hn
      refine readFields_intercalate hnames hstable hread (List.cons_ne_nil _ _)
        (st.edge_isSpace _) ?_ ?_
      · exact endsNumber_append (st.edge_isSpace _) (by rintro _ ⟨⟩; decide)
      · omega

end

theorem readsBack_writeAt {v : Json} (h : v.IsStable) (st : Style) (level : Nat) :
    ReadsBack (writeAt st level v) v := by
  induction h generalizing level with
  | null =>
    rw [writeAt]
    exact readsBack_word (by decide) (fun _ => rfl) ⟨'n', _, rfl, by decide⟩
  | bool b =>
    cases b
    · rw [writeAt]
      exact readsBack_word (by decide) (fun _ => rfl) ⟨'f', _, rfl, by decide⟩
    · rw [writeAt]
      exact readsBack_word (by decide) (fun _ => rfl) ⟨'t', _, rfl, by decide⟩
  | @int n digits =>
    intro m rest hm hrest
    obtain ⟨c, cs, hcs, _⟩ := writeAt_begins (.int digits) st level
    have hlength := congrArg List.length hcs
    rw [String.length_toList, List.length_cons] at hlength
    obtain ⟨m, rfl⟩ := Nat.exists_eq_succ_of_ne_zero (n := m) (by omega)
    rw [writeAt]
    exact readValue_toString digits hrest
  | infinity negative =>
    cases negative
    · rw [writeAt]
      exact readsBack_word (by decide) (fun _ => rfl) ⟨'I', _, rfl, by decide⟩
    · rw [writeAt]
      exact readsBack_word (by decide) (fun _ => rfl) ⟨'-', _, rfl, by decide⟩
  | @string s points =>
    intro n rest hn _
    obtain ⟨cs, hcs, hread⟩ := readString_writeString points rest
    rw [writeAt] at hn ⊢
    have hlength : 0 < (writeString s).length := by
      rw [← String.length_toList, writeString, String.toList_ofList]
      exact Nat.zero_lt_succ _
    obtain ⟨n, rfl⟩ := Nat.exists_eq_succ_of_ne_zero (n := n) (by omega)
    rw [hcs, readValue, hread]
    rfl
  | array items_stable ih =>
    exact readsBack_array items_stable fun v hv => ih v hv (level + 1)
  | object nodup names values ih =>
    exact readsBack_object nodup names values fun f hf => ih f hf (level + 1)

/-- Whatever the style, a stable value is read from its text. -/
theorem parse_write_of_isStable {v : Json} (h : v.IsStable) (st : Style) :
    parse (v.write st) = .ok v := by
  obtain ⟨c, cs, hcs, hc⟩ := writeAt_begins h st 0
  have hread := readsBack_writeAt h st 0 (2 * (writeAt st 0 v).toList.length + 2) []
    (by rw [String.length_toList]; omega) nofun
  have htext : readText (writeAt st 0 v).toList = .ok v := by
    rw [List.append_nil, hcs] at hread
    rw [hcs]
    unfold readText
    split
    · exact absurd (List.cons.inj ‹_›).1 hc.2.2.2
    · rw [skipSpace, List.dropWhile_cons_of_neg (by simp [hc.1]), hread]
      rfl
  rw [parse, write, htext]
  rfl

end Deductive.Json
