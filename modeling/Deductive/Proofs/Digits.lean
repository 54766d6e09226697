import Deductive.Text.Integer

/-!
Whole numbers are read from the decimal digits that they are written in, and from digits of any
script.
-/
namespace Deductive

theorem toDigits_bounds {n : Nat} {c : Char} (h : c ∈ Nat.toDigits 10 n) : '0' ≤ c ∧ c ≤ '9' := by
  have hdigit := Nat.isDigit_of_mem_toDigits (by decide) (by decide) h
  simpa [Char.isDigit, Char.le_def] using hdigit

/-- Only zero has a zero in front. -/
theorem toDigits_of_pos {n : Nat} (hn : 0 < n) :
    ∃ c cs, Nat.toDigits 10 n = c :: cs ∧ c ≠ '0' := by
  have hdigit : ∀ d < 10, 0 < d → Nat.digitChar d ≠ '0' := by decide
  induction n using Nat.strongRecOn with
  | ind n ih =>
    by_cases hsmall : n < 10
    · exact ⟨_, [], Nat.toDigits_of_lt_base hsmall, hdigit n hsmall hn⟩
    · obtain ⟨c, cs, hcs, hc⟩ := ih (n / 10) (by omega) (by omega)
      refine ⟨c, cs ++ [Nat.digitChar (n % 10)], ?_, hc⟩
      rw [Nat.toDigits_of_base_le (by decide) (Nat.le_of_not_lt hsmall), hcs, List.cons_append]

theorem Text.ofDigits_toDigits (n : Nat) :
    ofDigits ((Nat.toDigits 10 n).map fun c => c.toNat - '0'.toNat) = n := by
  rw [ofDigits, List.foldl_map, ← Nat.ofDigitChars_eq_foldl, Nat.ofDigitChars_ten_toDigits]

/-- A minus for a negative number, and the digits of the absolute value. -/
theorem toList_toString (n : Int) :
    (toString n).toList = (if n < 0 then ['-'] else []) ++ Nat.toDigits 10 n.natAbs := by
  cases n with
  | ofNat n => exact Nat.toList_repr
  | negSucc n =>
    change ("-" ++ (n + 1).repr).toList = _
    rw [String.toList_append, Nat.toList_repr, if_pos (Int.negSucc_lt_zero n)]
    rfl

theorem Text.applySign_natAbs (n : Int) : applySign (decide (n < 0)) n.natAbs = n := by
  unfold applySign
  split
  · rename_i hneg
    have := of_decide_eq_true hneg
    omega
  · rename_i hneg
    have := of_decide_eq_false (Bool.eq_false_iff.mpr hneg)
    omega

namespace Text

theorem digitValue?_of_bounds {c : Char} (h : '0' ≤ c ∧ c ≤ '9') :
    digitValue? c = some (c.toNat - '0'.toNat) := by
  have hlow : 48 ≤ c.toNat := h.1
  have hhigh : c.toNat ≤ 48 + 9 := h.2
  rw [digitValue?, digitZeros, List.find?_cons_of_pos (by simp [hlow, hhigh])]
  rfl

theorem moreDigits_of_bounds {cs : List Char} (h : ∀ c ∈ cs, '0' ≤ c ∧ c ≤ '9') :
    moreDigits cs = some (cs.map fun c => c.toNat - '0'.toNat, []) := by
  induction cs with
  | nil => rfl
  | cons c cs ih =>
    obtain ⟨hc, hcs⟩ := List.forall_mem_cons.mp h
    have hne : c ≠ '_' := by
      rintro rfl
      exact absurd hc.2 (by decide)
    rw [moreDigits, if_neg hne, digitValue?_of_bounds hc, ih hcs]
    rfl

theorem isIntegerBlank_of_bounds {c : Char} (h : '0' ≤ c ∧ c ≤ '9') : isIntegerBlank c = false := by
  have hlow : 48 ≤ c.toNat := h.1
  have hhigh : c.toNat ≤ 57 := h.2
  have hblank : isBlank c = false := by
    rw [isBlank, inSpans, List.any_eq_false]
    intro s hs
    simp only [blanks, List.mem_cons, List.not_mem_nil, or_false] at hs
    simp only [Span.contains, Bool.and_eq_true, decide_eq_true_eq]
    rcases hs with rfl | rfl | rfl | rfl | rfl | rfl | rfl | rfl | rfl | rfl <;> dsimp only <;> omega
  rw [isIntegerBlank, hblank, Bool.false_and]

/-- A number is read from the text that it is written as. -/
theorem readInteger_toString {n : Int} (hn : (Nat.toDigits 10 n.natAbs).length ≤ maxDigits) :
    readInteger (toString n) = .ok n := by
  obtain ⟨c, cs, hcs⟩ := List.exists_cons_of_ne_nil (Nat.toDigits_ne_nil (n := n.natAbs) (b := 10))
  have hbounds : ∀ d ∈ c :: cs, '0' ≤ d ∧ d ≤ '9' := fun d hd => toDigits_bounds (hcs ▸ hd)
  obtain ⟨hc, hrest⟩ := List.forall_mem_cons.mp hbounds
  have hsign : splitSign ((toString n).toList.dropWhile isIntegerBlank) =
      (decide (n < 0), c :: cs) := by
    rw [toList_toString, hcs]
    by_cases hneg : n < 0
    · rw [if_pos hneg, decide_eq_true hneg]
      rfl
    · rw [if_neg hneg, decide_eq_false hneg, List.nil_append,
        List.dropWhile_cons_of_neg (by simp [isIntegerBlank_of_bounds hc])]
      unfold splitSign
      split
      · rename_i he
        exact absurd (List.cons.inj he).1 (by rintro rfl; exact absurd hc.1 (by decide))
      · rename_i he
        exact absurd (List.cons.inj he).1 (by rintro rfl; exact absurd hc.1 (by decide))
      · rfl
  have hdigits : someDigits (c :: cs) = some ((c :: cs).map fun d => d.toNat - '0'.toNat, []) := by
    rw [someDigits, digitValue?_of_bounds hc, moreDigits_of_bounds hrest]
    rfl
  unfold readInteger
  rw [hsign]
  dsimp only
  rw [hdigits]
  dsimp only
  rw [← hcs, List.length_map, if_neg (Nat.not_lt.mpr hn), if_pos List.all_nil, ofDigits_toDigits,
    applySign_natAbs]

/-! Digits of any script. -/

theorem isBlank_of_digit {c : Char} (h : (digitValue? c).isSome = true) : isBlank c = false := by
  have hdisjoint : ∀ base ∈ digitZeros, ∀ s ∈ blanks, s.2 < base ∨ base + 9 < s.1 := by decide
  rw [digitValue?, Option.isSome_map, List.find?_isSome] at h
  obtain ⟨base, hbase, hbounds⟩ := h
  simp only [Bool.and_eq_true, decide_eq_true_eq] at hbounds
  rw [isBlank, inSpans, List.any_eq_false]
  intro s hs
  have := hdisjoint base hbase s hs
  simp only [Span.contains, Bool.and_eq_true, decide_eq_true_eq]
  omega

theorem moreDigits_of_digits {cs : List Char} (h : ∀ c ∈ cs, (digitValue? c).isSome = true) :
    ∃ ds, moreDigits cs = some (ds, []) ∧ ds.length = cs.length := by
  induction cs with
  | nil => exact ⟨[], rfl, rfl⟩
  | cons c cs ih =>
    obtain ⟨hc, hcs⟩ := List.forall_mem_cons.mp h
    obtain ⟨ds, hds, hlength⟩ := ih hcs
    obtain ⟨d, hd⟩ := Option.isSome_iff_exists.mp hc
    have hne : c ≠ '_' := by
      intro he
      rw [he] at hc
      exact absurd hc (by decide)
    refine ⟨d :: ds, ?_, congrArg (· + 1) hlength⟩
    rw [moreDigits, if_neg hne, hd, hds]
    rfl

/-- A text of digits is a number unless there are too many of them. -/
theorem readInteger_of_digits {s : String} (hne : s.toList ≠ [])
    (h : ∀ c ∈ s.toList, (digitValue? c).isSome = true) (hlength : s.toList.length ≤ maxDigits) :
    ∃ n, readInteger s = .ok n := by
  obtain ⟨c, cs, hcs⟩ := List.exists_cons_of_ne_nil hne
  rw [hcs] at h hlength
  obtain ⟨hc, hrest⟩ := List.forall_mem_cons.mp h
  obtain ⟨d, hd⟩ := Option.isSome_iff_exists.mp hc
  obtain ⟨ds, hds, hcount⟩ := moreDigits_of_digits hrest
  have hsign : splitSign ((c :: cs).dropWhile isIntegerBlank) = (false, c :: cs) := by
    rw [List.dropWhile_cons_of_neg (by simp [isIntegerBlank, isBlank_of_digit hc])]
    unfold splitSign
    split
    · rename_i he
      rw [(List.cons.inj he).1] at hc
      exact absurd hc (by decide)
    · rename_i he
      rw [(List.cons.inj he).1] at hc
      exact absurd hc (by decide)
    · rfl
  have hdigits : someDigits (c :: cs) = some (d :: ds, []) := by
    rw [someDigits, hd, hds]
    rfl
  have hfew : ¬ maxDigits < (d :: ds).length := by
    rw [List.length_cons] at hlength ⊢
    omega
  unfold readInteger
  rw [hcs, hsign]
  dsimp only
  rw [hdigits]
  dsimp only
  rw [if_neg hfew, if_pos List.all_nil]
  exact ⟨_, rfl⟩

end Text
end Deductive
