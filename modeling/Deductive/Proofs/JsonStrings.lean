import Deductive.Json.Reader
import Deductive.Json.Writer

/-!
Strings in JSON text. A code point is written in units of sixteen bits and read back from them; only
where a high surrogate stands right before a low one, the two are read as one code point.
-/
namespace Deductive

theorem Text.hexValue?_digitChar : ∀ d < 16, hexValue? (Nat.digitChar d) = some d := by decide

namespace Json

/-- The units of sixteen bits of a code point. -/
def unitsOf (n : Nat) : List Nat :=
  if n < 0x10000 then [n] else [0xD800 + (n - 0x10000) / 0x400, 0xDC00 + (n - 0x10000) % 0x400]

section

variable {n : Nat} {units : List Nat} {start more rest : List Char}

theorem unit?_hexDigits (hn : n < 0x10000) :
    ∃ a b c d, Text.hexDigits 4 n = [a, b, c, d] ∧ unit? a b c d = some n := by
  refine ⟨_, _, _, _, rfl, ?_⟩
  have hdigit (m : Nat) : Text.hexValue? (Nat.digitChar (m % 16)) = some (m % 16) :=
    Text.hexValue?_digitChar _ (Nat.mod_lt _ (by decide))
  rw [unit?, hdigit, hdigit, hdigit, hdigit]
  simp only [Option.bind_eq_bind, Option.bind_some, Option.pure_def, Option.some.injEq]
  omega

theorem stringUnits_unitEscape (hn : n < 0x10000) (hmore : more ≠ [])
    (h : stringUnits start more = .ok (units, rest)) :
    stringUnits start (unitEscape n ++ more) = .ok (n :: units, rest) := by
  obtain ⟨a, b, c, d, hdigits, hunit⟩ := unit?_hexDigits hn
  obtain ⟨next, more, rfl⟩ := List.exists_cons_of_ne_nil hmore
  rw [unitEscape, hdigits]
  change stringUnits start ('\\' :: 'u' :: a :: b :: c :: d :: next :: more) = _
  rw [stringUnits, hunit]
  dsimp only
  rw [h]
  rfl

theorem stringUnits_codeEscape (hn : n < 0x110000) (hmore : more ≠ [])
    (h : stringUnits start more = .ok (units, rest)) :
    stringUnits start (codeEscape n ++ more) = .ok (unitsOf n ++ units, rest) := by
  rw [codeEscape, unitsOf]
  split
  · exact stringUnits_unitEscape ‹_› hmore h
  · rw [List.append_assoc]
    refine stringUnits_unitEscape (by omega) (by simp [unitEscape]) ?_
    exact stringUnits_unitEscape (by omega) hmore h

theorem stringUnits_simpleEscape {c e : Char} (he : simpleEscape? c = some e)
    (h : stringUnits start more = .ok (units, rest)) :
    stringUnits start ('\\' :: c :: more) = .ok (e.toNat :: units, rest) := by
  have hc : c ≠ 'u' := by
    rintro rfl
    cases he
  rw [stringUnits]
  · rw [he]
    dsimp only
    rw [h]
    rfl
  · intro _ _ _ _ _ _ hu
    exact fun _ => hc hu

theorem stringUnits_plain {c : Char} (hquote : c ≠ '"') (hescape : c ≠ '\\') (hc : ¬ c < ' ')
    (h : stringUnits start more = .ok (units, rest)) :
    stringUnits start (c :: more) = .ok (c.toNat :: units, rest) := by
  rw [stringUnits]
  · rw [if_neg hc, h]
    rfl
  · exact hquote
  · intro _ _ _ _ _ _ he
    exact fun _ => hescape he
  · intro _ _ he
    exact fun _ => hescape he
  · intro he
    exact fun _ => hescape he

theorem stringUnits_escapePoint (hn : n < 0x110000) (hmore : more ≠ [])
    (h : stringUnits start more = .ok (units, rest)) :
    stringUnits start (escapePoint n ++ more) = .ok (unitsOf n ++ units, rest) := by
  unfold escapePoint
  iterate 7
    split
    · subst n
      exact stringUnits_simpleEscape rfl h
  split
  · rename_i hquote hescape _ _ _ _ _ hplain
    obtain ⟨hlow, hhigh⟩ : 32 ≤ n ∧ n ≤ 126 := hplain
    have hvalue : (Char.ofNat n).toNat = n := by
      rw [Char.ofNat, dif_pos (.inl (by omega))]
      rfl
    have hne {c : Char} (hc : n ≠ c.toNat) : Char.ofNat n ≠ c := by
      rintro rfl
      exact hc hvalue.symm
    have hblank : ¬ Char.ofNat n < ' ' := by
      rw [Char.lt_def, UInt32.lt_iff_toNat_lt]
      change ¬ (Char.ofNat n).toNat < 32
      omega
    have hunits : unitsOf n = [(Char.ofNat n).toNat] := by rw [unitsOf, if_pos (by omega), hvalue]
    rw [hunits]
    exact stringUnits_plain (hne hquote) (hne hescape) hblank h
  · exact stringUnits_codeEscape hn hmore h

theorem stringUnits_escaped {points : List Nat} (hpoints : ∀ n ∈ points, n < 0x110000) :
    stringUnits start (points.flatMap escapePoint ++ '"' :: rest) =
      .ok (points.flatMap unitsOf, rest) := by
  induction points with
  | nil => rw [List.flatMap_nil, List.nil_append, stringUnits]; rfl
  | cons n points ih =>
    obtain ⟨hn, hpoints⟩ := List.forall_mem_cons.mp hpoints
    rw [List.flatMap_cons, List.append_assoc]
    exact stringUnits_escapePoint hn (by simp) (ih hpoints)

theorem isHighSurrogate_iff : isHighSurrogate n = true ↔ 0xD800 ≤ n ∧ n < 0xDC00 := by
  simp [isHighSurrogate]

theorem isLowSurrogate_iff : isLowSurrogate n = true ↔ 0xDC00 ≤ n ∧ n < 0xE000 := by
  simp [isLowSurrogate]

/-- A high surrogate right before a low one. -/
def ArePair (m n : Nat) : Prop := isHighSurrogate m = true ∧ isLowSurrogate n = true

/-- No high surrogate stands right before a low one. -/
def AreUnpaired : List Nat → Prop
  | [] => True
  | n :: ns => (∀ m ∈ ns.head?, ¬ ArePair n m) ∧ AreUnpaired ns

theorem areUnpaired_of_forall {ns : List Nat} (h : ∀ m ∈ ns, ∀ n ∈ ns, ¬ ArePair m n) :
    AreUnpaired ns := by
  induction ns with
  | nil => trivial
  | cons n ns ih =>
    refine ⟨fun m hm => h n List.mem_cons_self m (List.mem_cons_of_mem _ (List.mem_of_head? hm)), ?_⟩
    exact ih fun m hm k hk => h m (List.mem_cons_of_mem _ hm) k (List.mem_cons_of_mem _ hk)

theorem joinSurrogates_unitsOf {n : Nat} (hn : n < 0x110000) {units : List Nat}
    (hunits : ∀ m ∈ units.head?, ¬ ArePair n m) :
    joinSurrogates (unitsOf n ++ units) = n :: joinSurrogates units := by
  unfold unitsOf
  split
  · cases units with
    | nil => rfl
    | cons m units =>
      have hpair := hunits m rfl
      rw [ArePair, ← Bool.and_eq_true] at hpair
      rw [List.singleton_append, joinSurrogates, if_neg hpair]
  · have hhigh : isHighSurrogate (0xD800 + (n - 0x10000) / 0x400) = true :=
      isHighSurrogate_iff.mpr (by omega)
    have hlow : isLowSurrogate (0xDC00 + (n - 0x10000) % 0x400) = true :=
      isLowSurrogate_iff.mpr (by omega)
    rw [List.cons_append, List.singleton_append, joinSurrogates, if_pos (by rw [hhigh, hlow]; rfl)]
    refine congrArg (· :: joinSurrogates units) ?_
    omega

theorem joinSurrogates_units {points : List Nat} (hpoints : ∀ n ∈ points, n < 0x110000)
    (hpairs : AreUnpaired points) : joinSurrogates (points.flatMap unitsOf) = points := by
  induction points with
  | nil => rfl
  | cons n points ih =>
    obtain ⟨hn, hrest⟩ := List.forall_mem_cons.mp hpoints
    obtain ⟨hnext, hpairs⟩ := hpairs
    rw [List.flatMap_cons, joinSurrogates_unitsOf hn, ih hrest hpairs]
    cases points with
    | nil => nofun
    | cons m points =>
      -- A code point outside the first plane begins with a high surrogate.
      intro unit hunit
      unfold unitsOf at hunit
      rw [List.flatMap_cons] at hunit
      split at hunit
      · cases hunit
        exact hnext m rfl
      · cases hunit
        rintro ⟨_, hlow⟩
        have := isLowSurrogate_iff.mp hlow
        have := (List.forall_mem_cons.mp hrest).1
        omega

end
end Json

namespace JsonString

/-- Code points that JSON text keeps. -/
structure IsStable (s : JsonString) : Prop where
  canonical : ofPoints s.points = s
  points : ∀ n ∈ s.points, n < 0x110000
  pairs : Json.AreUnpaired s.points

theorem ofPoints_toNat (cs : List Char) : ofPoints (cs.map Char.toNat) = text (String.ofList cs) := by
  have hvalid : (cs.map Char.toNat).all (fun n => decide n.isValidChar) = true := by
    rw [List.all_eq_true]
    intro n hn
    obtain ⟨c, _, rfl⟩ := List.mem_map.mp hn
    exact decide_eq_true c.valid
  have hchars : (cs.map Char.toNat).map Char.ofNat = cs := by
    rw [List.map_map]
    exact (List.map_congr_left fun c _ => Char.ofNat_toNat c).trans (List.map_id _)
  rw [ofPoints, if_pos hvalid, hchars]

/-- No character is a surrogate. -/
theorem isStable_text (s : String) : (text s).IsStable where
  canonical := by rw [points, ofPoints_toNat, String.ofList_toList]
  points n hn := by
    obtain ⟨c, _, rfl⟩ := List.mem_map.mp hn
    exact c.valid.elim (fun h => Nat.lt_trans h (by decide)) And.right
  pairs := by
    refine Json.areUnpaired_of_forall fun m hm n _ hpair => ?_
    obtain ⟨c, _, rfl⟩ := List.mem_map.mp hm
    have hhigh := Json.isHighSurrogate_iff.mp hpair.1
    have hvalid : c.toNat < 0xD800 ∨ 0xDFFF < c.toNat ∧ c.toNat < 0x110000 := c.valid
    omega

end JsonString

namespace Json

theorem readString_writeString {s : JsonString} (h : s.IsStable) (rest : List Char) :
    ∃ cs, (writeString s).toList ++ rest = '"' :: cs ∧ readString cs = .ok (s, rest) := by
  refine ⟨s.points.flatMap escapePoint ++ '"' :: rest, ?_, ?_⟩
  · simp [writeString]
  · rw [readString, stringUnits_escaped h.points]
    change Except.ok (JsonString.ofPoints (joinSurrogates (s.points.flatMap unitsOf)), rest) = _
    rw [joinSurrogates_units h.points h.pairs, h.canonical]

end Json
end Deductive
