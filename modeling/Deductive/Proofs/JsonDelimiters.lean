import Deductive.Proofs.JsonText
import Deductive.Proofs.Results
import Deductive.Proofs.Spelling
import Deductive.Theory.OfJson
import Deductive.Theory.ToJson
import Mathlib.Data.List.Nodup
import Mathlib.Data.List.Sort

/-!
Delimiters in JSON. The members of a side are written behind one another in order and read as the
characters of the text, so that each has to be a character, and no two may make up a third.
-/
namespace Deductive

theorem decodeAll_map {α β γ : Type} {decode : γ → Decoded β} {f : α → γ} {g : α → β}
    {as : List α} (h : ∀ a ∈ as, decode (f a) = .ok (g a)) :
    decodeAll decode (as.map f) = .ok (as.map g) := by
  induction as with
  | nil => rfl
  | cons a as ih =>
    obtain ⟨ha, has⟩ := List.forall_mem_cons.mp h
    rw [List.map_cons, decodeAll, ha, ok_bind, ih has]
    rfl

/-- An object with distinct texts for names. -/
theorem Json.IsStable.object_of_texts {fields : List (JsonString × Json)} (keys : List String)
    (hkeys : fields.map Prod.fst = keys.map JsonString.text) (hnodup : keys.Nodup)
    (h : ∀ f ∈ fields, f.2.IsStable) : (Json.object fields).IsStable := by
  refine .object ?_ (fun f hf => ?_) h
  · rw [hkeys]
    exact hnodup.map fun _ _ => JsonString.text.inj
  · obtain ⟨key, _, hkey⟩ := List.mem_map.mp (hkeys ▸ List.mem_map_of_mem hf)
    exact hkey ▸ JsonString.isStable_text key

namespace JsonString

theorem points_append (a b : JsonString) : (a ++ b).points = a.points ++ b.points := by
  change (JsonString.append a b).points = _
  cases a with
  | ragged ps => exact points_ofPoints _
  | text s =>
    cases b with
    | ragged ps => exact points_ofPoints _
    | text t => simp [JsonString.append, points]

theorem ofPoints_points_ofPoints (ps : List Nat) : ofPoints (ofPoints ps).points = ofPoints ps := by
  rw [points_ofPoints]

theorem ofPoints_points_append (a b : JsonString) : ofPoints (a ++ b).points = a ++ b := by
  change ofPoints (JsonString.append a b).points = JsonString.append a b
  cases a with
  | ragged ps => exact ofPoints_points_ofPoints _
  | text s =>
    cases b with
    | ragged ps => exact ofPoints_points_ofPoints _
    | text t => exact (isStable_text (s ++ t)).canonical

end JsonString

namespace Name

/-- The name of one code point. -/
def ofPoint (p : Nat) : Name := .ofJson (.string (.ofPoints [p]))

theorem toJsonString_ofJson (s : JsonString) : (ofJson (.string s)).toJsonString = s := by
  cases s <;> rfl

theorem eq_text_of_text? {n : Name} {s : String} (h : n.toJson.text? = some s) : n = .text s := by
  cases n with
  | text t =>
    cases h
    rfl
  | value v hv => cases hv.symm.trans h

theorem points_ofPoint (p : Nat) : (ofPoint p).points = [p] := by
  rw [ofPoint, points, toJson_ofJson]
  exact JsonString.points_ofPoints [p]

theorem ofPoint_injective {p q : Nat} (h : ofPoint p = ofPoint q) : p = q := by
  have := congrArg points h
  rw [points_ofPoint, points_ofPoint] at this
  exact List.head_eq_of_cons_eq this

theorem mem_map_ofPoint {p : Nat} {ps : List Nat} : ofPoint p ∈ ps.map ofPoint ↔ p ∈ ps := by
  refine ⟨fun h => ?_, List.mem_map_of_mem⟩
  obtain ⟨q, hq, he⟩ := List.mem_map.mp h
  exact ofPoint_injective he ▸ hq

theorem ofPoint_toNat (c : Char) : ofPoint c.toNat = .text (String.singleton c) := by
  rw [ofPoint, show [c.toNat] = [c].map Char.toNat from rfl, JsonString.ofPoints_toNat]
  rfl

theorem atMost_ofPoint (p q : Nat) : (ofPoint p).atMost (ofPoint q) = decide (p ≤ q) := by
  have hquotient (p : Nat) : (ofPoint p).toJson.quotient? = none := by
    rw [ofPoint, toJson_ofJson]
    rfl
  rw [atMost, hquotient, hquotient]
  change (!List.lex (ofPoint q).points (ofPoint p).points (· < ·)) = _
  rw [points_ofPoint, points_ofPoint]
  simp [List.lex, ← decide_not]

end Name

theorem nodup_eraseDups {α : Type} [BEq α] [LawfulBEq α] (as : List α) : as.eraseDups.Nodup := by
  induction hn : as.length using Nat.strongRecOn generalizing as with
  | ind n ih =>
    cases as with
    | nil => exact List.nodup_nil
    | cons a as =>
      rw [List.eraseDups_cons, List.nodup_cons, List.mem_eraseDups]
      refine ⟨by simp, ih _ ?_ _ rfl⟩
      have := List.length_filter_le (fun b => !b == a) as
      rw [← hn, List.length_cons]
      omega

namespace Name

theorem exists_points {names : List Name} {P : Nat → Prop}
    (h : ∀ n ∈ names, ∃ p, P p ∧ n = ofPoint p) :
    ∃ ps : List Nat, names = ps.map ofPoint ∧ ∀ p ∈ ps, P p := by
  induction names with
  | nil => exact ⟨[], rfl, nofun⟩
  | cons n names ih =>
    obtain ⟨⟨p, hp, hn⟩, hnames⟩ := List.forall_mem_cons.mp h
    obtain ⟨ps, hps, hall⟩ := ih hnames
    exact ⟨p :: ps, by rw [hn, hps, List.map_cons], List.forall_mem_cons.mpr ⟨hp, hall⟩⟩

/-- Code points in order are the order of their names. -/
theorem sorted_eq {names : List Name} {ps : List Nat} (hps : ps.Pairwise (· < ·))
    (h : ∀ n, n ∈ names ↔ n ∈ ps.map ofPoint) : sorted names = ps.map ofPoint := by
  obtain ⟨qs, hqs, _⟩ := exists_points (P := fun _ => True) fun n (hn : n ∈ names.eraseDups) => by
    obtain ⟨p, _, hp⟩ := List.mem_map.mp ((h n).mp (List.mem_eraseDups.mp hn))
    exact ⟨p, trivial, hp.symm⟩
  have hnodup : qs.Nodup := List.Nodup.of_map ofPoint (hqs ▸ nodup_eraseDups names)
  have hmem (p : Nat) : p ∈ qs ↔ p ∈ ps := by
    have := (List.mem_eraseDups (a := ofPoint p) (l := names)).trans (h (ofPoint p))
    rwa [hqs, mem_map_ofPoint, mem_map_ofPoint] at this
  have hperm : (qs.mergeSort (· ≤ ·)).Perm ps :=
    (List.mergeSort_perm qs _).trans ((List.perm_ext_iff_of_nodup hnodup
      (hps.imp Nat.ne_of_lt)).mpr hmem)
  have hsort : qs.mergeSort (· ≤ ·) = ps :=
    List.Perm.eq_of_pairwise' (List.pairwise_mergeSort' (· ≤ ·) qs) (hps.imp Nat.le_of_lt) hperm
  rw [sorted, hqs, ← List.map_mergeSort (s := atMost) (r := fun p q => decide (p ≤ q)), hsort]
  exact fun p _ q _ => (atMost_ofPoint p q).symm

end Name

namespace Delimiters

/-- One side of the delimiters: characters, and surrogates, which are kept apart in order. A high
and a low surrogate next to each other would be read as one character. -/
structure IsStableSide (texts : StringSet) (strays : List Name) : Prop where
  texts : ∀ s ∈ texts, ∃ c, s = String.singleton c
  strays : ∃ ps : List Nat, strays = ps.map Name.ofPoint ∧ ps.Pairwise (· < ·) ∧
    ((∀ p ∈ ps, Json.isHighSurrogate p = true) ∨ ∀ p ∈ ps, Json.isLowSurrogate p = true)

variable {texts : StringSet} {strays : List Name}

theorem mem_members {n : Name} :
    n ∈ members texts strays ↔ (∃ s ∈ texts, n = .text s) ∨ n ∈ strays := by
  have htexts : n ∈ texts.toList.map Name.text ↔ ∃ s ∈ texts, n = .text s := by
    rw [List.mem_map]
    exact exists_congr fun s => and_congr_right fun _ => eq_comm
  unfold members
  dsimp only
  split
  · rename_i hempty
    rw [htexts, List.isEmpty_iff.mp hempty]
    simp
  · rw [Name.sorted, List.mem_mergeSort, List.mem_eraseDups, List.mem_append, htexts]

theorem joined_map_ofPoint (ps : List Nat) : joined (ps.map Name.ofPoint) = .ofPoints ps := by
  have hfold (ps : List Nat) (s : JsonString) (hs : JsonString.ofPoints s.points = s) :
      (ps.map Name.ofPoint).foldl (fun s n => s ++ n.toJsonString) s =
        .ofPoints (s.points ++ ps) := by
    induction ps generalizing s with
    | nil => rw [List.map_nil, List.foldl_nil, List.append_nil, hs]
    | cons p ps ih =>
      rw [List.map_cons, List.foldl_cons, ih _ (JsonString.ofPoints_points_append _ _),
        JsonString.points_append, Name.ofPoint, Name.toJsonString_ofJson,
        JsonString.points_ofPoints, List.append_assoc]
      rfl
  exact hfold ps "" rfl

theorem decodeSide_ofPoints (ps : List Nat) :
    decodeSide (some (.string (.ofPoints ps))) = .ok (ps.map Name.ofPoint) := by
  change decodeAll decodeMember
    ((JsonString.ofPoints ps).points.map fun n => .string (.ofPoints [n])) = _
  rw [JsonString.points_ofPoints]
  refine decodeAll_map fun p _ => ?_
  exact if_pos (by rw [Name.isKey, Name.toJson_ofJson])

/-- A surrogate is no character. -/
theorem text?_ofPoint (p : Nat) : (Name.ofPoint p).toJson.text? =
    if p.isValidChar then some (String.singleton (Char.ofNat p)) else none := by
  rw [Name.ofPoint, Name.toJson_ofJson, JsonString.ofPoints, List.all_cons, List.all_nil,
    Bool.and_true]
  by_cases hp : p.isValidChar
  · rw [if_pos (decide_eq_true hp), if_pos hp]
    rfl
  · rw [if_neg (by simpa using hp), if_neg hp]
    rfl

theorem not_isValidChar {p : Nat}
    (h : Json.isHighSurrogate p = true ∨ Json.isLowSurrogate p = true) : ¬ p.isValidChar := by
  rw [Json.isHighSurrogate_iff, Json.isLowSurrogate_iff] at h
  rw [Nat.isValidChar]
  omega

namespace IsStableSide

variable (h : IsStableSide texts strays)

include h

theorem text?_eq_none {n : Name} (hn : n ∈ strays) : n.toJson.text? = none := by
  obtain ⟨ps, rfl, _, hsurrogates⟩ := h.strays
  obtain ⟨p, hp, rfl⟩ := List.mem_map.mp hn
  rw [text?_ofPoint, if_neg (not_isValidChar (hsurrogates.imp (· p hp) (· p hp)))]

theorem mem_texts_iff {s : String} : Name.text s ∈ members texts strays ↔ s ∈ texts := by
  rw [mem_members]
  constructor
  · rintro (⟨t, ht, he⟩ | hs)
    · cases he
      exact ht
    · cases h.text?_eq_none hs
  · exact fun hs => .inl ⟨s, hs, rfl⟩

theorem textsOf_members : textsOf (members texts strays) = texts := by
  refine StringSet.ext fun s => ?_
  rw [textsOf, StringSet.mem_ofList, List.mem_filterMap, ← h.mem_texts_iff]
  constructor
  · rintro ⟨n, hn, hs⟩
    exact Name.eq_text_of_text? hs ▸ hn
  · exact fun hs => ⟨_, hs, rfl⟩

theorem straysOf_members : straysOf (members texts strays) = strays := by
  obtain ⟨ps, hps, hsorted, _⟩ := h.strays
  rw [straysOf, hps]
  refine Name.sorted_eq hsorted fun n => ?_
  rw [← hps, List.mem_filter, Option.isNone_iff_eq_none, mem_members]
  constructor
  · rintro ⟨⟨s, _, rfl⟩ | hn, hnone⟩
    · cases hnone
    · exact hn
  · exact fun hn => ⟨.inr hn, h.text?_eq_none hn⟩

theorem members_eq : ∃ ps : List Nat, members texts strays = ps.map Name.ofPoint ∧
    (JsonString.ofPoints ps).IsStable := by
  obtain ⟨ss, hss, _, hsurrogates⟩ := h.strays
  have hmembers : ∀ n ∈ members texts strays,
      ∃ p, (p.isValidChar ∨ p ∈ ss) ∧ n = Name.ofPoint p := by
    intro n hn
    rcases mem_members.mp hn with ⟨s, hs, rfl⟩ | hn
    · obtain ⟨c, rfl⟩ := h.texts s hs
      exact ⟨c.toNat, .inl c.valid, (Name.ofPoint_toNat c).symm⟩
    · rw [hss] at hn
      obtain ⟨p, hp, rfl⟩ := List.mem_map.mp hn
      exact ⟨p, .inr hp, rfl⟩
  obtain ⟨ps, hps, hpoints⟩ := Name.exists_points hmembers
  have hlone {p : Nat} (hp : p ∈ ps)
      (hs : Json.isHighSurrogate p = true ∨ Json.isLowSurrogate p = true) : p ∈ ss :=
    (hpoints p hp).resolve_left (not_isValidChar hs)
  refine ⟨ps, hps, JsonString.ofPoints_points_ofPoints ps, ?_, ?_⟩
  · rw [JsonString.points_ofPoints]
    intro p hp
    rcases hpoints p hp with hvalid | hs
    · exact hvalid.elim (fun h => Nat.lt_trans h (by decide)) And.right
    · have hsurrogate := hsurrogates.imp (· p hs) (· p hs)
      rw [Json.isHighSurrogate_iff, Json.isLowSurrogate_iff] at hsurrogate
      omega
  · rw [JsonString.points_ofPoints]
    refine Json.areUnpaired_of_forall fun m hm n hn ⟨hhigh, hlow⟩ => ?_
    have hne (p : Nat) (hh : Json.isHighSurrogate p = true) (hl : Json.isLowSurrogate p = true) :
        False := by
      rw [Json.isHighSurrogate_iff] at hh
      rw [Json.isLowSurrogate_iff] at hl
      omega
    rcases hsurrogates with hall | hall
    · exact hne n (hall n (hlone hn (.inr hlow))) hlow
    · exact hne m hhigh (hall m (hlone hm (.inl hhigh)))

end IsStableSide

structure IsStable (d : Delimiters) : Prop where
  left : IsStableSide d.left d.strayLeft
  right : IsStableSide d.right d.strayRight

/-- Delimiters that are characters are read from the JSON that they are written as. -/
theorem IsStable.toJson {d : Delimiters} (h : d.IsStable) :
    d.toJson.IsStable ∧ ofJson d.toJson = .ok d := by
  obtain ⟨ls, hls, hleft⟩ := h.left.members_eq
  obtain ⟨rs, hrs, hright⟩ := h.right.members_eq
  have hjson : d.toJson =
      .object [("left", .string (.ofPoints ls)), ("right", .string (.ofPoints rs))] := by
    rw [Delimiters.toJson, leftMembers, rightMembers, hls, hrs, joined_map_ofPoint,
      joined_map_ofPoint]
  rw [hjson]
  constructor
  · refine .object_of_texts ["left", "right"] rfl (by decide) ?_
    simp [Json.IsStable.string hleft, Json.IsStable.string hright]
  · change (decodeSide (some (.string (.ofPoints ls))) >>= fun left =>
      decodeSide (some (.string (.ofPoints rs))) >>= fun right =>
      pure (Delimiters.mk (textsOf left) (textsOf right) (straysOf left) (straysOf right))) = _
    rw [decodeSide_ofPoints, decodeSide_ofPoints, ok_bind, ok_bind, ← hls, ← hrs,
      h.left.textsOf_members, h.right.textsOf_members, h.left.straysOf_members,
      h.right.straysOf_members]
    rfl

end Delimiters
end Deductive
