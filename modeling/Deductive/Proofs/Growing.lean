import Deductive.Proofs.Lawful
import Deductive.Proofs.Parsing
import Deductive.Proofs.Printing
import Deductive.Proofs.Substitution

/-!
The signature of the first terms of a signature, each with its notations. Formulas of these terms are
written in it and read in it as in the whole signature.
-/
namespace Deductive

/-- The smaller signature says of the known terms what the larger one says of them, and of no term
anything else. -/
structure Signature.Agrees (small large : Signature) (known : List Name) : Prop where
  delimiters : small.delimiters = large.delimiters
  terms : large.terms.Extends small.terms
  notations : large.notations.Extends small.notations
  declared : ∀ f ∈ known, small.terms.get? f = large.terms.get? f
  notated : ∀ token n, large.notations.get? token = some n → n.term ∈ known →
    small.notations.get? token = some n
  written : ∀ f ∈ known, small.writtenAs? f = large.writtenAs? f

namespace Expr

section

variable {small large : Signature} {known : List Name} {e : Expr}

theorem known_app {f : Name} {args : List Expr} (h : ∀ g ∈ (app f args).terms, g ∈ known) :
    f ∈ known ∧ ∀ a ∈ args, ∀ g ∈ a.terms, g ∈ known := by
  refine ⟨h f (by simp [terms]), fun a ha g hg => h g ?_⟩
  rw [terms, List.mem_cons, mem_termsAll]
  exact .inr ⟨a, ha, hg⟩

theorem layout_eq (hs : small.Agrees large known) {f : Name} (hf : f ∈ known) (k : Nat) :
    small.layout f k = large.layout f k := by
  rw [Signature.layout, Signature.layout, hs.written f hf]

/-- A formula of terms that are laid out alike is written alike, and nested alike when it is read. -/
theorem tokens_nesting_congr (hl : ∀ f ∈ known, ∀ k, small.layout f k = large.layout f k)
    (h : ∀ f ∈ e.terms, f ∈ known) (p : Int) :
    e.tokens small p = e.tokens large p ∧ e.nesting small p = e.nesting large p := by
  induction e using induct generalizing p with
  | var x => exact ⟨rfl, rfl⟩
  | app f args ih =>
    obtain ⟨hf, hargs⟩ := known_app h
    -- The level of an argument depends on its place, so that the places of all are left open.
    have hall (layout : Layout) (i : Nat) :
        tokensAll small layout i args = tokensAll large layout i args ∧
          nestings small layout i args = nestings large layout i args := by
      clear h
      induction args generalizing i with
      | nil => exact ⟨rfl, rfl⟩
      | cons a args ihargs =>
        obtain ⟨ha, hrest⟩ := List.forall_mem_cons.mp hargs
        obtain ⟨iha, ihrest⟩ := List.forall_mem_cons.mp ih
        obtain ⟨htokens, hnesting⟩ := iha ha (layout.argumentLevel i)
        obtain ⟨htokensAll, hnestings⟩ := ihargs ihrest hrest (i + 1)
        rw [tokensAll, tokensAll, nestings, nestings, htokens, hnesting, htokensAll, hnestings]
        exact ⟨rfl, rfl⟩
    obtain ⟨htokens, hnestings⟩ := hall (large.layout f args.length) 0
    rw [tokens, tokens, nesting, nesting, hl f hf, htokens, hnestings]
    exact ⟨rfl, rfl⟩

theorem format_congr (hd : small.delimiters = large.delimiters)
    (hl : ∀ f ∈ known, ∀ k, small.layout f k = large.layout f k) (h : ∀ f ∈ e.terms, f ∈ known) :
    e.format small = e.format large := by
  rw [format, format, (tokens_nesting_congr hl h 0).1, hd]

theorem nesting_eq (hs : small.Agrees large known) (h : ∀ f ∈ e.terms, f ∈ known) (p : Int) :
    e.nesting small p = e.nesting large p :=
  (tokens_nesting_congr (fun _ hf => layout_eq hs hf) h p).2

theorem format_eq (hs : small.Agrees large known) (h : ∀ f ∈ e.terms, f ∈ known) :
    e.format small = e.format large :=
  format_congr hs.delimiters (fun _ hf => layout_eq hs hf) h

theorem openLayout?_eq (hs : small.Agrees large known) (h : ∀ f ∈ e.terms, f ∈ known) (p : Int) :
    e.openLayout? small p = e.openLayout? large p := by
  cases e with
  | var x => rfl
  | app f args => rw [openLayout?, openLayout?, layout_eq hs (known_app h).1]

/-- A formula of the terms is legible in the smaller signature as it is in the larger. -/
theorem Legible.agrees (hs : small.Agrees large known) (he : e.Legible large)
    (h : ∀ f ∈ e.terms, f ∈ known) : e.Legible small := by
  have hplain {s : String} (hplain : large.IsPlain s) : small.IsPlain s :=
    ⟨hs.delimiters ▸ hplain.token, hs.notations.get?_eq_none hplain.plain⟩
  have hnotated {f : Name} {n : Notation} {s : String} (hf : f ∈ known)
      (hwritten : large.writtenAs? f = some n) (hn : large.IsNotated n s) : small.IsNotated n s := by
    refine ⟨hn.named, hs.delimiters ▸ hn.token, hs.notated _ _ hn.notated ?_, hn.prec⟩
    exact (Signature.writtenAs?_eq_some hwritten).2 ▸ hf
  induction he with
  | var symbol undeclared identifier =>
    exact .var (hplain symbol) (hs.terms.get?_eq_none undeclared) identifier
  | constant symbol declared named arity =>
    obtain ⟨hf, _⟩ := known_app h
    exact .constant (hplain symbol) ((hs.declared _ hf).trans declared) named arity
  | named layout symbol declared named arity _ ih =>
    obtain ⟨hf, hargs⟩ := known_app h
    exact .named ((layout_eq hs hf _).trans layout) (hplain symbol)
      ((hs.declared _ hf).trans declared) named arity fun a ha => ih a ha (hargs a ha)
  | before layout symbol _ ih =>
    obtain ⟨hf, hargs⟩ := known_app h
    obtain ⟨hwritten, _, _⟩ := Signature.layout_eq_before layout
    exact .before ((layout_eq hs hf _).trans layout) (hnotated hf hwritten symbol)
      (ih (List.forall_mem_singleton.mp hargs))
  | between layout symbol _ _ parted ihl ihr =>
    obtain ⟨hf, hargs⟩ := known_app h
    obtain ⟨hl, hr⟩ := List.forall_mem_cons.mp hargs
    obtain ⟨hwritten, _, _⟩ := Signature.layout_eq_between layout
    refine .between ((layout_eq hs hf _).trans layout) (hnotated hf hwritten symbol) (ihl hl)
      (ihr (List.forall_mem_singleton.mp hr)) fun layout ho => parted layout ?_
    rw [← openLayout?_eq hs hl]
    exact ho

end
end Expr

namespace Signature

variable {sig : Signature} {first later : List TermDecl} {f : Name}

def notationsOfAll (sig : Signature) (terms : List TermDecl) : List Notation :=
  terms.flatMap fun t => sig.notationsOf t.name

/-- The signature as it is when some of its terms are declared, each with its notations. -/
def upTo (sig : Signature) (first : List TermDecl) : Signature :=
  .ofDecls sig.sorts.values first (sig.notationsOfAll first) sig.delimiters

theorem mem_notationsOfAll {n : Notation} :
    n ∈ sig.notationsOfAll first ↔
      n ∈ sig.notations.values ∧ n.term ∈ first.map TermDecl.name := by
  simp only [notationsOfAll, notationsOf, List.mem_flatMap, List.mem_filter, decide_eq_true_eq,
    List.mem_map]
  constructor
  · rintro ⟨t, ht, hn, he⟩
    exact ⟨hn, t, ht, he.symm⟩
  · rintro ⟨hn, t, ht, he⟩
    exact ⟨t, ht, hn, he.symm⟩

/-- Among the notations of some terms, those of one term stand in their order. -/
theorem filter_notationsOfAll (hn : (first.map TermDecl.name).Nodup)
    (hf : f ∈ first.map TermDecl.name) :
    (sig.notationsOfAll first).filter (fun n => n.term = f) = sig.notationsOf f := by
  induction first with
  | nil => cases hf
  | cons t first ih =>
    obtain ⟨ht, hn⟩ := List.nodup_cons.mp hn
    have hone (g : Name) : (sig.notationsOf g).filter (fun n => n.term = f) =
        if g = f then sig.notationsOf f else [] := by
      split
      · rename_i he
        rw [he, List.filter_eq_self]
        exact fun n hn => (List.mem_filter.mp hn).2
      · rename_i he
        rw [List.filter_eq_nil_iff]
        intro n hn hnf
        have hg : n.term = g := of_decide_eq_true (List.mem_filter.mp hn).2
        exact he (hg.symm.trans (of_decide_eq_true hnf))
    have hcons : sig.notationsOfAll (t :: first) = sig.notationsOf t.name ++ sig.notationsOfAll first :=
      List.flatMap_cons
    rw [hcons, List.filter_append, hone]
    by_cases he : t.name = f
    · have hrest : (sig.notationsOfAll first).filter (fun n => n.term = f) = [] := by
        rw [List.filter_eq_nil_iff]
        intro n hmem hnf
        have hterm := (mem_notationsOfAll.mp hmem).2
        rw [of_decide_eq_true hnf, ← he] at hterm
        exact ht hterm
      rw [if_pos he, hrest, List.append_nil]
    · have hmem : f ∈ first.map TermDecl.name := by
        rcases List.mem_cons.mp hf with hf | hf
        · exact absurd hf.symm he
        · exact hf
      rw [if_neg he, List.nil_append, ih hn hmem]

namespace IsSpelled

variable (h : sig.IsSpelled)
include h

theorem token_eq (token : Name) (n : Notation) (hn : sig.notations.get? token = some n) :
    n.token = token :=
  (h.notations token n hn).1

theorem name_eq (name : Name) (t : TermDecl) (ht : sig.terms.get? name = some t) : t.name = name :=
  (h.terms name t ht).1

theorem get?_token {n : Notation} : n ∈ sig.notations.values ↔ sig.notations.get? n.token = some n := by
  rw [Registry.mem_values_iff]
  constructor
  · rintro ⟨token, hn⟩
    exact h.token_eq token n hn ▸ hn
  · exact fun hn => ⟨_, hn⟩

theorem get?_name {t : TermDecl} : t ∈ sig.terms.values ↔ sig.terms.get? t.name = some t := by
  rw [Registry.mem_values_iff]
  constructor
  · rintro ⟨name, ht⟩
    exact h.name_eq name t ht ▸ ht
  · exact fun ht => ⟨_, ht⟩

theorem nodup_names : (sig.terms.values.map TermDecl.name).Nodup :=
  Registry.nodup_map_values h.name_eq

theorem nodup_tokens (hn : (first.map TermDecl.name).Nodup) :
    ((sig.notationsOfAll first).map Notation.token).Nodup := by
  rw [List.Nodup, List.pairwise_map, notationsOfAll, List.pairwise_flatMap]
  constructor
  · intro t _
    have hall : sig.notations.values.Pairwise (fun m n => m.token ≠ n.token) :=
      List.pairwise_map.mp (Registry.nodup_map_values h.token_eq)
    exact hall.filter _
  · rw [List.Nodup, List.pairwise_map] at hn
    refine hn.imp fun {s t} hst m hm n hn he => hst ?_
    obtain ⟨hm, hs⟩ := List.mem_filter.mp hm
    obtain ⟨hn, ht⟩ := List.mem_filter.mp hn
    rw [h.get?_token] at hm hn
    rw [he, hn] at hm
    rw [← of_decide_eq_true hs, ← of_decide_eq_true ht, Option.some.inj hm]

theorem get?_upTo_notations (hn : (first.map TermDecl.name).Nodup) {token : Name} {n : Notation} :
    (sig.upTo first).notations.get? token = some n ↔
      sig.notations.get? token = some n ∧ n.term ∈ first.map TermDecl.name := by
  have hkeys : (((sig.notationsOfAll first).map fun n => (n.token, n)).map Prod.fst).Nodup := by
    rw [List.map_map]
    exact h.nodup_tokens hn
  change (Registry.ofList _).get? token = some n ↔ _
  rw [Registry.get?_ofList_iff hkeys, List.mem_map]
  constructor
  · rintro ⟨n', hmem, he⟩
    cases he
    obtain ⟨hvalue, hterm⟩ := mem_notationsOfAll.mp hmem
    exact ⟨h.get?_token.mp hvalue, hterm⟩
  · rintro ⟨hget, hterm⟩
    refine ⟨n, mem_notationsOfAll.mpr ⟨Registry.mem_values_iff.mpr ⟨_, hget⟩, hterm⟩, ?_⟩
    rw [h.token_eq token n hget]

theorem values_upTo_notations (hn : (first.map TermDecl.name).Nodup) :
    (sig.upTo first).notations.values = sig.notationsOfAll first := by
  have hkeys : (((sig.notationsOfAll first).map fun n => (n.token, n)).map Prod.fst).Nodup := by
    rw [List.map_map]
    exact h.nodup_tokens hn
  change (Registry.ofList _).values = _
  rw [Registry.values, Registry.entries_ofList hkeys, List.map_map]
  exact List.map_id _

theorem get?_upTo_terms (hfirst : sig.terms.values = first ++ later) {t : TermDecl} :
    (sig.upTo first).terms.get? f = some t ↔
      sig.terms.get? f = some t ∧ f ∈ first.map TermDecl.name := by
  have hn := h.nodup_names
  rw [hfirst, List.map_append] at hn
  have hkeys : ((first.map fun t => (t.name, t)).map Prod.fst).Nodup := by
    rw [List.map_map]
    exact (List.nodup_append.mp hn).1
  have hmem {t : TermDecl} (ht : t ∈ first) : sig.terms.get? t.name = some t :=
    h.get?_name.mp (hfirst ▸ List.mem_append_left _ ht)
  change (Registry.ofList _).get? f = some t ↔ _
  rw [Registry.get?_ofList_iff hkeys, List.mem_map]
  constructor
  · rintro ⟨t', ht, he⟩
    cases he
    exact ⟨hmem ht, List.mem_map_of_mem ht⟩
  · rintro ⟨hget, hf⟩
    obtain ⟨t', ht, rfl⟩ := List.mem_map.mp hf
    rw [hmem ht] at hget
    cases hget
    exact ⟨_, ht, rfl⟩

theorem upTo_agrees (hfirst : sig.terms.values = first ++ later) :
    (sig.upTo first).Agrees sig (first.map TermDecl.name) := by
  have hn : (first.map TermDecl.name).Nodup := by
    have hn := h.nodup_names
    rw [hfirst, List.map_append] at hn
    exact (List.nodup_append.mp hn).1
  refine ⟨rfl, fun f t ht => ((h.get?_upTo_terms hfirst).mp ht).1,
    fun token n hget => ((h.get?_upTo_notations hn).mp hget).1, fun f hf => ?_,
    fun token n hget hterm => (h.get?_upTo_notations hn).mpr ⟨hget, hterm⟩, fun f hf => ?_⟩
  · apply Option.ext
    intro t
    rw [h.get?_upTo_terms hfirst]
    exact and_iff_left hf
  · rw [writtenAs?, writtenAs?, h.values_upTo_notations hn, ← List.head?_filter,
      filter_notationsOfAll hn hf, notationsOf, List.head?_filter]

end IsSpelled
end Signature
end Deductive
