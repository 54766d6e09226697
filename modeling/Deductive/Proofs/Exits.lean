import Deductive.Proofs.Decoding
import Deductive.Proofs.Digits
import Deductive.Proofs.Findings
import Deductive.Proofs.Shown

/-!
How runs of the command line end. A run that is given readable settings, paths that files can have
and a theory made of names that it can print is stopped by no fault: it ends with a code, and what
goes wrong is reported.
-/
namespace Deductive

/-- Where the depth is made of digits only, they are decimal ones, and no more than can be read. -/
def Settings.IsReadableDepth (text : String) : Prop :=
  (Text.strip text).toList.all Text.isDigitSign = true →
    (Text.strip text).toList.all (fun c => (Text.digitValue? c).isSome) = true ∧
      (Text.strip text).toList.length ≤ Text.maxDigits

namespace Settings

theorem IsReadableDepth.readDepth_ne {text : String} (h : IsReadableDepth text)
    (e : Text.IntegerError) : readDepth text ≠ .error (.badInteger e) := by
  unfold readDepth
  dsimp only
  split
  · nofun
  · rename_i hsigns
    simp only [Bool.or_eq_true, Bool.not_eq_true', not_or, Bool.not_eq_true,
      Bool.not_eq_false] at hsigns
    obtain ⟨hempty, hsigns⟩ := hsigns
    obtain ⟨hdigits, hlength⟩ := h hsigns
    have hne : (Text.strip text).toList ≠ [] := by
      intro hnil
      simp [String.toList_eq_nil_iff.mp hnil] at hempty
    obtain ⟨n, hn⟩ := Text.readInteger_of_digits hne (List.all_eq_true.mp hdigits) hlength
    rw [hn]
    dsimp only
    split <;> nofun

theorem ofEnvironment_ne {env : Registry String String}
    (h : ∀ text, env.get? depthVariable = some text → IsReadableDepth text)
    (e : Text.IntegerError) : ofEnvironment env ≠ .error (.badInteger e) := by
  unfold ofEnvironment
  dsimp only
  split
  · nofun
  · split
    · nofun
    · rename_i text htext
      have hne := (h text htext).readDepth_ne e
      cases hread : readDepth text with
      | ok n => nofun
      | error cause =>
        rw [hread] at hne
        intro he
        cases he
        exact hne rfl

end Settings

theorem Declaration.HasDigits.lt_length {text : List Char} {n : Nat} (h : HasDigits text n) :
    Text.maxDigits < text.length := by
  obtain ⟨hlong, digits, hinfix, hdigits, _⟩ := h
  have := hinfix.length_le
  omega

namespace CommandLine

theorem mem_splitAtChar {separator c : Char} {cs part : List Char}
    (hpart : part ∈ splitAtChar separator cs) (hc : c ∈ part) : c ∈ cs := by
  induction cs generalizing part with
  | nil =>
    obtain rfl := List.mem_singleton.mp hpart
    cases hc
  | cons d ds ih =>
    rw [splitAtChar] at hpart
    split at hpart
    · rcases List.mem_cons.mp hpart with rfl | hpart
      · cases hc
      · exact List.mem_cons_of_mem _ (ih hpart hc)
    · split at hpart
      · obtain rfl := List.mem_singleton.mp hpart
        obtain rfl := List.mem_singleton.mp hc
        exact List.mem_cons_self
      · rename_i first parts hsplit
        rw [hsplit] at ih
        rcases List.mem_cons.mp hpart with rfl | hpart
        · rcases List.mem_cons.mp hc with rfl | hc
          · exact List.mem_cons_self
          · exact List.mem_cons_of_mem _ (ih List.mem_cons_self hc)
        · exact List.mem_cons_of_mem _ (ih (List.mem_cons_of_mem _ hpart) hc)

namespace Path

theorem mem_rootOf {c : Char} {cs : List Char} (h : c ∈ (rootOf cs).toList) : c = '/' := by
  unfold rootOf at h
  split at h
  · cases h
  · simpa using h
  · simpa using h

theorem mem_stem {p : Path} {c : Char} (h : c ∈ p.stem) : ∃ part ∈ p.parts, c ∈ part := by
  have hname : c ∈ p.name := by
    unfold stem at h
    dsimp only at h
    split at h
    · exact h
    · exact List.mem_reverse.mp (List.mem_of_mem_drop (List.mem_reverse.mp h))
  unfold name at hname
  cases hlast : p.parts.getLast? with
  | none =>
    rw [hlast] at hname
    cases hname
  | some part =>
    rw [hlast] at hname
    exact ⟨part, List.mem_of_getLast? hlast, hname⟩

/-- The path with another suffix is made of the characters of the path and of the suffix. -/
theorem mem_withSuffix {s suffix : String} {c : Char}
    (h : c ∈ ((ofString s).withSuffix suffix).toString.toList) :
    c = '/' ∨ c ∈ s.toList ∨ c ∈ suffix.toList := by
  have hparts {part : List Char} (hpart : part ∈ (ofString s).parts) (hc : c ∈ part) :
      c ∈ s.toList :=
    mem_splitAtChar (List.mem_filter.mp hpart).1 hc
  rw [Path.toString, if_neg (by simp [withSuffix]), String.toList_append, List.mem_append] at h
  rcases h with h | h
  · exact .inl (mem_rootOf h)
  · rcases mem_intercalate h with h | ⟨w, hw, hc⟩
    · exact .inl (List.mem_singleton.mp h)
    · obtain ⟨part, hpart, rfl⟩ := List.mem_map.mp hw
      rw [String.toList_ofList] at hc
      rcases List.mem_append.mp hpart with hpart | hpart
      · exact .inr (.inl (hparts (List.dropLast_subset _ hpart) hc))
      · obtain rfl := List.mem_singleton.mp hpart
        rcases List.mem_append.mp hc with hc | hc
        · obtain ⟨part, hpart, hc⟩ := mem_stem hc
          exact .inr (.inl (hparts hpart hc))
        · exact .inr (.inr hc)

end Path

namespace Request

/-- Names are printed as they are. JSON escapes what is no character. -/
def printsNames (r : Request) : Bool :=
  match r.command with
  | .check => !r.json
  | .verify => !r.json
  | .render => true
  | .dump => false

/-- What is asked of the names in a theory: they can be joined, and where they are printed they are
made of characters. -/
def Admits (r : Request) (n : Name) : Prop :=
  n.isText = true ∧ (r.printsNames = true → n.isEncodable = true)

theorem admits_isTextual (r : Request) : Name.IsTextual r.Admits :=
  ⟨fun _ => ⟨rfl, fun _ => rfl⟩, fun _ h => h.1⟩

/-- A theory that a request can be carried out with. -/
structure Takes (r : Request) (t : Theory) : Prop where
  names : t.AllNames r.Admits
  name : r.printsNames = true → t.name.isEncodable = true

/-- What has only the names of a theory can be printed. -/
theorem Takes.isEncodable {r : Request} {t : Theory} (h : r.Takes t) (hprints : r.printsNames = true)
    {p : Phrase} (hp : ∀ n ∈ p.names, n = t.name ∨ r.Admits n) : p.isEncodable = true := by
  refine List.all_eq_true.mpr fun n hn => ?_
  rcases hp n hn with rfl | hadmits
  · exact h.name hprints
  · exact hadmits.2 hprints

end Request

namespace Source

/-- A file can have the path. -/
def IsOpenable : Source → Prop
  | bundled _ _ => True
  | file path => '\x00' ∉ path.toList

theorem IsOpenable.proofsBeside {s : Source} (h : s.IsOpenable) : s.proofsBeside.IsOpenable := by
  cases s with
  | bundled path text => trivial
  | file path =>
    intro hmem
    rcases Path.mem_withSuffix hmem with hslash | hpath | hsuffix
    · exact absurd hslash (by decide)
    · exact h hpath
    · exact absurd hsuffix (by decide)

/-- The text that is read, with line feeds at the ends of its lines. -/
def Gives (read : String → Except FileError String) : Source → String → Prop
  | bundled _ text, t => t = text
  | file path, t =>
    ∃ raw, read path = .ok raw ∧ t = String.ofList (normalizeNewlines raw.toList)

/-- A request can be carried out with what is read, or refuses it with a report. In a file of
declarations no number is too long; JSON has objects where fields are asked for, and its names are
strings, made of characters where they are printed. -/
structure IsSafe (read : String → Except FileError String) (r : Request) (s : Source) : Prop where
  path : s.isJson = false → s.IsOpenable
  declarations : s.isJson = false → ∀ text, s.Gives read text →
    ∀ n, ¬ Declaration.HasDigits text.toList n
  json : s.isJson = true → ∀ text v, s.Gives read text → Json.parse text = .ok v →
    v.IsShaped ∧ ∀ t, Theory.ofJson v = .ok t → r.Takes t

/-- The bundled declarations are shorter than a number that is too long. -/
theorem declarations_isSafe (read : String → Except FileError String) (r : Request) :
    declarations.IsSafe read r := by
  have hlength : Library.declarations.toList.length ≤ Text.maxDigits := by
    have hlines : (Library.declarationLines.map fun l => l.length + "\n".length).sum ≤
        Text.maxDigits := by decide +kernel
    simpa only [String.length_toList, Library.declarations, Library.textOf, String.length_join,
      List.map_map, Function.comp_def, String.length_append] using hlines
  refine ⟨fun _ => trivial, fun _ text htext n hn => ?_, fun hjson => ?_⟩
  · have htext : text = Library.declarations := htext
    rw [htext] at hn
    exact absurd hn.lt_length (Nat.not_lt.mpr hlength)
  · rw [isJson, declarations, path, Library.declarationsPath, String.toList_append] at hjson
    exact absurd hjson (by decide)

end Source

/-- The settings and the files of a request are such that it is carried out, or refused with a
report. A limit of nesting that is asked for is given. -/
structure Request.IsSafe (read : String → Except FileError String) (env : Registry String String)
    (r : Request) : Prop where
  depth : ∀ text, env.get? Settings.depthVariable = some text → Settings.IsReadableDepth text
  limit : r.command = .verify → r.maxDepth ≠ .notGiven
  proofs : ∀ path, r.proofs = some path → (Source.file path).IsOpenable
  file : ∀ path, r.file = some path → (Source.file path).IsSafe read r

/-- How much a run has written, to both of its outputs. -/
def Output.written (o : Output) : Nat := o.out.length + o.err.length

namespace Run

variable {α β : Type} {P : α → Prop} {Q : β → Prop}

/-- The run is stopped by no fault. -/
def Finishes (P : α → Prop) (r : Run Id α) : Prop :=
  ∀ o, ∃ a o', Id.run (r o) = (.ok a, o') ∧ o.written ≤ o'.written ∧ P a

/-- The run ends with the code of success, or with that of failure after something is written. -/
def Settles (r : Run Id Nat) : Prop :=
  ∀ o, ∃ n o', Id.run (r o) = (.ok n, o') ∧ (n = 0 ∨ n = 1 ∧ o.written < o'.written)

theorem run_bind {r : Run Id α} {f : α → Run Id β} {o o' : Output} {a : α}
    (h : Id.run (r o) = (.ok a, o')) : Id.run ((r >>= f) o) = Id.run (f a o') := by
  have h : r o = (.ok a, o') := h
  simp only [Bind.bind, h]

theorem pure_bind (a : α) (f : α → Run Id β) : (pure a : Run Id α) >>= f = f a := rfl

theorem run_print {p : Phrase} (h : p.isEncodable = true) (o : Output) :
    Id.run (print (m := Id) p o) = (.ok (), { o with out := o.out ++ p.text }) := by
  rw [print, if_pos h]
  rfl

namespace Finishes

theorem pure {a : α} (h : P a) : Finishes P (pure a : Run Id α) :=
  fun o => ⟨a, o, rfl, Nat.le_refl _, h⟩

theorem bind {r : Run Id α} {f : α → Run Id β} (h : Finishes P r)
    (hf : ∀ a, P a → Finishes Q (f a)) : Finishes Q (r >>= f) := by
  intro o
  obtain ⟨a, o₁, hr, hle, ha⟩ := h o
  obtain ⟨b, o₂, hb, hle', hQ⟩ := hf a ha o₁
  exact ⟨b, o₂, (run_bind hr).trans hb, Nat.le_trans hle hle', hQ⟩

theorem lift {a : α} (h : P a) : Finishes P (Run.lift (m := Id) a) :=
  fun o => ⟨a, o, rfl, Nat.le_refl _, h⟩

theorem complain (text : String) : Finishes (fun _ => True) (Run.complain (m := Id) text) := by
  intro o
  refine ⟨(), _, rfl, ?_, trivial⟩
  simp only [Output.written, String.length_append]
  omega

theorem settles {r : Run Id α} {f : α → Run Id Nat} (h : Finishes P r)
    (hf : ∀ a, P a → Settles (f a)) : Settles (r >>= f) := by
  intro o
  obtain ⟨a, o₁, hr, hle, ha⟩ := h o
  obtain ⟨n, o₂, hn, hcode⟩ := hf a ha o₁
  refine ⟨n, o₂, (run_bind hr).trans hn, hcode.imp_right fun hfailure => ?_⟩
  exact ⟨hfailure.1, Nat.lt_of_le_of_lt hle hfailure.2⟩

end Finishes

namespace Settles

/-- A report on standard output, and then either code. -/
theorem printLine {p : Phrase} (h : p.isEncodable = true) (success : Bool) : Settles (do
    Session.printLine (m := Id) p
    pure (if success then 0 else 1)) := by
  intro o
  have hline : (p ++ "\n" : Phrase).isEncodable = true := by
    rw [Phrase.isEncodable, Phrase.names_append, Phrase.names_ofString, List.append_nil]
    exact h
  refine ⟨_, _, (run_bind (run_print hline o)).trans rfl, ?_⟩
  cases success with
  | true => exact .inl rfl
  | false =>
    refine .inr ⟨rfl, ?_⟩
    have hlength : (p ++ "\n" : Phrase).text.length = p.text.length + 1 :=
      String.length_append p.text "\n"
    simp only [Output.written, String.length_append, hlength]
    omega

/-- A report on the error output. -/
theorem complain (text : String) : Settles (do
    Run.complain (m := Id) text
    pure 1) := by
  intro o
  refine ⟨_, _, rfl, .inr ⟨rfl, ?_⟩⟩
  simp only [Output.written, String.length_append, show "\n".length = 1 from rfl]
  omega

end Settles
end Run

/-- What was loaded is of a kind, or the fault is reported. -/
def Loads {α : Type} (P : α → Prop) : Except LoadError α → Prop
  | .ok a => P a
  | .error e => e.isReported = true

namespace Session

variable {session : Session Id}

theorem log_finishes (lines : List LogLine) : (session.log lines).Finishes fun _ => True := by
  unfold log
  split
  · exact .pure trivial
  · exact .complain _

theorem readText_finishes {s : Source} {json : Bool} (h : json = false → s.IsOpenable) :
    (session.readText s json).Finishes
      (Loads fun text => s.IsOpenable ∧ s.Gives session.read text) := by
  cases s with
  | bundled path text => exact .pure ⟨trivial, rfl⟩
  | file path =>
    rw [readText, String.contains_char_eq]
    split
    · rename_i hnull
      apply Run.Finishes.pure
      cases json with
      | true => rfl
      | false => exact absurd (of_decide_eq_true hnull) (h rfl)
    · rename_i hnull
      have hopen : (Source.file path).IsOpenable := fun hmem => hnull (decide_eq_true hmem)
      apply (Run.Finishes.lift (P := fun found => session.read path = found) rfl).bind
      intro found hfound
      cases found with
      | ok raw => exact .pure ⟨hopen, raw, hfound, rfl⟩
      | error e => exact .pure rfl

theorem loadTheory_finishes {s : Source} {r : Request} (h : s.IsSafe session.read r) :
    (session.loadTheory s).Finishes (Loads fun t => s.IsOpenable ∧ r.Takes t) := by
  unfold loadTheory
  apply (readText_finishes h.path).bind
  intro read hread
  cases read with
  | error e => exact .pure hread
  | ok text =>
    obtain ⟨hopen, htext⟩ := hread
    dsimp only
    split
    · rename_i hjson
      apply Run.Finishes.pure
      have hsafe := h.json hjson text
      have hanswers := Theory.ofJsonText_answers fun v hv => (hsafe v htext hv).1
      cases ht : Theory.ofJsonText text with
      | error e => exact hanswers e ht
      | ok t =>
        refine ⟨hopen, ?_⟩
        unfold Theory.ofJsonText at ht
        split at ht
        · rename_i v hv
          exact (hsafe v htext hv).2 t ht
        · cases ht
    · rename_i hjson
      have hsafe := h.declarations (Bool.eq_false_iff.mpr hjson) text htext
      have hends := Theory.parse_reports text (String.ofList (Path.ofString s.path).stem)
      apply (log_finishes _).bind
      intro _ _
      apply Run.Finishes.pure
      cases ht : (Theory.parse text (String.ofList (Path.ofString s.path).stem)).2 with
      | ok t =>
        refine ⟨hopen, Theory.parse_allNames r.admits_isTextual.text ht, fun _ => ?_⟩
        rw [(Theory.parse_isSpelled ht).1]
        rfl
      | error e =>
        rw [ht] at hends
        obtain ⟨position, cause⟩ := e
        cases cause with
        | precTooLong n => exact absurd (hends.digits n rfl) (hsafe n)
        | _ => rfl

theorem loadProofs_finishes {s : Source} (h : s.IsOpenable) (t : Theory) (limit : Int) :
    (session.loadProofs s t (some limit)).Finishes (Loads (ProofFile.IsRead t.signature)) := by
  unfold loadProofs
  apply (readText_finishes fun _ => h).bind
  intro read hread
  cases read with
  | error e => exact .pure hread
  | ok text =>
    have hends := ProofFile.parse_reports text t.signature limit
    apply Run.Finishes.pure
    rw [Option.getD_some]
    cases hparse : ProofFile.parse text t.signature limit with
    | ok proofs =>
      rw [hparse] at hends
      exact hends
    | error e =>
      rw [hparse] at hends
      obtain ⟨position, cause⟩ := e
      cases cause with
      | precTooLong n => exact absurd rfl (hends.digits n)
      | _ => rfl

theorem withLoaded_settles {α : Type} {P : α → Prop} (s : Source) {loaded : Except LoadError α}
    (hloaded : Loads P loaded) {next : α → Run Id Nat} (h : ∀ a, P a → (next a).Settles) :
    (withLoaded s loaded next).Settles := by
  cases loaded with
  | ok a => exact h a hloaded
  | error e =>
    have hreported : e.isReported = true := hloaded
    rw [withLoaded, if_pos hreported]
    exact .complain _

theorem demand_finishes {met : Bool} (h : met = true) :
    (demand (m := Id) met).Finishes fun _ => True := by
  rw [demand, if_pos h]
  exact .pure trivial

section Commands

variable {r : Request} {t : Theory} (h : r.Takes t)
include h

theorem check_settles (hcommand : r.command = .check) : (check (m := Id) r.json t).Settles := by
  apply (demand_finishes (h.names.isCheckable r.admits_isTextual)).settles
  intro _ _
  cases hjson : r.json with
  | true => exact .printLine (Phrase.isEncodable_ofString _) _
  | false =>
    have hprints : r.printsNames = true := by simp [Request.printsNames, hcommand, hjson]
    exact .printLine (h.isEncodable hprints (h.names.checkReport r.admits_isTextual)) _

theorem verifyLoaded_settles (hcommand : r.command = .verify) (limit : Int) {proofs : ProofFile}
    (hproofs : proofs.IsRead t.signature) :
    (session.verifyLoaded r.json (some limit) t proofs).Settles := by
  have hP := r.admits_isTextual
  apply (demand_finishes (h.names.isCheckable hP)).settles
  intro _ _
  split
  · apply (log_finishes _).settles
    intro _ _
    have hwritable := List.all_eq_true.mpr (h.names.verify_isWritable hP hproofs limit)
    apply (demand_finishes hwritable).settles
    intro _ _
    cases hjson : r.json with
    | true => exact .printLine (Phrase.isEncodable_ofString _) _
    | false =>
      have hprints : r.printsNames = true := by simp [Request.printsNames, hcommand, hjson]
      exact .printLine (h.isEncodable hprints (h.names.verify_report hP hproofs limit)) _
  · exact .complain _

theorem verify_settles (hcommand : r.command = .verify) {s : Source} (hs : s.IsOpenable)
    (hproofs : ∀ path, r.proofs = some path → (Source.file path).IsOpenable) (limit : Int) :
    (session.verify r s (some limit) t).Settles := by
  have hwith {source : Source} (hopen : source.IsOpenable) : Run.Settles (do
      let loaded ← session.loadProofs source t (some limit)
      withLoaded source loaded (session.verifyLoaded r.json (some limit) t)) := by
    apply (loadProofs_finishes hopen t limit).settles
    intro loaded hloaded
    exact withLoaded_settles _ hloaded fun proofs => verifyLoaded_settles h hcommand limit
  unfold verify
  cases hpath : r.proofs with
  | none => exact hwith hs.proofsBeside
  | some path =>
    dsimp only
    split
    · exact hwith hs.proofsBeside
    · exact hwith (hproofs path hpath)

theorem render_settles (hcommand : r.command = .render) : (render (m := Id) t).Settles := by
  have hP := r.admits_isTextual
  have hprints : r.printsNames = true := by rw [Request.printsNames, hcommand]
  apply (demand_finishes (h.names.isWritable hP)).settles
  intro _ _ o
  have hprinted := Run.run_print (h.isEncodable hprints (h.names.written hP)) o
  exact ⟨0, _, (Run.run_bind hprinted).trans rfl, .inl rfl⟩

theorem dump_settles : (dump (m := Id) t).Settles := by
  have hdelimiters : t.signature.delimiters.areTexts = true :=
    List.all_eq_true.mpr fun n hn => (h.names.signature.delimiters n hn).1
  apply (demand_finishes hdelimiters).settles
  intro _ _
  exact .printLine (Phrase.isEncodable_ofString _) true

end Commands

/-- A theory of which the name is not made of characters has no report, and nothing is written. -/
theorem check_of_unencodable {t : Theory} (hcheckable : t.isCheckable = true)
    (hname : t.name.isEncodable = false) (o : Output) :
    Id.run (check (m := Id) false t o) = (.error .encoding, o) := by
  have hnames : t.name ∈ (t.checkReport ++ "\n" : Phrase).names :=
    List.mem_append_left _ (List.mem_flatMap.mpr ⟨_, List.mem_cons_self, List.mem_singleton_self _⟩)
  have hreport : (t.checkReport ++ "\n" : Phrase).isEncodable = false :=
    List.all_eq_false.mpr ⟨t.name, hnames, by simp [hname]⟩
  rw [check, demand, if_pos hcheckable, Run.pure_bind, printLine, if_neg Bool.false_ne_true]
  simp only [Bind.bind, Run.print, hreport]
  rfl

theorem perform_settles {env : Registry String String} {r : Request}
    (h : r.IsSafe session.read env) (settings : Settings) :
    (session.perform settings r).Settles := by
  have hsource : ((r.file.map Source.file).getD .declarations).IsSafe session.read r := by
    cases hfile : r.file with
    | none => exact Source.declarations_isSafe session.read r
    | some path => exact h.file path hfile
  apply (loadTheory_finishes hsource).settles
  intro loaded hloaded
  cases hcommand : r.command with
  | check => exact withLoaded_settles _ hloaded fun t ht => check_settles ht.2 hcommand
  | verify =>
    have hlimit : ∃ limit, r.maxDepth.limit? settings.maxProofDepth = some limit := by
      have hgiven := h.limit hcommand
      cases hdepth : r.maxDepth with
      | settled => exact ⟨_, rfl⟩
      | upTo depth => exact ⟨depth, rfl⟩
      | notGiven => exact absurd hdepth hgiven
    obtain ⟨limit, hlimit⟩ := hlimit
    dsimp only
    rw [hlimit]
    exact withLoaded_settles _ hloaded fun t ht => verify_settles ht.2 hcommand ht.1 h.proofs limit
  | render => exact withLoaded_settles _ hloaded fun t ht => render_settles ht.2 hcommand
  | dump => exact withLoaded_settles _ hloaded fun t ht => dump_settles ht.2

end Session

/-- A run that settles, from its begin on. -/
theorem Run.Settles.exit {r : Run Id Nat} (h : r.Settles) :
    ∃ n out err, (do
        let (code, o) ← r ⟨"", ""⟩
        pure (Exit.mk code o.out o.err) : Id Exit) = ⟨.ok n, out, err⟩ ∧
      (n = 0 ∨ n = 1 ∧ (out ≠ "" ∨ err ≠ "")) := by
  obtain ⟨n, ⟨out, err⟩, hr, hcode⟩ := h ⟨"", ""⟩
  refine ⟨n, out, err, ?_, hcode.imp_right fun ⟨hn, hwritten⟩ => ⟨hn, ?_⟩⟩
  · change (match Id.run (r ⟨"", ""⟩) with
      | (code, o) => Exit.mk code o.out o.err) = _
    rw [hr]
  · by_cases hout : out = ""
    · right
      intro herr
      rw [hout, herr] at hwritten
      exact absurd hwritten (Nat.lt_irrefl _)
    · exact .inl hout

/-- A command that is given readable settings and files is stopped by no fault: it succeeds, or it
fails and says why. -/
theorem run_settles {read : String → Except FileError String} {env : Registry String String}
    {arguments : List String} {r : Request} (hr : readRequest [] arguments = .ok (some r))
    (h : r.IsSafe read env) :
    ∃ n out err, run (m := Id) read env arguments = ⟨.ok n, out, err⟩ ∧
      (n = 0 ∨ n = 1 ∧ (out ≠ "" ∨ err ≠ "")) := by
  have hreadable := Settings.ofEnvironment_ne h.depth
  unfold run
  cases hsettings : Settings.ofEnvironment env with
  | ok settings =>
    have hperform : (Session.perform ⟨read, settings.logLevel⟩ settings r).Settles :=
      Session.perform_settles h settings
    dsimp only
    rw [runSettled, hr]
    exact hperform.exit
  | error cause =>
    cases cause with
    | badInteger e => exact absurd hsettings (hreadable e)
    | unknownLevel name => exact (Run.Settles.complain _).exit
    | badDepth text => exact (Run.Settles.complain _).exit

/-- JSON is decoded after the ends of its lines are made one. -/
theorem Session.loadTheory_json {session : Session Id} {path raw : String}
    (hjson : (Source.file path).isJson = true) (hopen : (Source.file path).IsOpenable)
    (hread : session.read path = .ok raw) :
    session.loadTheory (.file path) = pure
      ((Theory.ofJsonText (String.ofList (normalizeNewlines raw.toList))).mapError .decode) := by
  have hnull : path.contains '\x00' = false := by
    rw [String.contains_char_eq]
    exact decide_eq_false hopen
  have htext : session.readText (.file path) (Source.file path).isJson =
      pure (.ok (String.ofList (normalizeNewlines raw.toList))) := by
    rw [readText, if_neg (Bool.eq_false_iff.mp hnull), hread]
    rfl
  rw [loadTheory, htext, hjson]
  rfl

/-- A fault of JSON that is not reported stops every command. -/
theorem run_of_unreported {read : String → Except FileError String} {env : Registry String String}
    {arguments : List String} {r : Request} (hr : readRequest [] arguments = .ok (some r))
    {settings : Settings} (hsettings : Settings.ofEnvironment env = .ok settings)
    {path raw : String} (hfile : r.file = some path) (hjson : (Source.file path).isJson = true)
    (hopen : (Source.file path).IsOpenable) (hread : read path = .ok raw) {e : DecodeError}
    (hfault : Theory.ofJsonText (String.ofList (normalizeNewlines raw.toList)) = .error e)
    (hunreported : (LoadError.decode e).isReported = false) :
    (run (m := Id) read env arguments).code = .error (.load (.decode e)) := by
  have hloaded : Session.loadTheory (m := Id) ⟨read, settings.logLevel⟩ (.file path) =
      pure (.error (.decode e)) := by
    rw [Session.loadTheory_json hjson hopen hread, hfault]
    rfl
  have hperform : Session.perform (m := Id) ⟨read, settings.logLevel⟩ settings r =
      Run.crash (.load (.decode e)) := by
    have hstops {α : Type} (next : α → Run Id Nat) :
        Session.withLoaded (.file path) (.error (.decode e)) next =
          Run.crash (.load (.decode e)) := by
      rw [Session.withLoaded, hunreported]
      rfl
    rw [Session.perform, hfile, Option.map_some, Option.getD_some, hloaded, Run.pure_bind]
    cases r.command with
    | check | verify | render | dump => exact hstops _
  unfold run
  rw [hsettings]
  dsimp only
  rw [runSettled, hr]
  dsimp only
  rw [hperform]
  rfl

namespace SingleSort

/-- A theory in JSON, of which the sorts are left open. -/
def stored (sorts : Json) : Json :=
  .object [("name", .string "logic"),
    ("signature", .object [("sorts", sorts), ("terms", .object [])]), ("assertions", .array [])]

/-- The sort of formulas, as the entry of an object. -/
def sorts : Json := .object [("wff", .object [("name", .string "wff")])]

def theory : Theory :=
  { name := "logic"
    signature := .ofDecls [⟨"wff", .empty⟩] [] [] .empty
    assertions := [] }

/-- Every file holds the value. -/
def read (v : Json) (_ : String) : Except FileError String := .ok (v.write .oneLine)

def environment (depth : String) : Registry String String :=
  .ofList [(Settings.depthVariable, depth)]

def request : Request := ⟨.check, some "logic.json", none, false, .settled⟩

theorem arguments_read : readRequest [] ["check", "logic.json"] = .ok (some request) :=
  eq_ok_of_toOption (by decide +kernel)

theorem request_takes : request.Takes theory where
  names :=
    { signature := by
        refine ⟨fun key decl hdecl => ?_, nofun, nofun, nofun⟩
        obtain ⟨rfl, rfl⟩ :=
          Prod.mk.inj (List.mem_singleton.mp (Registry.mem_of_get?_ofList hdecl))
        exact ⟨request.admits_isTextual.text _, request.admits_isTextual.text _⟩
      assertions := nofun }
  name := fun _ => rfl

theorem request_isSafe : request.IsSafe (read (stored sorts)) (environment "64") where
  depth := by
    intro text htext
    obtain rfl : "64" = text := Option.some.inj htext
    intro _
    exact ⟨by decide +kernel, by decide +kernel⟩
  limit := nofun
  proofs := nofun
  file := by
    intro path hpath
    obtain rfl : "logic.json" = path := Option.some.inj hpath
    refine ⟨fun h => absurd h (by decide), fun h => absurd h (by decide), ?_⟩
    intro _ text v htext hv
    obtain ⟨raw, hraw, rfl⟩ := htext
    obtain rfl : (stored sorts).write .oneLine = raw := Except.ok.inj hraw
    have hparse : Json.parse (String.ofList (normalizeNewlines
        ((stored sorts).write .oneLine).toList)) = .ok (stored sorts) :=
      eq_ok_of_toOption (by decide +kernel)
    obtain rfl := Except.ok.inj (hparse.symm.trans hv)
    have htheory : Theory.ofJson (stored sorts) = .ok theory :=
      eq_ok_of_toOption (by decide +kernel)
    refine ⟨by decide +kernel, fun t ht => ?_⟩
    obtain rfl := Except.ok.inj (htheory.symm.trans ht)
    exact request_takes

theorem single_sort_settles :
    readRequest [] ["check", "logic.json"] = .ok (some request) ∧
      request.IsSafe (read (stored sorts)) (environment "64") ∧
      ∃ n out err, run (m := Id) (read (stored sorts)) (environment "64") ["check", "logic.json"] =
        ⟨.ok n, out, err⟩ ∧ (n = 0 ∨ n = 1 ∧ (out ≠ "" ∨ err ≠ "")) :=
  ⟨arguments_read, request_isSafe, run_settles arguments_read request_isSafe⟩

/-- A superscript passes for a digit and is no number; a list has no entries to ask for. -/
theorem faults_unreported :
    readRequest [] ["check", "logic.json"] = .ok (some request) ∧
      (run (m := Id) (read (stored sorts)) (environment "²") ["check", "logic.json"]).code =
        .error (.settings (.malformed "²")) ∧
      (run (m := Id) (read (stored (.array []))) (environment "64") ["check", "logic.json"]).code =
        .error (.load (.decode (.noMember (.array []) "items"))) := by
  refine ⟨arguments_read, ?_, ?_⟩
  · have hsettings : Settings.ofEnvironment (environment "²") =
        .error (.badInteger (.malformed "²")) := eq_error_of_errorOf? (by decide +kernel)
    unfold run
    rw [hsettings]
    rfl
  · have hsettings : Settings.ofEnvironment (environment "64") =
        .ok ⟨.warning, Settings.defaultLogLevel, 64⟩ := eq_ok_of_toOption (by decide +kernel)
    have hparse : Json.parse (String.ofList (normalizeNewlines
        ((stored (.array [])).write .oneLine).toList)) = .ok (stored (.array [])) :=
      eq_ok_of_toOption (by decide +kernel)
    have hfault : Theory.ofJsonText (String.ofList (normalizeNewlines
        ((stored (.array [])).write .oneLine).toList)) =
          .error (.noMember (.array []) "items") := by
      rw [Theory.ofJsonText, hparse]
      rfl
    have hopen : '\x00' ∉ "logic.json".toList := by decide
    have hread : read (stored (.array [])) "logic.json" =
        .ok ((stored (.array [])).write .oneLine) := rfl
    have hjson : (Source.file "logic.json").isJson = true := by decide
    exact run_of_unreported arguments_read hsettings rfl hjson hopen hread hfault rfl

end SingleSort

end CommandLine
end Deductive
