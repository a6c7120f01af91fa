import Rulebook.Proofs.Ebnf.Following
import Rulebook.Proofs.Ebnf.Meaning
import Rulebook.Proofs.Text.Words

/-!
# Verifying decides what can be reached

A registry is verified by rendering it with a label before every name, having a library read the
text and check its productions, and taking the labels off what the library reports. The library is
a parameter, of which `Bnf.Library.Documented` says what its documentation says.

Verifying reports nothing if and only if every name that must be reached can be reached, and else
one message for each name of the rendering that cannot be reached
(`Registry.verify_decides_reachability`).
-/

namespace Rulebook

namespace Bnf

/-! ## The library -/

/-- The name that a lexeme is. -/
def Lexeme.word? : Lexeme → Option Bytes
  | word name => some name
  | _ => none

/-- The names that a production refers to. -/
def Production.references (p : Production) : List Bytes :=
  ((p.body.map Expression.lexemes).getD []).filterMap Lexeme.word?

/-- True if the production of a name refers to another name. -/
def Refers (ps : List Production) (a b : Bytes) : Prop :=
  ∃ p ∈ ps, p.name = a ∧ b ∈ p.references

/-- A name is lexical if it does not start with an upper-case letter, of any script. -/
def isLexical : Bytes → Bool
  | [] => true
  | b :: rest => !Category.upper.contains (Scalar.ofHead b rest).code

/-- What is wrong with a production that cannot be reached, in words. -/
def Production.unreachable (p : Production) : Bytes :=
  "<input>:" ++ Bytes.decimal p.place.line ++ ":" ++ Bytes.decimal p.place.column ++ ": " ++
    p.name ++ " is unreachable"

/-- A library that reads texts of productions and checks productions for a start. Both report what
    is wrong as a list of messages. -/
structure Library where
  parse : Bytes → Except (List Bytes) (List Production)
  check : List Production → Bytes → List Bytes

/-- Several messages in words: the first, and how many more there are. -/
def Library.words : List Bytes → Bytes
  | [] => "no errors"
  | [message] => message
  | message :: rest => message ++ " (and " ++ Bytes.decimal rest.length ++ " more errors)"

/-- True of productions that can have been read: no name has two of them, and their places are in a
    text, whose lines count from one. -/
structure IsGrammar (ps : List Production) : Prop where
  nodup : (ps.map Production.name).Nodup
  placed : ∀ p ∈ ps, 0 < p.place.line

open Classical in
/-- What the documentation of the library says. A text in UTF-8 is read by the grammar, unless a name
    has two productions. A start without a production is reported, and so are references without a
    production and references from lexical to other names, in all that can be reached. Where there
    are none, just the productions are reported that cannot be reached, in any order. -/
structure Library.Documented (library : Library) : Prop where
  parses : ∀ text ps, text.isUtf8 = true → read text = some ps →
    (ps.map Production.name).Nodup → library.parse text = .ok ps
  no_start : ∀ ps start, IsGrammar ps → start ∉ ps.map Production.name →
    library.check ps start = ["<input>: no start production " ++ start]
  missing : ∀ ps start, IsGrammar ps → start ∈ ps.map Production.name → ∀ p ∈ ps,
    Relation.ReflTransGen (Refers ps) start p.name → ∀ n ∈ p.references,
    n ∉ ps.map Production.name → library.check ps start ≠ []
  not_lexical : ∀ ps start, IsGrammar ps → start ∈ ps.map Production.name → ∀ p ∈ ps,
    Relation.ReflTransGen (Refers ps) start p.name → ∀ n ∈ p.references,
    isLexical p.name = true → isLexical n = false → library.check ps start ≠ []
  unreachable : ∀ ps start, IsGrammar ps → start ∈ ps.map Production.name →
    (∀ p ∈ ps, Relation.ReflTransGen (Refers ps) start p.name → ∀ n ∈ p.references,
      n ∈ ps.map Production.name ∧ (isLexical p.name = true → isLexical n = true)) →
    (library.check ps start).Perm
      ((ps.filter fun p => ¬ Relation.ReflTransGen (Refers ps) start p.name).map
        Production.unreachable)

end Bnf

/-! ## Verifying -/

namespace Registry

open Complaint

/-- What the library reports about the rendering of the names that are verified. -/
def reports (library : Bnf.Library) (r : Registry) (start : Bytes) (base : List Bytes) :
    List Bytes :=
  match library.parse (r.render label (r.verified start base)) with
  | .error messages => messages
  | .ok ps => library.check ps (label start)

/-- What is wrong with a registry, in words without labels. -/
def verify (library : Bnf.Library) (r : Registry) (start : Bytes) (base : List Bytes) :
    Option Bytes :=
  match r.reports library start base with
  | [] => none
  | message :: rest => some (unlabel false (Bnf.Library.words (message :: rest)))

/-- True if a name can be reached from another by the references that are rendered. -/
def Reaches (r : Registry) (start name : Bytes) : Prop :=
  Relation.ReflTransGen r.references.Refers start name

/-- The message that a name on a line cannot be reached. -/
def unreachable (x : Bytes × Nat) : Bytes :=
  "<input>:" ++ Bytes.decimal x.2 ++ ":1: " ++ x.1 ++ " is unreachable"

end Registry

/-! ### Taking labels off -/

namespace Complaint

theorem unlabel_cons {inWord : Bool} {b : UInt8} (h : inWord = true ∨ b ≠ 114) (t : Bytes) :
    unlabel inWord (b :: t) = b :: unlabel (Bytes.isWord b) t := by
  rw [unlabel.eq_def]
  split
  · rename_i eq
    cases eq
  · rename_i c rest eq
    cases eq
    obtain rfl | other := h
    · rfl
    · exact absurd rfl other
  · rename_i eq
    cases eq
    rfl

/-- A text without the first letter of a label is kept. -/
theorem unlabel_append {a : Bytes} (plain : 114 ∉ a) (inWord : Bool) (t : Bytes) :
    unlabel inWord (a ++ t) = a ++ unlabel (a.foldl (fun _ b => Bytes.isWord b) inWord) t := by
  induction a generalizing inWord with
  | nil => rfl
  | cons b a ih =>
    simp only [List.mem_cons, not_or] at plain
    rw [List.cons_append, unlabel_cons (.inr (Ne.symm plain.1)), ih plain.2]
    rfl

/-- The rest of a word is kept. -/
theorem unlabel_word {w : Bytes} (letters : ∀ b ∈ w, Bytes.isWord b = true) (t : Bytes) :
    unlabel true (w ++ t) = w ++ unlabel true t := by
  induction w with
  | nil => rfl
  | cons b w ih =>
    obtain ⟨letter, letters⟩ := List.forall_mem_cons.1 letters
    rw [List.cons_append, unlabel_cons (.inl rfl), letter, ih letters]
    rfl

/-- A label is taken off the name it stands before, whatever the name starts with. -/
theorem unlabel_label {n : Bytes} (valid : isValidName n = true) (t : Bytes) :
    unlabel false (label n ++ t) = n ++ unlabel true t := by
  rw [isValidName, Bool.and_eq_true, List.all_eq_true] at valid
  obtain ⟨some_byte, letters⟩ := valid
  cases n with
  | nil => cases some_byte
  | cons c n =>
    obtain ⟨letter, letters⟩ := List.forall_mem_cons.1 letters
    have shape : label (c :: n) ++ t = 114 :: 95 :: c :: (n ++ t) := rfl
    rw [shape, unlabel, if_pos (by simpa using letter), unlabel_word letters]
    rfl

theorem notMem_decimal (n : Nat) : 114 ∉ Bytes.decimal n := by
  intro mem
  exact absurd ((Bytes.digits_decimal n).1 114 mem).2 (by decide)

theorem unlabel_unreachable {line : Nat} {name : Bytes} (valid : isValidName name = true)
    (t : Bytes) :
    unlabel false ((Complaint.unreachable line name).labelled ++ t) =
      Registry.unreachable (name, line) ++ unlabel true t := by
  have front : 114 ∉ ("<input>:" : Bytes) ++ Bytes.decimal line ++ ":1: " := by
    simp only [List.mem_append, not_or]
    exact ⟨⟨by decide, notMem_decimal line⟩, by decide⟩
  have shape : (Complaint.unreachable line name).labelled ++ t =
      ("<input>:" ++ Bytes.decimal line ++ ":1: ") ++ (label name ++ (" is unreachable" ++ t)) := by
    simp [labelled]
  have ends : (("<input>:" : Bytes) ++ Bytes.decimal line ++ ":1: ").foldl
      (fun _ b => Bytes.isWord b) false = false := by
    rw [List.foldl_append]
    rfl
  have rest : unlabel true (" is unreachable" ++ t) = " is unreachable" ++ unlabel true t := rfl
  rw [shape, unlabel_append front, ends, unlabel_label valid, rest, Registry.unreachable]
  simp

end Complaint

/-! ### The references of a rendering -/

namespace Ebnf

open Bnf (Lexeme)

theorem filterMap_intercalate_bar (lss : List (List Lexeme)) :
    ([Lexeme.mark .bar].intercalate lss).filterMap Lexeme.word? =
      lss.flatten.filterMap Lexeme.word? := by
  induction lss with
  | nil => rfl
  | cons ls lss ih =>
    cases lss with
    | nil => simp
    | cons next lss =>
      rw [List.intercalate_cons_cons, List.filterMap_append, List.filterMap_append, ih]
      simp [Lexeme.word?]

theorem filterMap_enclosed (b : Bnf.Bracket) (ls : List Lexeme) :
    (Lexeme.mark (.opening b) :: (ls ++ [Lexeme.mark (.closing b)])).filterMap Lexeme.word? =
      ls.filterMap Lexeme.word? := by
  rw [List.filterMap_cons_none rfl, List.filterMap_append, List.filterMap_cons_none rfl,
    List.filterMap_nil, List.append_nil]

mutual

theorem words_lexemes (spell : Bytes → Bytes) : ∀ e : Ebnf,
    (e.lexemes spell).filterMap Lexeme.word? = e.references.map spell
  | token _ => rfl
  | reference _ => rfl
  | seq parts => words_lexemesOf spell parts
  | choice alternatives => by
      rw [lexemes, filterMap_intercalate_bar, words_lexemesOf, references]
  | group body => (filterMap_enclosed .round _).trans (words_lexemes spell body)
  | option body => (filterMap_enclosed .square _).trans (words_lexemes spell body)
  | repetition body => (filterMap_enclosed .curly _).trans (words_lexemes spell body)

theorem words_lexemesOf (spell : Bytes → Bytes) : ∀ parts : List Ebnf,
    (lexemesOf spell parts).flatten.filterMap Lexeme.word? = (referencesOf parts).map spell
  | [] => rfl
  | part :: rest => by
      rw [lexemesOf, List.flatten_cons, List.filterMap_append, words_lexemes spell part,
        words_lexemesOf spell rest, referencesOf, List.map_append]

end

end Ebnf

namespace Registry

open Complaint

variable {r : Registry} {start : Bytes} {base : List Bytes}

theorem Renders.references {spell : Bytes → Bytes} {e : Entry Rule} {line : Nat}
    {p : Bnf.Production} (h : Renders r spell (e, line) p) :
    p.references = (Ebnf.ofRule r true e.rule).references.map spell := by
  obtain ⟨body, is_body, lexemes, -⟩ := h.body
  rw [Bnf.Production.references, is_body, Option.map_some, Option.getD_some, lexemes,
    Ebnf.words_lexemes]

theorem fst_references : r.references.map Prod.fst = r.names := by
  simp [Registry.references, productions, names, Function.comp_def]

theorem mem_names_of_refers {a n : Bytes} (h : r.references.Refers a n) : n ∈ r.names := by
  obtain ⟨refs, edge, mem⟩ := h
  rw [Registry.references, productions, List.map_map, List.mem_map] at edge
  obtain ⟨e, -, eq⟩ := edge
  cases eq
  exact Ebnf.mem_names_of_mem_references mem

theorem Orderly.refers_iff (orderly : r.Orderly) {e : Entry Rule} (here : e ∈ r.entries)
    {n : Bytes} :
    r.references.Refers e.name n ↔ n ∈ (Ebnf.ofRule r true e.rule).references := by
  have edge_iff (refs : List Bytes) : (e.name, refs) ∈ r.references ↔
      ∃ d ∈ r.entries, d.name = e.name ∧ (Ebnf.ofRule r true d.rule).references = refs := by
    rw [Registry.references, productions, List.map_map, List.mem_map]
    simp only [Function.comp_apply, Prod.mk.injEq]
  constructor
  · rintro ⟨refs, edge, mem⟩
    obtain ⟨d, here', name, rfl⟩ := (edge_iff refs).1 edge
    have same : d.rule = e.rule := by
      have found := orderly.get?_eq here'
      rw [name, orderly.get?_eq here] at found
      exact (Option.some.inj found).symm
    rwa [← same]
  · intro mem
    exact ⟨_, (edge_iff _).2 ⟨e, here, rfl, rfl⟩, mem⟩

/-! ### The names that are verified -/

theorem mem_verified {n : Bytes} :
    n ∈ r.verified start base ↔
      n ∈ r.names ∧ ∃ s ∈ r.names, (s = start ∨ s ∉ base) ∧ r.Reaches s n := by
  rw [verified, List.mem_filter, List.contains_iff_mem, References.mem_follow]
  refine and_congr_right fun _ => exists_congr fun s => ?_
  simp [Reaches, and_assoc]

/-- The names that are verified keep their order. -/
theorem verified_sublist : (r.verified start base).Sublist r.names := List.filter_sublist

theorem mem_verified_of_refers {a n : Bytes} (mem : a ∈ r.verified start base)
    (refers : r.references.Refers a n) : n ∈ r.verified start base := by
  obtain ⟨-, s, registered, named, path⟩ := mem_verified.1 mem
  exact mem_verified.2 ⟨mem_names_of_refers refers, s, registered, named, path.tail refers⟩

theorem start_mem_verified (registered : start ∈ r.names) : start ∈ r.verified start base :=
  mem_verified.2 ⟨registered, start, registered, .inl rfl, .refl⟩

theorem reaches_iff_mem_closure {n : Bytes} :
    n ∈ r.references.closure [start] ↔ n ∈ r.names ∧ r.Reaches start n := by
  rw [References.mem_closure, fst_references]
  simp [Reaches]

/-! ### What the library is given -/

/-- Under their labels all names are lexical, or none is. -/
theorem isLexical_label (m n : Bytes) : Bnf.isLexical (label m) = Bnf.isLexical (label n) := rfl

/-- True of productions that are the rendering of the names that are verified. -/
structure IsGiven (r : Registry) (start : Bytes) (base : List Bytes) (es : List (Entry Rule))
    (ps : List Bnf.Production) : Prop where
  names : es.map Entry.name = r.verified start base
  registered : ∀ e ∈ es, e ∈ r.entries
  rendered : List.Forall₂ (Renders r label) (es.zipIdx 1) ps

/-- The text that is verified is UTF-8. -/
theorem Orderly.isUtf8_render (orderly : r.Orderly) (start : Bytes) (base : List Bytes) :
    (r.render label (r.verified start base)).isUtf8 = true := by
  obtain ⟨es, -, registered, text⟩ :=
    orderly.exists_entries label fun n here => (mem_verified.1 here).1
  rw [text]
  refine Bytes.isUtf8_join (by decide) fun part mem => ?_
  obtain ⟨e, here, rfl⟩ := List.mem_map.1 mem
  exact Bnf.isUtf8_renderProduction (Registry.isName_label (orderly.valid e (registered e here)))
    fun n refers => orderly.isName_label n (Ebnf.mem_names_of_mem_references refers)

theorem Orderly.exists_given (orderly : r.Orderly) (start : Bytes) (base : List Bytes) :
    ∃ es ps, IsGiven r start base es ps ∧
      Bnf.read (r.render label (r.verified start base)) = some ps := by
  obtain ⟨es, ps, names, registered, read, rendered⟩ :=
    orderly.read_render orderly.isName_label fun n here => (mem_verified.1 here).1
  exact ⟨es, ps, ⟨names, registered, rendered⟩, read⟩

variable {es : List (Entry Rule)} {ps : List Bnf.Production}

theorem IsGiven.map_name (h : IsGiven r start base es ps) :
    ps.map Bnf.Production.name = (r.verified start base).map label := by
  rw [map_name_of_renders h.rendered, List.zipIdx_map_fst, ← h.names, List.map_map]
  rfl

theorem IsGiven.label_mem_iff (h : IsGiven r start base es ps) {n : Bytes} :
    label n ∈ ps.map Bnf.Production.name ↔ n ∈ r.verified start base := by
  rw [h.map_name, List.mem_map_of_injective label_injective]

theorem IsGiven.isGrammar (h : IsGiven r start base es ps) (orderly : r.Orderly) :
    Bnf.IsGrammar ps := by
  constructor
  · rw [h.map_name]
    exact (orderly.nodup.sublist verified_sublist).map label_injective
  · intro p mem
    obtain ⟨x, lined, rendered⟩ := exists_rendered h.rendered mem
    rw [rendered.place]
    exact List.le_snd_of_mem_zipIdx lined

theorem IsGiven.references (h : IsGiven r start base es ps) (orderly : r.Orderly) {e : Entry Rule}
    (mem : e ∈ es) {line : Nat} {p : Bnf.Production} (rendered : Renders r label (e, line) p)
    {x : Bytes} : x ∈ p.references ↔ ∃ m, label m = x ∧ r.references.Refers e.name m := by
  rw [rendered.references, List.mem_map]
  exact exists_congr fun m =>
    and_comm.trans (and_congr_right fun _ => (orderly.refers_iff (h.registered e mem)).symm)

/-- A production refers to labelled names that are verified. -/
theorem IsGiven.exists_label (h : IsGiven r start base es ps) (orderly : r.Orderly)
    {p : Bnf.Production} (mem : p ∈ ps) {x : Bytes} (refers : x ∈ p.references) :
    ∃ m ∈ r.verified start base, label m = x := by
  rcases exists_rendered h.rendered mem with ⟨⟨e, line⟩, lined, rendered⟩
  have here := List.fst_mem_of_mem_zipIdx lined
  rcases (h.references orderly here rendered).1 refers with ⟨m, same, edge⟩
  have kept : e.name ∈ r.verified start base := h.names ▸ List.mem_map_of_mem here
  exact ⟨m, mem_verified_of_refers kept edge, same⟩

/-- Labelled names refer to each other as the names do. -/
theorem IsGiven.refers_iff (h : IsGiven r start base es ps) (orderly : r.Orderly) {n x : Bytes} :
    Bnf.Refers ps (label n) x ↔
      n ∈ r.verified start base ∧ ∃ m, label m = x ∧ r.references.Refers n m := by
  constructor
  · rintro ⟨p, mem, name, refers⟩
    obtain ⟨⟨e, line⟩, lined, rendered⟩ := exists_rendered h.rendered mem
    have here := List.fst_mem_of_mem_zipIdx lined
    obtain rfl : e.name = n := label_injective (rendered.name.symm.trans name)
    exact ⟨h.names ▸ List.mem_map_of_mem here, (h.references orderly here rendered).1 refers⟩
  · rintro ⟨mem, refers⟩
    rw [← h.names, List.mem_map] at mem
    obtain ⟨e, here, rfl⟩ := mem
    obtain ⟨p, mem, line, rendered⟩ :=
      exists_of_renders h.rendered (e := e) (by rwa [List.zipIdx_map_fst])
    exact ⟨p, mem, rendered.name, (h.references orderly here rendered).2 refers⟩

/-- The library finds the way to a labelled name if there is a way to the name. -/
theorem IsGiven.reaches_iff (h : IsGiven r start base es ps) (orderly : r.Orderly)
    (registered : start ∈ r.names) {n : Bytes} :
    Relation.ReflTransGen (Bnf.Refers ps) (label start) (label n) ↔ r.Reaches start n := by
  constructor
  · intro path
    suffices all : ∀ x, Relation.ReflTransGen (Bnf.Refers ps) (label start) x →
        ∃ m, label m = x ∧ r.Reaches start m by
      obtain ⟨m, same, reached⟩ := all _ path
      exact label_injective same ▸ reached
    intro x path
    induction path with
    | refl => exact ⟨start, rfl, .refl⟩
    | tail _ edge ih =>
      obtain ⟨m, rfl, reached⟩ := ih
      obtain ⟨-, m', rfl, refers⟩ := (h.refers_iff orderly).1 edge
      exact ⟨m', rfl, reached.tail refers⟩
  · intro path
    suffices both : n ∈ r.verified start base ∧
        Relation.ReflTransGen (Bnf.Refers ps) (label start) (label n) from both.2
    induction path with
    | refl => exact ⟨start_mem_verified registered, .refl⟩
    | tail _ refers ih =>
      exact ⟨mem_verified_of_refers ih.1 refers,
        ih.2.tail ((h.refers_iff orderly).2 ⟨ih.1, _, rfl, refers⟩)⟩

open Classical in
/-- What the library reports are the complaints about the registry, with labels. -/
theorem IsGiven.reported (h : IsGiven r start base es ps) (orderly : r.Orderly)
    (registered : start ∈ r.names) :
    (ps.filter fun p => ¬ Relation.ReflTransGen (Bnf.Refers ps) (label start) p.name).map
        Bnf.Production.unreachable =
      (((r.verified start base).zipIdx 1).filter fun x => ¬ r.Reaches start x.1).map
        fun x => (Complaint.unreachable x.2 x.1).labelled := by
  have reaches (n : Bytes) := h.reaches_iff orderly registered (n := n)
  rw [← h.names, List.zipIdx_map]
  generalize Relation.ReflTransGen (Bnf.Refers ps) (label start) = P at reaches
  have rendered := h.rendered
  generalize es.zipIdx 1 = xs at rendered
  clear h
  induction rendered with
  | nil => rfl
  | @cons x p xs ps here _ ih =>
    have words : p.unreachable = (Complaint.unreachable x.2 x.1.name).labelled := by
      have column : (":" : Bytes) ++ (Bytes.decimal 1 ++ ": ") = ":1: " := by decide
      rw [Bnf.Production.unreachable, here.name, here.place, labelled, ← column]
      simp only [List.append_assoc]
    rw [List.map_cons, List.filter_cons, List.filter_cons, here.name]
    have same : P (label x.1.name) ↔ r.Reaches start x.1.name := reaches x.1.name
    by_cases reached : r.Reaches start x.1.name
    · rw [if_neg (by simpa [same] using reached), if_neg (by simpa using reached), ih]
    · rw [if_pos (by simpa [same] using reached), if_pos (by simpa using reached), List.map_cons,
        List.map_cons, ih, words]
      rfl

/-! ### What is reported -/

variable {library : Bnf.Library}

open Classical in
/-- The names that are verified and cannot be reached, with their lines. -/
noncomputable def unreached (r : Registry) (start : Bytes) (base : List Bytes) :
    List (Bytes × Nat) :=
  ((r.verified start base).zipIdx 1).filter fun x => ¬ r.Reaches start x.1

theorem mem_unreached {x : Bytes × Nat} :
    x ∈ r.unreached start base ↔
      x ∈ (r.verified start base).zipIdx 1 ∧ ¬ r.Reaches start x.1 := by
  simp [unreached]

/-- The complaints are about the names that cannot be reached. -/
theorem complaints_eq (registered : start ∈ r.names) :
    r.complaints start base =
      (r.unreached start base).map fun x => Complaint.unreachable x.2 x.1 := by
  classical
  rw [complaints, unreached]
  simp only [List.contains_iff_mem, start_mem_verified registered, if_true]
  have names : ∀ x ∈ (r.verified start base).zipIdx 1, x.1 ∈ r.names := fun x mem =>
    (mem_verified.1 (List.fst_mem_of_mem_zipIdx mem)).1
  generalize (r.verified start base).zipIdx 1 = xs at names
  induction xs with
  | nil => rfl
  | cons x xs ih =>
    obtain ⟨here, names⟩ := List.forall_mem_cons.1 names
    have same : x.1 ∈ r.references.closure [start] ↔ r.Reaches start x.1 :=
      reaches_iff_mem_closure.trans (and_iff_right here)
    rw [List.filterMap_cons, List.filter_cons, ih names]
    by_cases reached : r.Reaches start x.1
    · rw [if_pos (same.2 reached), if_neg (by simpa using reached)]
    · rw [if_neg (fun mem => reached (same.1 mem)), if_pos (by simpa using reached)]
      rfl

theorem complaints_of_unregistered (none : start ∉ r.names) :
    r.complaints start base = [.noStart start] := by
  rw [complaints]
  have : start ∉ r.verified start base := fun mem => none (mem_verified.1 mem).1
  simp [this]

/-- The library reports the complaints, with labels. -/
theorem Orderly.reports_perm (orderly : r.Orderly) (documented : library.Documented) :
    (r.reports library start base).Perm ((r.complaints start base).map labelled) := by
  obtain ⟨es, ps, given, read⟩ := orderly.exists_given start base
  have grammar := given.isGrammar orderly
  rw [reports, documented.parses _ ps (orderly.isUtf8_render start base) read grammar.nodup]
  by_cases registered : start ∈ r.names
  · rw [complaints_eq registered, List.map_map]
    have found : start ∈ r.verified start base := start_mem_verified registered
    refine (documented.unreachable ps (label start) grammar (given.label_mem_iff.2 found)
      fun p mem _ x refers => ?_).trans (.of_eq (given.reported orderly registered))
    obtain ⟨m, kept, rfl⟩ := given.exists_label orderly mem refers
    refine ⟨given.label_mem_iff.2 kept, fun lexical => ?_⟩
    have named : p.name ∈ (r.verified start base).map label :=
      given.map_name ▸ List.mem_map_of_mem mem
    obtain ⟨n, -, same⟩ := List.mem_map.1 named
    rwa [isLexical_label m n, same]
  · rw [complaints_of_unregistered registered]
    have none : label start ∉ ps.map Bnf.Production.name := fun mem =>
      registered (mem_verified.1 (given.label_mem_iff.1 mem)).1
    exact .of_eq (documented.no_start ps (label start) grammar none)

/-- Verifying reports nothing if and only if there is nothing to complain about. -/
theorem verify_eq_none_iff :
    r.verify library start base = none ↔ r.reports library start base = [] := by
  rw [verify]
  split <;> simp_all

theorem complaints_eq_nil_iff :
    r.complaints start base = [] ↔
      start ∈ r.names ∧ ∀ n ∈ r.names, n = start ∨ n ∉ base → r.Reaches start n := by
  by_cases registered : start ∈ r.names
  · rw [complaints_eq registered, List.map_eq_nil_iff]
    constructor
    · refine fun none => ⟨registered, fun n mem named => ?_⟩
      by_contra unreached
      have kept : n ∈ r.verified start base := mem_verified.2 ⟨mem, n, mem, named, .refl⟩
      obtain ⟨i, here⟩ := List.mem_iff_getElem?.1 kept
      have := mem_unreached.2 ⟨List.mk_mem_zipIdx_iff_le_and_getElem?_sub.2
        ⟨Nat.le_add_left 1 i, by simpa using here⟩, unreached⟩
      rw [none] at this
      cases this
    · rintro ⟨-, all⟩
      rw [List.eq_nil_iff_forall_not_mem]
      intro x mem
      obtain ⟨kept, unreached⟩ := mem_unreached.1 mem
      obtain ⟨-, s, registered', named, path⟩ :=
        mem_verified.1 (List.fst_mem_of_mem_zipIdx kept)
      exact unreached ((all s registered' named).trans path)
  · rw [complaints_of_unregistered registered]
    simp [registered]

theorem unlabel_labelled {line : Nat} {name : Bytes} (valid : isValidName name = true) :
    unlabel false (Complaint.unreachable line name).labelled = unreachable (name, line) := by
  have same := @unlabel_unreachable line name valid []
  rwa [List.append_nil, unlabel, List.append_nil] at same

/-- How many more messages there are than the one that is shown. -/
def more : Nat → Bytes
  | 0 => []
  | n + 1 => " (and " ++ Bytes.decimal (n + 1) ++ " more errors)"

theorem unlabel_words {line : Nat} {name : Bytes} (valid : isValidName name = true)
    (rest : List Bytes) :
    unlabel false (Bnf.Library.words ((Complaint.unreachable line name).labelled :: rest)) =
      unreachable (name, line) ++ more rest.length := by
  cases rest with
  | nil =>
    rw [Bnf.Library.words, unlabel_labelled valid]
    exact (List.append_nil _).symm
  | cons message rest =>
    have front : 114 ∉ (" (and " : Bytes) ++ Bytes.decimal (rest.length + 1) := by
      rw [List.mem_append, not_or]
      exact ⟨by decide, notMem_decimal _⟩
    have plain (inWord : Bool) :
        unlabel inWord (" more errors)" : Bytes) = (" more errors)" : Bytes) := by
      cases inWord <;> rfl
    have shape : Bnf.Library.words ((Complaint.unreachable line name).labelled :: message :: rest) =
        (Complaint.unreachable line name).labelled ++
          ((" (and " ++ Bytes.decimal (rest.length + 1)) ++ " more errors)") := by
      simp [Bnf.Library.words]
    rw [shape, unlabel_unreachable valid, unlabel_append front, plain]
    rfl

open Classical in
/-- What verifying decides, for a start and a base. -/
structure Decides (library : Bnf.Library) (r : Registry) (start : Bytes) (base : List Bytes) :
    Prop where
  /-- Nothing is wrong if and only if the start is registered and every name that is not in the
      base, or is the start, can be reached from it. -/
  silent : r.verify library start base = none ↔
    start ∈ r.names ∧ ∀ n ∈ r.names, n = start ∨ n ∉ base → r.Reaches start n
  /-- Without labels, the library reports each name that is verified and cannot be reached. -/
  messages : start ∈ r.names → ((r.reports library start base).map (unlabel false)).Perm
    ((((r.verified start base).zipIdx 1).filter fun x => ¬ r.Reaches start x.1).map unreachable)
  /-- One of the messages is shown, with the number of the others. -/
  shown : start ∈ r.names → ∀ text, r.verify library start base = some text →
    ∃ x ∈ (r.verified start base).zipIdx 1, ¬ r.Reaches start x.1 ∧
      text = unreachable x ++ more ((r.reports library start base).length - 1)
  /-- What the library reports are the complaints about the registry. -/
  complained : (r.reports library start base).Perm ((r.complaints start base).map labelled)

/-- Verifying decides whether every name that must be reached can be reached. -/
theorem verify_decides_reachability (documented : library.Documented) (built : r.Built)
    (start : Bytes) (base : List Bytes) : Decides library r start base := by
  have orderly := built.orderly
  have perm : (r.reports library start base).Perm ((r.complaints start base).map labelled) :=
    orderly.reports_perm documented
  have valid {x : Bytes × Nat} (mem : x ∈ (r.verified start base).zipIdx 1) :
      isValidName x.1 = true := by
    obtain ⟨e, here, same⟩ :=
      List.mem_map.1 (mem_verified.1 (List.fst_mem_of_mem_zipIdx mem)).1
    exact same ▸ orderly.valid e here
  refine ⟨?_, fun registered => ?_, fun registered text shown => ?_, perm⟩
  · rw [verify_eq_none_iff, ← complaints_eq_nil_iff]
    constructor
    · intro none
      rw [none] at perm
      exact List.map_eq_nil_iff.1 perm.nil_eq.symm
    · intro none
      rw [none] at perm
      exact perm.eq_nil
  · rw [complaints_eq registered, List.map_map] at perm
    refine (perm.map _).trans (.of_eq ?_)
    rw [List.map_map]
    exact List.map_congr_left fun x mem => unlabel_labelled (valid (mem_unreached.1 mem).1)
  · rw [complaints_eq registered, List.map_map] at perm
    rw [verify] at shown
    cases reported : r.reports library start base with
    | nil => simp [reported] at shown
    | cons message rest =>
      rw [reported] at shown perm
      obtain ⟨x, mem, rfl⟩ := List.mem_map.1 (perm.subset (List.mem_cons_self ..))
      obtain ⟨kept, unreached⟩ := mem_unreached.1 mem
      refine ⟨x, kept, unreached, ?_⟩
      rw [← Option.some.inj shown]
      exact unlabel_words (valid kept) rest

end Registry

/-! ### A sample -/

namespace Bnf

/-- Which names each name refers to. -/
def graph (ps : List Production) : References := ps.map fun p => (p.name, p.references)

/-- What is wrong with the references of a production. -/
def Production.faults (ps : List Production) (p : Production) : List Bytes :=
  p.references.filterMap fun n =>
    if n ∉ ps.map Production.name then some ("missing production " ++ n)
    else if isLexical p.name && !isLexical n then
      some ("reference to non-lexical production " ++ n)
    else none

/-- A library that does what the documentation says, and reports unreachable productions in order. -/
def Library.plain : Library where
  parse text :=
    match read text with
    | none => .error ["not a list of productions"]
    | some ps =>
        if (ps.map Production.name).Nodup then .ok ps else .error ["a name is declared twice"]
  check ps start :=
    if start ∈ ps.map Production.name then
      let reached := (graph ps).closure [start]
      (ps.filter fun p => reached.contains p.name).flatMap (Production.faults ps) ++
        (ps.filter fun p => !reached.contains p.name).map Production.unreachable
    else ["<input>: no start production " ++ start]

theorem refers_graph {ps : List Production} {a b : Bytes} :
    (graph ps).Refers a b ↔ Refers ps a b := by
  constructor
  · rintro ⟨refs, edge, mem⟩
    obtain ⟨p, here, eq⟩ := List.mem_map.1 edge
    cases eq
    exact ⟨p, here, rfl, mem⟩
  · rintro ⟨p, here, rfl, mem⟩
    exact ⟨p.references, List.mem_map_of_mem here, mem⟩

theorem mem_closure_graph {ps : List Production} {start : Bytes} {p : Production} (mem : p ∈ ps) :
    p.name ∈ (graph ps).closure [start] ↔
      Relation.ReflTransGen (Refers ps) start p.name := by
  have same : (graph ps).Refers = Refers ps := funext₂ fun _ _ => propext refers_graph
  have named : p.name ∈ (graph ps).map Prod.fst := by
    rw [graph, List.map_map]
    exact List.mem_map_of_mem mem
  rw [References.mem_closure, same]
  simp [named]

theorem Library.plain_ne_nil {ps : List Production} {start : Bytes}
    (defined : start ∈ ps.map Production.name) {p : Production} (mem : p ∈ ps)
    (reached : Relation.ReflTransGen (Refers ps) start p.name) {message : Bytes}
    (fault : message ∈ p.faults ps) : plain.check ps start ≠ [] := by
  refine List.ne_nil_of_mem (a := message) ?_
  rw [plain]
  dsimp only
  rw [if_pos defined]
  refine List.mem_append_left _ (List.mem_flatMap.2 ⟨p, List.mem_filter.2 ⟨mem, ?_⟩, fault⟩)
  simpa using (mem_closure_graph mem).2 reached

theorem Library.documented_plain : plain.Documented where
  parses text ps _ read nodup := by
    rw [plain]
    simp only [read, if_pos nodup]
  no_start ps start _ none := if_neg none
  missing ps start _ defined p mem reached n refers none := by
    exact plain_ne_nil defined mem reached (List.mem_filterMap.2 ⟨n, refers, if_pos none⟩)
  not_lexical ps start _ defined p mem reached n refers lexical other := by
    by_cases none : n ∉ ps.map Production.name
    · exact plain_ne_nil defined mem reached (List.mem_filterMap.2 ⟨n, refers, if_pos none⟩)
    · have fault : (isLexical p.name && !isLexical n) = true := by simp [lexical, other]
      exact plain_ne_nil defined mem reached
        (List.mem_filterMap.2 ⟨n, refers, (if_neg none).trans (if_pos fault)⟩)
  unreachable ps start _ defined fine := by
    rw [plain]
    dsimp only
    rw [if_pos defined]
    have none : (ps.filter fun p => ((graph ps).closure [start]).contains p.name).flatMap
        (Production.faults ps) = [] := by
      rw [List.flatMap_eq_nil_iff]
      intro p mem
      obtain ⟨mem, reached⟩ := List.mem_filter.1 mem
      have refs := fine p mem ((mem_closure_graph mem).1 (by simpa using reached))
      rw [Production.faults, List.filterMap_eq_nil_iff]
      intro n refers
      obtain ⟨named, lexical⟩ := refs n refers
      rw [if_neg (not_not.2 named), if_neg]
      simpa using lexical
    rw [none, List.nil_append]
    refine .of_eq (congrArg _ (List.filter_congr fun p mem => ?_))
    have same : p.name ∈ (graph ps).closure [start] ↔ _ := mem_closure_graph mem
    by_cases reached : p.name ∈ (graph ps).closure [start]
    · simp [reached, same.1 reached]
    · simp [reached, mt same.2 reached]

end Bnf

namespace Registry

open Complaint

theorem verify_decides_reachability_sample :
    Bnf.Library.plain.Documented ∧ Sample.integers.Built ∧
      Decides Bnf.Library.plain Sample.integers "sign" ["digit"] :=
  ⟨Bnf.Library.documented_plain, Sample.built_integers,
    verify_decides_reachability Bnf.Library.documented_plain Sample.built_integers "sign" ["digit"]⟩

end Registry

end Rulebook
