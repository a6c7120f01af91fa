import Rulebook.Proofs.Definition.Parts

/-!
# The first literal that fails

A value is read from left to right, groups and all. What goes wrong with it is the fault of its first
literal that has one, at the place where that stands in the line, or something that has no place of
its own: `Definition.reported_readValue`. In particular reading a value never leaves the line, and
never comes to an end for want of depth.
-/

namespace Rulebook

open Bytes

namespace Tree

/-- True of a tree that tells the truth about a text, with all that lies below it. -/
def Rooted (text : Bytes) (t : Tree) : Prop := ∃ r, t.Faithful text r

variable {text name : Bytes} {t child : Tree}

theorem Rooted.stands (h : Rooted text t) : t.Stands text :=
  h.elim fun _ faithful => (faithful_iff.1 faithful).1

theorem Rooted.child? (h : Rooted text t) (here : t.child? name = some child) :
    Rooted text child ∧ Within t child := by
  obtain ⟨r, faithful⟩ := h
  have mem := (mem_of_child? here).1
  obtain ⟨-, -, within, below⟩ := faithful_iff.1 faithful
  obtain ⟨e, -, -, -, faithful⟩ := below child mem
  exact ⟨⟨e.rule, faithful⟩, within child mem⟩

theorem rooted_of_mem {r : Rule} (mem : t ∈ r.nodes text) : Rooted text t :=
  ⟨r, Rule.faithful_of_mem mem⟩

end Tree

namespace Definition

open Bootstrap (token alternative name modest_token)
open Rule (Grown PartAt)

/-! ### Literals -/

/-- Finds the literals of a text that stands at an offset, each with the offset from which its own
    offset counts. -/
abbrev Finder := Bytes → Int → List (Int × Tree)

/-- The literals of an alternative. -/
def alternativeLiterals (find : Finder) (base : Int) (t : Tree) : List (Int × Tree) :=
  match t.child? "sequence" with
  | none => []
  | some sequence => find sequence.text (base + sequence.offset)

/-- The literals of a group. -/
def groupLiterals (find : Finder) (base : Int) (t : Tree) : List (Int × Tree) :=
  match t.child? "alternatives" with
  | none => []
  | some alternatives =>
      (alternative.nodes alternatives.text).flatMap
        (alternativeLiterals find (base + alternatives.offset))

/-- The literals of a token. -/
def tokenLiterals (find : Finder) (base : Int) (t : Tree) : List (Int × Tree) :=
  match t.child? "atom" with
  | none => []
  | some atom =>
      match atom.child? "group" with
      | some group => groupLiterals find base group
      | none => (atom.child? "literal").toList.map (base, ·)

/-- The literals of a text that stands at an offset, in order and in groups up to a depth. -/
def literals : Nat → Finder
  | 0, _, _ => []
  | depth + 1, text, base => (token.nodes text).flatMap (tokenLiterals (literals depth) base)

/-- What is wrong with a literal, and where: a quoted text that cannot be read, or a name under which
    there is no rule. -/
def fault? (registry : Registry) (base : Int) (literal : Tree) : Option (Int × Error) :=
  match literal.child? "text" with
  | some text =>
      if text.text.unquote?.isSome then none
      else some (base + text.offset, .misread (.quotedText text.text))
  | none =>
      match literal.child? "pattern", literal.child? "bare" with
      | none, some bare =>
          if name.recognises bare.text && (registry.get? bare.text).isNone then
            some (base + bare.offset, .unknownRule bare.text)
          else none
      | _, _ => none

/-- The text that an error finds fault with, if the error is the fault of a literal. -/
def faulty? : Error → Option Bytes
  | .unknownRule name => some name
  | .misread (.quotedText text) => some text
  | _ => none

/-- True of the errors that a value has by itself, before its rule is compiled. -/
def ofValue : Error → Bool
  | .unknownRule _ => true
  | .misread _ => true
  | _ => false

/-! ### Places in a line -/

/-- True of a context that stands at the start of a line. -/
structure Context.At (c : Context) (l : Bytes) : Prop where
  grammar : c.grammar = .bootstrap
  line : ∃ more, c.marker.rest = l ++ more

variable {c : Context} {l : Bytes}

/-- An offset in the line. -/
def Context.offset (c : Context) (k : Nat) : Int := c.marker.position.offset + k

/-- The diagnosis of a fault in the line. -/
theorem Context.At.errorAt (h : c.At l) {k : Nat} (fits : k ≤ l.length) (cause : Error) :
    c.errorAt (c.offset k) cause =
      .error (.compile (c.marker.position.advance (l.take k)) c.definition (some cause)) := by
  obtain ⟨more, rest⟩ := h.line
  simp only [Context.errorAt, Context.offset, Marker.locate_add rest fits]

/-! ### What is reported -/

/-- What is shown of reading a part of a value, which holds some literals and lies between two places
    of the line: if it fails, then with the fault of the first literal that has one, or with another
    error in the part, or with one that has no place. -/
def Reported {α : Type} (c : Context) (literals : List (Int × Tree)) (low high : Nat) :
    Except Halt α → Prop
  | .ok _ => ∀ x ∈ literals, fault? c.registry x.1 x.2 = none
  | .error h =>
      (∃ code reason, h = .error (.malformed code reason)) ∨
        ∃ k e, low ≤ k ∧ k ≤ high ∧ ofValue e = true ∧ h = c.errorAt (c.offset k) e ∧
          ((faulty? e).isSome → ∃ before x after, literals = before ++ x :: after ∧
            (∀ y ∈ before, fault? c.registry y.1 y.2 = none) ∧
            fault? c.registry x.1 x.2 = some (c.offset k, e))

variable {α β : Type} {found : List (Int × Tree)} {low high : Nat}

theorem Reported.mono {result : Except Halt α} (h : Reported c found low high result)
    {low' high' : Nat} (le : low' ≤ low) (le' : high ≤ high') :
    Reported c found low' high' result := by
  cases result with
  | ok a => exact h
  | error halt =>
    obtain unplaced | ⟨k, e, ge, ge', own, eq, first⟩ := h
    · exact .inl unplaced
    · exact .inr ⟨k, e, Nat.le_trans le ge, Nat.le_trans ge' le', own, eq, first⟩

/-- Something wrong with a value that is not the fault of a literal. -/
theorem reported_errorAt {k : Nat} (le : low ≤ k) (le' : k ≤ high) {what : Misreading}
    (other : faulty? (.misread what) = none) :
    Reported c found low high (.error (c.errorAt (c.offset k) (.misread what)) : Except Halt α) :=
  .inr ⟨k, _, le, le', rfl, rfl, fun named => by rw [other] at named; cases named⟩

/-- One part after another. -/
theorem Reported.bind {result : Except Halt α} {next : α → Except Halt β} {later : List (Int × Tree)}
    (h : Reported c found low high result)
    (h' : ∀ a, result = .ok a → Reported c later low high (next a)) :
    Reported c (found ++ later) low high (result >>= next) := by
  cases result with
  | error halt =>
    obtain unplaced | ⟨k, e, ge, ge', own, eq, first⟩ := h
    · exact .inl unplaced
    · refine .inr ⟨k, e, ge, ge', own, eq, fun is => ?_⟩
      obtain ⟨before, x, after, rfl, none, here⟩ := first is
      exact ⟨before, x, after ++ later, by simp, none, here⟩
  | ok a =>
    have after := h' a rfl
    change Reported c _ _ _ (next a)
    cases eq : next a with
    | ok b =>
      rw [eq] at after
      intro x mem
      exact (List.mem_append.1 mem).elim (h x) (after x)
    | error halt =>
      rw [eq] at after
      obtain unplaced | ⟨k, e, ge, ge', own, eq, first⟩ := after
      · exact .inl unplaced
      · refine .inr ⟨k, e, ge, ge', own, eq, fun is => ?_⟩
        obtain ⟨before, x, after, rfl, none, here⟩ := first is
        refine ⟨found ++ before, x, after, by simp, fun y mem => ?_, here⟩
        exact (List.mem_append.1 mem).elim (h y) (none y)

/-- A step without literals of its own. -/
theorem Reported.andThen {result : Except Halt α} {next : α → Except Halt β}
    (h : Reported c found low high result)
    (h' : ∀ a, result = .ok a → Reported c [] low high (next a)) :
    Reported c found low high (result >>= next) := by
  have both := h.bind h'
  rwa [List.append_nil] at both

/-- Entries that cannot be combined are malformed. -/
theorem combine_eq_error {how : Combinator} {entries : List (Entry Rule)} {h : Halt}
    (failed : combine c how entries = .error h) :
    ∃ code reason, h = .error (.malformed code reason) := by
  unfold combine Rule.ofItems Rule.build at failed
  rw [show (how.code : Int) = ((Kind.combine how).code : Int) from rfl, Kind.ofCode?_code] at failed
  dsimp only at failed
  split at failed
  · cases failed
    exact ⟨_, _, rfl⟩
  · cases failed

theorem reported_combine (how : Combinator) (entries : List (Entry Rule)) :
    Reported c [] low high (combine c how entries) := by
  cases result : combine c how entries with
  | ok r => exact nofun
  | error h => exact .inl (combine_eq_error result)

/-- Trees one after another. -/
theorem reported_mapM {trees : List Tree} {f : Tree → Except Halt β} {inside : Tree → List (Int × Tree)}
    (h : ∀ t ∈ trees, Reported c (inside t) low high (f t)) :
    Reported c (trees.flatMap inside) low high
      ((trees.map .ok).mapM fun result => do
        let node ← lift result
        f node) := by
  induction trees with
  | nil => exact nofun
  | cons t rest ih =>
    obtain ⟨here, others⟩ := List.forall_mem_cons.1 h
    rw [List.map_cons, List.mapM_cons, List.flatMap_cons]
    refine Reported.bind here fun b _ => (ih others).andThen fun bs _ => ?_
    exact nofun

/-! ### Tokens -/

/-- A part of a text that stands in a line stands in the line. -/
theorem partAt_of_stands {text : Bytes} {k : Nat} (part : PartAt l k text) {t : Tree}
    (stands : t.Stands text) :
    ∃ start : Nat, t.offset = start ∧ start + t.text.length ≤ text.length ∧
      PartAt l (k + start) t.text := by
  obtain ⟨start, offset, fits, slice⟩ := stands
  refine ⟨start, offset, fits, ?_⟩
  have inside := part.slice (Nat.le_add_right start _) fits
  rwa [slice] at inside

theorem offset_add (c : Context) (k start : Nat) : c.offset k + (start : Int) = c.offset (k + start) := by
  simp only [Context.offset]
  omega

/-- A literal with a fault is reported. -/
theorem reported_readLiteral (at_ : c.At l) {text : Bytes} {k : Nat} {literal : Tree} (rooted : literal.Rooted text)
    (quotes : ∀ pattern, literal.child? "pattern" = some pattern → 2 ≤ pattern.text.length) :
    Reported c [(c.offset k, literal)] k (k + text.length) (readLiteral c (c.offset k) literal) := by
  have placed {child : Tree} {n : Bytes} (here : literal.child? n = some child) :
      ∃ start : Nat, child.offset = start ∧ start ≤ text.length := by
    obtain ⟨start, offset, fits, -⟩ := (rooted.child? here).1.stands
    exact ⟨start, offset, by omega⟩
  have one {α : Type} {start : Nat} {e : Error} (fits : start ≤ text.length)
      (own : ofValue e = true) (eq : fault? c.registry (c.offset k) literal = some (c.offset (k + start), e)) :
      Reported c [(c.offset k, literal)] k (k + text.length)
        (.error (c.errorAt (c.offset (k + start)) e) : Except Halt α) :=
    .inr ⟨k + start, e, by omega, by omega, own, rfl, fun _ => ⟨[], _, [], rfl, nofun, eq⟩⟩
  unfold readLiteral
  split
  · rename_i text_ here
    obtain ⟨start, offset, fits⟩ := placed here
    split
    · rename_i unread
      rw [offset, offset_add]
      refine one fits rfl ?_
      simp only [fault?, here, unread, offset, offset_add]
      rfl
    · rename_i value read
      simp [Reported, fault?, here, read]
  · rename_i none
    split
    · rename_i pattern here
      rw [if_neg (by have := quotes pattern here; omega)]
      simp [Reported, fault?, none, here]
    · rename_i none'
      split
      · obtain ⟨start, offset, fits, -⟩ := rooted.stands
        rw [offset, offset_add]
        exact reported_errorAt (by omega) (by omega) rfl
      · rename_i bare here
        obtain ⟨start, offset, fits⟩ := placed here
        have accepts : c.grammar.name.accepts bare.text = .ok (name.recognises bare.text) := by
          rw [at_.grammar]
          exact Bootstrap.accepted_name.accepts_eq bare.text
        rw [accepts]
        change Reported c _ _ _ (if name.recognises bare.text = true then _ else _)
        cases known : name.recognises bare.text with
        | false => simp [Reported, fault?, none, none', here, known]
        | true =>
          rw [if_pos rfl]
          cases rule : c.registry.get? bare.text with
          | none =>
            simp only [Registry.get, rule, offset, offset_add]
            refine one fits rfl ?_
            simp [fault?, none, none', here, known, rule, offset, offset_add]
          | some rule' =>
            simp [Registry.get, rule, Reported, fault?, none, none', here]

/-- True of what reads the tokens of a text, if it reports their literals whenever the text is shorter
    than a length. -/
def Reports (c : Context) (l : Bytes) (find : Finder) (length : Nat) (read : TokenReader) : Prop :=
  ∀ text k, text.length < length → PartAt l k text →
    Reported c (find text (c.offset k)) k (k + text.length) (read text (c.offset k))

/-- Something wrong with a part of a text that is not the fault of a literal. -/
theorem reported_misread {text : Bytes} {k : Nat} {t : Tree} (rooted : t.Rooted text)
    {what : Misreading} (other : faulty? (.misread what) = none) :
    Reported c found k (k + text.length)
      (.error (c.errorAt (c.offset k + t.offset) (.misread what)) : Except Halt α) := by
  obtain ⟨start, offset, fits, -⟩ := rooted.stands
  rw [offset, offset_add]
  exact reported_errorAt (by omega) (by omega) other

section

variable {find : Finder} {depth : Nat} {read : TokenReader} {text : Bytes} {k : Nat}

theorem reported_readAlternative (reports : Reports c l find depth read) (short : text.length < depth)
    (part : PartAt l k text) {t : Tree} (rooted : t.Rooted text) :
    Reported c (alternativeLiterals find (c.offset k) t) k (k + text.length)
      (readAlternative c read (c.offset k) t) := by
  unfold readAlternative alternativeLiterals
  cases here : t.child? "sequence" with
  | none => exact nofun
  | some sequence =>
    obtain ⟨start, offset, fits, part'⟩ := partAt_of_stands part (rooted.child? here).1.stands
    dsimp only
    rw [offset, offset_add]
    refine ((reports _ _ (Nat.lt_of_le_of_lt (by omega) short) part').mono
      (Nat.le_add_right ..) (by omega)).andThen fun tokens _ => ?_
    split
    · exact nofun
    · refine (reported_combine ..).andThen fun rule _ => ?_
      exact nofun

theorem reported_readGroup (at_ : c.At l) (reports : Reports c l find depth read)
    (short : text.length ≤ depth) (part : PartAt l k text) {g : Tree} (rooted : g.Rooted text)
    (grown : Grown Bootstrap.group g) :
    Reported c (groupLiterals find (c.offset k) g) k (k + text.length)
      (readGroup c read (c.offset k) g) := by
  unfold readGroup groupLiterals
  cases here : g.child? "alternatives" with
  | none => exact reported_misread rooted rfl
  | some alternatives =>
    obtain ⟨start, offset, fits, part'⟩ := partAt_of_stands part (rooted.child? here).1.stands
    obtain ⟨start', offset', fits', -⟩ := rooted.stands
    have shorter := Bootstrap.length_alternatives grown here
    have trees : c.grammar.alternative.trees alternatives.text =
        (alternative.nodes alternatives.text).map .ok := by
      rw [at_.grammar]
      exact Bootstrap.ready_alternative.trees_eq alternatives.text
    dsimp only
    rw [trees, offset, offset_add]
    refine ((reported_mapM fun t mem => reported_readAlternative reports (by omega) part'
      (Tree.rooted_of_mem mem)).mono (Nat.le_add_right ..) (by omega)).andThen fun rules _ => ?_
    exact reported_combine ..

theorem reported_readAtom (at_ : c.At l) (reports : Reports c l find depth read)
    (short : text.length ≤ depth) (part : PartAt l k text) {t : Tree} (mem : t ∈ token.nodes text) :
    Reported c (tokenLiterals find (c.offset k) t) k (k + text.length)
      (readAtom c read (c.offset k) t) := by
  have rooted := Tree.rooted_of_mem mem
  unfold readAtom tokenLiterals
  cases atom_ : t.child? "atom" with
  | none => exact reported_misread rooted rfl
  | some a =>
    have inside := (rooted.child? atom_).1
    dsimp only
    cases group_ : a.child? "group" with
    | some g =>
      have grown := Bootstrap.grown_of_child? Bootstrap.group
        (Bootstrap.grown_of_mem_nodes Bootstrap.atom mem atom_ rfl) group_ rfl
      have group := reported_readGroup at_ reports short part (inside.child? group_).1 grown
      refine group.andThen fun rule _ => ?_
      exact nofun
    | none =>
      dsimp only
      cases literal_ : a.child? "literal" with
      | none => exact reported_misread rooted rfl
      | some literal =>
        exact reported_readLiteral at_ (inside.child? literal_).1 fun p pattern_ =>
          Bootstrap.length_pattern mem atom_ literal_ pattern_

theorem reported_readToken (at_ : c.At l) (reports : Reports c l find depth read)
    (short : text.length ≤ depth) (part : PartAt l k text) {t : Tree} (mem : t ∈ token.nodes text) :
    Reported c (tokenLiterals find (c.offset k) t) k (k + text.length)
      (readToken c read (c.offset k) t) := by
  unfold readToken
  refine (reported_readAtom at_ reports short part mem).andThen fun entry _ => ?_
  split
  · exact nofun
  · rename_i suffix here
    split
    · exact nofun
    · split
      · exact reported_misread ((Tree.rooted_of_mem mem).child? here).1 rfl
      · refine (reported_combine ..).andThen fun rule _ => ?_
        exact nofun

end

/-- By induction on the depth: the texts inside of groups are shorter than the text. -/
theorem reported_readTokens (at_ : c.At l) (depth : Nat) :
    Reports c l (literals depth) depth (readTokens c depth) := by
  induction depth with
  | zero => exact fun _ _ short => absurd short (Nat.not_lt_zero _)
  | succ depth ih =>
    intro text k short part
    have trees : c.grammar.token.trees text = (token.nodes text).map .ok := by
      rw [at_.grammar]
      exact Bootstrap.ready_token.trees_eq text
    rw [readTokens, trees]
    exact reported_mapM fun t mem =>
      reported_readToken at_ ih (Nat.le_of_lt_succ short) part mem

/-- What goes wrong with a value is the fault of its first literal that has one, or something that has
    nothing to do with its literals. -/
theorem reported_readValue (at_ : c.At l) {text : Bytes} {k : Nat} (part : PartAt l k text) :
    Reported c (literals (text.length + 1) text (c.offset k)) k (k + text.length)
      (readValue c text (c.offset k)) :=
  (reported_readTokens at_ _ _ _ (Nat.lt_succ_self _) part).andThen fun _ _ => reported_combine ..

/-! ### The order of the literals -/

/-- Where a literal stands in the line. -/
def Place (c : Context) (l : Bytes) (x : Int × Tree) : Prop :=
  ∃ text k, x.1 = c.offset k ∧ PartAt l k text ∧ x.2.Rooted text

/-- Literals of a part of a line, one after another. -/
structure Row (c : Context) (l : Bytes) (low high : Int) (found : List (Int × Tree)) : Prop where
  place : ∀ x ∈ found, Place c l x
  within : ∀ x ∈ found, low ≤ x.1 + x.2.offset ∧ x.1 + x.2.finish ≤ high
  ordered : found.Pairwise fun x y => x.1 + x.2.finish ≤ y.1 + y.2.offset

theorem row_nil {low high : Int} : Row c l low high [] := ⟨nofun, nofun, .nil⟩

theorem Row.mono {low high low' high' : Int} (h : Row c l low high found) (le : low' ≤ low)
    (le' : high ≤ high') : Row c l low' high' found :=
  ⟨h.place, fun x mem => ⟨le.trans (h.within x mem).1, (h.within x mem).2.trans le'⟩, h.ordered⟩

theorem pairwise_of_inOrder {trees : List Tree} (h : Tree.InOrder trees) :
    trees.Pairwise fun t u => t.finish ≤ u.offset := by
  induction trees with
  | nil => exact .nil
  | cons t rest ih =>
    refine .cons (fun u mem => ?_) (ih h.2)
    cases rest with
    | nil => cases mem
    | cons next rest =>
      have first := (h.1 next rfl).1
      obtain rfl | mem := List.mem_cons.1 mem
      · exact first
      · have later := List.rel_of_pairwise_cons (ih h.2) mem
        simp only [Tree.finish] at first later ⊢
        omega

/-- The trees of a text are in order, so what stands in them is. -/
theorem row_flatMap {r : Rule} {text : Bytes} {base : Int} {inside : Tree → List (Int × Tree)}
    (h : ∀ t ∈ r.nodes text, Row c l (base + t.offset) (base + t.finish) (inside t)) :
    Row c l base (base + text.length) ((r.nodes text).flatMap inside) := by
  refine ⟨fun x mem => ?_, fun x mem => ?_, ?_⟩
  · obtain ⟨t, mem, here⟩ := List.mem_flatMap.1 mem
    exact (h t mem).place x here
  · obtain ⟨t, mem, here⟩ := List.mem_flatMap.1 mem
    obtain ⟨start, offset, fits, -⟩ := (Tree.rooted_of_mem mem).stands
    have within := (h t mem).within x here
    have finish : t.finish = t.offset + t.text.length := rfl
    omega
  · refine List.pairwise_flatMap.2 ⟨fun t mem => (h t mem).ordered, ?_⟩
    refine (pairwise_of_inOrder (Rule.inOrder_of_text r text)).imp_of_mem ?_
    intro t u mem mem' after x here y here'
    have before := ((h t mem).within x here).2
    have behind := ((h u mem').within y here').1
    omega

/-- True of what finds the literals of a text, if it finds them in order. -/
def Finds (c : Context) (l : Bytes) (find : Finder) : Prop :=
  ∀ text k, PartAt l k text → Row c l (c.offset k) (c.offset k + text.length) (find text (c.offset k))

section

variable {find : Finder} {text : Bytes} {k : Nat}

theorem row_alternative (finds : Finds c l find) (part : PartAt l k text) {t : Tree}
    (rooted : t.Rooted text) :
    Row c l (c.offset k + t.offset) (c.offset k + t.finish)
      (alternativeLiterals find (c.offset k) t) := by
  unfold alternativeLiterals
  cases here : t.child? "sequence" with
  | none => exact row_nil
  | some sequence =>
    obtain ⟨inside, within⟩ := rooted.child? here
    obtain ⟨start, offset, fits, part'⟩ := partAt_of_stands part inside.stands
    have row := finds _ _ part'
    rw [← offset_add, ← offset] at row
    simp only [Tree.Within, Tree.finish] at within ⊢
    exact row.mono (by omega) (by omega)

theorem row_group (finds : Finds c l find) (part : PartAt l k text) {g : Tree}
    (rooted : g.Rooted text) :
    Row c l (c.offset k + g.offset) (c.offset k + g.finish) (groupLiterals find (c.offset k) g) := by
  unfold groupLiterals
  cases here : g.child? "alternatives" with
  | none => exact row_nil
  | some alternatives =>
    obtain ⟨inside, within⟩ := rooted.child? here
    obtain ⟨start, offset, fits, part'⟩ := partAt_of_stands part inside.stands
    have row := row_flatMap (r := alternative) fun t mem =>
      row_alternative (k := k + start) finds part' (Tree.rooted_of_mem mem)
    rw [← offset_add, ← offset] at row
    simp only [Tree.Within, Tree.finish] at within ⊢
    exact row.mono (by omega) (by omega)

theorem row_token (finds : Finds c l find) (part : PartAt l k text) {t : Tree}
    (rooted : t.Rooted text) :
    Row c l (c.offset k + t.offset) (c.offset k + t.finish) (tokenLiterals find (c.offset k) t) := by
  unfold tokenLiterals
  cases atom_ : t.child? "atom" with
  | none => exact row_nil
  | some a =>
    obtain ⟨inside, within⟩ := rooted.child? atom_
    dsimp only
    cases group_ : a.child? "group" with
    | some g =>
      obtain ⟨inside', within'⟩ := inside.child? group_
      simp only [Tree.Within] at within within'
      exact (row_group finds part inside').mono (by omega) (by omega)
    | none =>
      dsimp only
      cases literal_ : a.child? "literal" with
      | none => exact row_nil
      | some literal =>
        obtain ⟨inside', within'⟩ := inside.child? literal_
        simp only [Tree.Within] at within within'
        refine ⟨List.forall_mem_singleton.2 ⟨text, k, rfl, part, inside'⟩,
          List.forall_mem_singleton.2 ?_, List.pairwise_singleton ..⟩
        change c.offset k + t.offset ≤ c.offset k + literal.offset ∧
          c.offset k + literal.finish ≤ c.offset k + t.finish
        omega

end

/-- The literals of a text come in the order of the text, however deep in groups they stand. -/
theorem row_literals (depth : Nat) : Finds c l (literals depth) := by
  induction depth with
  | zero => exact fun _ _ _ => row_nil
  | succ depth ih =>
    exact fun text k part => row_flatMap fun t mem => row_token ih part (Tree.rooted_of_mem mem)

/-! ### The first fault -/

/-- A fault stands in its literal, and the text that it finds fault with stands there. -/
theorem place_fault {x : Int × Tree} (place : Place c l x) {registry : Registry} {offset : Int}
    {e : Error} (h : fault? registry x.1 x.2 = some (offset, e)) :
    x.1 + x.2.offset ≤ offset ∧ offset ≤ x.1 + x.2.finish ∧
      ∃ k n, offset = c.offset k ∧ faulty? e = some n ∧ PartAt l k n := by
  obtain ⟨text, k, base, part, rooted⟩ := place
  have inside {name : Bytes} {child : Tree} (here : x.2.child? name = some child)
      (found : offset = x.1 + child.offset) (named : faulty? e = some child.text) :
      x.1 + x.2.offset ≤ offset ∧ offset ≤ x.1 + x.2.finish ∧
        ∃ k n, offset = c.offset k ∧ faulty? e = some n ∧ PartAt l k n := by
    obtain ⟨inside, low, high⟩ := rooted.child? here
    obtain ⟨start, at_, -, part'⟩ := partAt_of_stands part inside.stands
    rw [Tree.finish] at high
    refine ⟨by omega, by omega, k + start, child.text, ?_, named, part'⟩
    rw [found, base, at_, offset_add]
  unfold fault? at h
  split at h
  · rename_i child here
    split at h
    · cases h
    · cases h
      exact inside here rfl rfl
  · split at h
    · rename_i child _ here
      split at h
      · cases h
        exact inside here rfl rfl
      · cases h
    · cases h

/-- What is known of an error at a place of a line: if it is the fault of a literal, then what it finds
    fault with stands there, and the fault is the leftmost of all. -/
structure Leftmost (c : Context) (l : Bytes) (found : List (Int × Tree)) (k : Nat) (e : Error)
    (n : Bytes) : Prop where
  part : PartAt l k n
  mem : ∃ x ∈ found, fault? c.registry x.1 x.2 = some (c.offset k, e)
  least : ∀ y ∈ found, ∀ offset e', fault? c.registry y.1 y.2 = some (offset, e') → c.offset k ≤ offset

theorem Reported.leftmost {low high : Nat} {low' high' : Int} {h : Halt} (row : Row c l low' high' found)
    (reported : Reported c found low high (.error h : Except Halt α)) :
    (∃ code reason, h = .error (.malformed code reason)) ∨
      ∃ k e, low ≤ k ∧ k ≤ high ∧ ofValue e = true ∧ h = c.errorAt (c.offset k) e ∧
        ∀ n, faulty? e = some n → Leftmost c l found k e n := by
  obtain unplaced | ⟨k, e, ge, le, own, eq, first⟩ := reported
  · exact .inl unplaced
  refine .inr ⟨k, e, ge, le, own, eq, fun n named => ?_⟩
  obtain ⟨before, x, after, rfl, none, here⟩ := first (by rw [named]; rfl)
  have mem : x ∈ before ++ x :: after := by simp
  obtain ⟨-, high, k', n', offset, named', part⟩ := place_fault (row.place x mem) here
  have same : k' = k := by
    simp only [Context.offset] at offset
    omega
  cases named.symm.trans named'
  refine ⟨same ▸ part, ⟨x, mem, here⟩, fun y mem' offset' e' there => ?_⟩
  obtain mem' | mem' := List.mem_append.1 mem'
  · rw [none y mem'] at there
    cases there
  obtain rfl | mem' := List.mem_cons.1 mem'
  · cases here.symm.trans there
    exact Int.le_refl _
  · have ordered := List.rel_of_pairwise_cons (List.pairwise_append.1 row.ordered).2.1 mem'
    have low := (place_fault (row.place y (by simp [mem'])) there).1
    omega

end Definition

end Rulebook
