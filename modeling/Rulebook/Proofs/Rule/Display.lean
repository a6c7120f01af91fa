import Rulebook.Proofs.Registry
import Rulebook.Proofs.Rule.Shape
import Rulebook.Proofs.Text.Quoted
import Rulebook.Proofs.Text.Words
import Rulebook.Rule.Display

/-!
# Rules told apart in writing

Rules that are written alike have one shape, and with it one pattern (`Rule.display_injective`).
No text is both a rule in writing and the start of another, so that a rule can be read off the start
of a text: its first word is its kind or the name of its entry, and the byte after the word tells
which.
-/

namespace Rulebook

namespace Bytes

/-- Parts with a separator before each are the joined parts after one more separator. -/
theorem append_join (separator : Bytes) {parts : List Bytes} (some_part : parts ≠ []) :
    separator ++ join separator parts = parts.flatMap (separator ++ ·) := by
  induction parts with
  | nil => exact absurd rfl some_part
  | cons part parts ih =>
    rw [List.flatMap_cons]
    cases parts with
    | nil => simp [join]
    | cons next parts =>
      rw [← ih nofun, join, List.intercalate, List.intersperse_cons_cons,
        List.flatten_cons, List.flatten_cons, List.append_assoc]
      rfl

end Bytes

namespace Combinator

theorem name_inj {f g : Combinator} (same : f.name = g.name) : f = g := by
  have whole (h : Combinator) : Kind.ofName? h.name = some (.combine h) := by
    rcases h with _ | _ | _ | _ | _ <;> first | rfl | (rename_i isLazy; cases isLazy <;> rfl)
  have kinds := whole f
  rw [same, whole g] at kinds
  cases kinds
  rfl

theorem name_word (f : Combinator) : ∀ b ∈ f.name, Bytes.isWord b = true := by
  rcases f with _ | _ | _ | _ | _ <;> first | decide | (rename_i isLazy; cases isLazy <;> decide)

/-- A combination is not written as a leaf. -/
theorem name_ne_regex (f : Combinator) : f.name ≠ "regex" := by
  rcases f with _ | _ | _ | _ | _ <;> first | decide | (rename_i isLazy; cases isLazy <;> decide)

end Combinator

namespace Rule

/-! ### The first word -/

/-- The word that a rule in writing starts with. A text starts with its quote. -/
def word : Rule → Bytes
  | regex _ _ => "regex"
  | text _ _ => []
  | combine _ how _ => how.name

/-- The byte after the first word of a rule in writing: the quote or the parenthesis that opens. -/
def opener : Rule → UInt8
  | text _ _ => 34
  | _ => 40

/-- What comes after the byte that opens. -/
def body : Rule → Bytes
  | regex _ source => source.quote ++ ")"
  | text _ literal => literal.scalars.flatMap Bytes.quoteScalar ++ "\""
  | combine _ _ entries => Bytes.join ", " (displayEntries entries) ++ ")"

theorem display_eq (r : Rule) : r.display = r.word ++ r.opener :: r.body := by
  cases r with
  | regex => rw [display, List.append_assoc]; rfl
  | text => rw [display, Bytes.quote, List.append_assoc]; rfl
  | combine => rw [display, List.append_assoc, List.append_assoc]; rfl

theorem isWord_of_mem_word (r : Rule) : ∀ b ∈ r.word, Bytes.isWord b = true := by
  cases r with
  | regex => exact (by decide : ∀ b ∈ ("regex" : Bytes), Bytes.isWord b = true)
  | text => exact nofun
  | combine _ how _ => exact how.name_word

theorem opener_cases (r : Rule) : r.opener = 34 ∨ r.opener = 40 := by
  cases r with
  | text => exact .inl rfl
  | regex | combine => exact .inr rfl

theorem isWord_opener (r : Rule) : Bytes.isWord r.opener = false := by
  rcases r.opener_cases with quote | parenthesis
  · rw [quote]
    decide
  · rw [parenthesis]
    decide

theorem opener_ne_colon (r : Rule) : r.opener ≠ 58 := by
  rcases r.opener_cases with quote | parenthesis
  · rw [quote]
    decide
  · rw [parenthesis]
    decide

/-! ### Reading a rule off a text -/

/-- True of a name that can stand before an entry, or of no name. -/
theorem isWord_of_name {name : Bytes} (h : name = [] ∨ isValidName name = true) :
    ∀ b ∈ name, Bytes.isWord b = true := by
  rcases h with rfl | valid
  · exact nofun
  · rw [isValidName, Bool.and_eq_true, List.all_eq_true] at valid
    exact valid.2

/-- An entry in writing. -/
def displayEntry (e : Entry Rule) : Bytes :=
  (if e.isNamed then e.name ++ ":" else []) ++ e.rule.display

theorem displayEntries_cons (e : Entry Rule) (es : List (Entry Rule)) :
    displayEntries (e :: es) = displayEntry e :: displayEntries es := by
  rw [displayEntries, displayEntry]

theorem displayEntry_named {e : Entry Rule} (named : e.isNamed = true) (t : Bytes) :
    displayEntry e ++ t = e.name ++ 58 :: (e.rule.display ++ t) := by
  rw [displayEntry, if_pos named, List.append_assoc, List.append_assoc]
  rfl

theorem displayEntry_unnamed {e : Entry Rule} (unnamed : e.isNamed = false) (t : Bytes) :
    displayEntry e ++ t = e.rule.word ++ e.rule.opener :: (e.rule.body ++ t) := by
  rw [displayEntry, if_neg (by rw [unnamed]; decide), List.nil_append, display_eq,
    List.append_assoc]
  rfl

/-- Two entries with which one text starts have one name, and the text goes on with their rules. -/
theorem name_unique {d e : Entry Rule} {u v : Bytes} (hd : d.name = [] ∨ isValidName d.name = true)
    (he : e.name = [] ∨ isValidName e.name = true)
    (same : displayEntry d ++ u = displayEntry e ++ v) :
    d.name = e.name ∧ d.rule.display ++ u = e.rule.display ++ v := by
  have nameless {e : Entry Rule} (unnamed : e.isNamed = false) : e.name = [] := by
    rw [Entry.isNamed, Bool.not_eq_false', List.isEmpty_iff] at unnamed
    exact unnamed
  cases named : d.isNamed <;> cases named' : e.isNamed
  · refine ⟨(nameless named).trans (nameless named').symm, ?_⟩
    rw [displayEntry_unnamed named, displayEntry_unnamed named'] at same
    rw [display_eq, display_eq, List.append_assoc, List.append_assoc]
    exact same
  -- a name is followed by a colon, the first word of a rule is not
  · rw [displayEntry_unnamed named, displayEntry_named named'] at same
    exact absurd (Bytes.word_unique d.rule.isWord_of_mem_word (isWord_of_name he)
      d.rule.isWord_opener (by decide) same).2.1 d.rule.opener_ne_colon
  · rw [displayEntry_named named, displayEntry_unnamed named'] at same
    exact absurd (Bytes.word_unique (isWord_of_name hd) e.rule.isWord_of_mem_word (by decide)
      e.rule.isWord_opener same).2.1.symm e.rule.opener_ne_colon
  · rw [displayEntry_named named, displayEntry_named named'] at same
    rcases Bytes.word_unique (isWord_of_name hd) (isWord_of_name he) (by decide) (by decide) same
      with ⟨names, -, rest⟩
    exact ⟨names, rest⟩

/-- Rules with which one text starts have one first word, and the text goes on alike after it. -/
theorem body_unique {a b : Rule} {u v : Bytes} (same : a.display ++ u = b.display ++ v) :
    a.word = b.word ∧ a.opener = b.opener ∧ a.body ++ u = b.body ++ v := by
  rw [display_eq, display_eq, List.append_assoc, List.append_assoc] at same
  exact Bytes.word_unique a.isWord_of_mem_word b.isWord_of_mem_word a.isWord_opener
    b.isWord_opener same

mutual

/-- Of two rules in writing at the start of one text, both have one shape. -/
theorem display_unique : ∀ {a b : Rule} {u v : Bytes}, a.Built → b.Built →
    a.display ++ u = b.display ++ v → a.shape = b.shape ∧ u = v
  | text _ s, text _ t, _, _, _, _, same => by
    rcases Bytes.quote_unique same with ⟨rfl, rest⟩
    exact ⟨rfl, rest⟩
  | regex _ s, regex _ t, _, _, _, _, same => by
    have rest := (body_unique same).2.2
    rw [body, body, List.append_assoc, List.append_assoc] at rest
    rcases Bytes.quote_unique rest with ⟨rfl, parenthesis⟩
    exact ⟨rfl, List.append_cancel_left parenthesis⟩
  | combine _ f ds, combine _ g es, u, v, ha, hb, same => by
    rcases body_unique same with ⟨names, -, rest⟩
    obtain rfl : f = g := Combinator.name_inj names
    rw [body, body, List.append_assoc, List.append_assoc] at rest
    rw [built_combine_iff] at ha hb
    have some_entry {es : List (Entry Rule)} (h : es ≠ []) : displayEntries es ≠ [] := by
      cases es with
      | nil => exact absurd rfl h
      | cons => exact nofun
    -- a comma before both lists makes all entries of a list alike
    have commas := congrArg ((", " : Bytes) ++ ·) rest
    simp only [← List.append_assoc, Bytes.append_join _ (some_entry ha.1),
      Bytes.append_join _ (some_entry hb.1)] at commas
    rw [List.append_assoc, List.append_assoc] at commas
    rcases displayEntries_unique ha.2 hb.2 commas with ⟨entries, rest⟩
    exact ⟨by rw [shape, shape, entries], rest⟩
  | text .., regex .., _, _, _, _, same | text .., combine .., _, _, _, _, same => by
    cases (body_unique same).2.1
  | regex .., text .., _, _, _, _, same | combine .., text .., _, _, _, _, same => by
    cases (body_unique same).2.1
  | regex .., combine _ g _, _, _, _, _, same => absurd (body_unique same).1.symm g.name_ne_regex
  | combine _ f _, regex .., _, _, _, _, same => absurd (body_unique same).1 f.name_ne_regex

/-- Of two lists of entries in writing, each with a comma before every entry and up to the closing
    parenthesis at the start of one text, both have one shape. -/
theorem displayEntries_unique : ∀ {ds es : List (Entry Rule)} {u v : Bytes},
    (∀ d ∈ ds, d.rule.Built ∧ (d.name = [] ∨ isValidName d.name = true)) →
    (∀ e ∈ es, e.rule.Built ∧ (e.name = [] ∨ isValidName e.name = true)) →
    (displayEntries ds).flatMap ((", " : Bytes) ++ ·) ++ 41 :: u =
      (displayEntries es).flatMap ((", " : Bytes) ++ ·) ++ 41 :: v → shapes ds = shapes es ∧ u = v
  | [], [], _, _, _, _, same => ⟨rfl, (List.cons.inj same).2⟩
  | [], _ :: _, _, _, _, _, same => absurd (List.cons.inj same).1 (by decide)
  | _ :: _, [], _, _, _, _, same => absurd (List.cons.inj same).1 (by decide)
  | ⟨n, d⟩ :: ds, ⟨m, e⟩ :: es, u, v, hd, he, same => by
    have first := hd _ (List.mem_cons_self ..)
    have first' := he _ (List.mem_cons_self ..)
    rw [displayEntries_cons, displayEntries_cons, List.flatMap_cons, List.flatMap_cons,
      List.append_assoc, List.append_assoc, List.append_assoc, List.append_assoc] at same
    rcases name_unique first.2 first'.2 (List.append_cancel_left same) with ⟨names, same⟩
    rcases display_unique first.1 first'.1 same with ⟨rules, same⟩
    rcases displayEntries_unique (fun d mem => hd d (List.mem_cons_of_mem _ mem))
      (fun e mem => he e (List.mem_cons_of_mem _ mem)) same with ⟨others, rest⟩
    refine ⟨?_, rest⟩
    rw [shapes, shapes, others, rules, show n = m from names]

end

/-- Rules that are written alike have one shape, so that they are of one kind and hold the same
    texts and the same entries, and they have the same patterns. -/
theorem display_injective {a b : Rule} (ha : a.Built) (hb : b.Built)
    (same : a.display = b.display) :
    a.shape = b.shape ∧ a.pattern = b.pattern ∧ a.namedPattern = b.namedPattern := by
  have shapes : a.shape = b.shape := (display_unique (u := []) (v := []) ha hb (by rw [same])).1
  refine ⟨shapes, ?_, ?_⟩
  · rw [pattern, pattern, ← assemble_shape, shapes, assemble_shape]
  · rw [← namedPattern_shape, shapes, namedPattern_shape]

/-- A rule whose parts could be taken for something else: an entry with the name of a kind, a text
    of the marks that a rule in writing is made of, and bytes that are not UTF-8. -/
def knotty (tag : Nat) : Rule :=
  combine tag .seq [⟨"regex", text tag "\"(,:)\""⟩, ⟨[], regex (tag + 1) [40, 255, 34]⟩]

theorem built_knotty (tag : Nat) : (knotty tag).Built := by
  refine built_combine_iff.2 ⟨nofun, fun e mem => ?_⟩
  rcases List.mem_cons.1 mem with rfl | mem
  · exact ⟨.text .., .inr (by decide : isValidName "regex" = true)⟩
  · rcases List.mem_singleton.1 mem with rfl
    exact ⟨.regex .., .inl rfl⟩

theorem display_injective_knotty :
    (knotty 0).display = (knotty 1).display ∧ (knotty 0).shape = (knotty 1).shape ∧
      (knotty 0).pattern = (knotty 1).pattern ∧ (knotty 0).namedPattern = (knotty 1).namedPattern :=
  have same : (knotty 0).display = (knotty 1).display := by
    simp only [knotty, display, displayEntries]
    rfl
  ⟨same, display_injective (built_knotty 0) (built_knotty 1) same⟩

end Rule

end Rulebook
