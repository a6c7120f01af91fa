import Rulebook.Proofs.Pattern.Alternatives
import Rulebook.Proofs.Rule.Agreement

/-!
# What is found of combinations

A choice between rules is found where the leftmost of them is found, and as the first of those that
are found there (`Rule.oneOf_first`). How a sequence is put together does not show in what is found
of it (`Rule.seq_assoc`). Both hold although the patterns differ in their groups and in what the
matcher remembers: see `Expr.best_find?` and `Program.extent_find?_eq`.
-/

namespace Rulebook

open Pattern

namespace Rule

/-! ### Spans -/

/-- Where the matches of a rule in a text start and end. -/
def spans (r : Rule) (text : Bytes) : List (Nat × Nat) :=
  match r.compile with
  | .error _ => []
  | .ok c => (c.search.findAll text).map fun f => (f.start, f.finish)

/-- True of a rule whose matches are found by its program, not by a lead. -/
def IsUnled (r : Rule) : Prop := ∀ c, r.compile = .ok c → c.search.lead = none

instance (r : Rule) : Decidable (IsUnled r) :=
  decidable_of_iff ((r.compile.toOption.all fun c => c.search.lead.isNone) = true) (by
    rw [IsUnled]
    cases r.compile <;> simp [Except.toOption])

theorem Sound.isUnled {r : Rule} (sound : Sound r) (kind : r.kind ≠ .regex) : IsUnled r :=
  fun _ compiled => (sound.lead_none kind compiled).1

/-- Where a match starts and ends, of where it starts and the place where it ends. -/
def spanOf (extent : Nat × Cursor) : Nat × Nat := (extent.1, extent.2.offset)

theorem head?_findAll (p : Program) (c : Cursor) : (p.findAll none c).head? = p.find? c := by
  have lists := Program.lists_findAll p none c
  generalize p.findAll none c = fs at lists
  cases lists with
  | none nothing => rw [nothing]; rfl
  | ended found | empty found | full found => rw [found]; rfl

section

variable {r : Rule}

theorem spans_eq (sound : Sound r) (accepted : Accepted r) (unled : IsUnled r) (text : Bytes) :
    r.spans text = (((Program.ofExpr r.expr.numbered).findAll none (.start text)).map
      Program.Found.extent).map spanOf := by
  obtain ⟨c, compiled⟩ := accepted
  rw [spans, compiled]
  simp only [Regex.findAll, unled c compiled, (sound.searches compiled).search, List.map_map]
  rfl

/-- The first match of a rule is the one that its program finds. -/
theorem head?_spans (sound : Sound r) (accepted : Accepted r) (unled : IsUnled r) (text : Bytes) :
    (r.spans text).head? = (((Program.ofExpr r.expr.numbered).find? (.start text)).map
      Program.Found.extent).map spanOf := by
  rw [spans_eq sound accepted unled, List.head?_map, List.head?_map, head?_findAll]

/-- The program of a rule that is found by a lead finds nothing. -/
theorem find?_of_not_isUnled (sound : Sound r) (led : ¬ IsUnled r) (c : Cursor) :
    (Program.ofExpr r.expr.numbered).find? c = none := by
  simp only [IsUnled, not_forall] at led
  obtain ⟨compiled, same, led⟩ := led
  obtain ⟨piece, parsed, -, program, lead, -⟩ := Regex.of_ofPattern (compile_ok same).1
  rw [← (sound.searches same).search, program]
  cases found : (Program.ofExpr piece.expr).find? c with
  | none => rfl
  | some f =>
    obtain ⟨place, -, matched⟩ := Program.matchAt_of_find? found
    have possible := Expr.possible_of_passes (Expr.reaches_iff.1 matched.path)
    exact absurd (lead.trans (Piece.lead_none parsed possible)) led

end

/-! ### Choices -/

theorem ungrouped_exprOf (e : Entry Rule) : (exprOf e).ungrouped = e.rule.expr.ungrouped := by
  unfold exprOf entryExpr
  split <;> rfl

theorem ungrouped_numbered (e : Expr) : e.numbered.ungrouped = e.ungrouped :=
  e.ungrouped_numberFrom 1

theorem isFirst_unique {α : Type} {results : List (Option (Nat × α))} {i j : Nat} {x y : Nat × α}
    (h : IsFirst results i x) (h' : IsFirst results j y) : x = y := by
  have before := h.2 j y h'.1
  have after := h'.2 i x h.1
  have same : i = j := by
    obtain lt | eq | gt := Nat.lt_trichotomy i j
    · exact absurd (after.2 lt) (by omega)
    · exact eq
    · exact absurd (before.2 gt) (by omega)
  subst same
  exact Option.some.inj (Option.some.inj (h.1.symm.trans h'.1))

/-- What is first of results that were carried over is first of the results. -/
theorem isFirst_of_map {α β : Type} {f : Nat × α → Nat × β} (same : ∀ a, (f a).1 = a.1)
    {results : List (Option (Nat × α))} {i : Nat} {x : Nat × β}
    (h : IsFirst (results.map (Option.map f)) i x) : ∃ a, IsFirst results i a ∧ f a = x := by
  obtain ⟨here, least⟩ := h
  rw [List.getElem?_map, Option.map_eq_some_iff] at here
  obtain ⟨result, here, carried⟩ := here
  obtain ⟨a, rfl, rfl⟩ := Option.map_eq_some_iff.1 carried
  refine ⟨a, ⟨here, fun j b there => ?_⟩, rfl⟩
  have other := least j (f b) (by rw [List.getElem?_map, there]; rfl)
  rwa [same, same] at other

section

variable {tag : Nat} {entries : List (Entry Rule)}

/-- The expression of a choice without its groups. -/
theorem regroups_oneOf (sound : Sound (combine tag .oneOf entries))
    (read : IsRead (combine tag .oneOf entries)) :
    Expr.Regroups (combine tag .oneOf entries).expr.ungrouped
      (.choice ((entries.map fun e => e.rule.expr.numbered).map Expr.ungrouped)) := by
  have same : Expr.Regroups (combine tag .oneOf entries).expr.ungrouped
      (Expr.choice (entries.map exprOf)).ungrouped := (read.combine sound.even).2.ungrouped
  rw [Expr.ungrouped_choice] at same
  simpa only [List.map_map, Function.comp_def, ungrouped_exprOf, ungrouped_numbered] using same

/-- A choice between rules is found where the leftmost of those is found that are not found by a lead,
    and as the first of them that is found there. -/
theorem oneOf_first (several : entries ≠ []) (sound : Sound (combine tag .oneOf entries))
    (accepted : Accepted (combine tag .oneOf entries)) (each : ∀ e ∈ entries, Accepted e.rule)
    (text : Bytes) :
    ((combine tag .oneOf entries).spans text = [] ↔
        ∀ e ∈ entries, IsUnled e.rule → e.rule.spans text = []) ∧
      ∀ (i : Nat) (span : Nat × Nat),
        IsFirst (entries.map fun e => if IsUnled e.rule then (e.rule.spans text).head? else none) i span →
          ((combine tag .oneOf entries).spans text).head? = some span := by
  let result (e : Entry Rule) : Option (Nat × Cursor) :=
    ((Program.ofExpr e.rule.expr.numbered).find? (.start text)).map Program.Found.extent
  have own : ∀ e ∈ entries, (if IsUnled e.rule then (e.rule.spans text).head? else none) =
      (result e).map spanOf := by
    intro e mem
    have inner := sound.entry (mem_reach mem)
    split
    · rename_i unled
      exact head?_spans inner (each e mem) unled text
    · rename_i led
      simp only [result, find?_of_not_isUnled inner led, Option.map_none]
  have whole := head?_spans sound accepted (sound.isUnled nofun) text
  have best : Best (entries.map result)
      (((Program.ofExpr (combine tag .oneOf entries).expr.numbered).find? (.start text)).map
        Program.Found.extent) := by
    obtain ⟨c, compiled⟩ := accepted
    have same := regroups_oneOf sound (sound.searches compiled).read
    rw [← ungrouped_numbered] at same
    have some_ : entries.map (fun e => e.rule.expr.numbered) ≠ [] := by simpa using several
    have found := Expr.best_find? some_ same (c := .start text) (wide_scalars text)
    rwa [List.map_map] at found
  generalize ((Program.ofExpr (combine tag .oneOf entries).expr.numbered).find?
    (.start text)).map Program.Found.extent = choice at whole best
  constructor
  · rw [← List.head?_eq_none_iff, whole, Option.map_eq_none_iff]
    constructor
    · intro nothing e mem unled
      have none := best.none nothing _ (List.mem_map_of_mem mem)
      have head := own e mem
      rwa [if_pos unled, none, Option.map_none, List.head?_eq_none_iff] at head
    · intro nothing
      by_contra something
      obtain ⟨found, rfl⟩ := Option.ne_none_iff_exists'.1 something
      obtain ⟨i, first⟩ := best.some found rfl
      obtain ⟨e, mem, known⟩ := List.mem_map.1 (List.mem_of_getElem? first.1)
      have head := own e mem
      rw [known, Option.map_some] at head
      split at head
      · rename_i unled
        rw [nothing e mem unled] at head
        cases head
      · cases head
  · intro i span first
    have heads : (entries.map fun e => if IsUnled e.rule then (e.rule.spans text).head? else none) =
        (entries.map result).map (Option.map spanOf) := by
      rw [List.map_map]
      exact List.map_congr_left own
    rw [heads] at first
    obtain ⟨found, least, rfl⟩ := isFirst_of_map (f := spanOf) (fun _ => rfl) first
    cases choice with
    | none => cases best.none rfl _ (List.mem_of_getElem? least.1)
    | some found' =>
      obtain ⟨j, best⟩ := best.some found' rfl
      rw [whole, Option.map_some, isFirst_unique best least]

end

namespace Sample

/-- The choice between a surrogate that stands between the start and the end of the text, and the
    replacement character. -/
def tiedOrReplacement : Rule := .combine 2 .oneOf [⟨[], regex 0 tied⟩, ⟨[], text 6 replacement⟩]

theorem accepted_tiedOrReplacement : Accepted tiedOrReplacement :=
  accepted_of_isOk _ (by decide +kernel) (by decide +kernel)

theorem sound_tiedOrReplacement : Sound tiedOrReplacement :=
  sound_combine 2 .oneOf (by simp) (by simpa using ⟨sound_regex accepted_tied, sound_text 6 replacement⟩)

theorem accepted_replacement : Accepted (text 6 replacement) := by
  obtain ⟨c, compiled, -⟩ := (plain_text 6 replacement (by decide)).compiles_of_isSmall
    [.char 0xFFFD] (by decide) (by decide)
  exact ⟨c, compiled⟩

theorem spans_tied : (regex 0 tied).spans replacement = [(0, 3)] := by
  obtain ⟨c, lead, m, compiled, ⟨led, found⟩, -⟩ := compiles_tied
  rw [spans, compiled]
  simp only [Regex.findAll, led, found]
  rfl

theorem not_isUnled_tied : ¬ IsUnled (regex 0 tied) := by
  obtain ⟨c, lead, m, compiled, ⟨led, -⟩, -⟩ := compiles_tied
  intro unled
  cases led.symm.trans (unled c compiled)

theorem head?_spans_replacement : ((text 6 replacement).spans replacement).head? = some (0, 3) := by
  obtain ⟨c, compiled⟩ := accepted_replacement
  have sound := sound_text 6 replacement
  have one : replacement.scalars = [⟨'\uFFFD', replacement⟩] := by decide
  obtain ⟨f, fs, all, start, finish⟩ := sound.findAll_of_single compiled (sound.isUnled nofun c compiled)
    (isFree_textExpr replacement) one
    (mem_language_textExpr.2 (by decide)) (fun none => absurd (mem_language_textExpr.1 none) (by decide))
  simp only [spans, compiled, all, List.map_cons, List.head?_cons, start, finish]
  rfl

end Sample

/-- Of two alternatives that are found at the start, the first is found by a lead. -/
theorem oneOf_first_unled :
    Accepted Sample.tiedOrReplacement ∧ (regex 0 Sample.tied).spans Sample.replacement = [(0, 3)] ∧
      IsFirst [if IsUnled (regex 0 Sample.tied) then ((regex 0 Sample.tied).spans Sample.replacement).head?
          else none,
        if IsUnled (text 6 Sample.replacement) then
          ((text 6 Sample.replacement).spans Sample.replacement).head? else none] 1 (0, 3) ∧
      (Sample.tiedOrReplacement.spans Sample.replacement).head? = some (0, 3) := by
  have each : ∀ e ∈ [(⟨[], regex 0 Sample.tied⟩ : Entry Rule), ⟨[], text 6 Sample.replacement⟩],
      Accepted e.rule := by
    simpa using ⟨Sample.accepted_tied, Sample.accepted_replacement⟩
  have unled : IsUnled (text 6 Sample.replacement) := (sound_text 6 Sample.replacement).isUnled nofun
  have first : IsFirst [if IsUnled (regex 0 Sample.tied) then
        ((regex 0 Sample.tied).spans Sample.replacement).head? else none,
      if IsUnled (text 6 Sample.replacement) then
        ((text 6 Sample.replacement).spans Sample.replacement).head? else none] 1 (0, 3) := by
    rw [if_neg Sample.not_isUnled_tied, if_pos unled, Sample.head?_spans_replacement]
    refine ⟨rfl, fun j other there => ⟨Nat.zero_le _, fun lt => ?_⟩⟩
    obtain rfl : j = 0 := by omega
    cases there
  exact ⟨Sample.accepted_tiedOrReplacement, Sample.spans_tied, first,
    (oneOf_first (by simp) Sample.sound_tiedOrReplacement Sample.accepted_tiedOrReplacement each
      Sample.replacement).2 1 (0, 3) first⟩

/-- A choice with one alternative, a surrogate between the start and the end of the text. -/
def Sample.tiedChoice : Rule := .combine 1 .oneOf [⟨[], .regex 0 tied⟩]

theorem Sample.compiles_tiedChoice :
    ∃ c, tiedChoice.compile = .ok c ∧ ∀ text, c.search.findAll text = [] := by
  obtain ⟨c, compiled⟩ : Accepted tiedChoice :=
    accepted_of_isOk _ (by decide +kernel) (by decide +kernel)
  exact ⟨c, compiled, fun text => (findAll_of_isVain (compile_ok compiled).1 (by decide +kernel) text).2⟩

theorem Sample.sound_tiedChoice : Sound tiedChoice :=
  sound_combine 1 .oneOf (by simp) (by simpa using sound_regex accepted_tied)

/-- A choice may find nothing although its only alternative is found. -/
theorem oneOf_loses_lead :
    Sound Sample.tiedChoice ∧ Accepted Sample.tiedChoice ∧ Accepted (regex 0 Sample.tied) ∧
      Sample.tiedChoice = .combine 1 .oneOf [⟨[], .regex 0 Sample.tied⟩] ∧
      (regex 0 Sample.tied).spans Sample.replacement = [(0, 3)] ∧
      Sample.tiedChoice.spans Sample.replacement = [] := by
  obtain ⟨c, compiled, nothing⟩ := Sample.compiles_tiedChoice
  refine ⟨Sample.sound_tiedChoice, ⟨c, compiled⟩, Sample.accepted_tied, rfl, Sample.spans_tied, ?_⟩
  rw [spans, compiled]
  simp only [nothing, List.map_nil]

/-! ### Sequences -/

/-- The tree without parts for a span of a text. -/
def flatTree (text : Bytes) (span : Nat × Nat) : Tree :=
  .node [] (text.slice span.1 span.2) (span.1 : Nat) []

/-- A rule without named entries has a tree without parts for each of its matches. -/
theorem trees_of_anonymous {r : Rule} (accepted : Accepted r)
    (anonymous : ∀ e ∈ r.entries, e.isNamed = false) (text : Bytes) :
    r.trees text = ((r.spans text).map (flatTree text)).map .ok := by
  obtain ⟨c, compiled⟩ := accepted
  have none : matchers r.entries = [] := by
    generalize r.entries = entries at anonymous
    induction entries with
    | nil => rfl
    | cons e rest ih =>
      obtain ⟨here, others⟩ := List.forall_mem_cons.1 anonymous
      rw [matchers, here, if_neg (by decide)]
      exact ih others
  rw [trees, Matcher.trees, compiled_matcher, compiled, spans, compiled]
  dsimp only
  induction c.search.findAll text with
  | nil => rfl
  | cons f fs ih =>
    rw [Matcher.treesFor, entries_matcher, none]
    simp only [Matcher.nodeFor, Matcher.partsFor, List.map_cons, Nat.zero_add, ih, flatTree]

section

variable {tag : Nat} {entries : List (Entry Rule)}

/-- The expression of a sequence without its groups. -/
theorem regroups_seq (sound : Sound (combine tag .seq entries))
    (read : IsRead (combine tag .seq entries))
    (valid : ∀ e ∈ entries, ∀ tag literal, e.rule = text tag literal → literal.isUtf8 = true) :
    Expr.Regroups (combine tag .seq entries).expr.ungrouped
      (.concat (entries.map fun e => e.rule.expr.ungrouped)) := by
  have shown_same := (regroups_shown .seq valid).ungrouped
  have same : Expr.Regroups (combine tag .seq entries).expr.ungrouped
      (Expr.concat (entries.map exprOf)).ungrouped :=
    (read.combine sound.even).2.ungrouped.trans shown_same
  rw [Expr.ungrouped_concat, List.map_map] at same
  simpa only [Function.comp_def, ungrouped_exprOf] using same

end

/-- Rules whose expressions differ in their groups only are found in the same places. -/
theorem spans_eq_of_regroups {r r' : Rule} (sound : Sound r) (sound' : Sound r')
    (accepted : Accepted r) (accepted' : Accepted r') (unled : IsUnled r) (unled' : IsUnled r')
    (same : Expr.Regroups r.expr.ungrouped r'.expr.ungrouped) (text : Bytes) :
    r.spans text = r'.spans text := by
  have find?_same : ∀ c ∈ (Cursor.start text).onward,
      ((Program.ofExpr r.expr.numbered).find? c).map Program.Found.extent =
        ((Program.ofExpr r'.expr.numbered).find? c).map Program.Found.extent := by
    intro c mem
    obtain ⟨taken, split, -⟩ := Cursor.mem_onward.1 mem
    have wide : ∀ s ∈ c.rest, 0 < s.width := fun s mem => wide_scalars text s (by
      rw [show text.scalars = taken ++ c.rest from split]
      exact List.mem_append_right _ mem)
    exact Program.extent_find?_eq (by rwa [ungrouped_numbered, ungrouped_numbered]) wide
  have extents := Program.Lists.extents_eq find?_same (Cursor.self_mem_onward _)
    (Program.lists_findAll _ none _) (Program.lists_findAll _ none _)
  rw [spans_eq sound accepted unled, extents, ← spans_eq sound' accepted' unled']

/-- Two rules in sequence. -/
def pair (tag : Nat) (a b : Rule) : Rule := .combine tag .seq [⟨[], a⟩, ⟨[], b⟩]

theorem sound_pair (tag : Nat) {a b : Rule} (ha : Sound a) (hb : Sound b) : Sound (pair tag a b) :=
  sound_combine tag .seq (by simp) (by simp [ha, hb])

/-- Three rules in sequence. -/
def triple (tag : Nat) (a b c : Rule) : Rule := .combine tag .seq [⟨[], a⟩, ⟨[], b⟩, ⟨[], c⟩]

theorem sound_triple (tag : Nat) {a b c : Rule} (ha : Sound a) (hb : Sound b) (hc : Sound c) :
    Sound (triple tag a b c) :=
  sound_combine tag .seq (by simp) (by simp [ha, hb, hc])

/-- True of a rule that is UTF-8 if it is a text. -/
def ValidText (r : Rule) : Prop := ∀ tag literal, r = text tag literal → literal.isUtf8 = true

theorem validText_pair (tag : Nat) (a b : Rule) : ValidText (pair tag a b) := nofun

theorem regroups_pair {tag : Nat} {a b : Rule} (sound : Sound (pair tag a b))
    (read : IsRead (pair tag a b)) (ha : ValidText a) (hb : ValidText b) :
    Expr.Regroups (pair tag a b).expr.ungrouped (.cat a.expr.ungrouped b.expr.ungrouped) :=
  regroups_seq sound read (List.forall_mem_cons.2 ⟨ha, List.forall_mem_cons.2 ⟨hb, nofun⟩⟩)

theorem isUtf8_right {p q : Bytes} (valid : p.isUtf8 = true) (h : (p ++ q).isUtf8 = true) :
    q.isUtf8 = true := by
  rw [Bytes.isUtf8, Bytes.scalars_append_of_isUtf8 valid, List.all_append, Bool.and_eq_true] at h
  exact h.2

section

variable {a b c : Rule} {inner outer : Nat}

/-- In a sequence in a sequence the texts that stand alone are UTF-8: the parentheses between them
    cut no character. -/
theorem isUtf8_of_pair_right (sound : Sound (pair outer a (pair inner b c)))
    (accepted : Accepted (pair outer a (pair inner b c))) : ValidText a := by
  intro tag literal rule
  obtain ⟨compiled, h⟩ := accepted
  obtain ⟨piece, parsed, -⟩ := Regex.of_ofPattern (compile_ok h).1
  have occurs : Occurs _ true (combine outer .seq ([⟨[], a⟩] ++ ⟨[], pair inner b c⟩ :: [])) :=
    occurs_of_parse nofun parsed
  have scannable := sound.firm.scannable fresh_nil
  have valid := occurs.isUtf8_chunk (lasting_clean fresh_nil) scannable rfl nofun
  subst rule
  exact valid

theorem isUtf8_of_pair_left (sound : Sound (pair outer (pair inner a b) c))
    (accepted : Accepted (pair outer (pair inner a b) c)) :
    ValidText c ∧ (ValidText a → ValidText b) := by
  obtain ⟨compiled, h⟩ := accepted
  obtain ⟨piece, parsed, -⟩ := Regex.of_ofPattern (compile_ok h).1
  have occurs : Occurs _ true (combine outer .seq ([] ++ ⟨[], pair inner a b⟩ :: [⟨[], c⟩])) :=
    occurs_of_parse nofun parsed
  have lasting := lasting_clean fresh_nil
  constructor
  · rintro tag literal rfl
    exact occurs.isUtf8_last lasting (sound.firm.scannable fresh_nil) nofun
  · rintro valid tag literal rfl
    have inside : Sound (pair inner a (text tag literal)) :=
      sound.entry (e := ⟨[], pair inner a (text tag literal)⟩) (mem_reach (List.mem_cons_self ..))
    have entry := occurs.entry lasting (sound.firm.scannable fresh_nil) rfl
    have last := Occurs.isUtf8_last lasting (inside.firm.scannable fresh_nil) entry nofun
    cases a with
    | text tag' literal' => exact isUtf8_right (valid tag' literal' rfl) last
    | _ => exact last

/-- How a sequence of three rules is put together does not show in its trees. -/
theorem seq_assoc {flat inner' outer' : Nat} (ha : Sound a) (hb : Sound b) (hc : Sound c)
    (left : Accepted (pair outer (pair inner a b) c))
    (right : Accepted (pair outer' a (pair inner' b c)))
    (row : Accepted (triple flat a b c)) (text : Bytes) :
    ∃ nodes : List Tree, (pair outer (pair inner a b) c).trees text = nodes.map .ok ∧
      (pair outer' a (pair inner' b c)).trees text = nodes.map .ok ∧
      (triple flat a b c).trees text = nodes.map .ok := by
  have soundAB := sound_pair inner ha hb
  have soundBC := sound_pair inner' hb hc
  have soundLeft := sound_pair outer soundAB hc
  have soundRight := sound_pair outer' ha soundBC
  have soundRow := sound_triple flat ha hb hc
  have validA := isUtf8_of_pair_right soundRight right
  obtain ⟨validC, validB⟩ := isUtf8_of_pair_left soundLeft left
  replace validB := validB validA
  have regroupsLeft : Expr.Regroups (pair outer (pair inner a b) c).expr.ungrouped
      (.cat a.expr.ungrouped (.cat b.expr.ungrouped c.expr.ungrouped)) := by
    obtain ⟨_, compiled⟩ := left
    have read := (soundLeft.searches compiled).read
    have readAB := (read.combine soundLeft.even).1 _ (List.mem_cons_self ..)
    have inside := regroups_pair soundAB readAB validA validB
    have whole := regroups_pair soundLeft read (validText_pair inner a b) validC
    exact (whole.trans (inside.cat (.refl _))).trans (.assoc _ _ _)
  have regroupsRight : Expr.Regroups (pair outer' a (pair inner' b c)).expr.ungrouped
      (.cat a.expr.ungrouped (.cat b.expr.ungrouped c.expr.ungrouped)) := by
    obtain ⟨_, compiled⟩ := right
    have read := (soundRight.searches compiled).read
    have readBC := (read.combine soundRight.even).1 _
      (List.mem_cons_of_mem _ (List.mem_cons_self ..))
    have inside := regroups_pair soundBC readBC validB validC
    have whole := regroups_pair soundRight read validA (validText_pair inner' b c)
    exact whole.trans (Expr.Regroups.cat (.refl _) inside)
  have regroupsRow : Expr.Regroups (triple flat a b c).expr.ungrouped
      (.cat a.expr.ungrouped (.cat b.expr.ungrouped c.expr.ungrouped)) := by
    obtain ⟨_, compiled⟩ := row
    exact regroups_seq soundRow (soundRow.searches compiled).read (List.forall_mem_cons.2 ⟨validA,
      List.forall_mem_cons.2 ⟨validB, List.forall_mem_cons.2 ⟨validC, nofun⟩⟩⟩)
  have anonymous (tag : Nat) (x y : Rule) : ∀ e ∈ (pair tag x y).entries, e.isNamed = false := by
    simp [pair, entries, Entry.isNamed]
  have anonymousRow : ∀ e ∈ (triple flat a b c).entries, e.isNamed = false := by
    simp [triple, entries, Entry.isNamed]
  have sameRight := spans_eq_of_regroups soundLeft soundRight left right (soundLeft.isUnled nofun)
    (soundRight.isUnled nofun) (regroupsLeft.trans regroupsRight.symm) text
  have sameRow := spans_eq_of_regroups soundLeft soundRow left row (soundLeft.isUnled nofun)
    (soundRow.isUnled nofun) (regroupsLeft.trans regroupsRow.symm) text
  refine ⟨((pair outer (pair inner a b) c).spans text).map (flatTree text),
    trees_of_anonymous left (anonymous _ _ _) text, ?_, ?_⟩
  · rw [sameRight, trees_of_anonymous right (anonymous _ _ _)]
  · rw [sameRow, trees_of_anonymous row anonymousRow]

end

theorem seq_assoc_stop : ∃ nodes : List Tree,
    Accepted (pair 0 (pair 1 Sample.xs Sample.digit) (text 6 ".")) ∧
      (pair 0 (pair 1 Sample.xs Sample.digit) (text 6 ".")).trees "xx7.x8." = nodes.map .ok ∧
      (pair 2 Sample.xs (pair 3 Sample.digit (text 6 "."))).trees "xx7.x8." = nodes.map .ok ∧
      (triple 4 Sample.xs Sample.digit (text 6 ".")).trees "xx7.x8." = nodes.map .ok := by
  have left : Accepted (pair 0 (pair 1 Sample.xs Sample.digit) (text 6 ".")) :=
    accepted_of_isOk _ (by decide +kernel) (by decide +kernel)
  have right : Accepted (pair 2 Sample.xs (pair 3 Sample.digit (text 6 "."))) :=
    accepted_of_isOk _ (by decide +kernel) (by decide +kernel)
  have row : Accepted (triple 4 Sample.xs Sample.digit (text 6 ".")) :=
    accepted_of_isOk _ (by decide +kernel) (by decide +kernel)
  have xs : Sound Sample.xs := sound_regex (Sample.compiles_xs.imp fun _ h => h.1)
  have digit : Sound Sample.digit := sound_regex (Sample.compiles_digit.imp fun _ h => h.1)
  obtain ⟨nodes, same⟩ := seq_assoc xs digit (sound_text 6 ".") left right row "xx7.x8."
  exact ⟨nodes, left, same⟩

end Rule

end Rulebook
