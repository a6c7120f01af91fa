import Rulebook.Proofs.Definition.PlainReading
import Rulebook.Proofs.Tree.TooLarge

/-!
# What is known of a rule that was checked

A definition is accepted as a whole before its rule is registered, and its entries are not looked at. It
is enough that its patterns are accepted each by itself: then nothing but the size of an entry's pattern
can go wrong with the trees of any rule that a compilation registers (`Definition.checked_rules`). The
patterns of a definition are found in its tree, and are those that are written in its row
(`Definition.written_of_isDefinition`).
-/

namespace Rulebook

open Bytes

namespace Definition

open Bootstrap (token alternative)
open Rule (Sound Accepted Checked Grown)

/-! ### The patterns of a source -/

/-- The pattern that a literal holds, without its quotes. -/
def patternOf? (literal : Tree) : Option Bytes :=
  if (literal.child? "text").isSome then none
  else
    (literal.child? "pattern").map fun p => unescapePattern (p.text.slice 1 (p.text.length - 1))

/-- The patterns that a value holds, groups and all. -/
def valuePatterns (text : Bytes) (base : Int) : List Bytes :=
  (literals (text.length + 1) text base).filterMap fun x => patternOf? x.2

/-- The patterns that the definitions of a source hold. -/
def sourcePatterns (source : Bytes) : List Bytes :=
  (Bootstrap.line.nodes source).flatMap fun node =>
    match node.child? "ruleEntry" with
    | none => []
    | some definition =>
        match definition.child? "value" with
        | none => []
        | some value => valuePatterns value.text value.offset

/-! ### Patterns as they are written -/

/-- The pattern that a literal writes, without its quotes. -/
def Literal.pattern? : Literal → Option Bytes
  | pattern inside => some (unescapePattern (ofScalars inside))
  | _ => none

mutual

/-- The patterns that a token writes. -/
def Phrase.patterns : Phrase → List Bytes
  | literal l _ => l.pattern?.toList
  | group rows _ => rowsPatterns rows

/-- The patterns that the alternatives of a group write. -/
def Phrase.rowsPatterns : List (List Phrase) → List Bytes
  | [] => []
  | row :: rows => rowPatterns row ++ rowsPatterns rows

/-- The patterns that the tokens of a row write. -/
def Phrase.rowPatterns : List Phrase → List Bytes
  | [] => []
  | p :: ps => p.patterns ++ rowPatterns ps

end

section

variable {l title : Bytes} {p : Bytes} {depth : Nat} {row : List Phrase} {rows : List (List Phrase)}
  {phrase : Phrase} {literal : Literal} {node : Tree} {base : Int}

theorem Phrase.mem_rowPatterns (mem : phrase ∈ row) (inside : p ∈ phrase.patterns) : p ∈ rowPatterns row := by
  induction row with
  | nil => cases mem
  | cons first row ih =>
    rw [rowPatterns]
    cases mem with
    | head => exact List.mem_append_left _ inside
    | tail _ mem => exact List.mem_append_right _ (ih mem)

theorem Phrase.mem_rowsPatterns (mem : row ∈ rows) (inside : p ∈ rowPatterns row) : p ∈ rowsPatterns rows := by
  induction rows with
  | nil => cases mem
  | cons first rows ih =>
    rw [rowsPatterns]
    cases mem with
    | head => exact List.mem_append_left _ inside
    | tail _ mem => exact List.mem_append_right _ (ih mem)

/-- The pattern of a literal is the one that it writes. -/
theorem pattern_of_literal (grown : Grown Bootstrap.literal node) (spelled : literal.Spelled node.text.scalars)
    (known : patternOf? node = some p) : literal.pattern? = some p := by
  obtain ⟨child, part, same⟩ := part_of_literal grown spelled
  rw [patternOf?, part, part] at known
  cases literal with
  | text quoted => cases known
  | bare word => cases known
  | pattern inside =>
    have word : child.text = 39 :: (ofScalars inside ++ [39]) := by rw [same, spelled.pattern_eq]
    have quoted : unescapePattern (child.text.slice 1 (child.text.length - 1)) = p := Option.some.inj known
    rw [word, slice_quoted] at quoted
    rw [Literal.pattern?, quoted]

/-- True of a way to find literals that finds, where a row is spelled, no pattern that the row does not
    write. -/
def FindsWritten (depth : Nat) (find : Finder) : Prop :=
  ∀ text base row, SpelledRow depth row text.scalars → ∀ x ∈ find text base, ∀ p, patternOf? x.2 = some p →
    p ∈ Phrase.rowPatterns row

variable {find : Finder} {x : Int × Tree}

theorem written_of_token {text : Bytes} (fits : depth ≤ Bootstrap.maxDepth)
    (finds : ∀ less, depth = less + 1 → FindsWritten less find) (here : node ∈ token.nodes text)
    (spelled : Phrase.Spelled depth phrase node.text.scalars) (mem : x ∈ tokenLiterals find base node)
    (known : patternOf? x.2 = some p) : p ∈ phrase.patterns := by
  cases phrase with
  | literal l sign =>
    obtain ⟨first, last, eq, word, mark⟩ := spelled_literal.1 spelled
    obtain ⟨inner, suffix, named, same, grown, -⟩ := Bootstrap.parts_token here
      (Bootstrap.mem_atom.2 (.inr (mem_literal.2 ⟨l, word⟩))) (mem_optSuffix.2 ⟨sign, mark⟩) eq
    obtain ⟨noGroup, literal, isLiteral, same', grown'⟩ :=
      Bootstrap.literal_of_atom grown (mem_literal.2 ⟨l, same ▸ word⟩)
    rw [tokenLiterals, named] at mem
    dsimp only at mem
    rw [noGroup, isLiteral] at mem
    cases List.mem_singleton.1 mem
    rw [Phrase.patterns, pattern_of_literal grown' (same' ▸ same ▸ word) known]
    exact List.mem_singleton_self p
  | group rows sign =>
    cases depth with
    | zero => exact spelled.elim
    | succ less =>
      have deep : less ≤ 3 := Nat.le_of_succ_le_succ fits
      obtain ⟨alternatives, ⟨inner, group, named, isGroup, inside⟩, spelled⟩ := groups_of_spelled deep here spelled
      rw [tokenLiterals, named] at mem
      dsimp only at mem
      rw [isGroup] at mem
      dsimp only at mem
      rw [groupLiterals, inside] at mem
      obtain ⟨node, here, mem⟩ := List.mem_flatMap.1 mem
      obtain ⟨row, among, sequence, named, spelled⟩ :=
        Rule.exists_of_forall₂ (nodes_of_rows alternatives.text deep spelled) here
      rw [alternativeLiterals, named] at mem
      exact Phrase.mem_rowsPatterns among (finds less rfl _ _ row spelled x mem p known)

/-- By induction on how deep literals are looked for: a group has one level less in it. -/
theorem findsWritten_literals (fuel : Nat) (fits : depth ≤ Bootstrap.maxDepth) :
    FindsWritten depth (literals fuel) := by
  induction fuel generalizing depth with
  | zero => exact fun text base row _ x mem => nomatch mem
  | succ fuel ih =>
    intro text base row spelled x mem p known
    obtain ⟨node, here, mem⟩ := List.mem_flatMap.1 mem
    obtain ⟨phrase, among, spelled⟩ := Rule.exists_of_forall₂ (nodes_of_row fits spelled) here
    refine Phrase.mem_rowPatterns among (written_of_token fits (fun less eq => ih ?_) here spelled mem known)
    omega

/-- The patterns of a line that is a definition are written in its row. -/
theorem written_of_isDefinition (single : IsLine l) (h : IsDefinition l title row) :
    ∀ p ∈ sourcePatterns l, p ∈ Phrase.rowPatterns row := by
  intro p inside
  obtain ⟨-, value, divided, spelled⟩ := h.divided
  have taken := Rule.recognises_iff.2 (Bootstrap.matches_iff_divided.2 ⟨_, _, divided⟩)
  have taker := Bootstrap.lineTaker_of_mem (Bootstrap.mem_entries_line.2 (.inr rfl)) taken
  have cut : cutLines l = [l] := by simpa using (single.lines h.ne_nil).cutLines_flatten
  obtain ⟨t, built, tree⟩ := lineTree_ok taker 0
  obtain ⟨n, v, -, isValue, -, same⟩ := Bootstrap.parts_of_divided divided built
  have nodes : Bootstrap.line.nodes l = [.node [] l 0 [t.rename "ruleEntry"]] := by
    rw [Rule.nodes, Bootstrap.trees_line, cut]
    simp [Bytes.placed, taker, tree, Except.toOption]
  have entry : (Tree.node [] l 0 [t.rename "ruleEntry"]).child? "ruleEntry" = some (t.rename "ruleEntry") := by
    simp [Tree.child?, Tree.children]
  have isValue : (t.rename "ruleEntry").child? "value" = some v := by
    rw [Tree.child?, Tree.children_rename]
    exact isValue
  simp only [sourcePatterns, nodes, List.flatMap_cons, List.flatMap_nil, List.append_nil, entry, isValue] at inside
  obtain ⟨x, mem, known⟩ := List.mem_filterMap.1 inside
  exact findsWritten_literals _ (Nat.le_refl _) _ _ row (same ▸ spelled) x mem p known

end

/-! ### Values -/

/-- True of a registry whose rules have a property. -/
def Registry.All (P : Rule → Prop) (r : Registry) : Prop := ∀ e ∈ r.entries, P e.rule

/-- True of literals whose patterns are accepted by themselves. -/
def Approved (found : List (Int × Tree)) : Prop :=
  ∀ x ∈ found, ∀ p, patternOf? x.2 = some p → Accepted (.regex 0 p)

variable {c : Context} {base : Int}

/-- The names of the entries of a combination that can be built are valid. -/
theorem sound_combined {how : Combinator} {entries : List (Entry Rule)} {r : Rule}
    (h : combine c how entries = .ok r) (sound : ∀ e ∈ entries, Sound e.rule) : Sound r := by
  have same := combine_eq_ok h
  rw [combine, lift_eq_ok, Rule.ofItems, Rule.build,
    show (how.code : Int) = ((Kind.combine how).code : Int) from rfl, Kind.ofCode?_code] at h
  simp only [Rule.combineItems] at h
  split at h
  · cases h
  · rename_i built
    split at built
    · cases built
    · split at built
      · cases built
      · rename_i read
        cases toEntries_ofEntry read
        rw [same]
        exact Rule.sound_combine c.tag how (fun e mem => (Rule.mem_toEntries read mem).2) sound

theorem sound_readLiteral (known : Registry.All Sound c.registry) {literal : Tree}
    (approved : Approved [(base, literal)]) {e : Entry Rule}
    (h : readLiteral c base literal = .ok e) : Sound e.rule := by
  unfold readLiteral at h
  split at h
  · split at h
    · cases h
    · cases h
      exact Rule.sound_text ..
  · rename_i noText
    split at h
    · rename_i pattern here
      split at h
      · cases h
      · cases h
        have known : patternOf? literal =
            some (unescapePattern (pattern.text.slice 1 (pattern.text.length - 1))) := by
          simp [patternOf?, noText, here]
        exact Rule.sound_regex (approved _ (List.mem_singleton_self _) _ known)
    · split at h
      · cases h
      · rename_i bare here
        obtain ⟨isName, -, h⟩ := Except.bind_eq_ok.1 h
        split at h
        · split at h
          · cases h
          · rename_i rule found
            cases h
            rw [Registry.get] at found
            split at found
            · cases found
              exact known _ (Registry.mem_of_get? ‹_›)
            · cases found
        · cases h
          exact Rule.sound_text ..

/-- True of a reader of tokens that reads sound entries if the literals found are approved. -/
def ReadsSound (find : Finder) (read : TokenReader) : Prop :=
  ∀ text base entries, Approved (find text base) → read text base = .ok entries →
    ∀ e ∈ entries, Sound e.rule

variable {find : Finder} {read : TokenReader}

theorem sound_readAlternative (reads : ReadsSound find read) {node : Tree}
    (approved : Approved (alternativeLiterals find base node)) {r : Rule}
    (h : readAlternative c read base node = .ok (some r)) : Sound r := by
  unfold readAlternative at h
  unfold alternativeLiterals at approved
  split at h
  · cases h
  · rename_i sequence here
    rw [here] at approved
    obtain ⟨tokens, inside, h⟩ := Except.bind_eq_ok.1 h
    have sound := reads _ _ tokens approved inside
    split at h
    · cases h
      exact sound _ (List.mem_singleton_self _)
    · obtain ⟨rule, combined, h⟩ := Except.bind_eq_ok.1 h
      cases h
      refine sound_combined combined fun e mem => ?_
      obtain ⟨d, inside, rfl⟩ := List.mem_map.1 mem
      exact sound d inside

theorem sound_readGroup (grammar : c.grammar = .bootstrap) (reads : ReadsSound find read)
    {node : Tree} (approved : Approved (groupLiterals find base node)) {r : Rule}
    (h : readGroup c read base node = .ok r) : Sound r := by
  unfold readGroup at h
  unfold groupLiterals at approved
  split at h
  · cases h
  · rename_i alternatives here
    rw [here] at approved
    obtain ⟨rules, inside, h⟩ := Except.bind_eq_ok.1 h
    rw [grammar] at inside
    have related := Except.forall₂_of_mapM inside
    refine sound_combined h fun e mem => ?_
    obtain ⟨rule, kept, rfl⟩ := List.mem_map.1 mem
    obtain ⟨some_rule, among, same⟩ := List.mem_filterMap.1 kept
    cases same
    obtain ⟨result, found, read_⟩ := Rule.exists_of_forall₂ related among
    obtain ⟨node', lifted, read_⟩ := Except.bind_eq_ok.1 read_
    rw [lift_eq_ok] at lifted
    refine sound_readAlternative reads (fun x mem => approved x ?_) read_
    refine List.mem_flatMap.2 ⟨node', ?_, mem⟩
    exact List.mem_filterMap.2 ⟨result, found, by rw [lifted]; rfl⟩

theorem sound_readAtom (grammar : c.grammar = .bootstrap) (known : Registry.All Sound c.registry)
    (reads : ReadsSound find read) {node : Tree} (approved : Approved (tokenLiterals find base node))
    {e : Entry Rule} (h : readAtom c read base node = .ok e) : Sound e.rule := by
  unfold readAtom at h
  unfold tokenLiterals at approved
  split at h
  · cases h
  · rename_i atom here
    rw [here] at approved
    dsimp only at approved
    split at h
    · rename_i group inside
      rw [inside] at approved
      obtain ⟨rule, read_, h⟩ := Except.bind_eq_ok.1 h
      cases h
      exact sound_readGroup grammar reads approved read_
    · rename_i noGroup
      split at h
      · rename_i literal inside
        rw [noGroup, inside] at approved
        exact sound_readLiteral known (by simpa using approved) h
      · cases h

theorem sound_readToken (grammar : c.grammar = .bootstrap) (known : Registry.All Sound c.registry)
    (reads : ReadsSound find read) {node : Tree} (approved : Approved (tokenLiterals find base node))
    {e : Entry Rule} (h : readToken c read base node = .ok e) : Sound e.rule := by
  obtain ⟨atom, read_, h⟩ := Except.bind_eq_ok.1 h
  have sound := sound_readAtom grammar known reads approved read_
  split at h
  · cases h
    exact sound
  · split at h
    · cases h
      exact sound
    · split at h
      · cases h
      · obtain ⟨rule, combined, h⟩ := Except.bind_eq_ok.1 h
        cases h
        refine sound_combined combined fun d mem => ?_
        cases List.mem_singleton.1 mem
        exact sound

theorem sound_readTokens (grammar : c.grammar = .bootstrap) (known : Registry.All Sound c.registry)
    (depth : Nat) : ReadsSound (literals depth) (readTokens c depth) := by
  induction depth with
  | zero => exact fun text base entries _ h => nomatch h
  | succ depth ih =>
    intro text base entries approved h e mem
    rw [readTokens, grammar] at h
    obtain ⟨result, found, read_⟩ := Rule.exists_of_forall₂ (Except.forall₂_of_mapM h) mem
    obtain ⟨node, lifted, read_⟩ := Except.bind_eq_ok.1 read_
    rw [lift_eq_ok] at lifted
    refine sound_readToken grammar known ih (fun x mem => approved x ?_) read_
    rw [literals]
    exact List.mem_flatMap.2 ⟨node, List.mem_filterMap.2 ⟨result, found, by rw [lifted]; rfl⟩, mem⟩

theorem sound_readValue (grammar : c.grammar = .bootstrap) (known : Registry.All Sound c.registry)
    {text : Bytes} (patterns : ∀ p ∈ valuePatterns text base, Accepted (.regex 0 p)) {r : Rule}
    (h : readValue c text base = .ok r) : Sound r := by
  obtain ⟨tokens, read_, h⟩ := Except.bind_eq_ok.1 h
  refine sound_combined h (sound_readTokens grammar known _ text base tokens ?_ read_)
  exact fun x mem p here => patterns p (List.mem_filterMap.2 ⟨x, mem, here⟩)

/-! ### Compilations -/

/-- True of a rule that is accepted, with leaves that are accepted. -/
def Vetted (r : Rule) : Prop := Sound r ∧ Accepted r

/-- True of a step that leads to a state whose rules are vetted. -/
def Vets (step : Step State) : Prop := ∀ s, step.result = .ok s → Registry.All Vetted s.registry

variable {settings : Settings} {s : State}

theorem vets_fail (known : Registry.All Vetted s.registry) (policy : Policy) (d : Error.Diagnosis) :
    Vets (s.fail policy d) := by
  intro s' h
  unfold State.fail at h
  dsimp only at h
  split at h
  · cases h
  · cases h
    exact known

theorem vets_failAll (policy : Policy) (unmatched : List Unmatched)
    (known : Registry.All Vetted s.registry) : Vets (State.failAll policy unmatched s) := by
  induction unmatched generalizing s with
  | nil =>
    rintro s' ⟨⟩
    exact known
  | cons u rest ih =>
    intro s' h
    rw [State.failAll] at h
    split at h
    · rename_i failed
      exact ih (vets_fail known policy _ _ (by rw [failed])) s' h
    · cases h

theorem vets_skip (policy : Policy) (offset : Int) (known : Registry.All Vetted s.registry) :
    Vets (s.skip policy offset) := by
  intro s' h
  unfold State.skip at h
  split at h
  · cases h
  · exact vets_failAll policy _ (by exact known) s' h

theorem vets_readDefinition (grammar : settings.grammar = .bootstrap)
    (known : Registry.All Vetted s.registry) {node name value : Tree}
    (patterns : ∀ p ∈ valuePatterns value.text value.offset, Accepted (.regex 0 p)) :
    Vets (readDefinition settings s node name value) := by
  intro s' h
  unfold readDefinition at h
  split at h
  · rename_i rule registry defined
    dsimp only at h
    split at h
    · cases h
    · cases h
      obtain ⟨rule', read_, defined⟩ := Except.bind_eq_ok.1 defined
      obtain ⟨compiled, checked, defined⟩ := Except.bind_eq_ok.1 defined
      obtain ⟨registry', set, defined⟩ := Except.bind_eq_ok.1 defined
      cases defined
      rw [lift_eq_ok] at checked set
      have sound := sound_readValue grammar (fun e mem => (known e mem).1) patterns read_
      rw [Registry.set] at set
      split at set
      · cases set
        intro e mem
        obtain rfl | mem := Registry.mem_put mem
        · exact ⟨sound, compiled, checked⟩
        · exact known e mem
      · cases set
  · split at h
    · cases h
    · exact vets_fail known _ _ s' h
  · cases h

theorem vets_readLine (grammar : settings.grammar = .bootstrap)
    (known : Registry.All Vetted s.registry) {node : Tree}
    (patterns : ∀ d v, node.child? "ruleEntry" = some d → d.child? "value" = some v →
      ∀ p ∈ valuePatterns v.text v.offset, Accepted (.regex 0 p)) :
    Vets (readLine settings s node) := by
  intro s' h
  unfold readLine at h
  split at h
  · split at h
    · cases h
    · cases h
      exact known
  · split at h
    · cases h
      exact known
    · rename_i definition here
      split at h
      · rename_i name value _ value_here
        exact vets_readDefinition grammar known (patterns _ _ here value_here) s' h
      · split at h
        · cases h
        · exact vets_fail known _ _ s' h

theorem vets_readNode (grammar : settings.grammar = .bootstrap)
    (known : Registry.All Vetted s.registry) {node : Tree}
    (patterns : ∀ d v, node.child? "ruleEntry" = some d → d.child? "value" = some v →
      ∀ p ∈ valuePatterns v.text v.offset, Accepted (.regex 0 p)) :
    Vets (readNode settings s node) := by
  intro s' h
  unfold readNode at h
  split at h
  · cases h
  · rename_i skipped
    have known := vets_skip _ _ known _ (by rw [skipped])
    split at h
    · cases h
    · rename_i line
      have known := vets_readLine grammar known patterns _ (by rw [line])
      split at h
      · cases h
      · cases h
        exact known

/-- The rules of the registry that a compilation leads to are vetted if those that it starts with
    are. By induction on the lines. -/
theorem vetted_readNodes (grammar : settings.grammar = .bootstrap) {length : Nat}
    {nodes : List (Except Error Tree)} (known : Registry.All Vetted s.registry)
    (patterns : ∀ node, .ok node ∈ nodes → ∀ d v, node.child? "ruleEntry" = some d →
      d.child? "value" = some v → ∀ p ∈ valuePatterns v.text v.offset, Accepted (.regex 0 p))
    {registry : Registry} (h : (readNodes settings length nodes s).result = .ok registry) :
    Registry.All Vetted registry := by
  induction nodes generalizing s with
  | nil =>
    rw [readNodes] at h
    split at h
    · cases h
    · rename_i skipped
      cases h
      exact vets_skip _ _ known _ (by rw [skipped])
  | cons result rest ih =>
    cases result with
    | error e => cases h
    | ok node =>
      rw [readNodes] at h
      split at h
      · cases h
      · rename_i line
        have known := vets_readNode grammar known (patterns node (List.mem_cons_self ..)) _
          (by rw [line])
        exact ih known (fun node mem => patterns node (List.mem_cons_of_mem _ mem)) h

theorem mem_nodes {r : Rule} {text : Bytes} {t : Tree} (mem : .ok t ∈ r.trees text) :
    t ∈ r.nodes text :=
  List.mem_filterMap.2 ⟨.ok t, mem, rfl⟩

theorem mem_sourcePatterns {source p : Bytes} {node d v : Tree}
    (mem : node ∈ Bootstrap.line.nodes source) (here : node.child? "ruleEntry" = some d)
    (there : d.child? "value" = some v) (inside : p ∈ valuePatterns v.text v.offset) :
    p ∈ sourcePatterns source := by
  refine List.mem_flatMap.2 ⟨node, mem, ?_⟩
  simp only [here, there]
  exact inside

theorem result_compileWith (settings : Settings) (filename : Bytes) (base : Registry)
    (source : Bytes) :
    (compileWith settings filename base source).result =
      (readNodes settings source.length (settings.grammar.line.trees source)
        ⟨base, .start filename source, 0, []⟩).result :=
  rfl

/-- The rules of the registry that a source is compiled to, if it is compiled with the grammar of
    definitions. -/
theorem vetted_compileWith (grammar : settings.grammar = .bootstrap) {filename source : Bytes}
    {base : Registry} (known : Registry.All Vetted base)
    (patterns : ∀ p ∈ sourcePatterns source, Accepted (.regex 0 p)) {registry : Registry}
    (h : (compileWith settings filename base source).result = .ok registry) :
    Registry.All Vetted registry := by
  have trees : settings.grammar.line.trees source = Bootstrap.line.trees source := by
    rw [grammar]
    rfl
  rw [result_compileWith, trees] at h
  refine vetted_readNodes grammar (s := ⟨base, .start filename source, 0, []⟩) known ?_ h
  intro node mem d v here there p inside
  exact patterns p (mem_sourcePatterns (mem_nodes mem) here there inside)

theorem compile_eq {options : Options} (own : options.grammar = none) {source : Bytes}
    {registry : Registry} (h : (compile options source).result = .ok registry) :
    (compileWith ⟨.bootstrap, options.policy, options.tag⟩ options.filename
      ((options.base.bind id).getD .empty) source).result = .ok registry := by
  unfold compile at h
  split at h
  · cases h
  · rw [own] at h
    exact h

/-- The rules that a compilation starts with are those of its base. -/
theorem vetted_base {options : Options}
    (base : ∀ b, options.base = some (some b) → Registry.All Vetted b) :
    Registry.All Vetted ((options.base.bind id).getD .empty) := by
  match known : options.base with
  | none => exact fun _ mem => nomatch mem
  | some none => exact fun _ mem => nomatch mem
  | some (some b) => exact base b known

/-- A rule that is accepted, with leaves that are accepted, fails later for the size of an entry only;
    and so does every rule that a compilation registers, if the patterns of the source are accepted
    each by itself. -/
theorem checked_rules :
    (∀ r, Sound r → Accepted r → Checked r) ∧
      ∀ (options : Options) (source : Bytes) (registry : Registry), options.grammar = none →
        (∀ b, options.base = some (some b) → ∀ e ∈ b.entries, Sound e.rule ∧ Accepted e.rule) →
        (∀ p ∈ sourcePatterns source, Accepted (.regex 0 p)) →
        (compile options source).result = .ok registry →
        ∀ name r, registry.get? name = some r → Checked r := by
  refine ⟨fun r => Sound.checked, ?_⟩
  intro options source registry own base patterns compiled name r found
  obtain ⟨sound, accepted⟩ :=
    vetted_compileWith rfl (vetted_base base) patterns (compile_eq own compiled) _
      (Registry.mem_of_get? found)
  exact sound.checked accepted

theorem checked_rules_sample :
    Checked Rule.Sample.whole ∧
      (compile (.over Sample.digits "rules" .proceed 7) Sample.line).result =
        .ok (Sample.digits.insert "n" Sample.counted) ∧
      (Sample.digits.insert "n" Sample.counted).get? "n" = some Sample.counted ∧
      ∀ name r, (Sample.digits.insert "n" Sample.counted).get? name = some r → Checked r := by
  have accepted : Accepted (.regex 1 "[0-9]") := Rule.Sample.compiles_digit.imp fun _ h => h.1
  have compiled : (compile (.over Sample.digits "rules" .proceed 7) Sample.line).result =
      .ok (Sample.digits.insert "n" Sample.counted) := by
    rw [compile_defining Sample.digits "rules" .proceed 7 Sample.isLine_line Sample.isDefinition_line rfl
      Sample.accepted_counted]
    rfl
  refine ⟨checked_rules.1 _ Rule.Sample.sound_whole Rule.Sample.accepted_whole, compiled, rfl, ?_⟩
  refine checked_rules.2 _ Sample.line _ rfl ?_ ?_ compiled
  · rintro b ⟨⟩ e mem
    cases List.mem_singleton.1 mem
    exact ⟨Rule.sound_regex accepted, accepted⟩
  · intro p mem
    have written := written_of_isDefinition Sample.isLine_line Sample.isDefinition_line p mem
    have only : Phrase.rowPatterns Sample.tokens = [("x" : Bytes)] := rfl
    cases List.mem_singleton.1 (only ▸ written)
    exact Rule.accepted_of_isOk _ (by decide +kernel) (by decide +kernel)

end Definition

end Rulebook
