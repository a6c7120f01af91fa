import Rulebook.Proofs.Definition.PlainReading

/-!
# Children of nodes

The kind of a rule fixes which children its nodes have, and what a definition refers to outside of
groups becomes the children of the nodes of its rule, in the order of the definition:
`Rule.children_fixed_by_kind`.
-/

namespace Rulebook

open Pattern

namespace Rule

open Definition (Grammar IsSuffixed Settings State define)

/-- The node of a rule without named entries has no children. -/
theorem children_of_anonymous {r : Rule} (anonymous : r.entries.filter Entry.isNamed = [])
    {span : Bytes} {offset : Nat} {t : Tree} (h : r.matcher.descend span offset = .ok t) :
    t.children = [] := by
  obtain ⟨c, -, ⟨-, rfl⟩ | ⟨found, -, node⟩⟩ := descend_ok h
  · rfl
  · have sub := taken_sublist c.whole found r.entries
    rw [anonymous, List.sublist_nil, List.map_eq_nil_iff] at sub
    have children := node.children
    rw [sub] at children
    exact List.forall₂_nil_left_iff.1 children

/-- The children of a sequence are the trees of its named entries. -/
theorem Sound.children_seq {tag : Nat} {entries : List (Entry Rule)}
    (sound : Sound (.combine tag .seq entries)) {text : Bytes} {t : Tree}
    (mem : t ∈ nodes (.combine tag .seq entries) text) :
    List.Forall₂ (fun e child => ∃ span offset inner,
      e.rule.matcher.descend span offset = .ok inner ∧ child = inner.rename e.name)
      (entries.filter Entry.isNamed) t.children := by
  obtain ⟨c, found, compiled, mem, node⟩ := nodeOf_of_mem mem
  have shows : (taken c.search found entries).map (·.1.name) =
      (entries.filter Entry.isNamed).map Entry.name :=
    (sound.shows_taken compiled (sound.searches compiled).names
      fun kind => (sound.passes_search kind compiled mem).imp fun _ h => h.2).1
  have all : (taken c.search found entries).map Prod.fst = entries.filter Entry.isNamed := by
    refine (taken_sublist c.search found entries).eq_of_length ?_
    simpa using congrArg List.length shows
  have children := node.children
  rw [← all, List.forall₂_map_left_iff]
  exact children.imp fun part child ⟨inner, built, eq⟩ => ⟨_, _, inner, built, eq⟩

/-- The kind of a rule fixes which children its nodes have, and the children of a definition's rule
    are its references outside of groups. -/
theorem children_fixed_by_kind {r : Rule} (sound : Sound r) (text : Bytes) :
    ∀ t ∈ r.nodes text, t.Arranged r ∧
      ∀ (settings : Settings) (s : State) (node name value : Tree) (registry : Registry),
        define settings s node name value = .ok (r, registry) →
        List.Forall₂ (fun token child => settings.grammar.reference? token = some child.name ∧
          (IsSuffixed token → child.children = [])) (settings.grammar.references value.text)
          t.children := by
  intro t mem
  refine ⟨sound.arranged mem, fun settings s node name value registry defined => ?_⟩
  obtain ⟨entries, tag, rfl, each⟩ := Definition.define_eq_ok defined
  refine forall₂_trans (Definition.forall₂_references each) (sound.children_seq mem) ?_
  rintro token e child ⟨reference, entry⟩ ⟨span, offset, inner, built, rfl⟩
  rw [Tree.name_rename, Tree.children_rename]
  exact ⟨reference, fun suffixed => children_of_anonymous (entry.suffixed suffixed) built⟩

namespace Sample

open Definition.Sample (digits line counted)

theorem sound_counted : Sound counted := by
  have digit : Sound (regex 1 "[0-9]") := sound_regex (compiles_digit.imp fun _ h => h.1)
  have letter : Sound (regex 7 "x") :=
    sound_regex (accepted_of_isOk _ (by decide +kernel) (by decide +kernel))
  refine sound_combine 7 .seq (by decide) ?_
  simp only [List.forall_mem_cons, List.not_mem_nil, false_implies, implies_true, and_true]
  refine ⟨sound_combine 7 _ (by decide) (by simpa using digit), sound_combine 7 _ (by decide) ?_⟩
  simp only [List.forall_mem_cons, List.not_mem_nil, false_implies, implies_true, and_true]
  refine sound_combine 7 .oneOf (by decide) ?_
  simp only [List.forall_mem_cons, List.not_mem_nil, false_implies, implies_true, and_true]
  exact ⟨sound_combine 7 .seq (by decide) (by simpa using ⟨sound_text 7 "a", letter⟩), digit⟩

theorem ready_counted : Ready counted where
  sound := sound_counted
  accepted := Definition.Sample.accepted_counted
  below e mem isNamed := by
    have only : (reach counted.entries).filter Entry.isNamed =
        [⟨"d", combine 7 (.oneOrMore false) [⟨[], regex 1 "[0-9]"⟩]⟩] := rfl
    cases List.mem_singleton.1 (only ▸ List.mem_filter.2 ⟨mem, isNamed⟩)
    exact accepted_of_isOk _ (by decide +kernel) (by decide +kernel)

theorem expr_counted : counted.expr = .group 0 [] (.cat
    (.group 0 "d" (.plus true (.group 0 [] (.one ⟨[(48, 57)]⟩))))
    (.star false (.group 0 [] (.group 0 [] (.alt
      (.group 0 [] (.cat (.one ⟨[(97, 97)]⟩) (.one ⟨[(120, 120)]⟩)))
      (.one ⟨[(48, 57)]⟩)))))) := by
  decide +kernel

/-- The reference takes a digit, and the group takes two letters and a digit. -/
theorem mem_language_counted : Bytes.scalars "7ax8" ∈ counted.expr.language := by
  have taken {set : CharSet} {b : UInt8} (mem : set.contains (Scalar.ascii b).code = true) :
      [Scalar.ascii b] ∈ (Expr.one set).language := ⟨_, rfl, mem⟩
  rw [expr_counted]
  refine Language.mem_mul.2 ⟨[.ascii 55], ?_, [.ascii 97, .ascii 120, .ascii 56], ?_, rfl⟩
  · exact mem_multiples.2 ⟨[[.ascii 55]], by decide, rfl, by simpa using taken (by decide)⟩
  · refine mem_multiples.2 ⟨[[.ascii 97, .ascii 120], [.ascii 56]], trivial, rfl, ?_⟩
    simp only [List.forall_mem_cons, List.not_mem_nil, false_implies, implies_true, and_true]
    exact ⟨.inl (Language.mem_mul.2 ⟨_, taken (by decide), _, taken (by decide), rfl⟩), .inr (taken (by decide))⟩

theorem nodes_counted : counted.nodes "7ax8" ≠ [] := by
  obtain ⟨c, compiled⟩ := Definition.Sample.accepted_counted
  have free : counted.expr.isFree = true := by
    rw [expr_counted]
    rfl
  have matched := sound_counted.matches_of_mem compiled free mem_language_counted
  exact ready_counted.nodes_ne_nil compiled (sound_counted.lead_none nofun compiled).2 matched

/-- The name and the value of the line. -/
def nameTree : Tree := .node "name" "n" 1 []

def valueTree : Tree := .node "value" "d+ (\"a\" 'x' | d)*?" 5 []

theorem define_counted : define ⟨.bootstrap, .proceed, 7⟩ ⟨digits, .start "rules" line, 0, []⟩
    (.node "ruleEntry" line 0 [nameTree, valueTree]) nameTree valueTree =
      .ok (counted, digits.insert "n" counted) := by
  obtain ⟨c, compiled⟩ := Definition.Sample.accepted_counted
  have read : Definition.readValue ⟨.bootstrap, digits, .start "rules" line, line.trim, 7⟩ valueTree.text 5 =
      .ok counted :=
    Definition.eq_ok_of_toOption ((Definition.toOption_readValue _ rfl Definition.Sample.spelled_tokens).trans rfl)
  change (Definition.readValue ⟨.bootstrap, digits, .start "rules" line, line.trim, 7⟩ valueTree.text 5 >>= _) = _
  rw [read]
  change (Definition.lift counted.compile >>= _) = _
  rw [compiled, Definition.lift_ok]
  rfl

end Sample

theorem children_fixed_by_kind_sample : Sound Definition.Sample.counted ∧
    define ⟨.bootstrap, .proceed, 7⟩
        ⟨Definition.Sample.digits, .start "rules" Definition.Sample.line, 0, []⟩
        (.node "ruleEntry" Definition.Sample.line 0 [Sample.nameTree, Sample.valueTree])
        Sample.nameTree Sample.valueTree =
      .ok (Definition.Sample.counted, Definition.Sample.digits.insert "n" Definition.Sample.counted) ∧
    ∃ t ∈ Definition.Sample.counted.nodes "7ax8", t.Arranged Definition.Sample.counted ∧
      t.children.map Tree.name = ["d"] ∧
      List.Forall₂ (fun token child => Grammar.bootstrap.reference? token = some child.name ∧
        (IsSuffixed token → child.children = [])) (Grammar.bootstrap.references Sample.valueTree.text)
        t.children := by
  obtain ⟨t, mem⟩ := List.exists_mem_of_ne_nil _ Sample.nodes_counted
  obtain ⟨arranged, defined⟩ := children_fixed_by_kind Sample.sound_counted "7ax8" t mem
  refine ⟨Sample.sound_counted, Sample.define_counted, t, mem, arranged, ?_,
    defined _ _ _ _ _ _ Sample.define_counted⟩
  obtain ⟨child, rest, ⟨span, offset, inner, -, rfl⟩, none, same⟩ :=
    List.forall₂_cons_left_iff.1 (Sample.sound_counted.children_seq mem)
  rw [same, List.forall₂_nil_left_iff.1 none]
  simp

end Rule

end Rulebook
