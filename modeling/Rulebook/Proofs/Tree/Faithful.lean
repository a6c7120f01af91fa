import Rulebook.Proofs.Tree.Parts

/-!
# Trees and their text

A tree tells the truth about the text that it was built from: `Rule.nodes_faithful`. Its offsets
count from the start of that text, however deep a node lies and whichever of the patterns of its
rule has found it; a child lies within its parent; children come in the order of the entries; and
the trees of a text come in the order of its matches.
-/

namespace Rulebook

theorem Bytes.slice_slice {s : Bytes} {base length start stop : Nat}
    (fits : stop ≤ length) :
    (s.slice base (base + length)).slice start stop = s.slice (base + start) (base + stop) := by
  simp only [slice, List.drop_take, List.drop_drop, List.take_take]
  congr 1
  omega

theorem Bytes.length_slice {s : Bytes} (start : Nat) {stop : Nat} (fits : stop ≤ s.length) :
    (s.slice start stop).length = stop - start := by
  simp only [slice, List.length_take, List.length_drop]
  omega

namespace Tree

/-- True if a tree stands where it says in a text. -/
def Stands (text : Bytes) (t : Tree) : Prop :=
  ∃ start : Nat, t.offset = start ∧ start + t.text.length ≤ text.length ∧
    text.slice start (start + t.text.length) = t.text

/-- True if the span of a tree lies within that of another. -/
def Within (outer inner : Tree) : Prop :=
  outer.offset ≤ inner.offset ∧ inner.finish ≤ outer.finish

mutual

/-- True of a tree of a rule that is faithful to a text, with all that lies below it. -/
def Faithful (text : Bytes) (r : Rule) : Tree → Prop
  | node name span offset children =>
      Stands text (node name span offset children) ∧
        (children.map Tree.name).Sublist ((r.entries.filter Entry.isNamed).map Entry.name) ∧
        (∀ child ∈ children, Within (node name span offset children) child) ∧
        FaithfulAll text r.entries children

/-- True of trees each of which is faithful as a tree of the named entry that it is called after. -/
def FaithfulAll (text : Bytes) (entries : List (Entry Rule)) : List Tree → Prop
  | [] => True
  | t :: rest =>
      (∃ e ∈ entries, e.isNamed = true ∧ t.name = e.name ∧ Faithful text e.rule t) ∧
        FaithfulAll text entries rest

end

theorem faithfulAll_iff {text : Bytes} {entries : List (Entry Rule)} {trees : List Tree} :
    FaithfulAll text entries trees ↔
      ∀ t ∈ trees, ∃ e ∈ entries, e.isNamed = true ∧ t.name = e.name ∧ Faithful text e.rule t := by
  induction trees with
  | nil => simp [FaithfulAll]
  | cons t rest ih => simp [FaithfulAll, ih]

theorem faithful_iff {text : Bytes} {r : Rule} {t : Tree} :
    Faithful text r t ↔ Stands text t ∧
      (t.children.map Tree.name).Sublist ((r.entries.filter Entry.isNamed).map Entry.name) ∧
      (∀ child ∈ t.children, Within t child) ∧
      ∀ child ∈ t.children, ∃ e ∈ r.entries, e.isNamed = true ∧ child.name = e.name ∧
        Faithful text e.rule child := by
  obtain ⟨name, span, offset, children⟩ := t
  rw [Faithful, faithfulAll_iff]
  rfl

@[simp] theorem name_rename (name : Bytes) (t : Tree) : (t.rename name).name = name := by
  cases t; rfl

@[simp] theorem text_rename (name : Bytes) (t : Tree) : (t.rename name).text = t.text := by
  cases t; rfl

@[simp] theorem offset_rename (name : Bytes) (t : Tree) : (t.rename name).offset = t.offset := by
  cases t; rfl

@[simp] theorem children_rename (name : Bytes) (t : Tree) :
    (t.rename name).children = t.children := by
  cases t; rfl

@[simp] theorem finish_rename (name : Bytes) (t : Tree) : (t.rename name).finish = t.finish := by
  cases t; rfl

theorem faithful_rename {text : Bytes} {r : Rule} {t : Tree} (name : Bytes) :
    Faithful text r (t.rename name) ↔ Faithful text r t := by
  rw [faithful_iff, faithful_iff]
  simp [Stands, Within]

/-- Trees each of which starts at or after the end of the one before, and is not empty right
    there. -/
def InOrder : List Tree → Prop
  | [] => True
  | t :: rest =>
      (∀ next ∈ rest.head?, t.finish ≤ next.offset ∧
        ¬ (next.offset = t.finish ∧ next.text = [])) ∧ InOrder rest

end Tree

namespace Rule

open Rulebook.Tree

/-- A place in a text where a part of it starts: the part is what stands there. -/
structure PartAt (whole : Bytes) (base : Nat) (text : Bytes) : Prop where
  fits : base + text.length ≤ whole.length
  eq : whole.slice base (base + text.length) = text

theorem PartAt.slice {whole text : Bytes} {base start stop : Nat} (h : PartAt whole base text)
    (le : start ≤ stop) (fits : stop ≤ text.length) :
    PartAt whole (base + start) (text.slice start stop) := by
  have length := Bytes.length_slice start fits
  have := h.fits
  refine ⟨by omega, ?_⟩
  rw [length]
  conv_rhs => rw [← h.eq, Bytes.slice_slice fits]
  congr 1
  omega

theorem PartAt.whole (text : Bytes) : PartAt text 0 text :=
  ⟨by simp, by simp [Bytes.slice]⟩

/-- What is shown of the tree of a rule for a part of a text. -/
structure Placed (whole : Bytes) (r : Rule) (low high : Nat) (t : Tree) : Prop where
  faithful : Faithful whole r t
  low_le : (low : Int) ≤ t.offset
  le_high : t.finish ≤ (high : Int)

/-- The tree for a match is faithful if those of the entries are. -/
theorem NodeOf.placed {r : Rule} {regex : Pattern.Regex} {found : Pattern.Program.Found}
    {whole text : Bytes} {base : Nat} {t : Tree} (node : NodeOf r regex found text base t)
    (fits : found.Fits text.length) (part : PartAt whole base text)
    (below : ∀ e ∈ r.entries, ∀ {span offset t}, PartAt whole offset span →
      e.rule.matcher.descend span offset = .ok t →
        Placed whole e.rule offset (offset + span.length) t) :
    Placed whole r base (base + text.length) t ∧
      t.offset = (base + found.start : Nat) ∧ t.finish = (base + found.finish : Nat) := by
  have here := part.slice fits.start_le fits.finish_le
  have length := Bytes.length_slice found.start fits.finish_le
  have start_le := fits.start_le
  have finish_le := fits.finish_le
  have finish : t.finish = (base + found.finish : Nat) := by
    rw [Tree.finish, node.offset_eq, node.text_eq, length]
    omega
  have child : ∀ child ∈ t.children, (∃ e ∈ r.entries, e.isNamed = true ∧ child.name = e.name ∧
      Faithful whole e.rule child) ∧ Within t child := by
    intro child mem
    obtain ⟨⟨e, start, stop⟩, mem, built⟩ := exists_of_forall₂ node.children mem
    obtain ⟨entry, isNamed, took⟩ := mem_taken mem
    have name := built.name_eq
    obtain ⟨inner, descended, rfl⟩ := built
    obtain ⟨number, -, group⟩ := Option.bind_eq_some_iff.1 took
    obtain ⟨low, ordered, high⟩ := fits.group group
    have stop_le : stop ≤ text.length := Nat.le_trans high finish_le
    obtain ⟨faithful, low_le, le_high⟩ := below e entry (part.slice ordered stop_le) descended
    rw [Bytes.length_slice start stop_le] at le_high
    refine ⟨⟨e, entry, isNamed, name, (faithful_rename _).2 faithful⟩, ?_⟩
    simp only [Within, offset_rename, finish_rename, node.offset_eq, finish]
    omega
  refine ⟨⟨faithful_iff.2 ⟨?_, ?_, fun c mem => (child c mem).2, fun c mem => (child c mem).1⟩,
    ?_, ?_⟩, node.offset_eq, finish⟩
  · refine ⟨base + found.start, node.offset_eq, ?_, ?_⟩
    · rw [node.text_eq]
      exact here.fits
    · rw [node.text_eq]
      exact here.eq
  · rw [map_name_children node.children]
    have names := (taken_sublist regex found r.entries).map Entry.name
    rwa [List.map_map] at names
  · rw [node.offset_eq]
    omega
  · rw [finish]
    omega

/-- The tree for a span of a text, whether the rule matches it again or not. -/
theorem placed_descend {whole : Bytes} (r : Rule) : ∀ {span : Bytes} {offset : Nat} {t : Tree},
    PartAt whole offset span → r.matcher.descend span offset = .ok t →
      Placed whole r offset (offset + span.length) t := by
  induction r using of_entries with
  | step r ih =>
    intro span offset t part built
    obtain ⟨c, compiled, ⟨-, rfl⟩ | ⟨found, matched, node⟩⟩ := descend_ok built
    · refine ⟨faithful_iff.2 ⟨⟨offset, rfl, part.fits, part.eq⟩, ?_, nofun, nofun⟩, ?_, ?_⟩
      · exact List.nil_sublist _
      · exact Int.le_refl _
      · exact Int.le_refl _
    · have fits := Pattern.Regex.find?_fits (compile_ok compiled).2 matched
      exact (node.placed fits part fun e mem _ _ _ part' built' => ih e mem part' built').1

/-- The trees of matches that are in order are in order. -/
theorem inOrder_nodes {r : Rule} {regex : Pattern.Regex} {text : Bytes}
    {founds : List Pattern.Program.Found} {trees : List Tree}
    (h : List.Forall₂ (fun found t => NodeOf r regex found text 0 t) founds trees)
    (fits : ∀ found ∈ founds, found.Fits text.length)
    (ordered : Pattern.Program.InOrder founds) : Tree.InOrder trees := by
  induction h with
  | nil => trivial
  | @cons found t founds trees here rest ih =>
    refine ⟨fun next mem => ?_, ih (fun f mem => fits f (List.mem_cons_of_mem _ mem)) ordered.2⟩
    cases rest with
    | nil => cases mem
    | @cons found' t' founds trees here' rest =>
      cases mem
      obtain ⟨after, apart⟩ := ordered.1 found' rfl
      have fits₁ := fits found (by simp)
      have fits₂ := fits found' (by simp)
      have := fits₁.start_le
      have := fits₂.start_le
      have length₁ := Bytes.length_slice found.start fits₁.finish_le
      have length₂ := Bytes.length_slice found'.start fits₂.finish_le
      have finish : t.finish = found.finish := by
        rw [Tree.finish, here.offset_eq, here.text_eq, length₁]
        omega
      rw [finish, here'.offset_eq, here'.text_eq]
      refine ⟨by omega, fun ⟨start, empty⟩ => apart ⟨by omega, ?_⟩⟩
      rw [empty, List.length_nil] at length₂
      omega

/-- The tree of a match is faithful to the text. -/
theorem faithful_of_mem {r : Rule} {text : Bytes} {t : Tree} (mem : t ∈ r.nodes text) :
    t.Faithful text r := by
  obtain ⟨c, found, compiled, matched, node⟩ := nodeOf_of_mem mem
  have fits := Pattern.Regex.findAll_fits (compile_ok compiled).1 matched
  exact (node.placed fits (.whole text) fun e _ _ _ _ part built =>
    placed_descend e.rule part built).1.faithful

/-- The trees of the matches come in the order of the text. -/
theorem inOrder_of_text (r : Rule) (text : Bytes) : Tree.InOrder (r.nodes text) := by
  cases compiled : r.compile with
  | error e =>
    rw [nodes_of_error compiled]
    exact trivial
  | ok c =>
    obtain ⟨front, part, built⟩ := forall₂_nodes compiled text
    exact inOrder_nodes built
      (fun found mem => Pattern.Regex.findAll_fits (compile_ok compiled).1 (part.subset mem))
      ((c.search.findAll_inOrder text).of_front part)

/-- The trees of a rule are faithful to the text at every depth, and come in the order of the
    text. -/
theorem nodes_faithful (r : Rule) (text : Bytes) :
    (∀ t ∈ r.nodes text, t.Faithful text r) ∧ Tree.InOrder (r.nodes text) :=
  ⟨fun _ mem => faithful_of_mem mem, inOrder_of_text r text⟩

end Rule

end Rulebook
