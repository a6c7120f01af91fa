import Rulebook.Registry
import Rulebook.Rule.Matcher

/-!
# Shapes

The tags of a rule have no part in its patterns, so rules of one shape match the same texts. A
registry has a shape too, and what is done to the registry is done to its shape.
-/

namespace Rulebook

namespace Rule

theorem shapes_eq_map (entries : List (Entry Rule)) :
    shapes entries = entries.map fun e => ⟨e.name, e.rule.shape⟩ := by
  induction entries with
  | nil => rfl
  | cons e rest ih => rw [shapes, ih, List.map_cons]

@[simp] theorem kind_shape (r : Rule) : r.shape.kind = r.kind := by
  cases r <;> rfl

mutual

@[simp] theorem assemble_shape (named : Bool) (r : Rule) :
    r.shape.assemble named = r.assemble named := by
  cases r with
  | regex => rfl
  | text => rfl
  | combine tag how entries => simp only [shape, assemble, assembleEntries_shapes named entries]

@[simp] theorem assembleEntries_shapes (named : Bool) (entries : List (Entry Rule)) :
    assembleEntries named (shapes entries) = assembleEntries named entries := by
  cases entries with
  | nil => rfl
  | cons e rest =>
    simp only [shapes, assembleEntries, kind_shape, assemble_shape named e.rule,
      assembleEntries_shapes named rest]

end

@[simp] theorem namedPattern_shape (r : Rule) : r.shape.namedPattern = r.namedPattern :=
  assemble_shape true r

/-- Rules of one shape are accepted or refused alike. -/
@[simp] theorem compile_shape (r : Rule) : r.shape.compile = r.compile := by
  simp only [compile, namedPattern_shape]

end Rule

namespace Registry

/-- The registry with the tags of all rules forgotten. -/
def shape (r : Registry) : Registry := ⟨Rule.shapes r.entries⟩

/-- Which name a list of entries is searched for does not depend on tags. -/
theorem find?_shapes (entries : List (Entry Rule)) (name : Bytes) :
    (Rule.shapes entries).find? (·.name == name) =
      (entries.find? (·.name == name)).map fun e => ⟨e.name, e.rule.shape⟩ := by
  rw [Rule.shapes_eq_map, List.find?_map]
  rfl

@[simp] theorem get?_shape (r : Registry) (name : Bytes) :
    r.shape.get? name = (r.get? name).map Rule.shape := by
  simp only [get?, shape, find?_shapes, Option.map_map]
  rfl

theorem shapes_put (e : Entry Rule) (entries : List (Entry Rule)) :
    Rule.shapes (put e entries) = put ⟨e.name, e.rule.shape⟩ (Rule.shapes entries) := by
  induction entries with
  | nil => rfl
  | cons d rest ih =>
    simp only [put, Rule.shapes]
    split <;> simp only [Rule.shapes, ih]

@[simp] theorem shape_insert (r : Registry) (name : Bytes) (rule : Rule) :
    (r.insert name rule).shape = r.shape.insert name rule.shape := by
  simp only [shape, insert, shapes_put]

end Registry

end Rulebook
