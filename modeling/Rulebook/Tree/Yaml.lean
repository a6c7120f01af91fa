import Rulebook.Tree
import Rulebook.Yaml.Scalar

/-!
# Trees as YAML

Trees as a YAML sequence of mappings. A name and parts are written only where there are any.
-/

namespace Rulebook

namespace Tree

/-- A field of a mapping, to the end of its line. -/
def yamlField (key : Bytes) (value : Yaml.Written) : Bytes :=
  let ending : Bytes := if value.atLineStart then [] else "\n"
  key ++ ": " ++ value.text ++ ending

mutual

/-- A tree as an item of a sequence under an indentation. -/
def yaml (indent : Nat) : Tree → Bytes
  | node name text offset children =>
      let nameField : List Bytes :=
        if name.isEmpty then [] else [yamlField "name" (Yaml.write (indent + 4) name)]
      let childrenField : List Bytes :=
        if children.isEmpty then [] else ["children:\n" ++ yamlItems (indent + 4) children]
      let fields : List Bytes :=
        nameField ++ [yamlField "text" (Yaml.write (indent + 4) text),
          yamlField "offset" (.onLine (Bytes.integer offset))] ++ childrenField
      Bytes.times indent " " ++ "- " ++ Bytes.join (Bytes.times (indent + 2) " ") fields

/-- Trees as the items of a sequence. -/
def yamlItems (indent : Nat) : List Tree → Bytes
  | [] => []
  | t :: rest => t.yaml indent ++ yamlItems indent rest

end

/-- Trees as a YAML document. -/
def yamlDocument (trees : List Tree) : Bytes :=
  if trees.isEmpty then "[]\n" else yamlItems 0 trees

end Tree

end Rulebook
