import Rulebook.Tree

/-!
# Trees as literals

Trees as a literal of a program. Fields with an empty value are left out.
-/

namespace Rulebook

namespace Tree

/-- The name of the type of a list of trees. -/
def listType : Bytes := "[]*runtax.ParseNode"

/-- A line under an indentation. -/
def literalLine (indent : Nat) (text : Bytes) : Bytes := Bytes.times indent " " ++ text ++ ",\n"

mutual

/-- A tree as a literal whose last line stands under an indentation. -/
def literal (indent : Nat) : Tree → Bytes
  | node name text offset children =>
      let inner := indent + 2
      let nameLine := if name.isEmpty then [] else literalLine inner ("Name: " ++ name.quote)
      let textLine := if text.isEmpty then [] else literalLine inner ("Text: " ++ text.quote)
      let offsetLine :=
        if offset == 0 then [] else literalLine inner ("Offset: " ++ Bytes.integer offset)
      let childrenLine :=
        if children.isEmpty then []
        else
          literalLine inner
            ("Children: " ++ listType ++ "\x7b\n" ++ literalItems (inner + 2) children ++
              Bytes.times inner " " ++ "\x7d")
      "\x7b\n" ++ nameLine ++ textLine ++ offsetLine ++ childrenLine ++ Bytes.times indent " " ++
        "\x7d"

/-- Trees as the items of a literal. -/
def literalItems (indent : Nat) : List Tree → Bytes
  | [] => []
  | t :: rest => literalLine indent (t.literal indent) ++ literalItems indent rest

end

/-- Trees as one literal. -/
def literals (trees : List Tree) : Bytes :=
  if trees.isEmpty then "nil\n" else listType ++ "\x7b\n" ++ literalItems 2 trees ++ "\x7d\n"

end Tree

end Rulebook
