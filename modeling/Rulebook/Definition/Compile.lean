import Rulebook.Definition.Bootstrap
import Rulebook.Marker
import Rulebook.Rule.Build
import Rulebook.Tree.OfMatch

/-!
# Compiling definitions

A source is a list of lines, each of which is blank, a comment, or the definition of a rule. The
rules are defined from top to bottom, so a definition may refer to the rules above it and to those
that the registry held from the start. A line that cannot be compiled is a failure, and a policy
says whether to go on after it.
-/

namespace Rulebook

namespace Definition

/-- The rules that definitions are read with. -/
structure Grammar where
  line : Matcher
  token : Matcher
  alternative : Matcher
  name : Matcher

/-- The grammar of definitions. -/
def Grammar.bootstrap : Grammar :=
  ⟨Bootstrap.line.matcher, Bootstrap.token.matcher, Bootstrap.alternative.matcher,
    Bootstrap.name.matcher⟩

/-- The grammar that a registry holds. -/
def Grammar.ofRegistry (r : Registry) : Except Error Grammar :=
  let get (name : Bytes) : Except Error Matcher :=
    match r.get name with
    | .error e => .error (.within "grammar" e)
    | .ok rule => .ok rule.matcher
  do
    let line ← get "line"
    let token ← get "token"
    let alternative ← get "alternative"
    let name ← get "name"
    pure ⟨line, token, alternative, name⟩

/-- Why a compilation does not come to its end. -/
inductive Halt where
  /-- An error. -/
  | error (e : Error)
  /-- A part of a text that cannot be had. -/
  | range (fault : RangeFault)
  /-- The grammar finds a group inside itself. -/
  | endless

/-- What a compilation reports on its way. -/
inductive Event where
  /-- A comment, after its mark. -/
  | comment (position : Position) (content : Bytes)
  /-- A line that cannot be compiled. -/
  | failure (what : Error.Diagnosis)
  /-- A name that had a rule and gets another. -/
  | redefining (name : Bytes)
  /-- A rule that was defined. -/
  | defined (name : Bytes) (line : Int) (pattern : Bytes)

/-- Says whether to go on after a failure: the first argument is its number, counted from one, and
    an error ends the compilation. -/
abbrev Policy := Nat → Error.Diagnosis → Option Error

namespace Policy

/-- The first failure ends the compilation. -/
def stop : Policy := fun _ d => some d.toError

/-- No failure ends the compilation. -/
def proceed : Policy := fun _ _ => none

/-- The failure with a number ends the compilation with an error. -/
def stopAt (number : Int) (e : Error) : Policy :=
  fun n _ => if (n : Int) == number then some e else none

end Policy

/-! ## Reading a value -/

/-- What reading a part of a definition needs to know. -/
structure Context where
  grammar : Grammar
  registry : Registry
  /-- Where the definition's line starts. -/
  marker : Marker
  /-- The text of the definition. -/
  definition : Bytes
  /-- The tag of the rules that are built. -/
  tag : Nat

/-- The diagnosis of a fault at an offset. -/
def Context.errorAt (c : Context) (offset : Int) (cause : Error) : Halt :=
  match c.marker.locate offset with
  | .error fault => .range fault
  | .ok position => .error (.compile position c.definition (some cause))

/-- Takes the quotes off a pattern, in which only the quote is escaped by this language. -/
def unescapePattern : Bytes → Bytes
  | 92 :: b :: rest =>
      if b == 39 then 39 :: unescapePattern rest else 92 :: b :: unescapePattern rest
  | b :: rest => b :: unescapePattern rest
  | [] => []

/-- The combinator that a suffix stands for. -/
def ofSuffix? (suffix : Bytes) : Option Combinator :=
  let repetitions : List Combinator :=
    [.optional, .zeroOrMore false, .zeroOrMore true, .oneOrMore false, .oneOrMore true]
  repetitions.find? (·.quantifier == suffix)

/-- An error as a reason to halt. -/
def lift {α : Type} : Except Error α → Except Halt α
  | .error e => .error (.error e)
  | .ok a => .ok a

/-- A literal: a text, a pattern, a reference, or bare text. A reference is a named entry. -/
def readLiteral (c : Context) (base : Int) (node : Tree) : Except Halt (Entry Rule) :=
  match node.child? "text" with
  | some text =>
      match text.text.unquote? with
      | none => .error (c.errorAt (base + text.offset) (.misread (.quotedText text.text)))
      | some value => .ok ⟨[], .text c.tag value⟩
  | none =>
      match node.child? "pattern" with
      | some pattern =>
          if pattern.text.length < 2 then .error (.range .quotes)
          else
            let quoted := pattern.text.slice 1 (pattern.text.length - 1)
            .ok ⟨[], .regex c.tag (unescapePattern quoted)⟩
      | none =>
          match node.child? "bare" with
          | none => .error (c.errorAt (base + node.offset) (.misread (.literal node.text)))
          | some bare => do
              let isName ← lift (c.grammar.name.accepts bare.text)
              if isName then
                match c.registry.get bare.text with
                | .error e => .error (c.errorAt (base + bare.offset) e)
                | .ok rule => .ok ⟨bare.text, rule⟩
              else .ok ⟨[], .text c.tag bare.text⟩

/-- Reads the tokens of a text that stands at an offset. -/
abbrev TokenReader := Bytes → Int → Except Halt (List (Entry Rule))

/-- A combination of entries. -/
def combine (c : Context) (how : Combinator) (entries : List (Entry Rule)) : Except Halt Rule :=
  lift (Rule.ofItems c.tag how (entries.map Item.ofEntry))

/-- An alternative of a group. References in a group are anonymous, because only what a rule itself
    refers to becomes part of its trees. A single token stands for itself. -/
def readAlternative (c : Context) (read : TokenReader) (base : Int) (node : Tree) :
    Except Halt (Option Rule) :=
  match node.child? "sequence" with
  | none => .ok none
  | some sequence => do
      let tokens ← read sequence.text (base + sequence.offset)
      match tokens with
      | [token] => pure (some token.rule)
      | _ => do
          let rule ← combine c .seq (tokens.map fun e => ⟨[], e.rule⟩)
          pure (some rule)

/-- A group of alternatives. -/
def readGroup (c : Context) (read : TokenReader) (base : Int) (node : Tree) : Except Halt Rule :=
  match node.child? "alternatives" with
  | none => .error (c.errorAt (base + node.offset) (.misread .emptyGroup))
  | some alternatives => do
      let rules ← (c.grammar.alternative.trees alternatives.text).mapM fun result => do
        let alternative ← lift result
        readAlternative c read (base + alternatives.offset) alternative
      combine c .oneOf ((rules.filterMap id).map fun rule => ⟨[], rule⟩)

/-- What a token is made of: a group or a literal. -/
def readAtom (c : Context) (read : TokenReader) (base : Int) (node : Tree) :
    Except Halt (Entry Rule) :=
  match node.child? "atom" with
  | none => .error (c.errorAt (base + node.offset) (.misread (.token node.text)))
  | some atom =>
      match atom.child? "group" with
      | some group => do
          let rule ← readGroup c read base group
          pure ⟨[], rule⟩
      | none =>
          match atom.child? "literal" with
          | some literal => readLiteral c base literal
          | none => .error (c.errorAt (base + node.offset) (.misread (.token node.text)))

/-- A token: an atom, repeated as its suffix says. The name of a reference stays outside. -/
def readToken (c : Context) (read : TokenReader) (base : Int) (node : Tree) :
    Except Halt (Entry Rule) := do
  let atom ← readAtom c read base node
  match node.child? "suffix" with
  | none => pure atom
  | some suffix =>
      if suffix.text.isEmpty then pure atom
      else
        match ofSuffix? suffix.text with
        | none => .error (c.errorAt (base + suffix.offset) (.misread (.suffix suffix.text)))
        | some how => do
            let rule ← combine c how [⟨[], atom.rule⟩]
            pure ⟨atom.name, rule⟩

/-- The tokens of a text, with groups that nest at most to a depth. -/
def readTokens (c : Context) : Nat → TokenReader
  | 0, _, _ => .error .endless
  | depth + 1, text, base =>
      (c.grammar.token.trees text).mapM fun result => do
        let node ← lift result
        readToken c (readTokens c depth) base node

/-- The rule that a value stands for. A group is shorter than the text it stands in, so a depth
    beyond the length of the text is never reached. -/
def readValue (c : Context) (text : Bytes) (base : Int) : Except Halt Rule := do
  let tokens ← readTokens c (text.length + 1) text base
  combine c .seq tokens

/-! ## Lines -/

/-- Where a compilation stands. -/
structure State where
  registry : Registry
  marker : Marker
  /-- How many failures there were. -/
  failures : Nat
  /-- What was reported, the last first. -/
  events : List Event

/-- A compilation that goes on or halts, with what it has reported. -/
structure Step (α : Type) where
  events : List Event
  result : Except Halt α

/-- The state after an event. -/
def State.report (s : State) (e : Event) : State := { s with events := e :: s.events }

/-- The state after a failure, if the policy lets the compilation go on. -/
def State.fail (s : State) (policy : Policy) (d : Error.Diagnosis) : Step State :=
  let s' := { s.report (.failure d) with failures := s.failures + 1 }
  match policy s'.failures d with
  | some e => ⟨s'.events, .error (.error e)⟩
  | none => ⟨s'.events, .ok s'⟩

/-- The state after several failures. -/
def State.failAll (policy : Policy) : List Unmatched → State → Step State
  | [], s => ⟨s.events, .ok s⟩
  | u :: rest, s =>
      match s.fail policy ⟨u.position, u.text, none⟩ with
      | ⟨_, .ok s'⟩ => failAll policy rest s'
      | ⟨events, .error h⟩ => ⟨events, .error h⟩

/-- Crosses a gap, in which every line that is not blank is a failure. -/
def State.skip (s : State) (policy : Policy) (offset : Int) : Step State :=
  match s.marker.skip offset with
  | .error fault => ⟨s.events, .error (.range fault)⟩
  | .ok (unmatched, marker) => State.failAll policy unmatched { s with marker := marker }

/-- What a compilation is given. -/
structure Settings where
  grammar : Grammar
  policy : Policy
  /-- The tag of the rules defined at offset zero. A definition's rules bear this tag plus the
      offset of the definition. -/
  tag : Nat

/-- The rule of a definition, which must be accepted by the matcher and have a valid name. -/
def define (settings : Settings) (s : State) (node name value : Tree) :
    Except Halt (Rule × Registry) := do
  let c : Context :=
    ⟨settings.grammar, s.registry, s.marker, node.text.trim, settings.tag + node.offset.toNat⟩
  let rule ← readValue c value.text value.offset
  let _ ← lift rule.compile
  let registry ← lift (s.registry.set name.text (some rule))
  pure (rule, registry)

/-- The diagnosis of an error in a definition. An error without a position is placed at the name. -/
def diagnose (s : State) (node name : Tree) (e : Error) : Except RangeFault Error.Diagnosis :=
  match e.diagnosis? with
  | some d => .ok d
  | none =>
      match s.marker.locate name.offset with
      | .error fault => .error fault
      | .ok position => .ok ⟨position, node.text.trim, some e⟩

/-- Compiles a definition with its name and its value. -/
def readDefinition (settings : Settings) (s : State) (node name value : Tree) : Step State :=
  match define settings s node name value with
  | .ok (rule, registry) =>
      let s' := if (s.registry.get? name.text).isSome then s.report (.redefining name.text) else s
      match s.marker.locate name.offset with
      | .error fault => ⟨s'.events, .error (.range fault)⟩
      | .ok position =>
          let s'' :=
            { s' with registry := registry }.report
              (.defined name.text position.line rule.namedPattern)
          ⟨s''.events, .ok s''⟩
  | .error (.error e) =>
      match diagnose s node name e with
      | .error fault => ⟨s.events, .error (.range fault)⟩
      | .ok d => s.fail settings.policy d
  | .error h => ⟨s.events, .error h⟩

/-- Compiles a line. -/
def readLine (settings : Settings) (s : State) (node : Tree) : Step State :=
  match node.child? "comment" with
  | some comment =>
      match s.marker.locate comment.offset with
      | .error fault => ⟨s.events, .error (.range fault)⟩
      | .ok position =>
          let content := ((comment.child? "content").map Tree.text).getD []
          let s' := s.report (.comment position content)
          ⟨s'.events, .ok s'⟩
  | none =>
      match node.child? "ruleEntry" with
      | none => ⟨s.events, .ok s⟩
      | some definition =>
          match definition.child? "name", definition.child? "value" with
          | some name, some value => readDefinition settings s definition name value
          | _, _ =>
              match s.marker.locate definition.offset with
              | .error fault => ⟨s.events, .error (.range fault)⟩
              | .ok position =>
                  s.fail settings.policy ⟨position, definition.text.trim, none⟩

/-- Crosses the gap before a line, compiles the line and moves past it. -/
def readNode (settings : Settings) (s : State) (node : Tree) : Step State :=
  match s.skip settings.policy node.offset with
  | ⟨events, .error h⟩ => ⟨events, .error h⟩
  | ⟨_, .ok s'⟩ =>
      match readLine settings s' node with
      | ⟨events, .error h⟩ => ⟨events, .error h⟩
      | ⟨events, .ok s''⟩ =>
          match s''.marker.seek node.finish with
          | .error fault => ⟨events, .error (.range fault)⟩
          | .ok marker => ⟨events, .ok { s'' with marker := marker }⟩

/-- Compiles the lines that were found in a source, and what follows the last of them. -/
def readNodes (settings : Settings) (length : Nat) :
    List (Except Error Tree) → State → Step Registry
  | [], s =>
      match s.skip settings.policy length with
      | ⟨events, .error h⟩ => ⟨events, .error h⟩
      | ⟨events, .ok s'⟩ => ⟨events, .ok s'.registry⟩
  | .error e :: _, s => ⟨s.events, .error (.error (.within "grammar" e))⟩
  | .ok node :: rest, s =>
      match readNode settings s node with
      | ⟨events, .error h⟩ => ⟨events, .error h⟩
      | ⟨_, .ok s'⟩ => readNodes settings length rest s'

/-- Compiles a source over a registry. The events are in the order in which they came. -/
def compileWith (settings : Settings) (filename : Bytes) (base : Registry) (source : Bytes) :
    Step Registry :=
  let step :=
    readNodes settings source.length (settings.grammar.line.trees source)
      ⟨base, .start filename source, 0, []⟩
  ⟨step.events.reverse, step.result⟩

/-- What can be chosen for a compilation. -/
structure Options where
  filename : Bytes
  policy : Policy
  /-- The registry that the definitions may refer to, if one was named. -/
  base : Option (Option Registry)
  /-- The registry that holds the grammar, if it is not the grammar of definitions. -/
  grammar : Option Registry
  /-- A tag such that neither it nor any greater one is in use. -/
  tag : Nat

/-- Compiles a source. -/
def compile (options : Options) (source : Bytes) : Step Registry :=
  match options.base with
  | some none => ⟨[], .error (.error .missingBase)⟩
  | base =>
      match options.grammar.elim (.ok .bootstrap) Grammar.ofRegistry with
      | .error e => ⟨[], .error (.error e)⟩
      | .ok grammar =>
          compileWith ⟨grammar, options.policy, options.tag⟩ options.filename
            ((base.bind id).getD .empty) source

end Definition

end Rulebook
