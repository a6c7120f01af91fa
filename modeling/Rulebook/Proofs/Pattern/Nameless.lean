import Rulebook.Proofs.Pattern.Language
import Rulebook.Proofs.Pattern.Portion

/-!
# Patterns without names

The names of groups have no part in how a pattern is read: without them it is read to the same
expression without names, to the same shape, and at the same price (`Whole.nameless`).
-/

namespace Rulebook

namespace Pattern

namespace Token

/-- A token without the name of its group. -/
def nameless : Token → Token
  | capture _ => capture []
  | token => token

theorem names_map_nameless (tokens : List Token) :
    ∀ name ∈ names (tokens.map nameless), name = [] := by
  induction tokens with
  | nil => nofun
  | cons token rest ih =>
    cases token with
    | capture name => simpa [nameless, names] using ih
    | _ => exact ih

end Token

namespace Expr

/-- The expression without the names of its groups. -/
@[simp] def nameless : Expr → Expr
  | empty => empty
  | one set => one set
  | test condition => test condition
  | group index _ e => group index [] e.nameless
  | cat a b => cat a.nameless b.nameless
  | alt a b => alt a.nameless b.nameless
  | star greedy e => star greedy e.nameless
  | plus greedy e => plus greedy e.nameless
  | opt greedy e => opt greedy e.nameless
  | times min max greedy e => times min max greedy e.nameless

theorem countsWithin_nameless (e : Expr) (limit : Nat) :
    e.nameless.countsWithin limit = e.countsWithin limit := by
  induction e generalizing limit with
  | empty | one | test => rfl
  | group _ _ _ ih => simp [countsWithin, ih]
  | cat _ _ ih ih' => simp [countsWithin, ih, ih']
  | alt _ _ ih ih' => simp [countsWithin, ih, ih']
  | star _ _ ih => simp [countsWithin, ih]
  | plus _ _ ih => simp [countsWithin, ih]
  | opt _ _ ih => simp [countsWithin, ih]
  | times _ _ _ _ ih => simp [countsWithin, ih]

@[simp] theorem nullable_nameless (e : Expr) : e.nameless.nullable = e.nullable := by
  induction e with
  | empty | one | test => rfl
  | group _ _ _ ih => exact ih
  | cat _ _ ih ih' => simp only [nameless, nullable, ih, ih']
  | alt _ _ ih ih' => simp only [nameless, nullable, ih, ih']
  | star _ _ _ => rfl
  | plus _ _ ih => exact ih
  | opt _ _ _ => rfl
  | times _ _ _ _ ih => simp only [nameless, nullable, ih]

theorem nameless_repeated (count : Count) (greedy : Bool) (e : Expr) :
    (repeated count greedy e).nameless = repeated count greedy e.nameless := by
  cases count <;> rfl

theorem nameless_concat (es : List Expr) : (concat es).nameless = concat (es.map nameless) := by
  fun_induction concat es with
  | case1 => rfl
  | case2 => rfl
  | case3 e rest several ih =>
    cases rest with
    | nil => exact absurd rfl several
    | cons f rest =>
      simp only [List.map_cons] at ih ⊢
      simp [concat, ih]

theorem nameless_choice (es : List Expr) : (choice es).nameless = choice (es.map nameless) := by
  fun_induction choice es with
  | case1 => rfl
  | case2 => rfl
  | case3 e rest several ih =>
    cases rest with
    | nil => exact absurd rfl several
    | cons f rest =>
      simp only [List.map_cons] at ih ⊢
      simp [choice, ih]

@[simp] theorem language_nameless (e : Expr) : e.nameless.language = e.language := by
  induction e with
  | empty | one | test => rfl
  | group _ _ _ ih => simp only [nameless, language, ih]
  | cat _ _ ih ih' => simp only [nameless, language, ih, ih']
  | alt _ _ ih ih' => simp only [nameless, language, ih, ih']
  | star _ _ ih => simp only [nameless, language, ih]
  | plus _ _ ih => simp only [nameless, language, ih]
  | opt _ _ ih => simp only [nameless, language, ih]
  | times _ _ _ _ ih => simp only [nameless, language, ih]

end Expr

/-! ### Reading -/

/-- A layer without the names of groups. -/
def Layer.nameless (l : Layer) : Layer :=
  { l with
    name := l.name.map fun _ => []
    finished := l.finished.map Expr.nameless
    exprs := l.exprs.map Expr.nameless }

namespace Sketch

/-- A sketch without the names of groups. -/
def nameless (s : Sketch) : Sketch :=
  { s with top := s.top.nameless, outer := s.outer.map Layer.nameless }

variable (s : Sketch)

theorem push_nameless (expr : Expr) (shape : Shape) :
    s.nameless.push expr.nameless shape = (s.push expr shape).map nameless := by
  rw [push, push, ← within_map]
  rfl

theorem endAlternative_nameless : s.nameless.endAlternative = s.endAlternative.map nameless := by
  rw [endAlternative, endAlternative, ← within_map]
  simp [nameless, Layer.nameless, body, Expr.nameless_concat]

theorem finish_nameless : s.nameless.finish = s.finish.map (Prod.map Expr.nameless id) := by
  rw [finish, finish, endAlternative_nameless]
  cases s.endAlternative with
  | none => rfl
  | some next =>
    simp only [Option.map_some]
    rw [← within_map]
    simp [nameless, Layer.nameless, Expr.nameless_choice]

theorem close_nameless (name : Option Bytes) (expr : Expr) (shape : Shape) :
    close (name.map fun _ => []) expr.nameless shape s.nameless =
      (close name expr shape s).map nameless := by
  cases name with
  | none => exact push_nameless s expr shape
  | some name => exact push_nameless s (.group 0 name expr) (.captured 0 shape)

theorem leave_nameless : s.nameless.leave = s.leave.map nameless := by
  rw [leave, leave, finish_nameless]
  cases s.finish with
  | none => rfl
  | some parts =>
    obtain ⟨flags, top, outer, last⟩ := s
    cases outer with
    | nil => rfl
    | cons layer outer => exact close_nameless ⟨top.flags, layer, outer, []⟩ top.name _ _

theorem repeatLast_nameless (count : Count) (marked : Bool) (text : Bytes) :
    s.nameless.repeatLast count marked text = (s.repeatLast count marked text).map nameless := by
  obtain ⟨flags, ⟨name, back, finished, exprs, choices, parts⟩, outer, last⟩ := s
  cases exprs with
  | nil => cases parts <;> cases last <;> rfl
  | cons body before =>
    cases parts with
    | nil => cases last <;> rfl
    | cons part others =>
      have fits : Reading.countsFit count (.repeated count (marked == flags.lazy) body.nameless) =
          Reading.countsFit count (.repeated count (marked == flags.lazy) body) := by
        rw [← Expr.nameless_repeated]
        cases count with
        | times => exact Expr.countsWithin_nameless _ _
        | _ => rfl
      simp only [repeatLast, nameless, Layer.nameless, List.map_cons, fits]
      split
      · rfl
      · split
        · rw [← within_map]
          simp [nameless, Layer.nameless, Expr.nameless_repeated]
        · rfl

theorem step_nameless (token : Token) :
    s.nameless.step token.nameless = (s.step token).map nameless := by
  cases token with
  | char code => exact push_nameless s (.char s.flags.fold code) _
  | set items negated => exact push_nameless s (.one _) _
  | dot => exact push_nameless s (.dot s.flags.dotAll) _
  | caret => exact push_nameless s (.test _) _
  | dollar => exact push_nameless s (.test _) _
  | test condition => exact push_nameless s (.test condition) _
  | capture name => rfl
  | enclose changes => rfl
  | change changes => rfl
  | close => exact leave_nameless s
  | bar => exact endAlternative_nameless s
  | repeated count marked text => exact repeatLast_nameless s count marked text

theorem run_nameless (tokens : List Token) :
    s.nameless.run (tokens.map Token.nameless) = (s.run tokens).map nameless := by
  induction tokens generalizing s with
  | nil => rfl
  | cons token rest ih =>
    rw [List.map_cons, run, run, step_nameless]
    cases s.step token with
    | none => rfl
    | some next => exact ih next

/-- A pattern without names is read to the same expression without names, and the same shape. -/
theorem read_nameless (tokens : List Token) :
    read (tokens.map Token.nameless) = (read tokens).map (Prod.map Expr.nameless id) := by
  have run := run_nameless start tokens
  rw [show start.nameless = start from rfl] at run
  rw [read, read, run]
  cases start.run tokens with
  | none => rfl
  | some s =>
    simp only [Option.map_some, nameless, List.isEmpty_map]
    split
    · exact finish_nameless s
    · rfl

/-! ### Prices -/

theorem finishPrice_nameless : s.nameless.finishPrice = s.finishPrice := by
  rw [finishPrice, finishPrice, endAlternative_nameless]
  cases s.endAlternative <;> rfl

theorem price_nameless (token : Token) : s.nameless.price token.nameless = s.price token := by
  cases token with
  | close =>
    simp only [Token.nameless, price, finishPrice_nameless, finish_nameless]
    cases s.finish with
    | none => rfl
    | some parts =>
      simp only [Option.map_some, nameless, Layer.nameless, Prod.map]
      cases s.top.name <;> rfl
  | repeated count marked text => cases count <;> rfl
  | _ => rfl

theorem bill_nameless (tokens : List Token) :
    s.nameless.bill (tokens.map Token.nameless) = s.bill tokens := by
  induction tokens generalizing s with
  | nil => rfl
  | cons token rest ih =>
    simp only [List.map_cons, bill, price_nameless, step_nameless]
    cases s.step token with
    | none => rfl
    | some next => simp only [Option.map_some, Option.bind_eq_bind, Option.bind_some, ih]

theorem readPrice_nameless (tokens : List Token) :
    readPrice (tokens.map Token.nameless) = readPrice tokens := by
  have run := run_nameless start tokens
  have bill := bill_nameless start tokens
  rw [show start.nameless = start from rfl] at run bill
  rw [readPrice, readPrice, run, bill]
  cases start.run tokens with
  | none => rfl
  | some s => simp only [Option.map_some, Option.bind_eq_bind, Option.bind_some,
      finishPrice_nameless]

end Sketch

/-- What is read to an expression is read without names to the expression without names. -/
theorem Read.nameless {tokens : List Token} {e : Expr} {shape : Shape} {p : Price}
    (h : Read tokens e shape p) : Read (tokens.map Token.nameless) e.nameless shape p where
  read := by
    rw [Sketch.read_nameless, h.read]
    rfl
  price := (Sketch.readPrice_nameless tokens).trans h.price

theorem Whole.nameless {tokens : List Token} {e : Expr} {h l c : Nat}
    (whole : Whole tokens e h l c) : Whole (tokens.map Token.nameless) e.nameless h l c := by
  obtain ⟨shape, p, read, bounds⟩ := whole
  exact ⟨shape, p, read.nameless, bounds⟩

/-- A group that does not capture around one that does, without names. -/
theorem Block.nameless {tokens : List Token} {e : Expr} {h c : Nat} (block : Block tokens e h c)
    (fits : h ≤ maxHeight) :
    Block (.enclose [] :: (tokens.map Token.nameless ++ [Token.close])) e.nameless h (c + 2) := by
  obtain ⟨part, p, adds, sealed, calm, within⟩ := block
  have plain := sealed.isCounted
  have height := Nat.le_trans calm.height fits
  have read := adds.read (by rwa [sequence_single]) (by rwa [sequence_single])
  rw [sequence_single, sealed.clean, sealed.asString, sealed.listed] at read
  have read := read.nameless.enclosed plain height
  rw [sealed.asString, sealed.listed] at read
  refine ⟨part, _, read, sealed, calm, ⟨?_, ?_⟩⟩
  · have := within.made
    simp only [Price.made_add]
    omega
  · have := within.listed
    simp only [Price.listed_add]
    omega

end Pattern

end Rulebook
