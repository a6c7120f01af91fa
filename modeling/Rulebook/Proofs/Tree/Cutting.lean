import Rulebook.Proofs.Pattern.Munching
import Rulebook.Proofs.Tree.Ready
import Rulebook.Proofs.Tree.Recognition

/-!
# How a rule cuts a text

A search for all matches of an expression cuts a text into the words that the expression takes and the
gaps between them where it takes nothing (`Pattern.Expr.Cuts`). The nodes of a rule that the matcher
accepts stand where the words are (`Rule.Ready.laid_nodes`).
-/

namespace Rulebook

open Pattern Bytes

namespace Pattern

namespace Expr

/-- True of an expression that cuts a text into words, each with the gap before it: in a gap the
    expression takes nothing, and after it the whole word. -/
inductive Cuts (e : Expr) : List Scalar → List (List Scalar × List Scalar) → Prop where
  | done : e.Refuses [] → Cuts e [] []
  | next {gap word rest : List Scalar} {cuts : List (List Scalar × List Scalar)} :
      (∀ tail, tail <:+ gap → tail ≠ [] → e.Refuses (tail ++ (word ++ rest))) → word ≠ [] →
      e.Munches word rest → Cuts e rest cuts → Cuts e (gap ++ (word ++ rest)) ((gap, word) :: cuts)

variable {e e' : Expr} {w word rest : List Scalar} {cuts : List (List Scalar × List Scalar)}

/-- A word without a gap before it. -/
theorem Cuts.here (full : word ≠ []) (taken : e.Munches word rest) (later : e.Cuts rest cuts) :
    e.Cuts (word ++ rest) (([], word) :: cuts) := by
  have ahead : ∀ tail, tail <:+ ([] : List Scalar) → tail ≠ [] → e.Refuses (tail ++ (word ++ rest)) :=
    fun _ sub some_char => absurd (List.suffix_nil.1 sub) some_char
  exact .next ahead full taken later

theorem Cuts.of_ends_eq (same : e.ends = e'.ends) (h : e.Cuts w cuts) : e'.Cuts w cuts := by
  have refuses (rest : List Scalar) : e.Refuses rest ↔ e'.Refuses rest := by
    simp only [Refuses, same]
  have munches (word rest : List Scalar) : e.Munches word rest ↔ e'.Munches word rest := by
    simp only [Munches, same]
  induction h with
  | done stop => exact .done ((refuses _).1 stop)
  | next skipped full taken _ ih =>
    exact .next (fun tail sub some_char => (refuses _).1 (skipped tail sub some_char)) full
      ((munches _ _).1 taken) ih

end Expr

namespace Program

variable {e : Expr} {c : Cursor} {gap word rest : List Scalar}

theorem preferred_of_refuses (refused : e.Refuses c.rest) : preferred e c = none := by
  rw [preferred, refused c rfl]
  rfl

theorem findSome?_onward_nil {α : Type} {f : Cursor → Option α} (ended : c.rest = []) :
    c.onward.findSome? f = f c := by
  obtain ⟨before, offset, text⟩ := c
  cases ended
  exact List.findSome?_singleton

theorem findSome?_onward_cons {α : Type} {f : Cursor → Option α} {s : Scalar}
    (here : c.rest = s :: rest) :
    c.onward.findSome? f = (f c).or ((c.past s rest).onward.findSome? f) := by
  obtain ⟨before, offset, text⟩ := c
  cases here
  rw [Cursor.onward, Cursor.along, List.findSome?_cons]
  cases f ⟨before, offset, s :: rest⟩ <;> rfl

theorem findSome?_onward_of_some {α : Type} {f : Cursor → Option α} {a : α} (found : f c = some a) :
    c.onward.findSome? f = some a := by
  cases here : c.rest with
  | nil => rw [findSome?_onward_nil here, found]
  | cons s rest => rw [findSome?_onward_cons here, found, Option.some_or]

/-- What a search finds after a gap. By induction on the gap. -/
theorem findSome?_preferred (taken : e.Munches word rest)
    (skipped : ∀ tail, tail <:+ gap → tail ≠ [] → e.Refuses (tail ++ (word ++ rest)))
    (here : c.rest = gap ++ (word ++ rest)) :
    c.onward.findSome? (preferred e) =
      some (c.offset + (ofScalars gap).length, c.advance (gap ++ word) rest) := by
  induction gap generalizing c with
  | nil =>
    refine findSome?_onward_of_some ?_
    rw [preferred, taken c here]
    rfl
  | cons s gap ih =>
    have none : preferred e c = none :=
      preferred_of_refuses (here ▸ skipped _ List.suffix_rfl (List.cons_ne_nil _ _))
    have later := ih (c := c.past s (gap ++ (word ++ rest)))
      (fun tail sub => skipped tail (sub.trans (List.suffix_cons ..))) rfl
    rw [List.cons_append] at here
    rw [findSome?_onward_cons here, none, Option.none_or, later, List.cons_append,
      Cursor.advance_cons, ofScalars_cons, List.length_append, ← Nat.add_assoc, List.append_assoc]
    rfl

/-- A list of matches starts with what is found, if that is not empty. -/
theorem Lists.exists_cons {p : Program} {last : Option Nat} {fs : List Found} {f : Found}
    (lists : Lists p last c fs) (found : p.find? c = some f) (further : f.finish ≠ c.offset) :
    ∃ later, fs = f :: later ∧ Lists p (some f.finish) f.stop later := by
  cases lists with
  | none found' =>
    rw [found] at found'
    cases found'
  | ended found' here | empty found' here =>
    cases found.symm.trans found'
    exact absurd here further
  | full found' _ later =>
    cases found.symm.trans found'
    exact ⟨_, rfl, later⟩

/-- What a search finds first in a text that is cut. -/
theorem find?_of_cuts (steady : e.isSteady = true) (wide : ∀ s ∈ c.rest, 0 < s.width)
    (taken : e.Munches word rest)
    (skipped : ∀ tail, tail <:+ gap → tail ≠ [] → e.Refuses (tail ++ (word ++ rest)))
    (here : c.rest = gap ++ (word ++ rest)) :
    ∃ f, (ofExpr e).find? c = some f ∧ f.start = c.offset + (ofScalars gap).length ∧
      f.stop = c.advance (gap ++ word) rest := by
  have found := find?_eq_ends steady wide
  rw [findSome?_preferred taken skipped here] at found
  obtain ⟨f, found, extent⟩ := Option.map_eq_some_iff.1 found
  obtain ⟨start, stop⟩ := Prod.mk.inj extent
  exact ⟨f, found, start, stop⟩

theorem find?_eq_none_of_refuses (steady : e.isSteady = true) (ended : c.rest = [])
    (stop : e.Refuses []) : (ofExpr e).find? c = none := by
  have found := find?_eq_ends (c := c) steady (by rw [ended]; nofun)
  rw [findSome?_onward_nil ended, preferred_of_refuses (ended ▸ stop)] at found
  exact Option.map_eq_none_iff.1 found

end Program

end Pattern

namespace Bytes

theorem ofScalars_flatten (ws : List (List Scalar)) : ofScalars ws.flatten = (ws.map ofScalars).flatten := by
  induction ws with
  | nil => rfl
  | cons w ws ih => rw [List.flatten_cons, ofScalars_append, ih, List.map_cons, List.flatten_cons]

end Bytes

namespace Rule

/-- True of trees that stand where the words are into which a text is cut that starts at an offset. -/
inductive Laid : Nat → List (List Scalar × List Scalar) → List Tree → Prop where
  | nil {offset : Nat} : Laid offset [] []
  | cons {offset : Nat} {gap word : List Scalar} {cuts : List (List Scalar × List Scalar)} {t : Tree}
      {trees : List Tree} : t.offset = (offset + (ofScalars gap).length : Nat) → t.text.scalars = word →
      Laid (offset + (ofScalars gap).length + (ofScalars word).length) cuts trees →
      Laid offset ((gap, word) :: cuts) (t :: trees)

/-- The texts of the trees are the words. -/
theorem Laid.map_scalars {offset : Nat} {cuts : List (List Scalar × List Scalar)} {trees : List Tree}
    (h : Laid offset cuts trees) : trees.map (·.text.scalars) = cuts.map Prod.snd := by
  induction h with
  | nil => rfl
  | cons _ text _ ih => rw [List.map_cons, List.map_cons, text, ih]

/-- After the first gap the first word stands where the text starts. -/
theorem Laid.skip {offset : Nat} {gap word : List Scalar} {cuts : List (List Scalar × List Scalar)}
    {trees : List Tree} (h : Laid offset ((gap, word) :: cuts) trees) :
    Laid (offset + (ofScalars gap).length) (([], word) :: cuts) trees := by
  cases h with
  | cons place text later => exact .cons place text later

/-- The nodes of the matches of an expression stand where the words are into which it cuts the text. By
    induction on the words. -/
theorem laid_of_cuts {r : Rule} {regex : Regex} {e : Expr} (steady : e.isSteady = true) {text : Bytes}
    {c : Cursor} (onward : c ∈ (Cursor.start text).onward) {w : List Scalar} (here : c.rest = w)
    {cuts : List (List Scalar × List Scalar)} (cut : e.Cuts w cuts) {last : Option Nat}
    {fs : List Program.Found} (lists : Program.Lists (Program.ofExpr e) last c fs) {trees : List Tree}
    (nodes : List.Forall₂ (fun f t => NodeOf r regex f text 0 t) fs trees) :
    Laid c.offset cuts trees := by
  induction cut generalizing c last fs trees with
  | done stop =>
    have none := Program.find?_eq_none_of_refuses steady here stop
    cases lists with
    | none =>
      cases nodes
      exact .nil
    | ended found | empty found | full found =>
      rw [none] at found
      cases found
  | @next gap word rest cuts skipped full taken _ ih =>
    have wide : ∀ s ∈ c.rest, 0 < s.width := fun s mem => by
      obtain ⟨before, split, -⟩ := Cursor.mem_onward.1 onward
      have whole : text.scalars = before ++ c.rest := split
      exact wide_scalars text s (whole ▸ List.mem_append_right before mem)
    obtain ⟨f, found, start, stop⟩ := Program.find?_of_cuts steady wide taken skipped here
    have split : c.rest = gap ++ (c.advance gap (word ++ rest)).rest := here
    have place := Cursor.onward_trans onward (Cursor.advance_mem_onward split)
    have stop' : f.stop = (c.advance gap (word ++ rest)).advance word f.stop.rest := by
      rw [stop, Cursor.rest_advance, Cursor.advance_advance]
    have rest_eq : f.stop.rest = rest := by rw [stop, Cursor.rest_advance]
    have finish : f.finish = c.offset + (ofScalars gap).length + (ofScalars word).length := by
      rw [Program.Found.finish, stop', Cursor.offset_advance, Cursor.offset_advance]
    have long : 0 < (ofScalars word).length := by
      obtain ⟨s, more, rfl⟩ := List.exists_cons_of_ne_nil full
      have := wide s (by rw [here]; simp)
      simp only [ofScalars_cons, List.length_append]
      rw [Scalar.width] at this
      omega
    obtain ⟨later, rfl, others⟩ := lists.exists_cons found (by omega)
    obtain ⟨t, trees, node, built, rfl⟩ := List.forall₂_cons_left_iff.1 nodes
    refine .cons ?_ ?_ ?_
    · rw [node.offset_eq, start, Nat.zero_add]
    · rw [node.text_eq, start]
      exact scalars_slice place (by rw [rest_eq]; rfl) stop'
    · have := ih (Cursor.onward_trans onward (Program.stop_mem_onward found)) rest_eq others built
      rwa [← Program.Found.finish, finish] at this

/-- The nodes of a rule stand where the words are into which the rule cuts a text. -/
theorem Ready.laid_nodes {r : Rule} (ready : Ready r) (kind : r.kind ≠ .regex)
    (steady : r.expr.isSteady = true) {text : Bytes} {cuts : List (List Scalar × List Scalar)}
    (cut : r.expr.Cuts text.scalars cuts) : Laid 0 cuts (r.nodes text) := by
  obtain ⟨c, compiled⟩ := ready.accepted
  have nodes := ready.forall₂_nodes compiled text
  rw [Regex.findAll, (ready.sound.lead_none kind compiled).1, (ready.sound.searches compiled).search]
    at nodes
  exact laid_of_cuts ((Expr.isSteady_numberFrom ..).trans steady) (Cursor.self_mem_onward _) rfl
    (cut.of_ends_eq (Expr.ends_numberFrom r.expr 1).symm) (Program.lists_findAll _ _ _) nodes

end Rule

end Rulebook
