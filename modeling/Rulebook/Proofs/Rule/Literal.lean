import Rulebook.Proofs.Rule.Combining
import Rulebook.Proofs.Tree.Cutting

/-!
# Texts are searched as they stand

A sequence of texts is found where the text stands that they make up, and nowhere else: its nodes are
those that a naive scan finds (`Rule.parse_textSeq`). The pattern escapes what has a meaning and may be
cut inside a character, but it is read to the characters of the whole text. The scan goes from byte to
byte and the matcher from character to character: both find the same, because a text in UTF-8 does not
start inside a character.
-/

namespace Rulebook

open Pattern

namespace Scalar

/-- The first byte of a character is not one that goes on with a character, and all others are. -/
theorem Form.tails {a : UInt8} {more : Bytes} {n : Nat} (h : Form (a :: more) n) :
    ¬ IsTail a ∧ ∀ b ∈ more, IsTail b := by
  generalize eq : a :: more = bytes at h
  cases h with
  | one low =>
    cases eq
    exact ⟨fun tail => absurd tail.1 (by omega), List.forall_mem_nil _⟩
  | two low high hb =>
    cases eq
    exact ⟨fun tail => absurd tail.2 (by omega), List.forall_mem_singleton.2 hb⟩
  | three low high hb hc =>
    cases eq
    exact ⟨fun tail => absurd tail.2 (by omega), by simpa using ⟨hb, hc⟩⟩
  | four low high hb hc hd =>
    cases eq
    exact ⟨fun tail => absurd tail.2 (by omega), by simpa using ⟨hb, hc, hd⟩⟩

end Scalar

namespace Bytes

open Scalar (IsTail Form)

/-! ### The naive scan -/

/-- Where a text that is not empty stands in another one: it is tried at every byte, after skipping
    some bytes, and where it stands the scan goes on after it. -/
def scanFor (t : Bytes) : Nat → Nat → Bytes → List Nat
  | _, _, [] => []
  | o, skip + 1, _ :: rest => scanFor t (o + 1) skip rest
  | o, 0, b :: rest =>
      if t.isPrefixOf (b :: rest) then o :: scanFor t (o + 1) (t.length - 1) rest
      else scanFor t (o + 1) 0 rest

/-- Where the characters of a text start that starts at an offset, and where it ends. -/
def starts : Nat → List Scalar → List Nat
  | o, [] => [o]
  | o, s :: rest => o :: starts (o + s.width) rest

/-- Where a text stands in another one. The empty text stands before every character and at the
    end. -/
def occurrences (t s : Bytes) : List Nat := if t.isEmpty then starts 0 s.scalars else scanFor t 0 0 s

variable {t : Bytes}

theorem scanFor_skip (t u v : Bytes) (o : Nat) :
    scanFor t o u.length (u ++ v) = scanFor t (o + u.length) 0 v := by
  induction u generalizing o with
  | nil => rfl
  | cons b u ih =>
    rw [List.length_cons, List.cons_append, scanFor, ih, Nat.add_right_comm]
    rfl

/-- Where the text stands, the scan goes on after it. -/
theorem scanFor_here (full : t ≠ []) (o : Nat) (v : Bytes) :
    scanFor t o 0 (t ++ v) = o :: scanFor t (o + t.length) 0 v := by
  cases t with
  | nil => exact absurd rfl full
  | cons b t =>
    have stands : (b :: t).isPrefixOf (b :: (t ++ v)) = true :=
      List.isPrefixOf_iff_prefix.2 (List.prefix_append (b :: t) v)
    rw [List.cons_append, scanFor, if_pos stands, List.length_cons, Nat.add_sub_cancel, scanFor_skip,
      Nat.add_right_comm]
    rfl

/-- Where the text does not stand, the scan goes on at the next byte. -/
theorem scanFor_pass {b : UInt8} {v : Bytes} (fails : ¬ t <+: b :: v) (o : Nat) :
    scanFor t o 0 (b :: v) = scanFor t (o + 1) 0 v := by
  rw [scanFor, if_neg (by rwa [List.isPrefixOf_iff_prefix])]

/-- A text in UTF-8 does not start inside a character, so the scan goes on after the character. -/
theorem scanFor_tails (full : t ≠ []) (valid : t.isUtf8 = true) {u : Bytes} (tails : ∀ b ∈ u, IsTail b)
    (o : Nat) (v : Bytes) : scanFor t o 0 (u ++ v) = scanFor t (o + u.length) 0 v := by
  have lead : ∀ b ∈ t.head?, ¬ IsTail b := by
    cases t with
    | nil => exact absurd rfl full
    | cons a rest =>
      rw [isUtf8, scalars_cons, List.all_cons, Bool.and_eq_true, Bool.not_eq_true'] at valid
      have form := Scalar.form_ofHead valid.1
      rw [(Scalar.bytes_ofHead a rest).1] at form
      intro b mem
      cases mem
      exact form.tails.1
  induction u generalizing o with
  | nil => rfl
  | cons b u ih =>
    rcases List.forall_mem_cons.1 tails with ⟨tail, others⟩
    have fails : ¬ t <+: b :: (u ++ v) := by
      rintro ⟨more, eq⟩
      cases t with
      | nil => exact full rfl
      | cons a rest =>
        rcases List.cons.inj eq with ⟨rfl, -⟩
        exact lead a rfl tail
    rw [List.cons_append, scanFor_pass fails, ih others, List.length_cons, Nat.add_right_comm]
    rfl

/-- Where the text does not stand at the start of a character, the scan goes on after the character. -/
theorem scanFor_past (full : t ≠ []) (valid : t.isUtf8 = true) {x : Scalar} (form : Form x.bytes x.code)
    {rest : List Scalar} (fails : ¬ t <+: ofScalars (x :: rest)) (o : Nat) :
    scanFor t o 0 (ofScalars (x :: rest)) = scanFor t (o + x.width) 0 (ofScalars rest) := by
  rw [ofScalars_cons] at fails ⊢
  rw [Scalar.width]
  cases bytes : x.bytes with
  | nil =>
    rw [bytes] at form
    cases form
  | cons a more =>
    rw [bytes] at form fails
    have inside := scanFor_tails full valid form.tails.2 (o + 1) (ofScalars rest)
    rw [Nat.add_right_comm] at inside
    exact (scanFor_pass fails o).trans inside

/-- The text stands where the scan finds it. By induction on the text that is scanned. -/
theorem prefix_of_mem_scanFor {skip o o' : Nat} {s : Bytes} (mem : o' ∈ scanFor t o skip s) :
    o ≤ o' ∧ t <+: s.drop (o' - o) := by
  -- a place further on, seen from the byte before
  have step {o : Nat} {b : UInt8} {rest : Bytes} (later : o + 1 ≤ o' ∧ t <+: rest.drop (o' - (o + 1))) :
      o ≤ o' ∧ t <+: (b :: rest).drop (o' - o) := by
    rcases later with ⟨le, stands⟩
    rw [show o' - o = o' - (o + 1) + 1 by omega, List.drop_succ_cons]
    exact ⟨by omega, stands⟩
  induction s generalizing skip o with
  | nil =>
    rw [scanFor] at mem
    cases mem
  | cons b rest ih =>
    cases skip with
    | succ skip =>
      rw [scanFor] at mem
      exact step (ih mem)
    | zero =>
      rw [scanFor] at mem
      split at mem
      case isTrue stands =>
        rcases List.mem_cons.1 mem with rfl | mem
        · rw [Nat.sub_self, List.drop_zero]
          exact ⟨Nat.le_refl _, List.isPrefixOf_iff_prefix.1 stands⟩
        · exact step (ih mem)
      case isFalse => exact step (ih mem)

theorem slice_of_mem_occurrences {s : Bytes} {o : Nat} (mem : o ∈ occurrences t s) :
    s.slice o (o + t.length) = t := by
  rw [slice, Nat.add_sub_cancel_left]
  rw [occurrences] at mem
  split at mem
  case isTrue none =>
    rw [List.isEmpty_iff.1 none]
    exact List.take_zero
  case isFalse =>
    rcases prefix_of_mem_scanFor mem with ⟨-, stands⟩
    exact (List.prefix_iff_eq_take.1 stands).symm

/-- A text stands once in itself. -/
theorem occurrences_self (t : Bytes) : occurrences t t = [0] := by
  cases t with
  | nil => rfl
  | cons b t =>
    have here := scanFor_here (t := b :: t) (List.cons_ne_nil _ _) 0 []
    rw [List.append_nil] at here
    exact here

/-- True of characters that some text in UTF-8 consists of. -/
def IsWritten (l : List Scalar) : Prop := ∃ u : Bytes, u.isUtf8 = true ∧ u.scalars = l

namespace IsWritten

variable {l l' : List Scalar}

theorem legible (h : IsWritten l) : Legible l := by
  rcases h with ⟨u, -, rfl⟩
  exact legible_scalars u

theorem forms (h : IsWritten l) : ∀ x ∈ l, Form x.bytes x.code := by
  rcases h with ⟨u, valid, rfl⟩
  exact form_of_mem_scalars valid

theorem wide (h : IsWritten l) : ∀ x ∈ l, 0 < x.width := by
  rcases h with ⟨u, -, rfl⟩
  exact wide_scalars u

theorem right (h : IsWritten (l ++ l')) : IsWritten l' := by
  have legible' : (ofScalars l').scalars = l' := legible_of_append_right h.legible
  refine ⟨ofScalars l', ?_, legible'⟩
  rcases h with ⟨u, valid, split⟩
  rw [isUtf8, split, List.all_append, Bool.and_eq_true] at valid
  rw [isUtf8, legible']
  exact valid.2

end IsWritten

/-- Characters with the code points of a text in UTF-8 are written as the text. -/
theorem ofScalars_eq_of_codes {w : List Scalar} (valid : t.isUtf8 = true)
    (forms : ∀ x ∈ w, Form x.bytes x.code) (codes : w.map Scalar.code = t.scalars.map Scalar.code) :
    ofScalars w = t := by
  have forms' := form_of_mem_scalars valid
  rw [← ofScalars_scalars t]
  generalize t.scalars = ys at *
  induction w generalizing ys with
  | nil =>
    cases List.map_eq_nil_iff.1 codes.symm
    rfl
  | cons x w ih =>
    rcases List.map_eq_cons_iff.1 codes.symm with ⟨y, ys, rfl, code, rest⟩
    rcases List.forall_mem_cons.1 forms with ⟨here, others⟩
    rcases List.forall_mem_cons.1 forms' with ⟨here', others'⟩
    rw [← code] at here
    rw [ofScalars_cons, ofScalars_cons, here.unique here', ih others ys rest.symm others']

end Bytes

namespace Pattern

open Bytes (IsWritten ofScalars scanFor starts)
open Scalar (Form)

namespace Expr

/-- True of an expression that takes the characters of a text and nothing else. -/
structure IsText (e : Expr) (t : Bytes) : Prop where
  takes : ∀ {w rest : List Scalar}, w.map Scalar.code = t.scalars.map Scalar.code → e.Munches w rest
  refuses : ∀ {rest : List Scalar},
    (∀ w more, w.map Scalar.code = t.scalars.map Scalar.code → w ++ more ≠ rest) → e.Refuses rest

variable {a b e : Expr} {t : Bytes}

theorem IsText.of_ends_eq (h : a.IsText t) (same : b.ends = a.ends) : b.IsText t where
  takes codes c here := by
    rw [same]
    exact h.takes codes c here
  refuses none c here := by
    rw [same]
    exact h.refuses none c here

/-- An expression for a text takes the text where it stands, and nothing where it does not. -/
theorem IsText.takes_or_refuses (h : e.IsText t) (valid : t.isUtf8 = true) {rest : List Scalar}
    (written : IsWritten rest) :
    (∃ w more, rest = w ++ more ∧ ofScalars w = t ∧ e.Munches w more) ∨
      e.Refuses rest ∧ ¬ t <+: ofScalars rest := by
  by_cases stands : ∃ w more, w.map Scalar.code = t.scalars.map Scalar.code ∧ w ++ more = rest
  · rcases stands with ⟨w, more, codes, rfl⟩
    have forms : ∀ x ∈ w, Form x.bytes x.code := by
      intro x mem
      exact written.forms x (List.mem_append_left more mem)
    exact .inl ⟨w, more, rfl, Bytes.ofScalars_eq_of_codes valid forms codes, h.takes codes⟩
  · refine .inr ⟨?_, ?_⟩
    · apply h.refuses
      intro w more codes split
      exact stands ⟨w, more, codes, split⟩
    · rintro ⟨more, eq⟩
      have chars : t.scalars ++ Bytes.scalars more = rest := by
        rw [← Bytes.scalars_append_of_isUtf8 valid, eq]
        exact written.legible
      exact stands ⟨t.scalars, Bytes.scalars more, rfl, chars⟩

end Expr

namespace Program

variable {e : Expr} {t : Bytes} {c d : Cursor} {start : Nat}

/-! ### What a search finds -/

/-- What a search for a text comes to at a place: nothing if the naive scan finds nothing, or else the
    first place that the scan finds. -/
def Scanned (t : Bytes) (c : Cursor) : Option (Nat × Cursor) → Prop
  | none => scanFor t c.offset 0 (ofScalars c.rest) = []
  | some (start, d) =>
      c.offset ≤ start ∧ d.offset = start + t.length ∧ (∃ taken, c.rest = taken ++ d.rest) ∧
        scanFor t c.offset 0 (ofScalars c.rest) =
          start :: scanFor t d.offset 0 (ofScalars d.rest)

theorem scanned_here (full : t ≠ []) {w more : List Scalar} (split : c.rest = w ++ more)
    (bytes : ofScalars w = t) (taken : e.Munches w more) :
    Scanned t c (c.onward.findSome? (preferred e)) := by
  have here : preferred e c = some (c.offset, c.advance w more) := by
    rw [preferred, taken c split]
    rfl
  rw [findSome?_onward_of_some here]
  refine ⟨Nat.le_refl _, ?_, ⟨w, ?_⟩, ?_⟩
  · rw [Cursor.offset_advance, bytes]
  · rw [Cursor.rest_advance, split]
  · rw [Cursor.offset_advance, Cursor.rest_advance, split, Bytes.ofScalars_append, bytes,
      Bytes.scanFor_here full]

/-- The first place where an expression for a text takes it is the first one of the naive scan. By
    induction on the characters that are left. -/
theorem scanned_preferred (text : e.IsText t) (full : t ≠ []) (valid : t.isUtf8 = true)
    (written : IsWritten c.rest) : Scanned t c (c.onward.findSome? (preferred e)) := by
  induction left : c.rest generalizing c with
  | nil =>
    rcases text.takes_or_refuses valid written with ⟨w, more, split, bytes, taken⟩ | ⟨stop, -⟩
    · exact scanned_here full split bytes taken
    · rw [findSome?_onward_nil left, preferred_of_refuses stop, Scanned, left]
      rfl
  | cons s rest ih =>
    rcases text.takes_or_refuses valid written with ⟨w, more, split, bytes, taken⟩ | ⟨stop, fails⟩
    · exact scanned_here full split bytes taken
    rw [findSome?_onward_cons left, preferred_of_refuses stop, Option.none_or]
    rw [left] at written fails
    have later := ih (c := c.past s rest) (IsWritten.right (l := [s]) written) rfl
    have skipped :=
      Bytes.scanFor_past full valid (written.forms s (List.mem_cons_self ..)) fails c.offset
    cases found : (c.past s rest).onward.findSome? (preferred e) with
    | none =>
      rw [found] at later
      rw [Scanned, left, skipped]
      exact later
    | some extent =>
      rw [found] at later
      rcases later with ⟨after, stop', ⟨taken, split⟩, scanned⟩
      refine ⟨Nat.le_trans (Nat.le_add_right ..) after, stop', ⟨s :: taken, ?_⟩, ?_⟩
      · rw [left, List.cons_append, ← split]
        rfl
      · rw [left, skipped]
        exact scanned

/-! ### All that is found -/

/-- Where a match starts and ends. -/
def Found.span (f : Found) : Nat × Nat := (f.start, f.finish)

section

variable (steady : e.isSteady = true) (text : e.IsText t)

include steady text

/-- The matches of a text are the places that the naive scan finds. By induction on the matches: none of
    them is empty, so each search goes on where the last match ended. -/
theorem Lists.spans_scanFor (full : t ≠ []) (valid : t.isUtf8 = true) {last : Option Nat}
    {fs : List Found} (lists : Lists (ofExpr e) last c fs) (written : IsWritten c.rest) :
    fs.map Found.span =
      (scanFor t c.offset 0 (ofScalars c.rest)).map fun o => (o, o + t.length) := by
  have first {c : Cursor} (written : IsWritten c.rest) :
      Scanned t c (((ofExpr e).find? c).map Found.extent) := by
    rw [find?_eq_ends steady written.wide]
    exact scanned_preferred text full valid written
  have long : 0 < t.length := List.length_pos_iff.2 full
  induction lists with
  | none found =>
    have scanned := first written
    rw [found] at scanned
    rw [show scanFor t _ 0 (ofScalars _) = [] from scanned]
    rfl
  | ended found here | empty found here =>
    have scanned := first written
    rw [found] at scanned
    rcases scanned with ⟨after, stop, -⟩
    rw [Found.finish] at here
    omega
  | full found further later ih =>
    have scanned := first written
    rw [found] at scanned
    rcases scanned with ⟨-, stop, ⟨taken, split⟩, scanned⟩
    rw [split] at written
    rw [scanned, List.map_cons, List.map_cons, ih written.right, ← stop]
    rfl

/-- The empty text stands before every character and at the end. By induction on the matches: none of
    them takes anything, so each search goes on at the next character. -/
theorem Lists.spans_starts (none : t = []) {last : Option Nat} {fs : List Found}
    (lists : Lists (ofExpr e) last c fs) (written : IsWritten c.rest)
    (before : ∀ o ∈ last, o < c.offset) :
    fs.map Found.span = (starts c.offset c.rest).map fun o => (o, o) := by
  have taken (c : Cursor) : preferred e c = some (c.offset, c) := by
    rw [preferred, text.takes (w := []) (none ▸ rfl) c rfl]
    rfl
  have here {c : Cursor} (written : IsWritten c.rest) {f : Found} (found : (ofExpr e).find? c = some f) :
      f.start = c.offset ∧ f.finish = c.offset := by
    have first := find?_eq_ends steady written.wide
    rw [findSome?_onward_of_some (taken c), found] at first
    rcases Prod.mk.inj (Option.some.inj first) with ⟨start, stop⟩
    exact ⟨start, congrArg Cursor.offset stop⟩
  have kept_eq {c : Cursor} (written : IsWritten c.rest) {f : Found}
      (found : (ofExpr e).find? c = some f) {last : Option Nat} (before : ∀ o ∈ last, o < c.offset)
      (fs : List Found) : (kept last f fs).map Found.span = (c.offset, c.offset) :: fs.map Found.span := by
    rcases here written found with ⟨start, finish⟩
    have fresh : last ≠ some f.start := by
      intro same
      have := before f.start same
      omega
    rw [kept, if_neg fresh, List.map_cons, Found.span, start, finish]
  induction lists with
  | @none _ c found =>
    have first := find?_eq_ends steady written.wide
    rw [found, findSome?_onward_of_some (taken c)] at first
    cases first
  | ended found _ ended =>
    rw [kept_eq written found before, ended]
    rfl
  | @empty _ c f s rest fs found _ more later ih =>
    rw [kept_eq written found before, more]
    rw [more] at written
    have wide := written.wide s (List.mem_cons_self ..)
    rw [ih (IsWritten.right (l := [s]) written), starts]
    · rfl
    · intro o same
      cases same
      rw [(here (more ▸ written) found).2]
      exact Nat.lt_add_of_pos_right wide
  | full found further =>
    exact absurd (here written found).2 further

end

end Program

end Pattern

namespace Rule

/-! ### The expression of a text -/

theorem isText_textExpr (t : Bytes) : (textExpr t).IsText t where
  takes {w rest} codes := by
    rw [textExpr, textExprs]
    generalize t.scalars = chars at codes
    induction chars generalizing w with
    | nil =>
      cases List.map_eq_nil_iff.1 codes
      exact Expr.munches_empty rest
    | cons c chars ih =>
      rcases List.map_eq_cons_iff.1 codes with ⟨s, w, rfl, code, tail⟩
      have here : (CharSet.single c.code).contains s.code = true := CharSet.contains_single.2 code
      exact Expr.munches_concat_cons (w := [s]) (Expr.munches_one here) (ih tail)
  refuses none :=
    Expr.refuses_of_language (isFree_textExpr t) fun w mem more =>
      none w more (mem_language_textExpr.1 mem)

theorem isSteady_textExpr (t : Bytes) : (textExpr t).isSteady = true := by
  apply Expr.isSteady_concat
  intro e mem
  rcases List.mem_map.1 mem with ⟨c, -, rfl⟩
  rfl

/-! ### Texts in sequence -/

/-- The anonymous entries for texts, each a leaf with its tag. -/
def textEntries (leaves : List (Nat × Bytes)) : List (Entry Rule) :=
  leaves.map fun leaf => ⟨[], text leaf.1 leaf.2⟩

/-- A sequence of texts. -/
def textSeq (tag : Nat) (leaves : List (Nat × Bytes)) : Rule := .combine tag .seq (textEntries leaves)

/-- The texts of a sequence, put together. -/
def wholeText (leaves : List (Nat × Bytes)) : Bytes := (leaves.map Prod.snd).flatten

section

variable {tag : Nat} {leaves : List (Nat × Bytes)}

theorem sound_textSeq (tag : Nat) (leaves : List (Nat × Bytes)) : Sound (textSeq tag leaves) := by
  apply sound_combine tag .seq
  · intro e mem
    rcases List.mem_map.1 mem with ⟨leaf, -, rfl⟩
    exact .inl rfl
  · intro e mem
    rcases List.mem_map.1 mem with ⟨leaf, -, rfl⟩
    exact sound_text leaf.1 leaf.2

theorem isNamed_textEntries {e : Entry Rule} (mem : e ∈ textEntries leaves) : e.isNamed = false := by
  rcases List.mem_map.1 mem with ⟨leaf, -, rfl⟩
  rfl

/-- A sequence of texts is shown as one text, although the texts may be cut inside a character. -/
theorem fuse_textEntries (pending : Bytes) (leaves : List (Nat × Bytes)) :
    fuse pending (textEntries leaves) = [⟨[], text 0 (pending ++ wholeText leaves)⟩] := by
  induction leaves generalizing pending with
  | nil =>
    rw [wholeText, List.map_nil, List.flatten_nil, List.append_nil]
    rfl
  | cons leaf leaves ih =>
    rw [wholeText, List.map_cons, List.flatten_cons, ← List.append_assoc]
    exact ih (pending ++ leaf.2)

/-- A sequence of texts is read to its whole text in a group. -/
theorem regroups_textSeq (accepted : Accepted (textSeq tag leaves)) :
    Expr.Regroups (textSeq tag leaves).expr (.group 0 [] (textExpr (wholeText leaves))) := by
  rcases accepted with ⟨c, compiled⟩
  have sound := sound_textSeq tag leaves
  have whole := ((sound.searches compiled).read.combine sound.even).2
  have one : shown .seq (textEntries leaves) = [⟨[], text 0 (wholeText leaves)⟩] := by
    rw [shown, if_neg (by decide), fuse_textEntries, List.nil_append]
  rw [show (textSeq tag leaves).entries = textEntries leaves from rfl, one] at whole
  exact whole

/-- Where a sequence of texts is found. -/
theorem spans_textSeq (valid : (wholeText leaves).isUtf8 = true)
    (accepted : Accepted (textSeq tag leaves)) {s : Bytes} (valid' : s.isUtf8 = true) :
    (textSeq tag leaves).spans s =
      (Bytes.occurrences (wholeText leaves) s).map fun o => (o, o + (wholeText leaves).length) := by
  have sound := sound_textSeq tag leaves
  have same := regroups_textSeq accepted
  have steady : (textSeq tag leaves).expr.numbered.isSteady = true :=
    (Expr.isSteady_numberFrom _ 1).trans (same.isSteady_eq.trans (isSteady_textExpr _))
  have text : (textSeq tag leaves).expr.numbered.IsText (wholeText leaves) :=
    (isText_textExpr _).of_ends_eq ((Expr.ends_numberFrom _ 1).trans same.ends_eq)
  have written : Bytes.IsWritten (Cursor.start s).rest := ⟨s, valid', rfl⟩
  have unlike : (textSeq tag leaves).kind ≠ .regex := by
    intro same
    cases same
  have lists := Program.lists_findAll (Program.ofExpr (textSeq tag leaves).expr.numbered) none (.start s)
  rw [spans_eq sound accepted (sound.isUnled unlike), List.map_map]
  by_cases none : wholeText leaves = []
  · rw [none] at text ⊢
    rw [Bytes.occurrences, if_pos List.isEmpty_nil]
    exact lists.spans_starts steady text rfl written (by simp)
  · rw [Bytes.occurrences, if_neg (by simpa using none)]
    have found := lists.spans_scanFor steady text none valid written
    rw [show Bytes.ofScalars (Cursor.start s).rest = s from Bytes.ofScalars_scalars s] at found
    exact found

theorem ready_textSeq (accepted : Accepted (textSeq tag leaves)) : Ready (textSeq tag leaves) where
  sound := sound_textSeq tag leaves
  accepted := accepted
  below e mem isNamed := by
    rcases mem_reach_iff.1 mem with ⟨d, here, rfl | below⟩
    · rw [isNamed_textEntries here] at isNamed
      cases isNamed
    · rcases List.mem_map.1 here with ⟨leaf, -, rfl⟩
      cases below

/-- A rule without named entries parses a text into one tree without parts for each of its matches. -/
theorem Ready.parse_anonymous {r : Rule} (ready : Ready r)
    (anonymous : ∀ e ∈ r.entries, e.isNamed = false) (s : Bytes) :
    r.parse s = .ok ((r.spans s).map (flatTree s)) := by
  have trees := trees_of_anonymous ready.accepted anonymous s
  rw [ready.trees_eq] at trees
  rw [ready.parse_eq, List.map_injective_iff.2 (fun _ _ => Except.ok.inj) trees]

/-- A sequence of texts, with whatever they hold, is searched as the text that they make up: its nodes
    are those of the naive scan, each with that text and without parts. In the text itself it is found
    once, and takes all of it. -/
theorem parse_textSeq (valid : (wholeText leaves).isUtf8 = true)
    (accepted : Accepted (textSeq tag leaves)) {s : Bytes} (valid' : s.isUtf8 = true) :
    (textSeq tag leaves).parse s = .ok ((Bytes.occurrences (wholeText leaves) s).map fun o : Nat =>
        .node [] (wholeText leaves) o []) ∧
      (textSeq tag leaves).parse (wholeText leaves) = .ok [.node [] (wholeText leaves) 0 []] := by
  have nodes {s : Bytes} (valid' : s.isUtf8 = true) :
      (textSeq tag leaves).parse s = .ok ((Bytes.occurrences (wholeText leaves) s).map fun o : Nat =>
        .node [] (wholeText leaves) o []) := by
    have ready := ready_textSeq accepted
    have trees := trees_of_anonymous accepted (fun e mem => isNamed_textEntries mem) s
    rw [ready.trees_eq] at trees
    have flat := List.map_injective_iff.2 (fun _ _ => Except.ok.inj) trees
    rw [ready.parse_eq, flat, spans_textSeq valid accepted valid', List.map_map]
    apply congrArg
    apply List.map_congr_left
    intro o mem
    rw [Function.comp_apply, flatTree, Bytes.slice_of_mem_occurrences mem]
  refine ⟨nodes valid', ?_⟩
  rw [nodes valid, Bytes.occurrences_self]
  rfl

end

/-- An asterisk between two letters of two bytes each, cut inside both of them. -/
def Sample.starLeaves : List (Nat × Bytes) := [(0, [0xc3]), (1, [0xa9, 0x2a, 0xc3]), (2, [0xa9])]

/-- Of places that share a letter only the first one counts. -/
theorem parse_textSeq_star :
    Accepted (textSeq 3 Sample.starLeaves) ∧
      (textSeq 3 Sample.starLeaves).parse
          [0xc3, 0xa9, 0x2a, 0xc3, 0xa9, 0x2a, 0xc3, 0xa9, 0x2a, 0xc3, 0xa9] =
        .ok [.node [] [0xc3, 0xa9, 0x2a, 0xc3, 0xa9] 0 [],
          .node [] [0xc3, 0xa9, 0x2a, 0xc3, 0xa9] 6 []] := by
  have accepted : Accepted (textSeq 3 Sample.starLeaves) :=
    accepted_of_isOk _ (by decide +kernel) (by decide +kernel)
  exact ⟨accepted, (parse_textSeq (by decide) accepted (by decide)).1⟩

end Rule

end Rulebook
