import Rulebook.Proofs.Marker.Gap

/-!
# Moves that break off

A move changes its marker step by step and may break off between two steps: to skip is to seek what is
reported on the way, one line after the other, and then the place to skip to. A move that breaks off
has changed nothing yet all the same, and one that comes to its end does what `Marker.seek`,
`Marker.locate` and `Marker.skip` say (`Move.seek_eq`, `Move.locate_eq`, `Move.skip_eq`).
-/

namespace Rulebook

open Bytes

namespace Marker

/-- Steps of a marker. If they break off the marker is left as it is by then. -/
abbrev Move := EStateM RangeFault Marker

namespace Move

/-- What stands between the marker and an offset. -/
def chunk (offset : Int) : Move Bytes := fun m =>
  match m.distance offset with
  | .ok count => .ok (m.rest.take count) m
  | .error _ => .error .outside m

/-- Goes to an offset. -/
def seek (offset : Int) : Move Position := do
  if offset < (← get).position.offset then throw .backwards
  let text ← chunk offset
  modify (·.forward text.length)
  return (← get).position

/-- Goes to an offset with another marker. -/
def locate (offset : Int) : Move Position := do
  match (seek offset).run (← get) with
  | .ok position _ => return position
  | .error fault _ => throw fault

/-- Goes to the text of each of some lines that is not blank, and reports it. The first line starts at an
    offset. -/
def report (offset : Int) : List Bytes → Move (List Unmatched)
  | [] => return []
  | line :: rest => do
      if (dropBlank line.scalars).isEmpty then report (offset + line.length) rest
      else
        let position ← seek (offset + (Definition.blanks line).length)
        let others ← report (offset + line.length) rest
        return ⟨position, line.trim⟩ :: others

/-- Goes to an offset by way of what is reported. -/
def skip (offset : Int) : Move (List Unmatched) := do
  let gap ← chunk offset
  let reported ← report (← get).position.offset (cutLines gap)
  let _ ← seek offset
  return reported

/-- How a move ends that comes to its end, or breaks off before it has changed anything. -/
def ended {α : Type} (m : Marker) : Except RangeFault (α × Marker) → EStateM.Result RangeFault Marker α
  | .ok (a, m') => .ok a m'
  | .error fault => .error fault m

variable {m : Marker} {offset : Int} {count : Nat}

theorem of_distance (h : m.distance offset = .ok count) :
    offset = m.position.offset + count ∧ count ≤ m.rest.length := by
  unfold distance at h
  split at h
  · cases h
  · split at h
    · cases h
      omega
    · cases h

theorem run_chunk (far : m.distance offset = .ok count) :
    (chunk offset).run m = .ok (m.rest.take count) m := by
  rw [EStateM.run, chunk, far]

theorem run_chunk_fails {fault : RangeFault} (far : m.distance offset = .error fault) :
    (chunk offset).run m = .error .outside m := by
  rw [EStateM.run, chunk, far]

theorem seek_eq (m : Marker) (offset : Int) :
    (seek offset).run m = ended m ((m.seek offset).map fun m' => (m'.position, m')) := by
  rw [seek, EStateM.run_bind, EStateM.run_get]
  by_cases behind : offset < m.position.offset
  · have far : m.distance offset = .error .backwards := by rw [distance, if_pos behind]
    simp only [if_pos behind, Marker.seek, far]
    rfl
  · simp only [if_neg behind]
    cases far : m.distance offset with
    | error fault =>
      have outside : fault = .outside := by
        rw [distance, if_neg behind] at far
        split at far <;> cases far
        rfl
      simp only [EStateM.run_bind, run_chunk_fails far, Marker.seek, far, outside]
      rfl
    | ok count =>
      have width : (m.rest.take count).length = count := List.length_take_of_le (of_distance far).2
      simp only [EStateM.run_bind, EStateM.run_pure, EStateM.run_modify, EStateM.run_get, run_chunk far, Marker.seek,
        far, width]
      rfl

/-- A marker that has moved over what stands at it. -/
theorem forward_length {s more : Bytes} (text : m.rest = s ++ more) :
    m.forward s.length = ⟨m.position.advance s, more⟩ := by
  rw [forward, text, List.take_left, List.drop_left]

theorem run_seek {s more : Bytes} (text : m.rest = s ++ more) (place : offset = m.position.offset + s.length) :
    (seek offset).run m = .ok (m.position.advance s) (m.forward s.length) := by
  rw [seek_eq, place, Marker.seek_add (by simp [text]), forward_length text]
  rfl

theorem locate_eq (m : Marker) (offset : Int) :
    (locate offset).run m = ended m ((m.locate offset).map fun position => (position, m)) := by
  rw [locate, EStateM.run_bind, EStateM.run_get]
  dsimp only
  rw [seek_eq, Marker.locate]
  cases m.seek offset <;> rfl

/-- No character lies across the end of the first characters of a text. -/
theorem cut_of_scalars {s t : Bytes} {u v : List Scalar} (whole : scalars (s ++ t) = u ++ v)
    (bytes : ofScalars u = s) : scalars (s ++ t) = s.scalars ++ t.scalars := by
  have legible : Legible (u ++ v) := whole ▸ legible_scalars (s ++ t)
  have others : ofScalars v = t := by
    have all := congrArg ofScalars whole
    rw [ofScalars_scalars, ofScalars_append, bytes] at all
    exact (List.append_cancel_left all).symm
  rw [whole, ← bytes, ← others, legible_of_append_left legible, legible_of_append_right legible]

/-- Nor does one lie across the place where the text of a line starts. -/
theorem cut_line {front l t : Bytes} (apart : front.Ended) (cut : scalars (l ++ t) = l.scalars ++ t.scalars) :
    scalars ((front ++ Definition.blanks l) ++ (ofScalars (dropBlank l.scalars) ++ t)) =
      (front ++ Definition.blanks l).scalars ++ scalars (ofScalars (dropBlank l.scalars) ++ t) := by
  have split : l.scalars.takeWhile (isBlank ·.char) ++ dropBlank l.scalars = l.scalars :=
    List.takeWhile_append_dropWhile
  refine cut_of_scalars (u := front.scalars ++ l.scalars.takeWhile (isBlank ·.char))
    (v := dropBlank l.scalars ++ t.scalars) ?_ ?_
  · rw [List.append_assoc, ← List.append_assoc _ _ t, Definition.blanks_append, apart.scalars_append, cut,
      List.append_assoc, ← List.append_assoc (l.scalars.takeWhile _), split]
  · rw [ofScalars_append, ofScalars_scalars]
    rfl

/-- What ends as a line does ends with its line break, unless the line is the last. -/
theorem ended_of_append {s t l : Bytes} {rest : List Bytes} (lines : Lines (l :: rest)) (eq : s ++ t = l)
    (some_byte : t ≠ []) (more : rest ≠ []) : t.Ended := by
  obtain ⟨whole, broken⟩ := lines.exists_break more
  have last := congrArg List.getLast? (eq.trans broken)
  rw [List.getLast?_append_of_ne_nil s some_byte, List.getLast?_concat] at last
  exact .inr last

/-- A line further on is gone to where its text starts. -/
theorem run_line {front l t : Bytes} (text : m.rest = front ++ (l ++ t))
    (place : offset = m.position.offset + front.length) :
    (seek (offset + (Definition.blanks l).length)).run m =
      .ok (m.position.advance (front ++ Definition.blanks l))
        ⟨m.position.advance (front ++ Definition.blanks l), ofScalars (dropBlank l.scalars) ++ t⟩ := by
  have text' : m.rest = (front ++ Definition.blanks l) ++ (ofScalars (dropBlank l.scalars) ++ t) := by
    rw [text, List.append_assoc, ← List.append_assoc (Definition.blanks l), Definition.blanks_append]
  rw [run_seek text' (by rw [place, List.length_append]; omega), forward_length text']

/-- What is reported of lines that stand further on, behind a text that ends with a line break unless there
    are no lines; and from there the end of the lines is reached as if nothing had been reported. By
    induction on the lines: the marker is left at the text of the last line that is not blank. -/
theorem run_report {front back : Bytes} {ls : List Bytes} (lines : Lines ls) (apart : ls ≠ [] → front.Ended)
    (text : m.rest = front ++ (ls.flatten ++ back)) {offset : Int}
    (place : offset = m.position.offset + front.length) :
    ∃ m', (report offset ls).run m = .ok (unmatchedLines (m.position.advance front) ls) m' ∧
      (seek (offset + ls.flatten.length)).run m' =
        .ok (m.position.advance (front ++ ls.flatten)) (m.forward (front ++ ls.flatten).length) := by
  induction ls generalizing m front offset with
  | nil =>
    have text' : m.rest = (front ++ ([] : List Bytes).flatten) ++ back := by simpa using text
    refine ⟨m, rfl, run_seek text' ?_⟩
    rw [place, List.flatten_nil, List.append_nil]
    exact Int.add_zero _
  | cons l rest ih =>
    have apart := apart (List.cons_ne_nil l rest)
    have advance (t : Bytes) : (m.position.advance front).advance t = m.position.advance (front ++ t) :=
      Position.advance_append apart m.position t
    have length : ((l :: rest).flatten.length : Int) = l.length + rest.flatten.length := by simp
    have text' : m.rest = front ++ (l ++ (rest.flatten ++ back)) := by simpa using text
    rw [report, Definition.unmatchedLines_cons, Definition.unmatched?_eq, length, ← Int.add_assoc, advance l]
    cases body : (dropBlank l.scalars).isEmpty with
    | true =>
      have behind (more : rest ≠ []) : Bytes.Ended (front ++ l) := by
        obtain ⟨whole, rfl⟩ := lines.exists_break more
        exact .inr (by simp)
      have text'' : m.rest = (front ++ l) ++ (rest.flatten ++ back) := by rw [text', List.append_assoc]
      have place' : offset + l.length = m.position.offset + (front ++ l).length := by simp [place, Int.add_assoc]
      obtain ⟨m', reported, ends⟩ := ih lines.tail behind text'' place'
      refine ⟨m', reported, ?_⟩
      rw [List.flatten_cons, ← List.append_assoc]
      exact ends
    | false =>
      have parts := Definition.blanks_append l
      have shorter := Definition.length_blanks_lt body
      have moved := run_line text' place
      have cut {t : Bytes} (here : scalars (l ++ t) = l.scalars ++ t.scalars) := cut_line apart here
      generalize ofScalars (dropBlank l.scalars) = tail at *
      generalize Definition.blanks l = blanks at *
      subst parts
      have some_byte : tail ≠ [] := by
        rintro rfl
        simp at shorter
      -- The rest of the lines is reported from the marker that stands at the text of this one.
      have text₁ : (Marker.mk (m.position.advance (front ++ blanks)) (tail ++ (rest.flatten ++ back))).rest =
        tail ++ (rest.flatten ++ back) := rfl
      have text₂ : (Marker.mk (m.position.advance (front ++ blanks)) (tail ++ (rest.flatten ++ back))).rest =
        (tail ++ rest.flatten) ++ back := by rw [text₁, List.append_assoc]
      have place' : offset + (blanks ++ tail).length =
          (m.position.advance (front ++ blanks)).offset + tail.length := by
        simp [place, Position.advance, Int.add_assoc]
      obtain ⟨m', reported, ends⟩ := ih lines.tail (ended_of_append lines rfl some_byte) text₁ place'
      have cut₁ : scalars ((front ++ blanks) ++ tail) = (front ++ blanks).scalars ++ tail.scalars := by
        have empty : scalars ((blanks ++ tail) ++ []) = (blanks ++ tail).scalars ++ scalars [] := by simp
        simpa using cut empty
      have whole : front ++ ((blanks ++ tail) :: rest).flatten = (front ++ blanks) ++ (tail ++ rest.flatten) := by simp
      have text₃ : m.rest = (front ++ ((blanks ++ tail) :: rest).flatten) ++ back := by simpa using text
      simp only [Position.advance_advance _ cut₁] at reported
      simp only [forward_length text₂, Position.advance_advance _ (cut lines.scalars_append), ← whole] at ends
      refine ⟨m', ?_, ?_⟩
      · simp only [Bool.false_eq_true, if_false, EStateM.run_bind, EStateM.run_pure, moved, reported, advance,
          List.append_assoc]
        rfl
      · rw [forward_length text₃]
        exact ends

theorem skip_eq (m : Marker) (offset : Int) : (skip offset).run m = ended m (m.skip offset) := by
  rw [skip, EStateM.run_bind]
  cases far : m.distance offset with
  | error fault =>
    rw [run_chunk_fails far, Marker.skip, far]
    rfl
  | ok count =>
    obtain ⟨place, fits⟩ := of_distance far
    have gap : (cutLines (m.rest.take count)).flatten = m.rest.take count := flatten_cutLines _
    have text : m.rest = [] ++ ((cutLines (m.rest.take count)).flatten ++ m.rest.drop count) := by
      rw [gap, List.nil_append, List.take_append_drop]
    obtain ⟨m', reported, ends⟩ :=
      run_report (lines_cutLines (m.rest.take count)) (fun _ => .inl rfl) text (Int.add_zero _).symm
    simp only [Position.advance_nil, List.nil_append, gap, List.length_take_of_le fits, ← place] at reported ends
    simp only [EStateM.run_bind, EStateM.run_pure, EStateM.run_get, run_chunk far, reported, ends, Marker.skip, far]
    rfl

end Move

end Marker

end Rulebook
