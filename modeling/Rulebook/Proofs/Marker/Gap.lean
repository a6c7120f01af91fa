import Rulebook.Proofs.Definition.Accounting
import Rulebook.Proofs.Marker.Place

/-!
# What is reported of a gap

A marker that crosses a gap reports each line of the gap that is not blank, without the blanks around
it and with the place where it starts, and nothing else: what is reported leaves only blanks in the
gap (`Marker.skip_reports`).
-/

namespace Rulebook

open Bytes
open Bootstrap (IsBlank)

/-! ### Blank texts -/

namespace Bytes

variable {s t : Bytes}

theorem isBlank_nil : IsBlank [] := fun _ mem => by cases mem

/-- A blank text is UTF-8, because the character that stands for a stray byte is not blank. -/
theorem isUtf8_of_isBlank (h : IsBlank s) : s.isUtf8 = true := by
  refine List.all_eq_true.2 fun c mem => ?_
  by_contra stray
  have blank := h c mem
  have char : c.char = Scalar.replacement := by
    simp only [Scalar.isStray] at stray
    by_contra other
    simp [other] at stray
  rw [char] at blank
  exact absurd blank (by decide)

theorem isBlank_append (hs : IsBlank s) (ht : IsBlank t) : IsBlank (s ++ t) := by
  intro c mem
  rw [scalars_append_of_isUtf8 (isUtf8_of_isBlank hs), List.mem_append] at mem
  exact mem.elim (hs c) (ht c)

/-- True of a text whose first and last characters are not blank. -/
structure Marked (s : Bytes) : Prop where
  first : ∃ c rest, s.scalars = c :: rest ∧ isBlank c.char = false
  last : ∃ front c, s.scalars = front ++ [c] ∧ isBlank c.char = false

theorem dropBlankEnd_cons {c : Scalar} (mark : isBlank c.char = false) (rest : List Scalar) :
    ∃ rest' after, dropBlankEnd (c :: rest) = c :: rest' ∧ c :: rest = c :: rest' ++ after ∧
      (∀ d ∈ after, isBlank d.char = true) ∧
      ∃ (front : List Scalar) (d : Scalar), c :: rest' = front ++ [d] ∧ isBlank d.char = false := by
  let p : Scalar → Bool := fun d => isBlank d.char
  let back := (c :: rest).reverse
  have split : c :: rest = (back.dropWhile p).reverse ++ (back.takeWhile p).reverse := by
    rw [← List.reverse_append, List.takeWhile_append_dropWhile, List.reverse_reverse]
  have blank : ∀ d ∈ (back.takeWhile p).reverse, isBlank d.char = true := fun d mem =>
    List.mem_takeWhile_imp (p := p) (List.mem_reverse.1 mem)
  cases kept : back.dropWhile p with
  | nil =>
    rw [kept, List.reverse_nil, List.nil_append] at split
    have here := blank c (split ▸ List.mem_cons_self)
    rw [mark] at here
    cases here
  | cons d more =>
    have last := List.head?_dropWhile_not p back
    rw [kept] at last split
    have whole : dropBlankEnd (c :: rest) = (d :: more).reverse := congrArg List.reverse kept
    have ending : (d :: more).reverse = more.reverse ++ [d] := List.reverse_cons
    obtain ⟨x, rest', eq⟩ := List.exists_cons_of_ne_nil (show (d :: more).reverse ≠ [] by simp)
    rw [eq, List.cons_append] at split
    obtain ⟨rfl, split⟩ := List.cons.inj split
    refine ⟨rest', _, whole.trans eq, by rw [List.cons_append, ← split], blank, _, d, eq ▸ ending, ?_⟩
    simpa [p] using last

/-- A text that is not blank is a marked text with blanks around it. -/
theorem exists_marked (some_char : ¬ IsBlank s) : ∃ after,
    s = Definition.blanks s ++ s.trim ++ after ∧ IsBlank (Definition.blanks s) ∧ IsBlank after ∧
      Marked s.trim ∧
      s.scalars = (Definition.blanks s).scalars ++ s.trim.scalars ++ after.scalars := by
  have split := List.takeWhile_append_dropWhile (p := fun d : Scalar => isBlank d.char)
    (l := s.scalars)
  cases body : s.scalars.dropWhile (isBlank ·.char) with
  | nil => exact absurd (Definition.isBlank_iff.1 (by rw [dropBlank, body]; rfl)) some_char
  | cons c rest =>
    have mark := List.head?_dropWhile_not (fun d : Scalar => isBlank d.char) s.scalars
    rw [body] at mark split
    have mark : isBlank c.char = false := by simpa using mark
    obtain ⟨rest', after, kept, eq, blank, front, d, ending, last⟩ := dropBlankEnd_cons mark rest
    rw [eq, ← List.append_assoc] at split
    have trim : s.trim = ofScalars (c :: rest') := by rw [Bytes.trim, dropBlank, body, kept]
    have legible : Legible (_ ++ _) := split ▸ legible_scalars s
    have legible' := legible_of_append_left legible
    have before : (Definition.blanks s).scalars = s.scalars.takeWhile (isBlank ·.char) :=
      legible_of_append_left legible'
    have middle : s.trim.scalars = c :: rest' := trim ▸ legible_of_append_right legible'
    have behind : (ofScalars after).scalars = after := legible_of_append_right legible
    refine ⟨ofScalars after, ?_, ?_, ?_, ⟨?_, ?_⟩, ?_⟩
    · rw [trim, Definition.blanks, ← ofScalars_append, ← ofScalars_append, split, ofScalars_scalars]
    · intro d mem
      rw [before] at mem
      exact List.mem_takeWhile_imp (p := fun d : Scalar => isBlank d.char) mem
    · rw [IsBlank, behind]
      exact blank
    · exact ⟨c, rest', middle, mark⟩
    · exact ⟨front, d, middle.trans ending, last⟩
    · rw [before, middle, behind, split]

end Bytes

namespace Marker

variable {filename source : Bytes} {a b : Nat}

/-- What is reported of a line that stands at an offset of a source: the text of the line without the
    blanks around it, and where that text stands in the source. -/
def Reports (filename source : Bytes) (line : Nat × Bytes) (u : Unmatched) : Prop :=
  ∃ before after, line.2 = before ++ u.text ++ after ∧ IsBlank before ∧ IsBlank after ∧
    Marked u.text ∧ 10 ∉ u.text ∧ source.IsBoundary (line.1 + before.length) ∧
    u.position = .place filename source (line.1 + before.length) ∧
    source.slice (line.1 + before.length) (line.1 + before.length + u.text.length) = u.text

/-- What is left of a source from one offset to another without the texts that are reported. -/
def leftover (source : Bytes) (b : Nat) : Nat → List Unmatched → Bytes
  | a, [] => source.slice a b
  | a, u :: us =>
      source.slice a u.position.offset.toNat ++
        leftover source b (u.position.offset.toNat + u.text.length) us

theorem slice_middle {x y z : Bytes} (eq : source = x ++ (y ++ z)) :
    source.slice x.length (x.length + y.length) = y := by
  rw [eq, Bytes.slice, List.drop_left, Nat.add_sub_cancel_left, List.take_left]

theorem slice_append_slice (s : Bytes) {i j k : Nat} (low : i ≤ j) (high : j ≤ k) :
    s.slice i j ++ s.slice j k = s.slice i k := by
  obtain ⟨m, rfl⟩ := Nat.exists_eq_add_of_le low
  obtain ⟨n, rfl⟩ := Nat.exists_eq_add_of_le high
  simp only [Bytes.slice, Nat.add_assoc, Nat.add_sub_cancel_left, ← List.drop_drop, List.take_add]
  rw [← Nat.add_assoc, Nat.add_sub_cancel_left]

/-- The text of a line lies before its line break. -/
theorem newline_notMem_trim {l : Bytes} {rest : List Bytes} (lines : Lines (l :: rest))
    (some_char : ¬ IsBlank l) : 10 ∉ l.trim := by
  obtain ⟨after, eq, -, -, marked, scalars⟩ := exists_marked some_char
  obtain ⟨front, c, ending, mark⟩ := marked.last
  cases lines with
  | last _ whole =>
    intro mem
    apply whole
    rw [eq]
    simp [mem]
  | @cons l' _ whole _ =>
    rw [scalars_append_ascii l' (by decide), scalars_cons_ascii (by decide), ending] at scalars
    -- the line break is blank, so that it is not the last character of the text
    obtain ⟨more, rfl⟩ : ∃ more, after = more ++ [10] := by
      rcases List.eq_nil_or_concat after with none | ⟨more, b, some⟩
      · rw [none, scalars_nil, List.append_nil, ← List.append_assoc] at scalars
        have last : c = .ascii 10 := by
          have := congrArg List.getLast? scalars
          simpa using this.symm
        rw [last] at mark
        exact absurd mark (by decide)
      · rw [some, List.concat_eq_append, ← List.append_assoc] at eq
        obtain ⟨-, same⟩ := List.append_inj' eq rfl
        exact ⟨more, by rw [some, List.concat_eq_append, ← same]⟩
    rw [← List.append_assoc] at eq
    obtain ⟨whole_eq, -⟩ := List.append_inj' eq rfl
    intro mem
    apply whole
    rw [whole_eq]
    simp [mem]

section Lines

variable {front back l : Bytes} {ls rest : List Bytes}

/-- Where the next line of a source starts. -/
theorem isBoundary_next (lines : Lines (l :: rest))
    (eq : source = front ++ (l ++ rest.flatten ++ back)) (start : source.IsBoundary front.length)
    (stop : source.IsBoundary (front.length + (l ++ rest.flatten).length)) {k : Nat}
    (inside : l.IsBoundary k) : source.IsBoundary (front.length + k) := by
  refine start.of_slice stop (Nat.le_add_right ..) ?_
  rw [slice_middle eq]
  exact inside.of_append lines.scalars_append

/-- The lines of a source report, one after another, what is not blank in them. By induction on the
    lines: each starts where the one before it ends. -/
theorem forall₂_reports (lines : Lines ls) (eq : source = front ++ (ls.flatten ++ back))
    (start : source.IsBoundary front.length)
    (stop : source.IsBoundary (front.length + ls.flatten.length)) :
    List.Forall₂ (Reports filename source)
      ((placed front.length ls).filter fun line => line.2.scalars.any (!isBlank ·.char))
      (unmatchedLines (.place filename source front.length) ls) := by
  induction ls generalizing front with
  | nil => exact .nil
  | cons l rest ih =>
    rw [List.flatten_cons] at eq stop
    have inside {k : Nat} := isBoundary_next (k := k) lines eq start stop
    have next := inside (isBoundary_length l)
    have advance {x y : Bytes} (eq : source = front ++ (x ++ y))
        (next : source.IsBoundary (front.length + x.length)) :
        (Position.place filename source front.length).advance x =
          .place filename source (front.length + x.length) := by
      rw [← Position.place_advance filename start next (Nat.le_add_right ..), slice_middle eq]
    have split : source = (front ++ l) ++ (rest.flatten ++ back) := by rw [eq]; simp
    have later := ih lines.tail split
      (by rwa [List.length_append]) (by
        rw [List.length_append] at stop ⊢
        rwa [Nat.add_assoc])
    rw [List.length_append] at later
    rw [Definition.unmatchedLines_cons, Definition.unmatched?_eq,
      advance (eq.trans (by rw [List.append_assoc])) next, placed]
    by_cases blank : IsBlank l
    · rw [if_pos (Definition.isBlank_iff.2 blank), List.filter_cons_of_neg]
      · exact later
      · simpa [IsBlank] using blank
    · rw [if_neg (mt Definition.isBlank_iff.1 blank), List.filter_cons_of_pos]
      · refine .cons ?_ later
        obtain ⟨after, parts, before, behind, marked, scalars⟩ := exists_marked blank
        have place := inside ⟨_, _, scalars.trans (List.append_assoc ..), rfl⟩
        rw [ofScalars_scalars] at place
        have split : source = front ++ (Definition.blanks l ++
            (l.trim ++ (after ++ rest.flatten ++ back))) := by
          rw [eq]
          conv_lhs => rw [parts]
          simp only [List.append_assoc]
        have there := slice_middle (split.trans (List.append_assoc ..).symm)
        rw [List.length_append] at there
        exact ⟨_, after, parts, before, behind, marked, newline_notMem_trim lines blank, place,
          advance split place, there⟩
      · simpa [IsBlank] using blank

/-- What is left of some lines, after a blank text before them, is blank. -/
theorem isBlank_leftover (eq : source = front ++ (ls.flatten ++ back)) {b k : Nat}
    (stop : front.length + ls.flatten.length = b) (low : k ≤ front.length)
    (blank : IsBlank (source.slice k front.length)) {us : List Unmatched}
    (reports : List.Forall₂ (Reports filename source)
      ((placed front.length ls).filter fun line => line.2.scalars.any (!isBlank ·.char)) us) :
    IsBlank (leftover source b k us) := by
  induction ls generalizing front k us with
  | nil =>
    cases reports
    rw [leftover, ← stop]
    exact blank
  | cons l rest ih =>
    rw [List.flatten_cons, List.append_assoc] at eq
    rw [List.flatten_cons, List.length_append] at stop
    have split : source = (front ++ l) ++ (rest.flatten ++ back) := by rw [eq, List.append_assoc]
    have later {k : Nat} := @ih (front ++ l) split k (by rw [List.length_append]; omega)
    rw [List.length_append] at later
    rw [placed] at reports
    by_cases blank_line : IsBlank l
    · rw [List.filter_cons_of_neg (by simpa [IsBlank] using blank_line)] at reports
      refine later (by omega) ?_ reports
      rw [← slice_append_slice source low (Nat.le_add_right ..), slice_middle eq]
      exact isBlank_append blank blank_line
    · rw [List.filter_cons_of_pos (by simpa [IsBlank] using blank_line)] at reports
      obtain ⟨u, us, ⟨before, after, parts, blank₁, blank₂, -, -, -, place, -⟩, others, rfl⟩ :=
        List.forall₂_cons_left_iff.1 reports
      have length := congrArg List.length parts
      rw [List.length_append, List.length_append] at length
      dsimp only at parts length place
      have split : source = front ++ (before ++ (u.text ++ (after ++ (rest.flatten ++ back)))) := by
        rw [eq, parts]
        simp only [List.append_assoc]
      rw [leftover, place, Position.place, Int.toNat_natCast]
      apply isBlank_append
      · rw [← slice_append_slice source low (Nat.le_add_right ..), slice_middle split]
        exact isBlank_append blank blank₁
      · refine later (by omega) ?_ others
        have there := slice_middle (x := front ++ before ++ u.text) (y := after)
          (z := rest.flatten ++ back) (split.trans (by simp only [List.append_assoc]))
        rw [List.length_append, List.length_append] at there
        rw [length, ← Nat.add_assoc, ← Nat.add_assoc, there]
        exact blank₂

/-- A marker can seek the places that are reported one after another, and comes no further than the
    end of the lines. By induction on the lines: each is reported before its own end. -/
theorem At.foldlM_seek {m : Marker} {k b : Nat} (at_ : m.At filename source k) (low : k ≤ a)
    (stop : a + ls.flatten.length ≤ b) {us : List Unmatched}
    (reports : List.Forall₂ (Reports filename source)
      ((placed a ls).filter fun line => line.2.scalars.any (!isBlank ·.char)) us) :
    ∃ m' o, us.foldlM (fun m u => m.seek u.position.offset) m = .ok m' ∧
      m'.At filename source o ∧ o ≤ b := by
  induction ls generalizing m k a us with
  | nil =>
    cases reports
    exact ⟨m, k, rfl, at_, Nat.le_trans low (Nat.le_trans (Nat.le_add_right ..) stop)⟩
  | cons l rest ih =>
    rw [List.flatten_cons, List.length_append] at stop
    rw [placed] at reports
    by_cases blank : IsBlank l
    · rw [List.filter_cons_of_neg (by simpa [IsBlank] using blank)] at reports
      exact ih at_ (by omega) (by omega) reports
    · rw [List.filter_cons_of_pos (by simpa [IsBlank] using blank)] at reports
      obtain ⟨u, us, report, others, rfl⟩ := List.forall₂_cons_left_iff.1 reports
      obtain ⟨before, after, parts, -, -, -, -, boundary, place, -⟩ := report
      have length := congrArg List.length parts
      rw [List.length_append, List.length_append] at length
      dsimp only at length boundary place
      obtain ⟨m₁, moved, there⟩ := at_.seek boundary (by omega)
      obtain ⟨m₂, o, others, stops, fits⟩ := ih there (by omega) (by omega) others
      refine ⟨m₂, o, ?_, stops, fits⟩
      rw [List.foldlM_cons, place, Position.place, moved]
      exact others

end Lines

/-- A marker that crosses a gap reports the lines of the gap that are not blank, in order: of each the
    text without the blanks around it, which starts and ends with a character that is not blank and
    has no line break in it, with the place where it stands in the source. Without what is reported
    the gap is blank. -/
theorem skip_reports {m : Marker} (at_ : m.At filename source a) (hb : source.IsBoundary b)
    (low : a ≤ b) :
    ∃ us m', m.skip b = .ok (us, m') ∧ m'.At filename source b ∧
      List.Forall₂ (Reports filename source)
        ((placed a (cutLines (source.slice a b))).filter fun line =>
          line.2.scalars.any (!isBlank ·.char)) us ∧
      IsBlank (leftover source b a us) := by
  have gap : (cutLines (source.slice a b)).flatten = source.slice a b := flatten_cutLines _
  have fits : (source.take a).length = a := List.length_take_of_le at_.boundary.le
  have width : a + (source.slice a b).length = b := by
    rw [Bytes.slice, List.length_take, List.length_drop]
    have := hb.le
    omega
  have eq : source = source.take a ++ ((cutLines (source.slice a b)).flatten ++ source.drop b) := by
    rw [gap, Bytes.slice]
    conv_lhs => rw [← List.take_append_drop a source, ← List.take_append_drop (b - a) (source.drop a),
      List.drop_drop, Nat.add_sub_cancel' low]
  have reports : List.Forall₂ (Reports filename source) _ _ :=
    forall₂_reports (lines_cutLines (source.slice a b)) eq (by rw [fits]; exact at_.boundary)
      (by rw [fits, gap, width]; exact hb)
  have none : IsBlank (source.slice a (source.take a).length) := by
    rw [fits, Bytes.slice, Nat.sub_self, List.take_zero]
    exact isBlank_nil
  have blank := isBlank_leftover eq (by rw [fits, gap, width]) (Nat.le_of_eq fits.symm) none reports
  rw [fits] at reports blank
  refine ⟨_, _, ?_, at_.forward hb low, reports, blank⟩
  rw [skip, at_.distance hb low, at_.rest, at_.position]
  rfl

/-- A marker at the start of a source, with two lines to report on the way to the end. -/
theorem skip_two_lines :
    (start "f" " a\n \nb c \n").At "f" " a\n \nb c \n" 0 ∧
      Bytes.IsBoundary " a\n \nb c \n" 10 ∧
      ∃ u v m', (start "f" " a\n \nb c \n").skip 10 = .ok ([u, v], m') ∧
        m'.At "f" " a\n \nb c \n" 10 ∧ u.text = "a" ∧ v.text = "b c" ∧ v.position.line = 3 := by
  have stop : Bytes.IsBoundary " a\n \nb c \n" 10 := isBoundary_length _
  obtain ⟨us, m', skipped, there, -, -⟩ := skip_reports (at_start "f" _) stop (Nat.zero_le _)
  refine ⟨at_start _ _, stop, ?_⟩
  have run : ((start "f" " a\n \nb c \n").skip 10).map Prod.fst =
      .ok [⟨⟨"f", 1, 1, 2⟩, "a"⟩, ⟨⟨"f", 5, 3, 1⟩, "b c"⟩] := by decide +kernel
  rw [show (10 : Int) = (10 : Nat) from rfl, skipped] at run
  cases run
  exact ⟨_, _, m', skipped, there, rfl, rfl, rfl⟩

end Marker

end Rulebook
