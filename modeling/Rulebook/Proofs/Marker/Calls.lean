import Rulebook.Proofs.Marker.Moves

/-!
# Paths of a marker

A marker is asked to move, to look ahead or to cross a gap, again and again. As long as it is sent to
places between characters only, where it comes to stand depends on the places and not on the path
(`Marker.path_independent`), and a call that fails leaves the marker as it was, so that it might as
well not have been made.
-/

namespace Rulebook

open Bytes

namespace Marker

/-- What a marker can be asked. -/
inductive Call where
  | seek (offset : Int)
  | locate (offset : Int)
  | skip (offset : Int)
  deriving DecidableEq, Repr

/-- What a marker answers. -/
inductive Answer where
  | position (p : Position)
  | unmatched (us : List Unmatched)
  deriving DecidableEq, Repr

namespace Call

def offset : Call → Int
  | seek offset => offset
  | locate offset => offset
  | skip offset => offset

/-- True of an offset that a marker can be sent to from another one. -/
def Ahead (source : Bytes) (o : Nat) (offset : Int) : Prop := o ≤ offset ∧ offset ≤ source.length

instance (source : Bytes) (o : Nat) (offset : Int) : Decidable (Ahead source o offset) :=
  inferInstanceAs (Decidable (_ ∧ _))

/-- Where a marker stands after a call. -/
def next (source : Bytes) (o : Nat) : Call → Nat
  | seek offset => if Ahead source o offset then offset.toNat else o
  | locate _ => o
  | skip offset => if Ahead source o offset then offset.toNat else o

end Call

/-- Where a marker stands after some calls. -/
def destination (source : Bytes) (o : Nat) (calls : List Call) : Nat := calls.foldl (Call.next source) o

/-- True of calls each of which, unless it fails, has to do with an offset between two characters. -/
def Apt (source : Bytes) : Nat → List Call → Prop
  | _, [] => True
  | o, call :: calls =>
      (Call.Ahead source o call.offset → source.IsBoundary call.offset.toNat) ∧
        Apt source (call.next source o) calls

/-- What a marker answers to a call, and the marker after it. -/
def answer (m : Marker) : Call → Except RangeFault (Answer × Marker)
  | .seek offset => (m.seek offset).map fun m' => (.position m'.position, m')
  | .locate offset => (m.locate offset).map fun p => (.position p, m)
  | .skip offset => (m.skip offset).map fun (us, m') => (.unmatched us, m')

/-- A call step by step. -/
def Call.move : Call → Move Answer
  | seek offset => return .position (← Move.seek offset)
  | locate offset => return .position (← Move.locate offset)
  | skip offset => return .unmatched (← Move.skip offset)

/-- What comes of a call: an answer or a fault, and the marker as the call has left it. -/
def call (m : Marker) (c : Call) : EStateM.Result RangeFault Marker Answer := c.move.run m

/-- The marker after a call, which may have failed. -/
def after (m : Marker) (c : Call) : Marker :=
  match m.call c with
  | .ok _ m' => m'
  | .error _ m' => m'

/-- The marker after some calls. -/
def afterAll (m : Marker) (calls : List Call) : Marker := calls.foldl after m

/-- What a marker answers to some calls. -/
def answers (m : Marker) : List Call → List (Except RangeFault Answer)
  | [] => []
  | c :: calls =>
      match m.call c with
      | .ok a m' => .ok a :: m'.answers calls
      | .error fault m' => .error fault :: m'.answers calls

variable {m : Marker} {filename source : Bytes} {o b : Nat} {offset : Int}

/-! ### One call -/

theorem At.distance_before (at_ : m.At filename source o) (before : offset < o) :
    m.distance offset = .error .backwards := by
  rw [Marker.distance, at_.offset, if_pos before]

theorem At.distance_beyond (at_ : m.At filename source o) (beyond : source.length < offset) :
    m.distance offset = .error .outside := by
  have fits := at_.boundary.le
  rw [Marker.distance, at_.offset, at_.rest, List.length_drop, if_neg (by omega), if_neg (by omega)]

/-- A call either comes to its end or leaves the marker as it was. -/
theorem call_eq (m : Marker) (c : Call) : m.call c = Move.ended m (m.answer c) := by
  cases c with
  | seek offset =>
    rw [call, Call.move, answer, EStateM.run_bind, Move.seek_eq]
    cases m.seek offset <;> rfl
  | locate offset =>
    rw [call, Call.move, answer, EStateM.run_bind, Move.locate_eq]
    cases m.locate offset <;> rfl
  | skip offset =>
    rw [call, Call.move, answer, EStateM.run_bind, Move.skip_eq]
    cases m.skip offset <;> rfl

theorem after_eq (m : Marker) (c : Call) :
    m.after c = match m.answer c with
      | .ok (_, m') => m'
      | .error _ => m := by
  rw [after, call_eq]
  cases m.answer c <;> rfl

/-- A call for a place that a marker cannot be sent to fails. -/
theorem At.call_fails (at_ : m.At filename source o) {c : Call}
    (bad : ¬ Call.Ahead source o c.offset) : ∃ fault, m.call c = .error fault m := by
  have none : ∃ fault, m.distance c.offset = .error fault := by
    by_cases before : c.offset < o
    · exact ⟨_, at_.distance_before before⟩
    · exact ⟨_, at_.distance_beyond (by rw [Call.Ahead] at bad; omega)⟩
  obtain ⟨fault, none⟩ := none
  cases c with
  | seek offset => exact ⟨fault, by rw [Call.offset] at none; rw [call_eq, answer, Marker.seek, none]; rfl⟩
  | locate offset =>
    exact ⟨fault, by rw [Call.offset] at none; rw [call_eq, answer, locate, Marker.seek, none]; rfl⟩
  | skip offset => exact ⟨.outside, by rw [Call.offset] at none; rw [call_eq, answer, skip, none]; rfl⟩

/-- A call that has failed and left the marker as it was is answered by its fault, and the calls that
    follow are answered as if it had not been made. -/
theorem afterAll_of_fails {c : Call} {fault : RangeFault} (fails : m.call c = .error fault m)
    (calls : List Call) :
    m.afterAll (c :: calls) = m.afterAll calls ∧
      m.answers (c :: calls) = .error fault :: m.answers calls := by
  constructor
  · rw [afterAll, List.foldl_cons, after, fails, afterAll]
  · rw [answers, fails]

/-- To skip to a place, and to seek each place that is reported on the way and then that place, comes to
    the same. -/
theorem At.seek_reported (at_ : m.At filename source o) (hb : source.IsBoundary b) (low : o ≤ b) :
    ∃ us m', m.skip b = .ok (us, m') ∧ m'.At filename source b ∧
      (us.foldlM (fun m u => m.seek u.position.offset) m >>= (·.seek b)) = .ok m' := by
  obtain ⟨us, m', skipped, there, reports, -⟩ := skip_reports at_ hb low
  have width : o + (cutLines (source.slice o b)).flatten.length ≤ b := by
    rw [flatten_cutLines, Bytes.slice, List.length_take]
    omega
  obtain ⟨m₁, o₁, moved, at₁, low₁⟩ := at_.foldlM_seek (Nat.le_refl o) width reports
  obtain ⟨m₂, sought, at₂⟩ := at₁.seek hb low₁
  refine ⟨us, m', skipped, there, ?_⟩
  rw [moved, ← there.eq at₂]
  exact sought

/-- What a call does that does not fail. -/
theorem At.after (at_ : m.At filename source o) {c : Call}
    (apt : Call.Ahead source o c.offset → source.IsBoundary c.offset.toNat) :
    (m.after c).At filename source (c.next source o) := by
  by_cases ahead : Call.Ahead source o c.offset
  · have boundary := apt ahead
    have low : o ≤ c.offset.toNat := Int.le_toNat (Int.le_trans (Int.natCast_nonneg o) ahead.1) |>.2 ahead.1
    have whole : (c.offset.toNat : Int) = c.offset :=
      Int.toNat_of_nonneg (Int.le_trans (Int.natCast_nonneg o) ahead.1)
    rw [after_eq]
    cases c with
    | seek offset =>
      obtain ⟨m', moved, there⟩ := at_.seek boundary low
      rw [whole, Call.offset] at moved
      rw [answer, moved, Call.next, if_pos (show Call.Ahead source o offset from ahead)]
      exact there
    | locate offset =>
      obtain ⟨m', moved, -⟩ := at_.seek boundary low
      rw [whole, Call.offset] at moved
      rw [answer, locate, moved]
      exact at_
    | skip offset =>
      obtain ⟨us, m', moved, there, -⟩ := skip_reports at_ boundary low
      rw [whole, Call.offset] at moved
      rw [answer, moved, Call.next, if_pos (show Call.Ahead source o offset from ahead)]
      exact there
  · obtain ⟨fault, fails⟩ := at_.call_fails ahead
    rw [Marker.after, fails]
    cases c with
    | seek offset => rwa [Call.next, if_neg (show ¬ Call.Ahead source o offset from ahead)]
    | locate offset => exact at_
    | skip offset => rwa [Call.next, if_neg (show ¬ Call.Ahead source o offset from ahead)]

/-! ### Some calls -/

/-- Where a marker stands after some calls. By induction on the calls. -/
theorem At.afterAll (at_ : m.At filename source o) {calls : List Call} (apt : Apt source o calls) :
    (m.afterAll calls).At filename source (destination source o calls) := by
  induction calls generalizing m o with
  | nil => exact at_
  | cons c calls ih =>
    obtain ⟨first, others⟩ := apt
    exact ih (at_.after first) others

/-- The path of a marker leaves no trace. After any calls that have to do with places between characters
    the position is that of the place the marker stands at, counted from the start of the source. From
    there a call does, step by step, what the marker answers to it. Each such place further on is located
    where it is, without a move; to seek it, to skip to it and to seek all that is reported on the way
    lead to one and the same marker. A call for a place that lies behind or outside the source fails and
    changes nothing, neither the marker that it leaves nor an answer to a later call. -/
theorem path_independent (filename source : Bytes) {calls : List Call} (apt : Apt source 0 calls) :
    ∃ m o, (start filename source).afterAll calls = m ∧ destination source 0 calls = o ∧
      m.position = .place filename source o ∧ (∀ c, m.call c = Move.ended m (m.answer c)) ∧
      (∀ b : Nat, source.IsBoundary b → o ≤ b → ∃ us m',
        m.call (.locate b) = .ok (.position (.place filename source b)) m ∧
        m.call (.seek b) = .ok (.position (.place filename source b)) m' ∧
        m.call (.skip b) = .ok (.unmatched us) m' ∧
        (us.foldlM (fun m u => m.seek u.position.offset) m >>= (·.seek b)) = .ok m' ∧
        m'.position = .place filename source b) ∧
      ∀ c : Call, c.offset < o ∨ source.length < c.offset → ∃ fault,
        m.call c = .error fault m ∧ m.after c = m ∧
        ∀ more, m.afterAll (c :: more) = m.afterAll more ∧
          m.answers (c :: more) = .error fault :: m.answers more := by
  have at_ := (at_start filename source).afterAll apt
  refine ⟨_, _, rfl, rfl, at_.position, call_eq _, fun b hb low => ?_, fun c bad => ?_⟩
  · obtain ⟨us, m', skipped, there, reported⟩ := at_.seek_reported hb low
    obtain ⟨m₁, moved, there₁⟩ := at_.seek hb low
    obtain rfl := there.eq there₁
    refine ⟨us, m₁, ?_, ?_, ?_, reported, there.position⟩
    · rw [call_eq, answer, locate, moved, ← there.position]
      rfl
    · rw [call_eq, answer, moved, ← there.position]
      rfl
    · rw [call_eq, answer, skipped]
      rfl
  · obtain ⟨fault, fails⟩ := at_.call_fails (c := c) (fun ahead => by
      obtain ⟨low, high⟩ := ahead
      omega)
    exact ⟨fault, fails, by rw [after, fails], fun more => afterAll_of_fails fails more⟩

/-- A marker on its way over two lines, with a stray byte in the second, and a call that fails. -/
theorem path_two_lines :
    Apt [97, 10, 0xFF, 0xC3, 0xA9, 98] 0 [.seek 1, .locate 5, .skip 0, .skip 5] ∧
      ((start "f" [97, 10, 0xFF, 0xC3, 0xA9, 98]).afterAll
        [.seek 1, .locate 5, .skip 0, .skip 5]).position = ⟨"f", 5, 2, 3⟩ := by
  have apt : Apt [97, 10, 0xFF, 0xC3, 0xA9, 98] 0 [.seek 1, .locate 5, .skip 0, .skip 5] := by
    refine ⟨fun _ => ?_, fun _ => ?_, fun ahead => ?_, fun _ => ?_, trivial⟩
    · exact isBoundary_iff.2 (by decide)
    · exact isBoundary_iff.2 (by decide)
    · exact absurd ahead (by decide)
    · exact isBoundary_iff.2 (by decide)
  obtain ⟨m, o, rfl, rfl, place, -⟩ := path_independent "f" _ apt
  exact ⟨apt, place.trans (by decide)⟩

end Marker

end Rulebook
