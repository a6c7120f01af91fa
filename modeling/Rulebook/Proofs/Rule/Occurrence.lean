import Rulebook.Proofs.Rule.Plain

/-!
# Where the rules of entries stand

The pattern of an entry stands in the pattern of its combination. So what holds of all of a pattern
from some place on, and lasts while a scan goes on, holds from where the pattern of an entry starts
(`Rule.Occurs.entry`), and by induction from where that of any entry below starts
(`Rule.Occurs.reach`). Anonymous texts that stand side by side are one text there: `Rule.chunk`.
-/

namespace Rulebook

open Pattern
open Token (scan scan_cons paren)

namespace Rule

/-- The anonymous texts right before the place after some entries, as one text. -/
def chunk (pending : Bytes) : List (Entry Rule) → Bytes
  | [] => pending
  | ⟨name, r⟩ :: rest =>
      match literal? name r with
      | some literal => chunk (pending ++ literal) rest
      | none => chunk [] rest

theorem reach_append (entries others : List (Entry Rule)) :
    reach (entries ++ others) = reach entries ++ reach others := by
  induction entries with
  | nil => rfl
  | cons e rest ih => rw [List.cons_append, reach_cons, reach_cons, ih, List.cons_append,
      List.append_assoc]

/-- True if the pattern of a rule stands at the start of a rest of some pattern. -/
def Occurs (Q : List Scalar → Prop) (named : Bool) (r : Rule) : Prop :=
  ∃ k, MayFollow k r ∧ Q (assemble named r ++ k).scalars

section

variable {Q : List Scalar → Prop} (lasting : Lasting Q) {named : Bool}

include lasting

/-- An entry that is no anonymous text, behind a text. -/
theorem q_embed {name : Bytes} {r : Rule} (alone : literal? name r = none) {p t : Bytes}
    (h : Q (escape p ++ (embed named name r.kind (assemble named r) ++ t)).scalars) :
    p.isUtf8 = true ∧ Q (embed named name r.kind (assemble named r) ++ t).scalars := by
  obtain ⟨q, start⟩ := embed_open named alone
  rw [start, List.cons_append, Bytes.scalars_append_ascii _ (by decide), ← List.cons_append,
    ← start] at h
  exact ⟨isUtf8_of_scanned lasting p h, (scan_text lasting p _ h).2⟩

/-- The pattern of an entry's rule stands where the entry does. -/
theorem occurs_of_embed {e : Entry Rule} (scannable : Scannable Q e) {t : Bytes}
    (follow : isGrouped e.name e.rule.kind = false → MayFollow t e.rule)
    (h : Q (embed named e.name e.rule.kind (assemble named e.rule) ++ t).scalars) :
    Occurs Q named e.rule := by
  rw [embed_bytes] at h
  by_cases grouped : isGrouped e.name e.rule.kind = true
  · rw [if_pos grouped, List.append_assoc, List.append_assoc,
      Bytes.scalars_ascii_append (opening_ascii scannable.1)] at h
    refine ⟨41 :: t, mayFollow_close t e.rule, ?_⟩
    exact q_enclosed lasting (fun s fresh => scan_opening named scannable.1 fresh)
      (scannable.head?_assemble named) h
  · rw [if_neg grouped] at h
    exact ⟨t, follow (by simpa using grouped), h⟩

/-- Entries one after another, from the entry after some of them on. By induction on the entries
    before it. -/
theorem q_seq {before rest : List (Entry Rule)} (scannable : ∀ e ∈ reach before, Scannable Q e)
    (pending : Bytes) {k : Bytes}
    (h : Q (escape pending ++ ((assembleEntries named (before ++ rest)).flatten ++ 41 :: k)).scalars) :
    Q (escape (chunk pending before) ++ ((assembleEntries named rest).flatten ++ 41 :: k)).scalars := by
  induction before generalizing pending with
  | nil => exact h
  | cons e before ih =>
    obtain ⟨name, r⟩ := e
    rw [reach_cons] at scannable
    obtain ⟨here, below⟩ := List.forall_mem_cons.1 scannable
    rw [List.forall_mem_append] at below
    obtain ⟨below, others⟩ := below
    rw [List.cons_append, assembleEntries, List.flatten_cons, List.append_assoc] at h
    rw [chunk]
    cases found : literal? name r with
    | some literal =>
      obtain ⟨rfl, tag, rfl⟩ := eq_text_of_literal? found
      have joined : embed named [] (text tag literal).kind (assemble named (text tag literal)) =
          escape literal := rfl
      rw [joined, ← List.append_assoc, ← escape_append] at h
      exact ih others _ h
    | none =>
      have follow := head?_append_close (head?_entries named (before ++ rest)) k
      obtain ⟨-, q⟩ := q_embed lasting found h
      obtain ⟨-, q, -⟩ := scan_embed lasting here.1 (here.head?_assemble named)
        (scan_rule lasting named name r here below) (mayFollow_entry found follow) follow q
      exact ih others _ q

/-- Entries with bars between them, from the entry after some of them on. -/
theorem q_choice {before after : List (Entry Rule)} {e : Entry Rule}
    (scannable : ∀ d ∈ reach before, Scannable Q d) {k : Bytes}
    (h : Q (Bytes.join [124] (assembleEntries named (before ++ e :: after)) ++ 41 :: k).scalars) :
    ∃ t, (isGrouped e.name e.rule.kind = false → MayFollow t e.rule) ∧
      Q (embed named e.name e.rule.kind (assemble named e.rule) ++ t).scalars := by
  have follows (d : Entry Rule) (rest : List (Entry Rule)) (alone : isGrouped d.name d.rule.kind = false) :
      MayFollow ((if rest.isEmpty then [] else 124 :: Bytes.join [124] (assembleEntries named rest)) ++
        41 :: k) d.rule := by
    split
    · exact mayFollow_close k d.rule
    · exact mayFollow_bar alone _
  induction before with
  | nil =>
    rw [List.nil_append, join_choice, List.append_assoc] at h
    exact ⟨_, follows e after, h⟩
  | cons d before ih =>
    obtain ⟨name, r⟩ := d
    rw [reach_cons] at scannable
    obtain ⟨here, below⟩ := List.forall_mem_cons.1 scannable
    rw [List.forall_mem_append] at below
    obtain ⟨below, others⟩ := below
    have more : (before ++ e :: after).isEmpty = false := by simp
    have follow := follows ⟨name, r⟩ (before ++ e :: after)
    rw [List.cons_append, join_choice, List.append_assoc] at h
    rw [more, if_neg (by decide), List.cons_append] at h follow
    obtain ⟨-, q, -⟩ := scan_embed lasting here.1 (here.head?_assemble named)
      (scan_rule lasting named name r here below) follow (by simp) h
    rw [Bytes.scalars_cons_ascii (by decide)] at q
    refine ih others (lasting.take [.bar] (List.suffix_cons _ _) (fun y _ => ?_) q)
    rw [List.cons_append, scan_cons]
    rfl

/-- What stands inside the group of a combination. -/
theorem Occurs.inside {tag : Nat} {how : Combinator} {entries : List (Entry Rule)}
    (h : Occurs Q named (combine tag how entries)) :
    ∃ k, Q (Bytes.join how.separator (assembleEntries named entries) ++ 41 :: k).scalars := by
  obtain ⟨k, -, h⟩ := h
  have start : ∀ p : Bytes, Bytes.scalars (40 :: p) = [Scalar.ascii 40] ++ p.scalars :=
    fun p => Bytes.scalars_cons_ascii (by decide) p
  rw [assemble_combine, List.cons_append, List.append_assoc, List.cons_append, start] at h
  have opens : ∀ s, Fresh s → scan ([Scalar.ascii 40] ++ s) = .ok (.capture []) :: scan s := by
    intro s fresh
    rw [List.cons_append, List.nil_append, scan_cons, next_open fresh]
    rfl
  exact ⟨_, q_enclosed lasting opens (head?_join named how entries) h⟩

section

variable {tag : Nat} {how : Combinator} {before after : List (Entry Rule)} {e : Entry Rule}
  (scannable : ∀ d ∈ reach (before ++ e :: after), Scannable Q d)
  (h : Occurs Q named (combine tag how (before ++ e :: after)))
  (alone : literal? e.name e.rule = none)

include scannable h alone

/-- The pattern of an entry that is no anonymous text stands in that of the combination. -/
theorem Occurs.entry : Occurs Q named e.rule := by
  obtain ⟨k, h⟩ := h.inside lasting
  rw [reach_append, List.forall_mem_append, reach_cons] at scannable
  obtain ⟨front, behind⟩ := scannable
  have here := behind e (List.mem_cons_self ..)
  rw [separator_bytes] at h
  by_cases choice : how = .oneOf
  · rw [if_pos choice] at h
    obtain ⟨t, follow, q⟩ := q_choice lasting front h
    exact occurs_of_embed lasting here follow q
  · rw [if_neg choice, join_seq] at h
    have q := q_seq lasting front [] h
    rw [assembleEntries, List.flatten_cons, List.append_assoc] at q
    have follow := head?_append_close (head?_entries named after) k
    exact occurs_of_embed lasting here (mayFollow_entry alone follow) (q_embed lasting alone q).2

/-- The anonymous texts right before such an entry are UTF-8 as one text. -/
theorem Occurs.isUtf8_chunk (sequence : how ≠ .oneOf) : (chunk [] before).isUtf8 = true := by
  obtain ⟨k, h⟩ := h.inside lasting
  rw [reach_append, List.forall_mem_append] at scannable
  rw [separator_bytes, if_neg sequence, join_seq] at h
  have q := q_seq lasting scannable.1 [] h
  rw [assembleEntries, List.flatten_cons, List.append_assoc] at q
  exact (q_embed lasting alone q).1

end

/-- The anonymous texts at the end of a sequence are UTF-8 as one text. -/
theorem Occurs.isUtf8_last {tag : Nat} {how : Combinator} {entries : List (Entry Rule)}
    (scannable : ∀ d ∈ Rule.reach entries, Scannable Q d)
    (h : Occurs Q named (combine tag how entries)) (sequence : how ≠ .oneOf) :
    (chunk [] entries).isUtf8 = true := by
  obtain ⟨k, h⟩ := h.inside lasting
  rw [separator_bytes, if_neg sequence, join_seq, ← List.append_nil entries] at h
  have q := q_seq lasting scannable [] h
  rw [assembleEntries, List.flatten_nil, List.nil_append,
    Bytes.scalars_append_ascii _ (by decide)] at q
  exact isUtf8_of_scanned lasting _ q

/-- The pattern of any entry below that is no anonymous text stands in that of a rule. By induction
    on the rule. -/
theorem Occurs.reach {r : Rule} (scannable : ∀ e ∈ reach r.entries, Scannable Q e)
    (h : Occurs Q named r) : ∀ e ∈ Rule.reach r.entries, literal? e.name e.rule = none →
      Occurs Q named e.rule := by
  induction r using of_entries with
  | step r ih =>
  cases r with
  | regex tag source => exact fun _ mem => by cases mem
  | text tag literal => exact fun _ mem => by cases mem
  | combine tag how entries =>
    intro e mem alone
    obtain ⟨d, here, found⟩ := mem_reach_iff.1 mem
    have below : ∀ e ∈ Rule.reach d.rule.entries, Scannable Q e := fun e deep =>
      scannable e (mem_reach_iff.2 ⟨d, here, .inr deep⟩)
    obtain ⟨before, after, rfl⟩ := List.append_of_mem here
    rcases found with rfl | deep
    · exact h.entry lasting scannable alone
    · have combined : literal? d.name d.rule = none := by
        cases rule : d.rule with
        | text tag literal =>
          rw [rule] at deep
          cases deep
        | _ => rfl
      exact ih d here below (h.entry lasting scannable combined) e deep alone

end

end Rule

end Rulebook
