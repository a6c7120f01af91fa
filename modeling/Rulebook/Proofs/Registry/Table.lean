import Mathlib.Data.Finmap
import Rulebook.Proofs.Registry.Laws

/-!
# Registries in two parts

A registry can be kept as a map from names to rules beside the list of the names, in the order in
which they were first set. Both parts are written by hand, a missing rule could get into the map, and
a registry may be merged into itself while its map is written. However registries are made, set,
copied and merged, the two parts stay in step, and they are those of the registry that is one list of
entries (`Registry.run_consistent`).
-/

namespace Rulebook

namespace Registry

/-- What can be done to registries, each of which is called by its number: the first one that was
    made or copied is called zero. -/
inductive Command where
  /-- Makes a registry without rules. -/
  | new
  /-- Sets a rule, or none, under a name. -/
  | set (target : Nat) (name : Bytes) (rule : Option Rule)
  /-- Copies a registry. -/
  | clone (source : Nat)
  /-- Merges one registry into another or into itself. -/
  | merge (target source : Nat)

/-- The registry after a rule has been set or refused. -/
def assign (name : Bytes) (rule? : Option Rule) (r : Registry) : Registry :=
  match r.set name rule? with
  | .ok s => s
  | .error _ => r

/-- The registries after one command. A number that no registry has is passed over. -/
def step (rs : List Registry) : Command → List Registry
  | .new => rs ++ [empty]
  | .set i name rule? => rs.modify i (assign name rule?)
  | .clone i => rs ++ rs[i]?.toList
  | .merge i j => (rs[j]?.map fun other => rs.modify i (·.merge other)).getD rs

/-- The registries that some commands make. -/
def run (commands : List Command) : List Registry := commands.foldl step []

/-- A registry in two parts. A map from names to rules may hold the name of a missing rule. -/
structure Table where
  rules : Finmap fun _ : Bytes => Option Rule
  order : List Bytes

namespace Table

/-- The table without rules. -/
def empty : Table := ⟨∅, []⟩

/-- Sets a rule under a name, and reports what is wrong with them if they are refused. -/
def set (t : Table) (name : Bytes) (rule? : Option Rule) : Option Error × Table :=
  if isValidName name = false then (some (.registration name .invalidName), t)
  else if rule?.isNone then (some (.registration name .missingRule), t)
  else
    let order := if name ∈ t.rules then t.order else t.order ++ [name]
    (none, ⟨t.rules.insert name rule?, order⟩)

/-- A table with a map of its own, into which every rule is written. -/
def clone (t : Table) : Table := ⟨∅ ∪ t.rules, t.order⟩

/-- Sets a rule in one of several tables. -/
def assign (ts : List Table) (i : Nat) (name : Bytes) (rule? : Option Rule) : List Table :=
  ts.modify i fun t => (t.set name rule?).2

/-- The rule that a name has in one of several tables. There is none if the name is unknown. -/
def fetch (ts : List Table) (j : Nat) (name : Bytes) : Option Rule :=
  (ts[j]?.bind fun t => t.rules.lookup name).join

/-- Sets every rule of one table in another, in its order. The order is read at the start, each rule
    when its turn comes. -/
def mergeInto (ts : List Table) (i j : Nat) : List Table :=
  ((ts[j]?.map Table.order).getD []).foldl (fun ts name => assign ts i name (fetch ts j name)) ts

/-- The tables after one command. -/
def step (ts : List Table) : Command → List Table
  | .new => ts ++ [empty]
  | .set i name rule? => assign ts i name rule?
  | .clone i => ts ++ (ts[i]?.map clone).toList
  | .merge i j => mergeInto ts i j

/-- The tables that some commands make. -/
def run (commands : List Command) : List Table := commands.foldl step []

/-- True of a table whose parts are in step, with valid names only and no missing rule. -/
structure Consistent (t : Table) : Prop where
  nodup : t.order.Nodup
  keys : ∀ name, name ∈ t.order ↔ name ∈ t.rules
  valid : ∀ name ∈ t.order, isValidName name = true
  present : ∀ name ∈ t.order, ∃ rule, t.rules.lookup name = some (some rule)

/-- The two parts of a registry. -/
def ofRegistry (r : Registry) : Table :=
  ⟨(r.entries.map fun e => ⟨e.name, some e.rule⟩).toFinmap, r.names⟩

/-! ### One table -/

variable {r other : Registry} {name : Bytes} {rule? : Option Rule}

theorem lookup_ofRegistry (r : Registry) (n : Bytes) :
    (ofRegistry r).rules.lookup n = (r.get? n).map some := by
  rcases r with ⟨es⟩
  rw [ofRegistry, Finmap.dlookup_list_toFinmap]
  induction es with
  | nil => rfl
  | cons e es ih =>
    rw [get?_cons, List.map_cons]
    by_cases same : n = e.name
    · subst same
      rw [if_pos rfl, List.dlookup_cons_eq]
      rfl
    · rw [if_neg same, List.dlookup_cons_ne _ _ same, ih]

theorem mem_rules_ofRegistry : name ∈ (ofRegistry r).rules ↔ name ∈ r.names := by
  rw [← Finmap.lookup_isSome, lookup_ofRegistry, Option.isSome_map, mem_names_iff]

/-- Tables with the same order and the same rules are the same. -/
theorem ext_lookup {t u : Table} (rules : ∀ n, t.rules.lookup n = u.rules.lookup n)
    (order : t.order = u.order) : t = u := by
  rcases t with ⟨rules', order'⟩
  rcases u with ⟨rules'', order''⟩
  rw [show rules' = rules'' from Finmap.ext_lookup rules, show order' = order'' from order]

theorem consistent_ofRegistry (h : r.Tidy) : (ofRegistry r).Consistent where
  nodup := h.nodup
  keys _ := mem_rules_ofRegistry.symm
  valid := h.valid
  present name mem := by
    rcases Option.isSome_iff_exists.1 (mem_names_iff.1 mem) with ⟨rule, found⟩
    exact ⟨rule, by rw [lookup_ofRegistry, found]; rfl⟩

theorem clone_eq (t : Table) : t.clone = t := by
  rw [clone, Finmap.empty_union]

/-- A table refuses what the registry refuses, for the same reason, and takes what it takes. -/
theorem set_ofRegistry (r : Registry) (name : Bytes) (rule? : Option Rule) :
    (ofRegistry r).set name rule? =
      match r.set name rule? with
      | .ok s => (none, ofRegistry s)
      | .error e => (some e, ofRegistry r) := by
  cases valid : isValidName name with
  | false => cases rule? <;> simp [set, Registry.set, valid]
  | true =>
    cases rule? with
    | none => simp [set, Registry.set, valid]
    | some rule =>
      have written : (⟨(ofRegistry r).rules.insert name (some rule),
          if name ∈ (ofRegistry r).rules then r.names else r.names ++ [name]⟩ : Table) =
          ofRegistry (r.insert name rule) := by
        apply ext_lookup
        · intro n
          rw [lookup_ofRegistry, get?_insert]
          by_cases same : n = name
          · rw [if_pos same, same, Finmap.lookup_insert]
            rfl
          · rw [if_neg same, Finmap.lookup_insert_of_ne _ same, lookup_ofRegistry]
        · change (if name ∈ (ofRegistry r).rules then r.names else r.names ++ [name]) =
            (r.insert name rule).names
          simp only [names_insert, mem_rules_ofRegistry]
      simp only [set, Registry.set, valid, if_true, Option.isNone_some, Bool.false_eq_true,
        if_false, ← written]
      rfl

theorem assign_ofRegistry (r : Registry) (name : Bytes) (rule? : Option Rule) :
    ((ofRegistry r).set name rule?).2 = ofRegistry (r.assign name rule?) := by
  rw [set_ofRegistry, Registry.assign]
  cases r.set name rule? <;> rfl

/-! ### Several tables -/

variable {rs : List Registry} {i j : Nat}

theorem map_modify {α β : Type} {f : α → β} {g : α → α} {g' : β → β}
    (same : ∀ a, g' (f a) = f (g a)) (as : List α) (i : Nat) :
    (as.map f).modify i g' = (as.modify i g).map f := by
  induction as generalizing i with
  | nil => rw [List.map_nil, List.modify_nil, List.modify_nil, List.map_nil]
  | cons a as ih =>
    cases i with
    | zero => simp only [List.map_cons, List.modify_zero_cons, same]
    | succ i => simp only [List.map_cons, List.modify_succ_cons, ih]

theorem modify_of_fixed {α : Type} {f : α → α} {a : α} (fixed : f a = a) {as : List α} {i : Nat}
    (here : as[i]? = some a) : as.modify i f = as := by
  induction as generalizing i with
  | nil => exact List.modify_nil f i
  | cons b as ih =>
    cases i with
    | zero =>
      rw [List.getElem?_cons_zero, Option.some.injEq] at here
      rw [List.modify_zero_cons, here, fixed]
    | succ i => rw [List.modify_succ_cons, ih (by rwa [List.getElem?_cons_succ] at here)]

theorem assign_map (rs : List Registry) (i : Nat) (name : Bytes) (rule? : Option Rule) :
    assign (rs.map ofRegistry) i name rule? =
      (rs.modify i (Registry.assign name rule?)).map ofRegistry :=
  map_modify (fun r => assign_ofRegistry r name rule?) rs i

theorem fetch_map (here : rs[j]? = some other) (name : Bytes) :
    fetch (rs.map ofRegistry) j name = other.get? name := by
  rw [fetch, List.getElem?_map, here, Option.map_some, Option.bind_some, lookup_ofRegistry]
  cases other.get? name <;> rfl

/-- What a table sets in another one is not changed by setting it. -/
theorem foldl_assign_other (distinct : i ≠ j) {es : List (Entry Rule)}
    (known : ∀ e ∈ es, isValidName e.name = true ∧ other.get? e.name = some e.rule)
    (here : rs[j]? = some other) :
    (es.map Entry.name).foldl (fun ts name => assign ts i name (fetch ts j name))
        (rs.map ofRegistry) =
      (rs.modify i fun r => es.foldl (fun r e => r.insert e.name e.rule) r).map ofRegistry := by
  induction es generalizing rs with
  | nil =>
    have none : (fun r : Registry => ([] : List (Entry Rule)).foldl
        (fun r e => r.insert e.name e.rule) r) = id := rfl
    rw [none, List.modify_id]
    rfl
  | cons e es ih =>
    rcases List.forall_mem_cons.1 known with ⟨⟨valid, found⟩, known⟩
    have put : Registry.assign e.name (some e.rule) = (·.insert e.name e.rule) := by
      funext r
      rw [Registry.assign, Registry.set, if_pos valid]
    rw [List.map_cons, List.foldl_cons, fetch_map here, found, assign_map, put,
      ih known (by rwa [List.getElem?_modify_ne _ _ distinct]), List.modify_modify_eq]
    rfl

/-- A table that sets its own rules stays as it is. -/
theorem foldl_assign_self {r : Registry} (h : r.Tidy) (here : rs[i]? = some r) {names : List Bytes}
    (known : ∀ name ∈ names, name ∈ r.names) :
    names.foldl (fun ts name => assign ts i name (fetch ts i name)) (rs.map ofRegistry) =
      rs.map ofRegistry := by
  induction names with
  | nil => rfl
  | cons name names ih =>
    rcases List.forall_mem_cons.1 known with ⟨mem, known⟩
    rcases Option.isSome_iff_exists.1 (mem_names_iff.1 mem) with ⟨rule, found⟩
    have same : r.assign name (some rule) = r := by
      rw [Registry.assign, Registry.set, if_pos (h.valid name mem)]
      apply Eq.symm
      apply ext_names h
      · rw [names_insert, if_pos mem]
      · intro n
        rw [get?_insert]
        by_cases here : n = name
        · rw [if_pos here, here, found]
        · rw [if_neg here]
    rw [List.foldl_cons, fetch_map here, found, assign_map,
      modify_of_fixed same here]
    exact ih known

/-- One command does to tables what it does to the registries they are the parts of. -/
theorem step_map (tidy : ∀ r ∈ rs, r.Tidy) (command : Command) :
    step (rs.map ofRegistry) command = (Registry.step rs command).map ofRegistry := by
  cases command with
  | new =>
    rw [step, Registry.step, List.map_append]
    rfl
  | set i name rule? => exact assign_map rs i name rule?
  | clone i =>
    rw [step, Registry.step, List.map_append, List.getElem?_map]
    cases rs[i]? with
    | none => rfl
    | some r => simp only [Option.map_some, clone_eq]; rfl
  | merge i j =>
    rw [step, Registry.step, mergeInto, List.getElem?_map]
    cases here : rs[j]? with
    | none => rfl
    | some other =>
      have h := tidy other (List.mem_of_getElem? here)
      change other.names.foldl _ _ = (rs.modify i (·.merge other)).map ofRegistry
      by_cases distinct : i = j
      · subst distinct
        have same : rs.modify i (·.merge other) = rs :=
          modify_of_fixed (f := (·.merge other)) (merge_self h) here
        rw [same, foldl_assign_self h here fun name mem => mem]
      · apply foldl_assign_other distinct _ here
        intro e mem
        exact ⟨h.valid _ (List.mem_map_of_mem mem), get?_of_mem h.nodup mem⟩

/-! ### Runs -/

end Table

theorem mem_modify {α : Type} {f : α → α} {as : List α} {i : Nat} {b : α} (mem : b ∈ as.modify i f) :
    b ∈ as ∨ ∃ a ∈ as, b = f a := by
  induction as generalizing i with
  | nil =>
    rw [List.modify_nil] at mem
    exact .inl mem
  | cons a as ih =>
    cases i with
    | zero =>
      rw [List.modify_zero_cons] at mem
      rcases List.mem_cons.1 mem with same | mem
      · exact .inr ⟨a, List.mem_cons_self .., same⟩
      · exact .inl (List.mem_cons_of_mem _ mem)
    | succ i =>
      rw [List.modify_succ_cons] at mem
      rcases List.mem_cons.1 mem with rfl | mem
      · exact .inl (List.mem_cons_self ..)
      · rcases ih mem with mem | ⟨c, mem, same⟩
        · exact .inl (List.mem_cons_of_mem _ mem)
        · exact .inr ⟨c, List.mem_cons_of_mem _ mem, same⟩

/-- A refused rule leaves the registry as it was, and one that is taken has a valid name. -/
theorem Tidy.assign {r : Registry} (h : r.Tidy) (name : Bytes) (rule? : Option Rule) :
    (r.assign name rule?).Tidy := by
  rw [Registry.assign]
  cases done : r.set name rule? with
  | error => exact h
  | ok s =>
    rcases set_eq_ok_iff.1 done with ⟨rule, -, valid, rfl⟩
    exact h.insert valid

theorem tidy_step {rs : List Registry} (tidy : ∀ r ∈ rs, r.Tidy) (command : Command) :
    ∀ r ∈ step rs command, r.Tidy := by
  intro s mem
  cases command with
  | new =>
    rcases List.mem_append.1 mem with mem | mem
    · exact tidy s mem
    · rw [List.mem_singleton.1 mem]
      exact tidy_empty
  | set i name rule? =>
    rcases mem_modify mem with mem | ⟨r, before, rfl⟩
    · exact tidy s mem
    · exact (tidy r before).assign name rule?
  | clone i =>
    rcases List.mem_append.1 mem with mem | mem
    · exact tidy s mem
    · exact tidy s (List.mem_of_getElem? (Option.mem_toList.1 mem))
  | merge i j =>
    rw [step] at mem
    cases here : rs[j]? with
    | none =>
      rw [here] at mem
      exact tidy s mem
    | some other =>
      rw [here] at mem
      rcases mem_modify mem with mem | ⟨r, before, rfl⟩
      · exact tidy s mem
      · exact (tidy r before).merge (tidy other (List.mem_of_getElem? here))

theorem run_concat (commands : List Command) (command : Command) :
    run (commands ++ [command]) = step (run commands) command := by
  rw [run, List.foldl_append]
  rfl

theorem Table.run_concat (commands : List Command) (command : Command) :
    Table.run (commands ++ [command]) = Table.step (Table.run commands) command := by
  rw [Table.run, List.foldl_append]
  rfl

theorem tidy_run (commands : List Command) : ∀ r ∈ run commands, r.Tidy := by
  induction commands using List.reverseRecOn with
  | nil => exact nofun
  | append_singleton commands command ih =>
    rw [run_concat]
    exact tidy_step ih command

/-- A run on tables makes the two parts of the registries that the same run makes. -/
theorem run_tables (commands : List Command) :
    Table.run commands = (run commands).map Table.ofRegistry := by
  induction commands using List.reverseRecOn with
  | nil => rfl
  | append_singleton commands command ih =>
    rw [Table.run_concat, run_concat, ih, Table.step_map (tidy_run commands)]

/-- What setting a rule does to a registry and to its two parts. A refused rule leaves both parts as
    they were. One that is taken changes what stands under its own name only, and keeps the order or
    appends the name. -/
def SetsAlone (r : Registry) (name : Bytes) (rule? : Option Rule) : Prop :=
  match r.set name rule? with
  | .error e => (Table.ofRegistry r).set name rule? = (some e, Table.ofRegistry r)
  | .ok s =>
      (Table.ofRegistry r).set name rule? = (none, Table.ofRegistry s) ∧
        (∀ n, s.get? n = if n = name then rule? else r.get? n) ∧
        (s.names = r.names ∨ name ∉ r.names ∧ s.names = r.names ++ [name])

theorem setsAlone (r : Registry) (name : Bytes) (rule? : Option Rule) : r.SetsAlone name rule? := by
  have parts := Table.set_ofRegistry r name rule?
  rw [SetsAlone]
  cases done : r.set name rule? with
  | error e =>
    rw [done] at parts
    exact parts
  | ok s =>
    rw [done] at parts
    rcases set_eq_ok_iff.1 done with ⟨rule, rfl, -, rfl⟩
    refine ⟨parts, get?_insert r name rule, ?_⟩
    rw [names_insert]
    by_cases known : name ∈ r.names
    · exact .inl (if_pos known)
    · exact .inr ⟨known, if_neg known⟩

/-- However registries are made, set, copied and merged, the map and the order of each stay in step,
    and they are the parts of one list of entries. Setting a rule changes nothing else, and merging is
    idempotent and associative: it appends the new names of the other registry in their order and takes
    over all of its rules. -/
theorem run_consistent (commands : List Command) :
    Table.run commands = (run commands).map Table.ofRegistry ∧
      (∀ t ∈ Table.run commands, t.Consistent) ∧
      ∀ a ∈ run commands,
        (∀ name rule?, a.SetsAlone name rule?) ∧
        a.merge a = a ∧
        ∀ b ∈ run commands,
          (a.merge b).names = a.names ++ b.names.filter (· ∉ a.names) ∧
          (∀ n, (a.merge b).get? n = (b.get? n).or (a.get? n)) ∧
          (a.merge b).merge b = a.merge b ∧
          ∀ c ∈ run commands, (a.merge b).merge c = a.merge (b.merge c) := by
  have tidy := tidy_run commands
  refine ⟨run_tables commands, fun t mem => ?_, fun a ha => ⟨a.setsAlone, merge_self (tidy a ha), ?_⟩⟩
  · rw [run_tables, List.mem_map] at mem
    rcases mem with ⟨r, mem, rfl⟩
    exact Table.consistent_ofRegistry (tidy r mem)
  · intro b hb
    refine ⟨names_merge (tidy b hb) a, get?_merge (tidy b hb) a,
      merge_merge_self (tidy a ha) (tidy b hb), ?_⟩
    intro c hc
    exact merge_assoc (tidy a ha) (tidy b hb) (tidy c hc)

/-- Two registries with a name in common, merged into each other and into a copy. -/
example :
    (run [.new, .set 0 "a" (some (.text 1 "x")), .set 0 "b" (some (.text 2 "y")), .clone 0,
      .set 1 "c" (some (.text 3 "z")), .set 1 "a" none, .set 1 "a" (some (.text 4 "w")),
      .merge 0 1, .merge 0 0]).map names =
      [[("a" : Bytes), "b", "c"], [("a" : Bytes), "b", "c"]] := by
  decide

end Registry

end Rulebook
