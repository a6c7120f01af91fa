import Rulebook.Proofs.Pattern.Shape

/-!
# Choices up to the weights noted for them

A computation that uses something up has a result that does not depend on what was used up before,
but for the weights noted in it. `Metered.Agree` relates such computations; the choice between
shapes, with its common beginnings taken out, is one of them.
-/

namespace Rulebook

namespace Pattern

/-- What has been used up on one side, compared with the other, while no steps are counted: as many
    code points as there beside `listed` more, and at most as many nodes beside `made` more. A side
    with more nodes set aside makes no more nodes. -/
structure Usage.Beside (made listed : Nat) (u v : Usage) : Prop where
  unweighed : u.weighing = false ∧ v.weighing = false
  counts : u.counts = v.counts
  made : u.made ≤ v.made + made
  listed : u.listed = v.listed + listed
  spare : v.spare.length ≤ u.spare.length

/-- Two computations whose results are related, whatever has been used up before either, and that
    use up alike. -/
def Metered.Agree {α β : Type} (R : α → β → Prop) (f : Metered α) (g : Metered β) : Prop :=
  ∀ u v, R (f.run u).1 (g.run v).1 ∧
    ∀ made listed, u.Beside made listed v → (f.run u).2.Beside made listed (g.run v).2

namespace Metered

variable {α β γ δ : Type}

theorem Agree.pure {R : α → β → Prop} {a : α} {b : β} (h : R a b) :
    Agree R (Pure.pure a) (Pure.pure b) :=
  fun _ _ => ⟨h, fun _ _ beside => beside⟩

theorem Agree.bind {R : α → β → Prop} {S : γ → δ → Prop} {f : Metered α} {g : Metered β}
    {F : α → Metered γ} {G : β → Metered δ} (first : Agree R f g)
    (then_ : ∀ a b, R a b → Agree S (F a) (G b)) : Agree S (f >>= F) (g >>= G) := by
  intro u v
  obtain ⟨related, beside⟩ := first u v
  obtain ⟨related', beside'⟩ := then_ _ _ related (f.run u).2 (g.run v).2
  exact ⟨related', fun made listed h => beside' made listed (beside made listed h)⟩

/-- Two computations that use up alike, whatever their results. -/
abbrev Alike (f : Metered α) (g : Metered β) : Prop := Agree (fun _ _ => True) f g

theorem Agree.after {S : γ → δ → Prop} {f : Metered α} {g : Metered β} (first : Alike f g)
    {F : α → Metered γ} {G : β → Metered δ} (then_ : ∀ a b, Agree S (F a) (G b)) :
    Agree S (f >>= F) (g >>= G) :=
  first.bind fun a b _ => then_ a b

theorem take_run (u : Usage) : (Usage.take.run u).2 =
    { u with made := if u.spare = [] then u.made + 1 else u.made, spare := u.spare.tail } := by
  obtain ⟨listed, counts, made, spare, weighing⟩ := u
  cases spare <;> rfl

theorem take_alike : Alike Usage.take Usage.take := by
  intro u v
  refine ⟨trivial, fun made listed h => ?_⟩
  rw [take_run, take_run]
  have spare := h.spare
  have atMost := h.made
  refine ⟨h.unweighed, h.counts, ?_, h.listed, by simp; omega⟩
  by_cases empty : u.spare = []
  · have : v.spare = [] := by simpa [empty] using spare
    simp only [empty, this, if_true]
    omega
  · simp only [if_neg empty]
    split <;> omega

theorem putBack_alike (m n : Option Nat) : Alike (Usage.putBack m) (Usage.putBack n) := by
  intro u v
  refine ⟨trivial, fun made listed h => ?_⟩
  exact ⟨h.unweighed, h.counts, h.made, h.listed, Nat.succ_le_succ h.spare⟩

theorem drop_alike (s t : Shape) : Alike (Usage.drop s) (Usage.drop t) := by
  intro u v
  refine ⟨trivial, fun made listed h => ?_⟩
  exact ⟨h.unweighed, h.counts, h.made, h.listed, Nat.succ_le_succ h.spare⟩

theorem Agree.mapM {R : α → β → Prop} {S : γ → δ → Prop} {xs : List α} {ys : List β}
    (h : List.Forall₂ R xs ys) {F : α → Metered γ} {G : β → Metered δ}
    (each : ∀ a b, R a b → Agree S (F a) (G b)) :
    Agree (List.Forall₂ S) (xs.mapM F) (ys.mapM G) := by
  induction h with
  | nil => exact Agree.pure .nil
  | cons first _ ih =>
    rw [List.mapM_cons, List.mapM_cons]
    refine (each _ _ first).bind fun a b head => ih.bind fun as bs tail => ?_
    exact Agree.pure (.cons head tail)

end Metered

namespace Shape

open Metered

theorem weigh_like (s : Shape) (u : Usage) : Like ((Usage.weigh s).run u).1 s := by
  change Like (if u.weighing then s.weighed else s) s
  split
  · exact bare_weighed s
  · exact Like.refl s

theorem weigh_agree {s t : Shape} (h : Like s t) : Agree Like (Usage.weigh s) (Usage.weigh t) :=
  fun u v => ⟨(weigh_like s u).trans (h.trans (weigh_like t v).symm), fun _ _ beside => beside⟩

theorem factor?_bare (s : Shape) : Usage.factor? (bare s) = Usage.factor? s := by
  cases s with
  | repeated count greedy body => cases count <;> rfl
  | _ => rfl

theorem count_run (s : Shape) (u : Usage) : ((Usage.count s).run u).2 =
    { u with counts :=
        match Usage.factor? s with
        | some n => if maxWeight / u.counts < n then maxWeight else u.counts * n
        | none => u.counts } := by
  change (match Usage.factor? s with | some n => _ | none => u) = _
  split <;> rfl

theorem count_alike {s t : Shape} (h : Like s t) : Alike (Usage.count s) (Usage.count t) := by
  have same : Usage.factor? s = Usage.factor? t := by
    rw [← factor?_bare s, h, factor?_bare]
  intro u v
  refine ⟨trivial, fun made listed beside => ?_⟩
  rw [count_run, count_run, same]
  refine ⟨beside.unweighed, ?_, beside.made, beside.listed, beside.spare⟩
  simp only [beside.counts]

theorem weighRest_agree {s t : Shape} (h : Like s t) :
    Agree Like (weighRest s) (weighRest t) :=
  Agree.after (count_alike h) fun _ _ => weigh_agree h

theorem like_cat {ps qs : List Shape} (h : AllLike ps qs) (m n : Option Nat) :
    Like (cat ps m) (cat qs n) := by
  simp [Like, bare, allLike_iff.1 h]

theorem like_alt {ps qs : List Shape} (h : AllLike ps qs) (m n : Option Nat) :
    Like (alt ps m) (alt qs n) := by
  simp [Like, bare, allLike_iff.1 h]

/-- The parts of two concatenations that are alike. -/
theorem Like.cat_inv {ps : List Shape} {m : Option Nat} {t : Shape} (h : Like (cat ps m) t) :
    ∃ qs n, t = cat qs n ∧ AllLike ps qs := by
  cases t with
  | cat qs n => exact ⟨qs, n, rfl, allLike_iff.2 (by simpa [Like, bare] using h)⟩
  | _ => simp [Like, bare] at h

/-- The parts of two choices that are alike. -/
theorem Like.alt_inv {ps : List Shape} {m : Option Nat} {t : Shape} (h : Like (alt ps m) t) :
    ∃ qs n, t = alt qs n ∧ AllLike ps qs := by
  cases t with
  | alt qs n => exact ⟨qs, n, rfl, allLike_iff.2 (by simpa [Like, bare] using h)⟩
  | _ => simp [Like, bare] at h

theorem flatten_agree {ps qs : List Shape} (h : AllLike ps qs) :
    Agree AllLike (flatten ps) (flatten qs) := by
  induction h with
  | nil => exact Agree.pure .nil
  | @cons p q ps qs first _ ih =>
    cases p with
    | alt parts m =>
      obtain ⟨parts', n, rfl, alike⟩ := first.alt_inv
      refine Agree.after (drop_alike _ _) fun _ _ => ih.bind fun _ _ others => ?_
      exact Agree.pure (alike.append others)
    | _ =>
      cases q with
      | alt _ _ => simp [Like, bare] at first
      | _ => exact ih.bind fun _ _ others => Agree.pure (.cons first others)

/-- True of a concatenation. -/
def IsCat (s : Shape) : Prop := ∃ parts noted, s = cat parts noted

theorem Like.not_isCat {s t : Shape} (h : Like s t) (plain : ¬ s.IsCat) : ¬ t.IsCat := by
  rintro ⟨parts, noted, rfl⟩
  obtain ⟨parts', noted', rfl, -⟩ := h.symm.cat_inv
  exact plain ⟨parts', noted', rfl⟩

theorem dropLeadingString_plain (n : Nat) {s : Shape} (plain : ¬ s.IsCat) :
    dropLeadingString n s = pure (dropString n s) := by
  cases s with
  | cat parts noted => exact absurd ⟨parts, noted, rfl⟩ plain
  | _ => rfl

theorem dropLeadingString_agree (n : Nat) {s t : Shape} (h : Like s t) :
    Agree Like (dropLeadingString n s) (dropLeadingString n t) := by
  have cut {s t : Shape} (h : Like s t) : Like (dropString n s) (dropString n t) := by
    simp only [Like, bare_dropString]
    rw [h]
  by_cases isCat : s.IsCat
  · obtain ⟨parts, m, rfl⟩ := isCat
    obtain ⟨parts', m', rfl, alike⟩ := h.cat_inv
    cases alike with
    | nil => exact Agree.pure (cut h)
    | @cons p q ps qs first rest =>
      have first := cut first
      by_cases gone : dropString n p = empty
      · have gone' : dropString n q = empty := by
          rw [gone] at first
          cases hq : dropString n q <;> simp [Like, hq, bare] at first ⊢
        simp only [dropLeadingString, gone, gone']
        cases rest with
        | nil => exact Agree.after (drop_alike _ _) fun _ _ => Agree.pure (Like.refl _)
        | cons second others =>
          cases others with
          | nil =>
            exact Agree.after (drop_alike _ _) fun _ _ =>
              Agree.after (drop_alike _ _) fun _ _ => Agree.pure second
          | cons third others =>
            exact Agree.after (drop_alike _ _) fun _ _ =>
              Agree.pure (like_cat (.cons second (.cons third others)) _ _)
      · have stays {p : Shape} {ps : List Shape} {m : Option Nat} (h : dropString n p ≠ empty) :
            dropLeadingString n (cat (p :: ps) m) = pure (cat (dropString n p :: ps) m) := by
          cases hp : dropString n p with
          | empty => exact absurd hp h
          | _ => simp only [dropLeadingString, hp]
        have gone' : dropString n q ≠ empty := by
          intro gone'
          rw [gone'] at first
          cases hp : dropString n p <;> simp [Like, hp, bare] at first gone
        rw [stays gone, stays gone']
        exact Agree.pure (like_cat (.cons first rest) _ _)
  · rw [dropLeadingString_plain n isCat, dropLeadingString_plain n (h.not_isCat isCat)]
    exact Agree.pure (cut h)

theorem dropLeadingPart_plain (kept : Bool) {s t : Shape} (plain : ¬ s.IsCat)
    (plain' : ¬ t.IsCat) :
    Agree Like (dropLeadingPart kept s) (dropLeadingPart kept t) := by
  have empty_kept {s : Shape} (plain : ¬ s.IsCat) : dropLeadingPart true s =
      (do let _ ← Usage.take; pure empty) := by
    cases s with
    | cat parts noted => exact absurd ⟨parts, noted, rfl⟩ plain
    | _ => rfl
  have empty_dropped {s : Shape} (plain : ¬ s.IsCat) : dropLeadingPart false s =
      (do Usage.drop s; let _ ← Usage.take; pure empty) := by
    cases s with
    | cat parts noted => exact absurd ⟨parts, noted, rfl⟩ plain
    | _ => rfl
  cases kept with
  | true =>
    rw [empty_kept plain, empty_kept plain']
    exact Agree.after take_alike fun _ _ => Agree.pure (Like.refl _)
  | false =>
    rw [empty_dropped plain, empty_dropped plain']
    exact Agree.after (drop_alike _ _) fun _ _ =>
      Agree.after take_alike fun _ _ => Agree.pure (Like.refl _)

theorem dropLeadingPart_cons {p q : Shape} {ps qs : List Shape} (rest : AllLike ps qs)
    (kept : Bool) (m n : Option Nat) :
    Agree Like (dropLeadingPart kept (cat (p :: ps) m)) (dropLeadingPart kept (cat (q :: qs) n)) := by
  -- a part that is not kept is set aside first
  have dropped {F G : Unit → Metered Shape} (h : ∀ a b, Agree Like (F a) (G b)) :
      Agree Like (Usage.drop p >>= F) (Usage.drop q >>= G) :=
    Agree.after (drop_alike _ _) h
  cases rest with
  | nil =>
    cases kept with
    | true => exact Agree.pure (Like.refl _)
    | false => exact dropped fun _ _ => Agree.pure (Like.refl _)
  | cons second others =>
    cases others with
    | nil =>
      cases kept with
      | true => exact Agree.after (drop_alike _ _) fun _ _ => Agree.pure second
      | false =>
        exact dropped fun _ _ => Agree.after (drop_alike _ _) fun _ _ => Agree.pure second
    | cons third others =>
      have left := Agree.pure (like_cat (.cons second (.cons third others)) m n)
      cases kept with
      | true => exact left
      | false => exact dropped fun _ _ => left

theorem dropLeadingPart_agree (kept : Bool) {s t : Shape} (h : Like s t) :
    Agree Like (dropLeadingPart kept s) (dropLeadingPart kept t) := by
  by_cases isCat : s.IsCat
  · obtain ⟨parts, m, rfl⟩ := isCat
    obtain ⟨parts', m', rfl, alike⟩ := h.cat_inv
    cases alike with
    | nil =>
      cases kept with
      | true => exact Agree.after take_alike fun _ _ => Agree.pure (Like.refl _)
      | false =>
        exact Agree.after (drop_alike _ _) fun _ _ =>
          Agree.after take_alike fun _ _ => Agree.pure (Like.refl _)
    | cons first rest => exact dropLeadingPart_cons rest kept m m'
  · exact dropLeadingPart_plain kept isCat (h.not_isCat isCat)

/-- Two groups of shapes with the same string in front. -/
def SameGroup {α : Type} (a b : α × List Shape) : Prop := a.1 = b.1 ∧ AllLike a.2 b.2

theorem sameGroup {α : Type} (lead : α) {ms ns : List Shape} (h : AllLike ms ns) :
    SameGroup (lead, ms.reverse) (lead, ns.reverse) :=
  ⟨rfl, h.reverse⟩

theorem groupByString_go_like {ms ns ps qs : List Shape} (lead : List Nat × Bool)
    (members : AllLike ms ns) (h : AllLike ps qs) :
    List.Forall₂ SameGroup (groupByString.go lead ms ps) (groupByString.go lead ns qs) := by
  induction h generalizing lead ms ns with
  | nil => exact .cons (sameGroup lead members) .nil
  | @cons p q ps qs first rest ih =>
    have same : p.leadingString = q.leadingString := by
      rw [← leadingString_bare p, first, leadingString_bare]
    simp only [groupByString.go, same]
    generalize (if q.leadingString.2 == lead.2 then _ else []) = common
    split
    · exact .cons (sameGroup lead members) (ih _ (.cons first .nil))
    · exact ih _ (.cons first members)

theorem groupByString_like {ps qs : List Shape} (h : AllLike ps qs) :
    List.Forall₂ SameGroup (groupByString ps) (groupByString qs) := by
  cases h with
  | nil => exact .nil
  | @cons p q ps qs first rest =>
    have same : p.leadingString = q.leadingString := by
      rw [← leadingString_bare p, first, leadingString_bare]
    simp only [groupByString, same]
    exact groupByString_go_like _ (.cons first .nil) rest

/-- Two groups of shapes whose first parts are alike. -/
def LikeGroup (a b : Option Shape × List Shape) : Prop :=
  a.1.map bare = b.1.map bare ∧ AllLike a.2 b.2

theorem groupByPart_go_like {ms ns ps qs : List Shape} {l l' : Option Shape}
    (lead : l.map bare = l'.map bare) (members : AllLike ms ns) (h : AllLike ps qs) :
    List.Forall₂ LikeGroup (groupByPart.go l ms ps) (groupByPart.go l' ns qs) := by
  induction h generalizing l l' ms ns with
  | nil => exact .cons ⟨lead, members.reverse⟩ .nil
  | @cons p q ps qs first rest ih =>
    have same : p.leadingPart.map bare = q.leadingPart.map bare := by
      rw [← leadingPart_bare p, first, leadingPart_bare]
    unfold groupByPart.go
    cases l with
    | none =>
      cases l' with
      | none => exact .cons ⟨rfl, members.reverse⟩ (ih same (.cons first .nil))
      | some _ => simp at lead
    | some a =>
      cases l' with
      | none => simp at lead
      | some b =>
        cases hp : p.leadingPart with
        | none =>
          cases hq : q.leadingPart with
          | none =>
            exact .cons ⟨lead, members.reverse⟩ (ih rfl (.cons first .nil))
          | some _ => simp [hp, hq] at same
        | some c =>
          cases hq : q.leadingPart with
          | none => simp [hp, hq] at same
          | some d =>
            simp only [hp, hq, Option.map_some, Option.some.injEq] at same lead
            have starts : sameStart a c = sameStart b d := by
              rw [← sameStart_bare a c, lead, same, sameStart_bare]
            simp only [starts]
            split
            · exact ih (by simp [lead]) (.cons first members)
            · exact .cons ⟨by simp [lead], members.reverse⟩ (ih (by simp [same]) (.cons first .nil))

theorem groupByPart_like {ps qs : List Shape} (h : AllLike ps qs) :
    List.Forall₂ LikeGroup (groupByPart ps) (groupByPart qs) := by
  cases h with
  | nil => exact .nil
  | @cons p q ps qs first rest =>
    refine groupByPart_go_like ?_ (.cons first .nil) rest
    rw [← leadingPart_bare p, first, leadingPart_bare]

theorem Like.clean {s t : Shape} (h : Like s t) : Like s.clean t.clean := by
  simp only [Like, bare_clean]
  rw [h]

theorem Like.oneOf? {s t : Shape} (h : Like s t) : s.oneOf? = t.oneOf? := by
  rw [← oneOf?_bare s, h, oneOf?_bare]

theorem Like.merge {a b c d : Shape} (h : Like a c) (h' : Like b d) (s t : CharSet) :
    Like (merge a b s t) (merge c d s t) := by
  simp only [Like, bare_merge]
  rw [h, h']

theorem joinChars_go_agree {l l' : Shape} (last : Like l l') (joined : Bool) {ps qs : List Shape}
    (h : AllLike ps qs) :
    Agree AllLike (joinChars.go l joined ps) (joinChars.go l' joined qs) := by
  have ended {l l' : Shape} (last : Like l l') (joined : Bool) :
      Like (if joined then l.clean else l) (if joined then l'.clean else l') := by
    split
    · exact last.clean
    · exact last
  induction h generalizing l l' joined with
  | nil => exact Agree.pure (.cons (ended last joined) .nil)
  | @cons p q ps qs first rest ih =>
    unfold joinChars.go
    rw [← last.oneOf?, ← first.oneOf?]
    split
    · exact Agree.after (drop_alike _ _) fun _ _ => ih (last.merge first _ _) true
    · refine (ih first false).bind fun _ _ others => ?_
      exact Agree.pure (.cons (ended last joined) others)

theorem joinChars_agree {ps qs : List Shape} (h : AllLike ps qs) :
    Agree AllLike (joinChars ps) (joinChars qs) := by
  cases h with
  | nil => exact Agree.pure .nil
  | cons first rest => exact joinChars_go_agree first false rest

theorem joinEmpty_like {ps qs : List Shape} (h : AllLike ps qs) :
    AllLike (joinEmpty ps) (joinEmpty qs) := by
  have empty_of {s : Shape} (h : Like empty s) : s = empty := by
    cases s <;> simp [Like, bare] at h ⊢
  induction ps using joinEmpty.induct generalizing qs with
  | case1 rest ih =>
    cases h with
    | cons first h =>
      cases h with
      | cons second h =>
        rw [empty_of first, empty_of second]
        exact (ih (.cons (Like.refl empty) h) :)
  | case2 part rest sole ih =>
    cases h with
    | @cons _ other _ others first h =>
      rw [joinEmpty, joinEmpty]
      · exact .cons first (ih h)
      · rintro rest' rfl rfl
        cases h with
        | cons second h => exact sole _ (empty_of first.symm) (by rw [empty_of second.symm])
      · exact sole
  | case3 =>
    cases h
    exact .nil

/-- What is left of some alternatives, as a choice behind what they have in common. -/
theorem factored_agree {depth : Nat}
    (ih : ∀ {ps qs : List Shape}, AllLike ps qs → Agree Like (choose depth ps) (choose depth qs))
    {first first' : Shape} (same : Like first first') {rests rests' : List Shape}
    (h : AllLike rests rests') :
    Agree Like
      (do
        let suffix ← choose depth rests
        pure (cat [first, suffix] (← Usage.take)))
      (do
        let suffix ← choose depth rests'
        pure (cat [first', suffix] (← Usage.take))) :=
  (ih h).bind fun _ _ suffix => Agree.after take_alike fun _ _ =>
    Agree.pure (like_cat (.cons same (.cons suffix .nil)) _ _)

/-- A choice does not see weights or numbers. -/
theorem choose_agree (depth : Nat) {ps qs : List Shape} (h : AllLike ps qs) :
    Agree Like (choose depth ps) (choose depth qs) := by
  induction depth generalizing ps qs with
  | zero => exact Agree.pure (like_alt h _ _)
  | succ depth ih =>
    have many {ps qs : List Shape} (h : AllLike ps qs) (several : ∀ p, ps ≠ [p])
        (several' : ∀ q, qs ≠ [q]) :
        Agree Like (choose (depth + 1) ps) (choose (depth + 1) qs) := by
      rw [choose, choose]
      rotate_left
      · exact several'
      · exact several
      refine Agree.after take_alike fun noted noted' => (flatten_agree h).bind fun _ _ flat => ?_
      refine (Agree.mapM (S := Like) (groupByString_like flat) ?_).bind fun _ _ strings =>
        (Agree.mapM (S := Like) (groupByPart_like strings) ?_).bind fun _ _ starts =>
          (joinChars_agree starts).bind fun _ _ joined => ?_
      · rintro ⟨lead, ms⟩ ⟨lead', ns⟩ ⟨same, members⟩
        obtain rfl : lead = lead' := same
        have rests {ms ns : List Shape} (members : AllLike ms ns) :=
          Agree.mapM (S := Like) members fun _ _ like =>
            (dropLeadingString_agree lead.1.length like).bind fun _ _ => weighRest_agree
        cases members with
        | nil =>
          exact Agree.after take_alike fun _ _ => (rests .nil).bind fun _ _ => factored_agree ih rfl
        | cons first others =>
          cases others with
          | nil => exact Agree.pure first
          | cons second others =>
            exact Agree.after take_alike fun _ _ =>
              (rests (.cons first (.cons second others))).bind fun _ _ => factored_agree ih rfl
      · rintro ⟨lead, ms⟩ ⟨lead', ns⟩ ⟨same, members⟩
        cases members with
        | nil => cases lead <;> cases lead' <;> exact Agree.pure (Like.refl _)
        | cons first others =>
          cases others with
          | nil => cases lead <;> cases lead' <;> exact Agree.pure first
          | cons second others =>
            cases lead with
            | none =>
              cases lead' with
              | none => exact Agree.pure first
              | some _ => simp at same
            | some a =>
              cases lead' with
              | none => simp at same
              | some b =>
                refine (dropLeadingPart_agree true first).bind fun _ _ left =>
                  (weighRest_agree left).bind fun _ _ left => ?_
                refine (Agree.mapM (S := Like) (.cons second others) fun _ _ like =>
                  (dropLeadingPart_agree false like).bind fun _ _ => weighRest_agree).bind
                    fun _ _ rests => ?_
                exact factored_agree ih (Option.some.inj same) (.cons left rests)
      · have rest := joinEmpty_like joined
        revert rest
        generalize joinEmpty _ = xs
        generalize joinEmpty _ = ys
        intro rest
        cases rest with
        | nil => exact Agree.pure (like_alt .nil _ _)
        | cons first others =>
          cases others with
          | nil => exact Agree.after (putBack_alike _ _) fun _ _ => Agree.pure first
          | cons second others => exact Agree.pure (like_alt (.cons first (.cons second others)) _ _)
    cases h with
    | nil => exact many .nil (by simp) (by simp)
    | cons first rest =>
      cases rest with
      | nil => exact Agree.pure first
      | cons second rest => exact many (.cons first (.cons second rest)) (by simp) (by simp)

end Shape

end Pattern

end Rulebook
