import StateSpace.Proofs.Coverage
import StateSpace.Proofs.Traces

/-!
# Checking while exploring is exploring, then scanning

A check stops at the first discovery at which a predicate does not hold. That is the first such
configuration in the store of the whole exploration, which goes on behind it: what is discovered
later is stored behind, and it leaves the path to each earlier configuration alone.
-/

namespace StateSpace

theorem Forest.extends_cons {K C A : Type} [DecidableEq K] (f : Forest K C A) (n : Node K C A)
    (h : f.contains n.key = false) : f.Extends ⟨n :: f.nodes⟩ :=
  ⟨[n], rfl, by simpa using h⟩

namespace Search

variable {C K A E : Type} [DecidableEq K] {s : Search C K A E} {r r' : Run C K A E}

theorem Sound.move_extends {o : Option (Signal C K A E)} (h : s.Sound r) (hm : s.Move r r' o) :
    r.forest.Extends r'.forest := by
  by_cases ho : ∃ c, o = some (.discovered c)
  · obtain ⟨c, rfl⟩ := ho
    cases hm with
    | overBudget _ _ _ _ hs => exact absurd hs (s.exceed_ne_discovered _ _ c)
    | overTime _ _ _ hs => exact absurd hs (s.exceed_ne_discovered _ _ c)
    | @root _ rest fault k _ _ hc _ =>
        have hnew : r.forest.contains k = false := (h.history.contains_eq k).trans hc
        change r.forest.Extends (r.forest.addRoot k c)
        rw [r.forest.addRoot_of_new c hnew]
        exact r.forest.extends_cons _ hnew
    | @child source edge rest fault k forest _ _ hc _ hf =>
        have hnew : r.forest.contains k = false := (h.history.contains_eq k).trans hc
        obtain ⟨-, rfl⟩ := h.history.record?_of_new hc hf
        exact r.forest.extends_cons _ hnew
  · obtain ⟨-, hforest⟩ := hm.unchanged fun c hc => ho ⟨c, hc⟩
    rw [hforest]
    exact .refl _

theorem Session.next_extends (hr : s.Session r) : r.forest.Extends (s.next r).1.forest := by
  have hboth : s.Sound (s.next r).1 ∧ r.forest.Extends (s.next r).1.forest :=
    (s.next_leads r).invariant (P := fun q => s.Sound q ∧ r.forest.Extends q.forest)
      (fun _ _ _ hq hm => ⟨hq.1.move hm, hq.2.trans (hq.1.move_extends hm)⟩) ⟨hr.sound, .refl _⟩
  exact hboth.2

theorem Discovers.extends {found : List C} (h : s.Discovers r found r') (hr : s.Session r) :
    r.forest.Extends r'.forest := by
  induction h with
  | nil => exact .refl _
  | cons hn _ ih =>
      have hgrown := hr.next_extends
      rw [← nextWith_answers, hn] at hgrown
      exact hgrown.trans (ih (hr.of_next hn))

/-- Later discoveries leave the path to a stored configuration alone. -/
theorem Session.traceback_eq_of_extends {forest : Forest K C A} {c : C} (hr : s.Session r)
    (hc : c ∈ r.store.toList) (h : r.forest.Extends forest) :
    s.traceback forest c = s.traceback r.forest c := by
  obtain ⟨k, hk⟩ := r.store.mem_toList.mp hc
  have hid := hr.sound.history.identify_of_mem hk
  cases k with
  | none => simp [traceback, hid, Forest.steps?, Forest.contains]
  | some a =>
      have hknown : r.forest.contains (some a) = true :=
        (hr.sound.history.contains_eq _).trans (r.store.contains_of_mem hk)
      simp only [traceback, hid, h.steps?_eq c hknown]

/-- An exploration that returns has made its discoveries in the order of its store. -/
theorem discovers_of_exhaust {start : Rat} {fuel : Nat} {R : Run C K A E}
    (h : s.exhaust fuel (.initial start) = some (R, none)) :
    ∃ r₁, s.Discovers (.initial start) R.store.toList r₁ ∧ R.store.toList.length < fuel ∧
      s.next r₁ = (R, .done) ∧ R.forest = r₁.forest := by
  obtain ⟨found, r₁, signal, hd, hlen, hn, hends⟩ := exhaust_eq_some.mp h
  cases hends with
  | done =>
      obtain ⟨hstore, hforest⟩ := (leads_of_next hn).unchanged (by simp)
      have hfound : R.store.toList = found := by
        rw [hstore, hd.toList_eq]
        rfl
      rw [hfound]
      exact ⟨r₁, hd, hlen, hn, hforest⟩

variable {predicates : List (Predicate C E)}

/-- A check stops at the first discovery at which a predicate does not hold. -/
theorem checkAll_stops {before after : List C} {c : C} {fuel : Nat} (hr : s.Session r)
    (h : s.Discovers r (before ++ c :: after) r') (hfuel : before.length < fuel)
    (hbefore : ∀ d ∈ before, Predicate.firstFailing d predicates = none)
    (hc : Predicate.firstFailing c predicates ≠ none) :
    ∃ r₂, s.Session r₂ ∧ r₂.store.toList = r.store.toList ++ before ++ [c] ∧
      r₂.forest.Extends r'.forest ∧
      s.checkAll predicates fuel r = s.settle predicates r₂ (.discovered c) := by
  obtain ⟨r₁, r₂, hd, hn, hafter⟩ := h.split
  have hsession : s.Session r₂ := (hd.session hr).of_next hn
  have hlist : r₂.store.toList = r.store.toList ++ before ++ [c] := by
    obtain ⟨k, -, -, hstore, -⟩ := (leads_of_next hn).discovers
    rw [hstore, Store.toList_push, hd.toList_eq]
  refine ⟨r₂, hsession, hlist, hafter.extends hsession, ?_⟩
  cases hs : s.settle predicates r₂ (.discovered c) with
  | none =>
      obtain ⟨d, hd, hnone⟩ := settle_eq_none.mp hs
      cases hd
      exact absurd hnone hc
  | some answer => exact checkAll_eq_some.mpr ⟨before, r₁, r₂, _, hd, hfuel, hbefore, hn, hs⟩

/-- A check in which all predicates hold ends with the run. -/
theorem checkAll_passes {found : List C} {r₁ : Run C K A E} {fuel : Nat}
    (h : s.Discovers r found r₁) (hfuel : found.length < fuel)
    (hfound : ∀ c ∈ found, Predicate.firstFailing c predicates = none)
    (hn : s.next r₁ = (r', .done)) :
    s.checkAll predicates fuel r =
      some ((conclude r' (Predicate.label predicates)).1,
        .ok (conclude r' (Predicate.label predicates)).2) :=
  checkAll_eq_some.mpr ⟨found, r₁, r', .done, h, hfuel, hfound, hn, rfl⟩

/-- A violation is reported with the path that any later forest has to it. -/
theorem Session.settle_violated {forest : Forest K C A} {c : C} {name : String} (hr : s.Session r)
    (hc : c ∈ r.store.toList) (hforest : r.forest.Extends forest)
    (hfirst : Predicate.firstFailing c predicates = some (name, none)) :
    s.settle predicates r (.discovered c) =
      some ((s.look r).stop.note [.violated name c], (s.traceback forest c).map fun steps =>
        { status := .violated
          property := name
          configurations := r.store.size
          transitions := r.transitions
          counterexample := some ⟨"invariant", name, c, steps⟩
          elapsed := ((s.look r).stop.note [.violated name c]).elapsed
          budgetReason := none }) := by
  rw [hr.traceback_eq_of_extends hc hforest]
  simp only [settle, hfirst]
  rfl

/-- If an exploration returns, then a check of predicates gives what a scan of its store gives: the
first evaluation that is not true decides, and where there is none the outcome does. A violation is
reported with the path that the whole exploration has to it; where that has none, neither does the
check. It has one whenever the key of the configuration can be met again. -/
theorem checkAll_eq_scan (s : Search C K A E) (predicates : List (Predicate C E)) (start : Rat)
    (fuel : Nat) (R : Run C K A E) (h : s.exhaust fuel (.initial start) = some (R, none)) :
    (∀ before c after earlier p later, R.outcome.store.toList = before ++ c :: after →
      (∀ d ∈ before, ∀ q ∈ predicates, q.holds d = .ok true) →
      predicates = earlier ++ p :: later → (∀ q ∈ earlier, q.holds c = .ok true) →
      (p.holds c = .ok false → ∃ r transitions elapsed,
        s.checkAll predicates fuel (.initial start) =
          some (r, (s.traceback R.outcome.forest c).map fun steps =>
            { status := .violated
              property := p.name
              configurations := before.length + 1
              transitions := transitions
              counterexample := some ⟨"invariant", p.name, c, steps⟩
              elapsed := elapsed
              budgetReason := none })) ∧
      (∀ k, s.identify c = .ok (some k) → ∃ steps, s.traceback R.outcome.forest c = .ok steps) ∧
      (∀ e, p.holds c = .error e → ∃ r,
        s.checkAll predicates fuel (.initial start) = some (r, .error (.predicate p.name c e)))) ∧
    ((∀ c ∈ R.outcome.store.toList, ∀ p ∈ predicates, p.holds c = .ok true) →
      ∃ r, s.checkAll predicates fuel (.initial start) =
        some (r, .ok
          { status := if R.outcome.budgetExceeded then .budgetExceeded else .holds
            property := Predicate.label predicates
            configurations := R.outcome.store.size
            transitions := R.outcome.transitions
            counterexample := none
            elapsed := R.outcome.elapsed
            budgetReason := R.outcome.budgetReason })) := by
  obtain ⟨r₁, hd, hlen, hn, hforest⟩ := discovers_of_exhaust h
  refine ⟨?_, ?_⟩
  · intro before c after earlier p later hlist hbefore hsplit hearlier
    have hstored : R.store.toList = before ++ c :: after := hlist
    rw [hstored] at hd hlen
    have hfuel : before.length < fuel := by
      rw [List.length_append] at hlen
      omega
    have hpass : ∀ d ∈ before, Predicate.firstFailing d predicates = none :=
      fun d hmem => Predicate.firstFailing_eq_none.mpr (hbefore d hmem)
    have hstop : ∀ cause, p.holds c = Predicate.failing cause →
        Predicate.firstFailing c predicates = some (p.name, cause) := fun cause hp =>
      Predicate.firstFailing_eq_some.mpr ⟨earlier, p, later, hsplit, hearlier, rfl, hp⟩
    refine ⟨?_, ?_, ?_⟩
    · intro hp
      have hfirst := hstop none hp
      obtain ⟨r₂, hr₂, htoList, hextends, hcheck⟩ :=
        checkAll_stops (.initial start) hd hfuel hpass (by simp [hfirst])
      have hsize : (r₂.store.size : Int) = before.length + 1 := by
        rw [Store.size_eq_length_toList, htoList]
        simp [Run.initial, Store.toList]
      have hc : c ∈ r₂.store.toList := by simp [htoList]
      have hlater : r₂.forest.Extends R.outcome.forest := by
        change r₂.forest.Extends R.forest
        rw [hforest]
        exact hextends
      rw [hcheck, hr₂.settle_violated hc hlater hfirst, hsize]
      exact ⟨_, _, _, rfl⟩
    · intro k hk
      have hc : c ∈ R.store.toList := by simp [hstored]
      exact ⟨_, (((Session.initial start).exhaust h).sound.traceback_eq hc hk).1⟩
    · intro e hp
      have hfirst := hstop (some e) hp
      obtain ⟨r₂, -, -, -, hcheck⟩ :=
        checkAll_stops (.initial start) hd hfuel hpass (by simp [hfirst])
      rw [hcheck]
      simp only [settle, hfirst]
      exact ⟨_, rfl⟩
  · intro hall
    have hpass : ∀ c ∈ R.store.toList, Predicate.firstFailing c predicates = none :=
      fun c hmem => Predicate.firstFailing_eq_none.mpr (hall c hmem)
    rw [checkAll_passes hd hlen hpass hn, conclude_eq]
    exact ⟨_, rfl⟩

def constantly {D F : Type} (name : String) (answer : Bool) : Predicate D F where
  name := name
  holds _ := .ok answer

def isEven : Predicate Nat Unit := ⟨"even", fun n => .ok (n % 2 == 0)⟩

theorem parity_checkAll_eq_scan :
    ∃ R r transitions elapsed, parity.exhaust 3 (.initial 0) = some (R, none) ∧
      R.outcome.store.toList = [0, 1] ∧
      parity.checkAll [constantly "always" true, isEven] 3 (.initial 0) =
        some (r, (parity.traceback R.outcome.forest 1).map fun steps =>
          ⟨.violated, "even", 2, transitions, some ⟨"invariant", "even", 1, steps⟩, elapsed,
            none⟩) ∧
      ∃ steps, parity.traceback R.outcome.forest 1 = .ok steps := by
  have hrun : ∃ R, parity.exhaust 3 (.initial 0) = some (R, none) ∧
      R.outcome.store.toList = [0, 1] := ⟨_, rfl, rfl⟩
  obtain ⟨R, h, hlist⟩ := hrun
  obtain ⟨hviolated, htraced, -⟩ := (checkAll_eq_scan parity [constantly "always" true, isEven]
    0 3 R h).1 [0] 1 [] [constantly "always" true] isEven [] hlist (by decide) rfl (by decide)
  obtain ⟨r, transitions, elapsed, hcheck⟩ := hviolated rfl
  exact ⟨R, r, transitions, elapsed, h, hlist, hcheck, htraced 1 rfl⟩

/-- Under keys that are made anew at each look, a scan finds a violation where the check has no
verdict. -/
theorem transient_scan_without_verdict :
    ∃ R r, transient.exhaust 2 (.initial 0) = some (R, none) ∧
      R.outcome.store.toList = [.int 0] ∧
      (constantly "always" true : ValuePredicate).holds (.int 0) = .ok true ∧
      (constantly "never" false : ValuePredicate).holds (.int 0) = .ok false ∧
      transient.checkAll [constantly "always" true, constantly "never" false] 2 (.initial 0) =
        some (r, .error (.unreachable (.int 0))) :=
  ⟨_, _, rfl, rfl, rfl, rfl, rfl⟩

end Search

end StateSpace
