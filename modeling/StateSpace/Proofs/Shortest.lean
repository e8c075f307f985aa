import StateSpace.Proofs.Levels

/-!
# Breadth-first traces are shortest

The path that a breadth-first run has to a stored configuration has as few edges as any path to a
configuration with its key. A scan of the store in order therefore meets the nearest one first of
all that break a property: counterexamples have the smallest depth that there is. A depth-first run
has some path of the graph, which is not shorter than a shortest one.
-/

namespace StateSpace

namespace Search

variable {C K A E : Type} {s : Search C K A E} {r r' : Run C K A E}

def distances (s : Search C K A E) (k : K) : Set Nat :=
  {n | ∃ c, s.graph.ReachableIn n c ∧ s.identify c = .ok (some k)}

theorem exists_isLeast_distances {k : K} {n : Nat} (h : n ∈ s.distances k) :
    ∃ m, IsLeast (s.distances k) m ∧ m ≤ n := by
  classical
  have hleast := Nat.isLeast_find (p := fun n => n ∈ s.distances k) ⟨n, h⟩
  exact ⟨_, hleast, hleast.2 h⟩

variable [DecidableEq K]

/-- A key that can be met again is stored once. -/
theorem History.eq_of_key {store : Store K C} {forest : Forest K C A} (h : s.History store forest)
    {k : K} {c d : C} (hc : (some k, c) ∈ store.entries) (hd : (some k, d) ∈ store.entries) :
    c = d := by
  induction h with
  | empty => cases hc
  | @root store _ key _ _ _ _ hnew ih | @child store _ key _ _ _ _ _ _ _ _ hnew ih =>
      have hother : ∀ {b : C}, (some k, b) ∈ store.entries → key ≠ some k := by
        rintro b hb rfl
        rw [store.contains_of_mem hb] at hnew
        cases hnew
      rcases (Store.mem_entries_push _ _ _ _).mp hc with hc | hc
      · rcases (Store.mem_entries_push _ _ _ _).mp hd with hd | hd
        · exact ih hc hd
        · exact absurd (Prod.mk.inj hd).1.symm (hother hc)
      · rcases (Store.mem_entries_push _ _ _ _).mp hd with hd | hd
        · exact absurd (Prod.mk.inj hc).1.symm (hother hd)
        · exact (Prod.mk.inj hc).2.trans (Prod.mk.inj hd).2.symm

/-- A path is found only to a key that can be met again, and it is the one that the forest holds. -/
theorem eq_path_of_traceback {forest : Forest K C A} {c : C} {steps : List (Step C A)}
    (h : s.traceback forest c = .ok steps) :
    ∃ k, s.identify c = .ok (some k) ∧ steps = Forest.path (some k) c forest.nodes := by
  unfold traceback at h
  cases hk : s.identify c with
  | error e => simp [hk] at h
  | ok key =>
      rw [hk] at h
      cases key with
      | none => simp [Forest.steps?, Forest.contains] at h
      | some k =>
          refine ⟨k, rfl, ?_⟩
          dsimp only [Forest.steps?] at h
          by_cases hc : forest.contains (some k) = true
          · rw [if_pos hc] at h
            exact (Except.ok.inj h).symm
          · rw [if_neg hc] at h
            cases h

theorem Recorded.split {order : List (Waiting C K)} {store : Store K C} {forest : Forest K C A}
    (h : Recorded order store forest) {before after : List C} {c : C}
    (hlist : store.toList = before ++ c :: after) :
    ∃ earlier w later, order = earlier ++ w :: later ∧ w.configuration = c ∧
      earlier.map (·.configuration) = before := by
  have hmap : order.map (·.configuration) = before ++ c :: after := by
    rw [← hlist, Store.toList, ← h.entries, List.map_map]
    rfl
  obtain ⟨earlier, rest, rfl, hbefore, hrest⟩ := List.map_eq_append_iff.mp hmap
  obtain ⟨w, later, rfl, hw, -⟩ := List.map_eq_cons_iff.mp hrest
  exact ⟨earlier, w, later, rfl, hw, hbefore⟩

/-- At every point of a breadth-first session. -/
theorem Session.shortest (hr : s.Session r) (hbfs : s.plan.strategy = .breadthFirst)
    (hs : s.Coherent) {before after : List C} {c : C}
    (hlist : r.store.toList = before ++ c :: after) {k : K} (hk : s.identify c = .ok (some k)) :
    ∃ n steps, s.traceback r.forest c = .ok steps ∧ steps.length = n + 1 ∧
      IsLeast (s.distances k) n ∧
      (∀ b ∈ before, ∀ earlier, s.traceback r.forest b = .ok earlier → earlier.length ≤ n + 1) ∧
      ∀ m < n, ∀ d, s.graph.ReachableIn m d → ∃ b ∈ before, s.Alike d b := by
  obtain ⟨order, hrecorded, hlevelled, -⟩ := hr.layered hbfs
  obtain ⟨earlier, w, later, horder, rfl, hearlier⟩ := hrecorded.split hlist
  have hhistory := hr.sound.history
  have hw : w ∈ order := by simp [horder]
  have hkey : ∀ v ∈ order, ∀ j, s.identify v.configuration = .ok (some j) → v.key = some j := by
    intro v hv j hj
    exact Except.ok.inj ((hhistory.identify_of_mem (hrecorded.mem_entries hv)).symm.trans hj)
  have hlength : ∀ v ∈ order, ∀ steps, s.traceback r.forest v.configuration = .ok steps →
      steps.length = v.depth + 1 := by
    intro v hv steps ht
    obtain ⟨j, hj, rfl⟩ := eq_path_of_traceback ht
    exact hrecorded.paths v hv j (hkey v hv j hj)
  obtain ⟨ht, htrace⟩ := hr.sound.traceback_eq (c := w.configuration) (by simp [hlist]) hk
  have hdepth := hlength w hw _ ht
  have hnear : ∀ m < w.depth, ∀ d, s.graph.ReachableIn m d → s.Placed earlier d m := by
    rintro m hm d ⟨steps, hsteps, hlen⟩
    have hplaced := hlevelled.placed_of_trace hs hw hsteps (by omega)
    have hm' : steps.length - 1 = m := by omega
    rw [hm'] at hplaced
    exact hlevelled.before horder hplaced hm
  refine ⟨w.depth, _, ht, hdepth, ⟨⟨w.configuration, ⟨_, htrace, hdepth⟩, hk⟩, ?_⟩, ?_, ?_⟩
  · -- a shorter path would lead to the same stored configuration, at another depth
    rintro m ⟨d, hd, hdk⟩
    by_contra hlt
    have hm : m < w.depth := by omega
    obtain ⟨v, hv, halike, hvdepth⟩ := hnear m hm d hd
    have hvorder : v ∈ order := by simp [horder, hv]
    have hvk : s.identify v.configuration = .ok (some k) := by
      rcases halike with rfl | ⟨j, hj, hvj⟩
      · exact hdk
      · exact hvj.trans (hj.symm.trans hdk)
    have hstored := hrecorded.mem_entries hvorder
    have hstored' := hrecorded.mem_entries hw
    rw [hkey v hvorder k hvk] at hstored
    rw [hkey w hw k hk] at hstored'
    have hsame := hhistory.eq_of_key hstored hstored'
    have hvlength := hlength v hvorder _ ((congrArg (s.traceback r.forest) hsame).trans ht)
    omega
  · intro b hb steps hsteps
    rw [← hearlier] at hb
    obtain ⟨v, hv, rfl⟩ := List.mem_map.mp hb
    have hle := hlevelled.le_of_mem_before horder hv
    have hvlength := hlength v (by simp [horder, hv]) steps hsteps
    omega
  · intro m hm d hd
    obtain ⟨v, hv, halike, -⟩ := hnear m hm d hd
    exact ⟨v.configuration, hearlier ▸ List.mem_map.mpr ⟨v, hv, rfl⟩, halike⟩

/-- The first stored configuration that has a property, behind configurations without it, lies as
near as any that can be reached. -/
theorem Session.nearest_of_first (hr : s.Session r) (hbfs : s.plan.strategy = .breadthFirst)
    (hs : s.Coherent) {P : C → Prop} {before after : List C} {c : C} {steps : List (Step C A)}
    (hlist : r.store.toList = before ++ c :: after)
    (hbefore : ∀ b ∈ before, ∀ d, s.Alike d b → ¬ P d) (hc : P c)
    (ht : s.traceback r.forest c = .ok steps) :
    ∃ n, steps.length = n + 1 ∧ s.graph.ReachableIn n c ∧
      IsLeast {m | ∃ d, s.graph.ReachableIn m d ∧ P d} n := by
  obtain ⟨k, hk, -⟩ := eq_path_of_traceback ht
  obtain ⟨n, steps', ht', hlen, -, -, hnear⟩ := hr.shortest hbfs hs hlist hk
  have hsteps : steps' = steps := Except.ok.inj (ht'.symm.trans ht)
  subst hsteps
  have hreach : s.graph.ReachableIn n c :=
    ⟨steps', hr.sound.trace_of_traceback (by simp [hlist]) ht, hlen⟩
  refine ⟨n, hlen, hreach, ⟨c, hreach, hc⟩, ?_⟩
  rintro m ⟨d, hd, hPd⟩
  by_contra hlt
  obtain ⟨b, hb, halike⟩ := hnear m (by omega) d hd
  exact hbefore b hb d halike hPd

theorem checkAll_nearest {predicates : List (Predicate C E)} {start : Rat} {fuel : Nat}
    {v : Verdict C A} {ce : Counterexample C A} (hbfs : s.plan.strategy = .breadthFirst)
    (hs : s.Coherent) (hp : s.Respected predicates)
    (h : s.checkAll predicates fuel (.initial start) = some (r, .ok v))
    (hce : v.counterexample = some ce) :
    ∃ n, ce.steps.length = n + 1 ∧ s.graph.ReachableIn n ce.configuration ∧
      IsLeast {m | ∃ d, s.graph.ReachableIn m d ∧ ∃ p ∈ predicates, p.holds d = .ok false} n := by
  obtain ⟨found, r₁, r₂, signal, hd, -, hfound, hn, hsettle⟩ := checkAll_eq_some.mp h
  rcases settle_eq_ok hsettle with ⟨-, rfl⟩ | ⟨c, name, rfl, hfirst, hrefute⟩
  · rw [conclude_eq] at hce
    cases hce
  · obtain ⟨steps, ht, -, -, hv⟩ := refute_eq_ok hrefute
    rw [hv] at hce
    cases hce
    have hr₂ : s.Session r₂ := (hd.session (.initial start)).of_next hn
    have hlist : r₂.store.toList = found ++ c :: [] := by
      obtain ⟨k, -, -, hstore, -⟩ := (leads_of_next hn).discovers
      rw [hstore, Store.toList_push, hd.toList_eq]
      rfl
    obtain ⟨earlier, p, later, hsplit, -, -, hfalse⟩ := Predicate.firstFailing_eq_some.mp hfirst
    refine hr₂.nearest_of_first hbfs hs hlist ?_ ⟨p, by simp [hsplit], hfalse⟩ ht
    rintro b hb d halike ⟨q, hq, hqd⟩
    have htrue := Predicate.firstFailing_eq_none.mp (hfound b hb) q hq
    rw [(hp q hq d b halike).mpr htrue] at hqd
    cases hqd

end Search

namespace Search

variable {s : ValueSearch} {R : Relation}

theorem checkDeadlockFree_nearest {start : Rat} {fuel : Nat} {r : ValueRun} {v : ValueVerdict}
    {ce : ValueCounterexample} (hbfs : s.plan.strategy = .breadthFirst) (hs : s.Coherent)
    (hR : s.Agree R) (h : s.checkDeadlockFree R.enabled fuel (.initial start) = some (r, .ok v))
    (hce : v.counterexample = some ce) :
    ∃ n, ce.steps.length = n + 1 ∧ s.graph.ReachableIn n ce.configuration ∧
      IsLeast {m | ∃ d, s.graph.ReachableIn m d ∧ R.Stuck d} n := by
  obtain ⟨x, hx, hverdict⟩ := checkDeadlockFree_eq_ok h
  rcases hverdict with ⟨before, c, after, steps, hlist, hbefore, hc, ht, -, hv⟩ | ⟨-, hnone, -⟩
  · rw [hv] at hce
    cases hce
    have hxs : s.Session x := (Session.initial start).exhaust hx
    refine hxs.nearest_of_first hbfs hs hlist ?_ (Reply.nonempty_eq_false.mp hc) ht
    intro b hb d halike hstuck
    have hb' := Reply.nonempty_eq_true.mp (hbefore b hb)
    exact R.not_hasAction_of_stuck hstuck ((hR d b halike).mpr hb')
  · rw [hnone] at hce
    cases hce

end Search

/-- The depth of a configuration is the number of edges of the path to it. -/
theorem Lineage.depth_eq_ok {s : ValueSearch} {key : Option KeyFunction}
    (hkey : s.identify = identify key) {forest : Forest Canon Value Action} {c : Value} {m : Int} :
    (Lineage.mk key forest).depth c = .ok m ↔
      ∃ steps, s.traceback forest c = .ok steps ∧ (steps.length : Int) - 1 = m := by
  unfold Lineage.depth Lineage.steps Search.traceback
  rw [hkey]
  cases identify key c with
  | error e => simp [bind, Except.bind]
  | ok k =>
      cases hf : forest.steps? k c with
      | none => simp [bind, Except.bind, hf]
      | some steps => simp [bind, Except.bind, pure, Except.pure, hf, Lineage.depthOf]

namespace Search

theorem Session.depth_shortest {s : ValueSearch} {key : Option KeyFunction} {r : ValueRun}
    (hkey : s.identify = StateSpace.identify key) (hs : s.Coherent)
    (hbfs : s.plan.strategy = .breadthFirst) (hr : s.Session r) {before after : List Value}
    {c : Value} (hlist : r.store.toList = before ++ c :: after) {k : Canon}
    (hk : s.identify c = .ok (some k)) :
    ∃ n : Nat, (Lineage.mk key r.forest).depth c = .ok n ∧ IsLeast (s.distances k) n ∧
      (∀ b ∈ before, ∀ m, (Lineage.mk key r.forest).depth b = .ok m → m ≤ n) ∧
      ∀ m < n, ∀ d, s.graph.ReachableIn m d → ∃ b ∈ before, s.Alike d b := by
  obtain ⟨n, steps, ht, hlen, hleast, hsorted, hnear⟩ := hr.shortest hbfs hs hlist hk
  refine ⟨n, (Lineage.depth_eq_ok hkey).mpr ⟨steps, ht, by omega⟩, hleast, ?_, hnear⟩
  intro b hb m hm
  obtain ⟨earlier, hearlier, rfl⟩ := (Lineage.depth_eq_ok hkey).mp hm
  have hle := hsorted b hb earlier hearlier
  omega

/-- The path to a stored configuration is never shorter than a shortest one, in whatever order the
frontier is worked off. -/
theorem Session.depth_ge {s : ValueSearch} {key : Option KeyFunction} {r : ValueRun}
    (hkey : s.identify = StateSpace.identify key) (hr : s.Session r) {c : Value}
    (hc : c ∈ r.store.toList) {k : Canon} (hk : s.identify c = .ok (some k)) :
    ∃ n m : Nat, (Lineage.mk key r.forest).depth c = .ok n ∧ IsLeast (s.distances k) m ∧
      m ≤ n := by
  obtain ⟨ht, htrace⟩ := hr.sound.traceback_eq hc hk
  have hpos := htrace.length_pos
  obtain ⟨m, hleast, hle⟩ := exists_isLeast_distances ⟨c, htrace.reachableIn, hk⟩
  exact ⟨_, m, (Lineage.depth_eq_ok hkey).mpr ⟨_, ht, by omega⟩, hleast, hle⟩

/-- Where the keys of successors follow from keys, a breadth-first run has at every point a shortest
path to each stored configuration whose key can be met again; the stored depths do not decrease, and
all that lies nearer than a stored configuration has been stored before it. Counterexamples have the
smallest depth of all configurations that can be reached and break a predicate, if the predicates
respect the keys, or are deadlocks, if explored states agree on having an enabled action. In no
order is a path shorter than a shortest one. -/
theorem breadthFirst_shortest (s : ValueSearch) (key : Option KeyFunction)
    (hkey : s.identify = StateSpace.identify key) (hs : s.Coherent) :
    (s.plan.strategy = .breadthFirst →
      (∀ r, s.Session r → ∀ before c after, r.store.toList = before ++ c :: after →
        ∀ k, s.identify c = .ok (some k) → ∃ n : Nat,
          (Lineage.mk key r.forest).depth c = .ok n ∧ IsLeast (s.distances k) n ∧
          (∀ b ∈ before, ∀ m, (Lineage.mk key r.forest).depth b = .ok m → m ≤ n) ∧
          ∀ m < n, ∀ d, s.graph.ReachableIn m d → ∃ b ∈ before, s.Alike d b) ∧
      (∀ predicates, s.Respected predicates → ∀ start fuel r v ce,
        s.checkAll predicates fuel (.initial start) = some (r, .ok v) →
          v.counterexample = some ce → ∃ n : Nat, ce.depth = n ∧
            s.graph.ReachableIn n ce.configuration ∧
            IsLeast {m | ∃ d, s.graph.ReachableIn m d ∧
              ∃ p ∈ predicates, p.holds d = .ok false} n) ∧
      (∀ R : Relation, s.Agree R → ∀ start fuel r v ce,
        s.checkDeadlockFree R.enabled fuel (.initial start) = some (r, .ok v) →
          v.counterexample = some ce → ∃ n : Nat, ce.depth = n ∧
            s.graph.ReachableIn n ce.configuration ∧
            IsLeast {m | ∃ d, s.graph.ReachableIn m d ∧ R.Stuck d} n)) ∧
    (s.plan.strategy = .depthFirst → ∀ r, s.Session r → ∀ c ∈ r.store.toList,
      ∀ k, s.identify c = .ok (some k) → ∃ n m : Nat,
        (Lineage.mk key r.forest).depth c = .ok n ∧ IsLeast (s.distances k) m ∧ m ≤ n) := by
  refine ⟨fun hbfs => ⟨?_, ?_, ?_⟩, ?_⟩
  · intro r hr before c after hlist k hk
    exact hr.depth_shortest hkey hs hbfs hlist hk
  · intro predicates hp start fuel r v ce h hce
    obtain ⟨n, hlen, hnearest⟩ := checkAll_nearest hbfs hs hp h hce
    exact ⟨n, by simp [Counterexample.depth, hlen], hnearest⟩
  · intro R hR start fuel r v ce h hce
    obtain ⟨n, hlen, hnearest⟩ := checkDeadlockFree_nearest hbfs hs hR h hce
    exact ⟨n, by simp [Counterexample.depth, hlen], hnearest⟩
  · intro _ r hr c hc k hk
    exact hr.depth_ge hkey hc hk

/-- The deadlock behind the third root lies one step deep, and the second root is the nearest one.
-/
theorem forked_breadthFirst_shortest :
    (∃ x n, (forked none).exhaust 5 (.initial 0) = some (x, none) ∧
      x.store.toList = [.int 1, .int 2, .int 3] ++ .int 4 :: [] ∧
      (Lineage.mk none x.forest).depth (.int 4) = .ok (n : Nat) ∧
      IsLeast ((forked none).distances (.num (.ofInt 4))) n) ∧
    ∃ r v ce n, (forked none).checkDeadlockFree Relation.forked.enabled 5 (.initial 0) =
        some (r, .ok v) ∧ v.counterexample = some ce ∧ ce.depth = (n : Nat) ∧
      IsLeast {m | ∃ d, (forked none).graph.ReachableIn m d ∧ Relation.forked.Stuck d} n := by
  obtain ⟨hdepth, -, hdeadlock⟩ := (breadthFirst_shortest (forked none) none rfl
    forked_coherent).1 rfl
  refine ⟨?_, ?_⟩
  · have hrun : ∃ x, (forked none).exhaust 5 (.initial 0) = some (x, none) ∧
        x.store.toList = [.int 1, .int 2, .int 3] ++ .int 4 :: [] := ⟨_, rfl, rfl⟩
    obtain ⟨x, hx, hlist⟩ := hrun
    obtain ⟨n, hn, hleast, -⟩ := hdepth x ((Session.initial 0).exhaust hx) _ _ _ hlist
      (.num (.ofInt 4)) rfl
    exact ⟨x, n, hx, hlist, hn, hleast⟩
  · have hrun : ∃ r v ce, (forked none).checkDeadlockFree Relation.forked.enabled 5
        (.initial 0) = some (r, .ok v) ∧ v.counterexample = some ce := ⟨_, _, _, rfl, rfl⟩
    obtain ⟨r, v, ce, h, hce⟩ := hrun
    obtain ⟨n, hn, -, hleast⟩ := hdeadlock Relation.forked forked_agree 0 5 r v ce h hce
    exact ⟨r, v, ce, n, h, hce, hn, hleast⟩

def merging : KeyFunction := fun c => .ok (if c == .int 2 then .int 1 else c)

theorem forked_merging_coherent : (forked (some merging)).Coherent := by
  have hthree : ∀ {c d : Value}, (forked (some merging)).Alike c d →
      c.canon = (Value.int 3).canon → d.canon = (Value.int 3).canon := by
    intro c d h hc
    rcases h with rfl | ⟨k, hkc, hkd⟩
    · exact hc
    · obtain ⟨v, hv, hvk⟩ := canon_of_identify hkc
      obtain ⟨w, hw, hwk⟩ := canon_of_identify hkd
      have hc2 : (c == .int 2) = false := by
        simp only [BEq.beq, hc]
        decide
      simp only [merging, hc2, Bool.false_eq_true, if_false, Except.ok.injEq] at hv
      subst hv
      cases hw
      rw [← hvk, hc] at hwk
      split at hwk
      · exact absurd hwk (by decide)
      · exact hwk
  intro c d h e he
  obtain ⟨action, -, successors, hexecute, hmem, -⟩ := Relation.mem_edges he
  have hc : c.canon = (Value.int 3).canon := by
    apply (Value.beq_iff c (.int 3)).mp
    by_contra hne
    cases hexecute
    simp [hne] at hmem
  have hcanon := hc.trans (hthree h hc).symm
  have hedges : (Relation.forked.edges c).items = (Relation.forked.edges d).items := by
    apply forked_edges_congr <;> simp only [BEq.beq, hcanon]
  exact ⟨e, hedges ▸ he, Or.inl rfl⟩

/-- Under keys that are made anew at each look a stored root has no depth. Under keys that merge a
deadlock with a configuration in which an action is enabled, the reported deadlock is not the
nearest one. -/
theorem depth_not_shortest :
    (∃ s : ValueSearch, s.plan.strategy = .breadthFirst ∧ s.Coherent ∧
      s.identify = StateSpace.identify (some (Expr.stream []).toKey) ∧
      s.Session (s.next (.initial 0)).1 ∧ (s.next (.initial 0)).1.store.toList = [.int 0] ∧
      (Lineage.mk (some (Expr.stream []).toKey) (s.next (.initial 0)).1.forest).depth (.int 0) =
        .error (.unreachable (.int 0))) ∧
    (forked (some merging)).plan.strategy = .breadthFirst ∧ (forked (some merging)).Coherent ∧
      (∃ r v ce, (forked (some merging)).checkDeadlockFree Relation.forked.enabled 4
        (.initial 0) = some (r, .ok v) ∧ v.counterexample = some ce ∧ ce.depth = 1) ∧
      (forked (some merging)).graph.ReachableIn 0 (.int 2) ∧ Relation.forked.Stuck (.int 2) := by
  refine ⟨⟨{ transient with plan := ⟨none, none, .breadthFirst, false, .ofInt 1⟩ }, rfl, ?_, rfl,
    .next (.initial 0), rfl, rfl⟩, rfl, forked_merging_coherent, ⟨_, _, _, rfl, rfl, rfl⟩, ?_,
    rfl, rfl⟩
  · intro c d _ e he
    cases he
  · have hroot : Value.int 2 ∈ Relation.forked.toGraph.roots.items :=
      show Value.int 2 ∈ [Value.int 1, .int 2, .int 3] by simp
    exact ⟨_, .root hroot, rfl⟩

end Search

end StateSpace
