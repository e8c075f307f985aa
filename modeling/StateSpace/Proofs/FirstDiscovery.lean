import StateSpace.Proofs.Course
import StateSpace.Proofs.Shortest
import StateSpace.Proofs.Traces

/-!
# The first discovery wins

A configuration is recorded once, as the child of whatever leads to its key first. Of all that has
been taken off the frontier, the recorded parent is the first to have an edge to that key, and the
recorded action is that of the first such edge. The reason is that a run turns away from a source
only when every target of its edges is kept: a key that is still new has been met by nothing
earlier.
-/

namespace StateSpace

namespace Forest

variable {K C A : Type} [DecidableEq K]

theorem mem_of_origin? {f : Forest K C A} {k : Key K} {origin : Origin K C A}
    (h : f.origin? k = some origin) : ∃ a, k = some a ∧ ⟨some a, origin⟩ ∈ f.nodes := by
  obtain ⟨n, hfind, rfl⟩ := Option.map_eq_some_iff.mp h
  have hsame : n.key.same k = true := by simpa using List.find?_some hfind
  obtain ⟨a, hn, hk⟩ := Key.same_iff.mp hsame
  exact ⟨a, hk, hn ▸ List.mem_of_find?_eq_some hfind⟩

end Forest

namespace Search

variable {C K A E : Type} {s : Search C K A E} {r r' : Run C K A E}
variable {taken : List (Waiting C K)} {k : K} {p c : C} {a : Option A}

def Misses (s : Search C K A E) (k : K) (edges : List (Option A × C)) : Prop :=
  ∀ e ∈ edges, s.identify e.2 ≠ .ok (some k)

/-- Of what was taken off the frontier, the latest first, `p` was the first to have an edge to the
key, and `(a, c)` is the first such edge of it. -/
structure FirstEdge (s : Search C K A E) (taken : List (Waiting C K)) (k : K) (p : C)
    (a : Option A) (c : C) : Prop where
  source : ∃ later w earlier, taken = later ++ w :: earlier ∧ w.configuration = p ∧
    ∀ q ∈ earlier, s.Misses k (s.graph.edges q.configuration).items
  edge : ∃ before after, (s.graph.edges p).items = before ++ (a, c) :: after ∧ s.Misses k before

theorem FirstEdge.cons (h : s.FirstEdge taken k p a c) (w : Waiting C K) :
    s.FirstEdge (w :: taken) k p a c := by
  obtain ⟨later, v, earlier, rfl, hp, hmiss⟩ := h.source
  exact ⟨⟨w :: later, v, earlier, rfl, hp, hmiss⟩, h.edge⟩

/-- Every recorded child is the stored configuration of its key, was recorded for the first edge
that led to the key, and has no key of a root. -/
def Justified (s : Search C K A E) (taken : List (Waiting C K)) (r : Run C K A E) : Prop :=
  ∀ k p j a, ⟨some k, .child p j a⟩ ∈ r.forest.nodes →
    (∃ c, (some k, c) ∈ r.store.entries ∧ s.FirstEdge taken k p a c) ∧
      ∀ root ∈ s.graph.roots.items, s.identify root ≠ .ok (some k)

theorem Justified.push {key : Key K} {d : C} (h : s.Justified taken r)
    (hstore : r'.store = r.store.push key d)
    (hnodes : ∀ k p j a, ⟨some k, .child p j a⟩ ∈ r'.forest.nodes →
      ⟨some k, .child p j a⟩ ∈ r.forest.nodes ∨
        key = some k ∧ s.FirstEdge taken k p a d ∧
          ∀ root ∈ s.graph.roots.items, s.identify root ≠ .ok (some k)) :
    s.Justified taken r' := by
  intro k p j a hn
  rw [hstore]
  rcases hnodes k p j a hn with hold | ⟨rfl, hfirst, hroots⟩
  · obtain ⟨⟨c, hc, hfirst⟩, hroots⟩ := h k p j a hold
    exact ⟨⟨c, (r.store.mem_entries_push key d _).mpr (Or.inl hc), hfirst⟩, hroots⟩
  · exact ⟨⟨d, (r.store.mem_entries_push _ d _).mpr (Or.inr rfl), hfirst⟩, hroots⟩

variable [DecidableEq K]

/-- What has been met leads to no key that is still new. -/
theorem Met.misses {store : Store K C} {items before : List (Option A × C)}
    (pending : List (Option A × C)) (h : s.Met store (items.map (·.2)) (pending.map (·.2)))
    (hitems : items = before ++ pending) (hnew : store.contains (some k) = false) :
    s.Misses k before := by
  obtain ⟨met, hsplit, hmet⟩ := h
  rw [hitems, List.map_append] at hsplit
  have hbefore : met = before.map (·.2) := List.append_cancel_right hsplit
  intro e he hk
  have hkept : s.Kept store e.2 := hmet e.2 (hbefore ▸ List.mem_map.mpr ⟨e, he, rfl⟩)
  rw [hkept.contains hk] at hnew
  cases hnew

theorem Expanded.misses {store : Store K C} (h : s.Expanded store c)
    (hnew : store.contains (some k) = false) : s.Misses k (s.graph.edges c).items :=
  Met.misses [] h (List.append_nil _).symm hnew

def Passed (s : Search C K A E) (taken : List (Waiting C K)) (r : Run C K A E) : Prop :=
  match r.phase with
  | .idle | .roots _ _ => taken = []
  | .edges source _ _ => ∃ earlier, taken = source :: earlier ∧
      ∀ q ∈ earlier, s.Expanded r.store q.configuration
  | .closed => True

theorem Passed.turn (h : s.Passed taken r) (hcovered : s.Covered r) (ht : Turns r.phase) :
    ∀ q ∈ taken, s.Expanded r.store q.configuration := by
  unfold Passed at h
  unfold Covered at hcovered
  generalize r.phase = phase at h hcovered ht
  cases ht with
  | roots =>
      obtain rfl : taken = [] := h
      simp
  | edges source =>
      obtain ⟨earlier, rfl, hearlier⟩ := h
      intro q hq
      rcases List.mem_cons.mp hq with rfl | hq
      · exact hcovered.2.2.1
      · exact hearlier q hq

theorem Passed.halt (hphase : r'.phase = .closed) : s.Passed taken r' := by
  unfold Passed
  rw [hphase]
  trivial

theorem Passed.keep {o : Option (Signal C K A E)} (h : s.Passed taken r) (hm : s.Move r r' o)
    (hkeep : r.frontier.length ≤ r'.frontier.length) : s.Passed taken r' := by
  cases hm with
  | rest _ => exact h
  | begin hp =>
      unfold Passed at h
      rw [hp] at h
      exact h
  | known hmeets _ _ =>
      unfold Passed at h
      cases hmeets with
      | root hp | edge hp =>
          rw [hp] at h
          exact h
  | refused hmeets _ | overBudget hmeets _ _ _ _ => cases hmeets <;> exact halt rfl
  | root hp _ _ _ =>
      unfold Passed at h
      rw [hp] at h
      exact h
  | @child source edge rest fault k forest hp _ hc _ _ =>
      unfold Passed at h
      rw [hp] at h
      obtain ⟨earlier, htaken, hearlier⟩ := h
      refine ⟨earlier, htaken, fun q hq => ?_⟩
      change s.Expanded (r.store.insert k edge.2) q.configuration
      rw [r.store.insert_of_new _ hc]
      exact (hearlier q hq).push k edge.2
  | @expand source rest _ hf _ =>
      -- a source is taken off the frontier, which gets shorter
      change r.frontier.length ≤ rest.length at hkeep
      rw [hf, List.length_cons] at hkeep
      omega
  | _ => exact halt rfl

theorem Course.passed (h : s.Course taken r) : s.Passed taken r := by
  induction h with
  | initial _ => rfl
  | @expand taken r source rest h ht _ _ ih => exact ⟨taken, rfl, ih.turn h.covered ht⟩
  | keep _ hm hkeep ih => exact ih.keep hm hkeep
  | @stop taken r _ ih =>
      cases hp : r.phase with
      | idle =>
          unfold Passed at ih ⊢
          rw [hp] at ih
          simp only [Run.stop, hp]
          exact ih
      | roots _ _ | edges _ _ _ | closed => exact .halt (by simp [Run.stop, hp])
  | advance _ _ ih => exact ih

/-- A child is discovered along the first edge to its key. -/
theorem Course.firstEdge_of_new {source : Waiting C K} {edge : Option A × C}
    {rest : List (Option A × C)} {fault : Option E} (h : s.Course taken r)
    (hp : r.phase = .edges source (edge :: rest) fault)
    (hnew : r.store.contains (some k) = false) :
    s.FirstEdge taken k source.configuration edge.1 edge.2 ∧
      ∀ root ∈ s.graph.roots.items, s.identify root ≠ .ok (some k) := by
  have hpassed := h.passed
  have hcovered := h.covered
  have htold := h.sound.told
  unfold Passed at hpassed
  unfold Covered at hcovered
  rw [hp] at hpassed hcovered htold
  obtain ⟨earlier, rfl, hearlier⟩ := hpassed
  obtain ⟨-, hroots, hsource, -⟩ := hcovered
  obtain ⟨-, ⟨before, hitems⟩, -⟩ := htold
  refine ⟨⟨⟨[], source, earlier, rfl, rfl, ?_⟩, ⟨before, rest, hitems.symm, ?_⟩⟩, ?_⟩
  · intro q hq
    exact (hearlier q hq).misses hnew
  · exact Met.misses (edge :: rest) hsource hitems.symm hnew
  · intro root hroot hk
    rw [(hroots.kept hroot).contains hk] at hnew
    cases hnew

theorem Justified.keep {o : Option (Signal C K A E)} (h : s.Justified taken r)
    (hcourse : s.Course taken r) (hm : s.Move r r' o) : s.Justified taken r' := by
  have hsound := hcourse.sound
  by_cases ho : ∃ d, o = some (.discovered d)
  · obtain ⟨d, rfl⟩ := ho
    cases hm with
    | overBudget _ _ _ _ hs => exact absurd hs (s.exceed_ne_discovered _ _ d)
    | overTime _ _ _ hs => exact absurd hs (s.exceed_ne_discovered _ _ d)
    | @root _ rest fault key hp _ hc _ =>
        refine h.push (r.store.insert_of_new d hc) ?_
        intro k p j a hn
        change _ ∈ (r.forest.addRoot key d).nodes at hn
        rw [r.forest.addRoot_of_new d ((hsound.history.contains_eq key).trans hc)] at hn
        rcases List.mem_cons.mp hn with heq | hold
        · cases heq
        · exact Or.inl hold
    | @child source edge rest fault key forest hp _ hc _ hf =>
        obtain ⟨-, rfl⟩ := hsound.history.record?_of_new hc hf
        refine h.push (r.store.insert_of_new edge.2 hc) ?_
        intro k p j a hn
        rcases List.mem_cons.mp hn with heq | hold
        · cases heq
          exact Or.inr ⟨rfl, hcourse.firstEdge_of_new hp hc⟩
        · exact Or.inl hold
  · obtain ⟨hstore, hforest⟩ := hm.unchanged fun d hd => ho ⟨d, hd⟩
    unfold Justified
    rw [hstore, hforest]
    exact h

theorem Course.justified (h : s.Course taken r) : s.Justified taken r := by
  induction h with
  | initial _ => simp [Justified, Run.initial]
  | @expand taken r source rest _ _ _ _ ih =>
      intro k p j a hn
      obtain ⟨⟨c, hc, hfirst⟩, hroots⟩ := ih k p j a hn
      exact ⟨⟨c, hc, hfirst.cons source⟩, hroots⟩
  | keep h hm _ ih => exact ih.keep h hm
  | stop _ ih => exact ih
  | advance _ _ ih => exact ih

/-- What the forest tells of a stored configuration is how its key was met first. -/
theorem Course.first_of_origin {key : Key K} {j : Key K} (h : s.Course taken r)
    (hc : (key, c) ∈ r.store.entries) (ho : r.forest.origin? key = some (.child p j a)) :
    ∃ k, key = some k ∧ s.FirstEdge taken k p a c := by
  obtain ⟨k, rfl, hn⟩ := Forest.mem_of_origin? ho
  obtain ⟨⟨d, hd, hfirst⟩, -⟩ := h.justified k p j a hn
  obtain rfl : c = d := h.sound.history.eq_of_key hc hd
  exact ⟨k, rfl, hfirst⟩

end Search

namespace Reply

variable {E α β : Type}

/-- What stands somewhere among the products was produced by an item, and all that was produced by
the items before it stands in front. -/
theorem split_expand {f : α → Except E (List β)} {fault : Option E} {items : List α}
    {before after : List β} {b : β} (h : (expand f fault items).1 = before ++ b :: after) :
    ∃ earlier x later found, items = earlier ++ x :: later ∧ f x = .ok found ∧ b ∈ found ∧
      ∀ y ∈ earlier, ∃ others, f y = .ok others ∧ others ⊆ before := by
  induction items generalizing before with
  | nil => simp [expand] at h
  | cons x rest ih =>
      cases hx : f x with
      | error e => simp [expand, hx] at h
      | ok found =>
          simp only [expand, hx] at h
          -- the place is behind the products of this item, or among them
          have hsplit : (∃ between, before = found ++ between ∧
              (expand f fault rest).1 = between ++ b :: after) ∨ b ∈ found := by
            rcases List.append_eq_append_iff.mp h with hlater | ⟨between, rfl, hrest⟩
            · exact Or.inl hlater
            · cases between with
              | nil => exact Or.inl ⟨[], by simp, hrest.symm⟩
              | cons d between =>
                  obtain ⟨rfl, -⟩ := List.cons.inj hrest
                  exact Or.inr (by simp)
          rcases hsplit with ⟨between, rfl, hrest⟩ | hb
          · obtain ⟨earlier, y, later, others, rfl, hy, hb, hearlier⟩ := ih hrest
            refine ⟨x :: earlier, y, later, others, rfl, hy, hb, ?_⟩
            intro z hz
            rcases List.mem_cons.mp hz with rfl | hz
            · exact ⟨found, hx, List.subset_append_left _ _⟩
            · obtain ⟨others, hok, hsub⟩ := hearlier z hz
              exact ⟨others, hok, List.Subset.trans hsub (List.subset_append_right _ _)⟩
          · exact ⟨[], x, rest, found, rfl, hx, hb, by simp⟩

end Reply

namespace Relation

/-- The action is the first one enabled in `p` that has a successor of the given kind, and `c` is
one of its successors. -/
def FirstAction (R : Relation) (kind : Value → Prop) (p : Value) (label : Option Action)
    (c : Value) : Prop :=
  ∃ earlier action later successors, (R.enabled p).items = earlier ++ action :: later ∧
    action.label = label ∧ R.execute action p = .ok successors ∧ c ∈ successors ∧ kind c ∧
    ∀ b ∈ earlier, ∃ others, R.execute b p = .ok others ∧ ∀ d ∈ others, ¬ kind d

theorem execute_of_labelled {R : Relation} {a : Action} {p : Value}
    {found : List (Option Action × Value)}
    (h : (do return (← R.execute a p).map fun d => (a.label, d)) = Except.ok found) :
    ∃ successors, R.execute a p = .ok successors ∧
      found = successors.map fun d => (a.label, d) := by
  cases hx : R.execute a p with
  | error e => simp [hx, bind, Except.bind] at h
  | ok successors =>
      simp only [hx, bind, Except.bind, pure, Except.pure, Except.ok.injEq] at h
      exact ⟨successors, rfl, h.symm⟩

theorem firstAction_of_edges {R : Relation} {kind : Value → Prop} {p c : Value}
    {label : Option Action} {before after : List (Option Action × Value)}
    (h : (R.edges p).items = before ++ (label, c) :: after) (hc : kind c)
    (hbefore : ∀ e ∈ before, ¬ kind e.2) : R.FirstAction kind p label c := by
  obtain ⟨earlier, action, later, pairs, hitems, hpairs, hmem, hearlier⟩ := Reply.split_expand h
  obtain ⟨successors, hx, rfl⟩ := execute_of_labelled hpairs
  obtain ⟨d, hd, heq⟩ := List.mem_map.mp hmem
  cases heq
  refine ⟨earlier, action, later, successors, hitems, rfl, hx, hd, hc, ?_⟩
  intro b hb
  obtain ⟨found, hfound, hsub⟩ := hearlier b hb
  obtain ⟨others, hothers, rfl⟩ := execute_of_labelled hfound
  refine ⟨others, hothers, fun d hd => ?_⟩
  exact hbefore _ (hsub (List.mem_map.mpr ⟨d, hd, rfl⟩))

end Relation

theorem Lineage.parentOf_eq_some {key : Option KeyFunction} {forest : Forest Canon Value Action}
    {c : Value} {step : TraceStep} (h : (Lineage.mk key forest).parentOf c = .ok (some step)) :
    ∃ k j, identify key c = .ok k ∧
      forest.origin? k = some (.child step.configuration j step.action) := by
  unfold Lineage.parentOf at h
  cases hk : identify key c with
  | error e => simp [hk, bind, Except.bind] at h
  | ok k =>
      cases ho : forest.origin? k with
      | none => simp [hk, ho, bind, Except.bind] at h
      | some origin =>
          cases origin with
          | root _ => simp [hk, ho, bind, Except.bind, pure, Except.pure] at h
          | child parent j action =>
              simp only [hk, ho, bind, Except.bind, pure, Except.pure, Except.ok.injEq,
                Option.some.injEq] at h
              subst h
              exact ⟨k, j, rfl, ho⟩

/-- At every point of a run, the recorded parent of a stored configuration is the first one taken
off the frontier that has an edge to its key, and the configuration was recorded with the action of
the first such edge. In the graph of a relation that is the first enabled action with a successor of
that key. What has the key of a root has no parent. -/
theorem parentOf_first (s : ValueSearch) (key : Option KeyFunction)
    (hkey : s.identify = identify key) :
    (∀ r, s.Session r → ∃ taken, s.Course taken r) ∧
    ∀ taken r, s.Course taken r →
      (∀ c ∈ r.store.toList, ∀ p a,
        (Lineage.mk key r.forest).parentOf c = .ok (some ⟨p, a⟩) →
        ∃ k, s.identify c = .ok (some k) ∧ s.FirstEdge taken k p a c ∧
          ∀ R : Relation, s.graph = R.toGraph →
            R.FirstAction (fun d => s.identify d = .ok (some k)) p a c) ∧
      ∀ c, ∀ root ∈ s.graph.roots.items, ∀ k, s.identify root = .ok k → s.identify c = .ok k →
        ∀ step, (Lineage.mk key r.forest).parentOf c ≠ .ok (some step) := by
  refine ⟨fun r h => h.course, fun taken r h => ⟨?_, ?_⟩⟩
  · intro c hc p a hparent
    obtain ⟨k, j, hk, ho⟩ := Lineage.parentOf_eq_some hparent
    rw [← hkey] at hk
    obtain ⟨k', hentry⟩ := r.store.mem_toList.mp hc
    obtain rfl : k' = k := Except.ok.inj ((h.sound.history.identify_of_mem hentry).symm.trans hk)
    obtain ⟨k, rfl, hfirst⟩ := h.first_of_origin hentry ho
    refine ⟨k, hk, hfirst, fun R hR => ?_⟩
    obtain ⟨before, after, hedges, hmiss⟩ := hfirst.edge
    rw [hR] at hedges
    exact Relation.firstAction_of_edges hedges hk hmiss
  · intro c root hroot k hrootKey hk step hparent
    obtain ⟨k', j, hk', ho⟩ := Lineage.parentOf_eq_some hparent
    rw [← hkey, hk] at hk'
    obtain rfl : k = k' := Except.ok.inj hk'
    obtain ⟨k, rfl, hn⟩ := Forest.mem_of_origin? ho
    exact (h.justified k _ _ _ hn).2 root hroot hrootKey

def Relation.shared : Relation where
  title := "Shared"
  text := "Shared()"
  roots := [.int 0]
  enabled c :=
    { items :=
        if c == .int 0 then [.value (.str "x"), .value (.str "y")]
        else if c == .int 1 then [.value (.str "x")]
        else [] }
  execute a c :=
    .ok (if c == .int 1 then [.int 2] else if a == .value (.str "x") then [.int 1]
      else [.int 1, .int 2])

def Search.shared : ValueSearch :=
  { Search.single with graph := Relation.shared.toGraph }

/-- One was discovered by the first of its two actions, and two from zero, not from one. -/
theorem shared_parentOf_first :
    ∃ r taken k, Search.shared.exhaust 4 (.initial 0) = some (r, none) ∧
      Search.shared.Course taken r ∧
      (Lineage.mk none r.forest).parentOf (.int 1) =
        .ok (some ⟨.int 0, some (.value (.str "x"))⟩) ∧
      (Lineage.mk none r.forest).parentOf (.int 2) =
        .ok (some ⟨.int 0, some (.value (.str "y"))⟩) ∧
      Search.shared.FirstEdge taken k (.int 0) (some (.value (.str "y"))) (.int 2) ∧
      Relation.shared.FirstAction (fun d => Search.shared.identify d = .ok (some k)) (.int 0)
        (some (.value (.str "y"))) (.int 2) := by
  have hrun : ∃ r, Search.shared.exhaust 4 (.initial 0) = some (r, none) ∧
      r.store.toList = [.int 0, .int 1, .int 2] ∧
      (Lineage.mk none r.forest).parentOf (.int 1) =
        .ok (some ⟨.int 0, some (.value (.str "x"))⟩) ∧
      (Lineage.mk none r.forest).parentOf (.int 2) =
        .ok (some ⟨.int 0, some (.value (.str "y"))⟩) := ⟨_, rfl, rfl, rfl, rfl⟩
  obtain ⟨r, h, hlist, hone, htwo⟩ := hrun
  obtain ⟨hcourses, hfirst⟩ := parentOf_first Search.shared none rfl
  obtain ⟨taken, hcourse⟩ := hcourses r ((Search.Session.initial 0).exhaust h)
  obtain ⟨k, -, hedge, haction⟩ :=
    (hfirst taken r hcourse).1 (.int 2) (by simp [hlist]) _ _ htwo
  exact ⟨r, taken, k, h, hcourse, hone, htwo, hedge, haction Relation.shared rfl⟩

end StateSpace
