import StateSpace.Proofs.KeyedSearch
import StateSpace.Proofs.Ledger
import StateSpace.Proofs.Truncation

/-!
# What a fault leaves behind

A run asks for roots, for edges and for keys, and each answer may be a fault. A fault ends the call
in which it is raised and closes the run between two discoveries, so that the store and the forest
have exactly what was yielded before. From then on nothing is yielded, and the run is never
complete.
-/

namespace StateSpace

/-- The key function fails for a configuration, or the key that it gives has no identity. Without a
key function the configuration is its own key. -/
inductive Unkeyed (key : Option KeyFunction) (c : Value) : Fault → Prop where
  | raised {f : KeyFunction} {e : Fault} (hf : key = some f) (he : f c = .error e) :
      Unkeyed key c e
  | unhashable {k : Value} {typeName : String} (hk : key.elim (.ok c) (fun f => f c) = .ok k)
      (hu : k.unhashable? = some typeName) : Unkeyed key c (.unidentified c typeName)

theorem identify_of_unhashable {key : Option KeyFunction} {c k : Value} {typeName : String}
    (hk : key.elim (.ok c) (fun f => f c) = .ok k) (hu : k.unhashable? = some typeName) :
    identify key c = .error (.unidentified c typeName) := by
  cases key <;> simp_all [identify, identityKey, bind, Except.bind, pure, Except.pure]

theorem identify_of_hashable {key : Option KeyFunction} {c k : Value}
    (hk : key.elim (.ok c) (fun f => f c) = .ok k) (hu : k.unhashable? = none) :
    ∃ form, identify key c = .ok form := by
  cases key <;> simp_all [identify, identityKey, bind, Except.bind, pure, Except.pure]

theorem identify_eq_error {key : Option KeyFunction} {c : Value} {e : Fault} :
    identify key c = .error e ↔ Unkeyed key c e := by
  constructor
  · intro h
    cases hk : key.elim (.ok c) (fun f => f c) with
    | error cause =>
        cases key with
        | none => cases hk
        | some f =>
            have hf : f c = .error cause := hk
            simp only [identify, identityKey, hf, bind, Except.bind, Except.error.injEq] at h
            exact .raised rfl (h ▸ hf)
    | ok k =>
        cases hu : k.unhashable? with
        | some typeName =>
            rw [identify_of_unhashable hk hu] at h
            cases h
            exact .unhashable hk hu
        | none =>
            obtain ⟨form, hform⟩ := identify_of_hashable hk hu
            rw [hform] at h
            cases h
  · intro h
    cases h with
    | raised hf he =>
        subst hf
        simp [identify, identityKey, he, bind, Except.bind]
    | unhashable hk hu => exact identify_of_unhashable hk hu

namespace Reply

variable {E α γ : Type}

/-- The fault that is met first if something is produced from one item after the other, the given
fault standing behind them all. -/
inductive FirstFault (f : α → Except E (List γ)) (fault : Option E) : List α → E → Prop where
  | behind {e : E} (h : fault = some e) : FirstFault f fault [] e
  | here {a : α} {rest : List α} {e : E} (h : f a = .error e) : FirstFault f fault (a :: rest) e
  | later {a : α} {rest : List α} {found : List γ} {e : E} (h : f a = .ok found)
      (hs : FirstFault f fault rest e) : FirstFault f fault (a :: rest) e

theorem produced_fault_iff {f : α → Except E (List γ)} {fault : Option E} {items : List α}
    {e : E} : (produced f fault items).2 = some e ↔ FirstFault f fault items e := by
  induction items with
  | nil => exact ⟨.behind, fun h => by cases h; assumption⟩
  | cons a rest ih =>
      cases ha : f a with
      | error cause =>
          rw [produced_cons_error ha]
          constructor
          · rintro ⟨⟩
            exact .here ha
          · intro h
            cases h with
            | here he =>
                cases ha.symm.trans he
                rfl
            | later hok _ => cases ha.symm.trans hok
      | ok found =>
          rw [produced_cons_ok ha]
          refine ih.trans ⟨.later ha, fun h => ?_⟩
          cases h with
          | here he => cases ha.symm.trans he
          | later _ hs => exact hs

end Reply

namespace Search

section

variable {C K A E : Type} [DecidableEq K] {s : Search C K A E} {a : Answers C K A E}
  {r r' : Run C K A E} {e : E}

inductive FailsWith (s : Search C K A E) (a : Answers C K A E) (r : Run C K A E) :
    Call → List (Yield C) → Run C K A E → E → Prop where
  | next {r' : Run C K A E} {e : E} (h : s.nextWith a r = (r', .failed (.fault e))) :
      FailsWith s a r .next [] r' e
  | exhaust {fuel : Nat} {r' : Run C K A E} {e : E}
      (h : s.exhaustWith a fuel r = some (r', some (.fault e))) :
      FailsWith s a r .exhaust (s.yieldsWith a fuel r) r' e

abbrev Fails (s : Search C K A E) :
    Run C K A E → Call → List (Yield C) → Run C K A E → E → Prop :=
  s.FailsWith s.answers

/-- A run that is exhausted could have been asked for one configuration after the other. -/
theorem plays_of_exhaustWith {fuel : Nat} {failure : Option (Failure C K A E)}
    (h : s.exhaustWith a fuel r = some (r', failure)) :
    ∃ p signal, s.PlaysWith a r (List.replicate (s.yieldsWith a fuel r).length .next)
      (s.yieldsWith a fuel r) p ∧ s.nextWith a p = (r', signal) ∧ Ends signal failure := by
  induction fuel generalizing r with
  | zero => cases h
  | succ fuel ih =>
      rcases hn : s.nextWith a r with ⟨q, c | _ | cause⟩ <;>
        simp only [exhaustWith, hn, Option.some.injEq, Prod.mk.injEq] at h <;>
        simp only [yieldsWith, hn]
      · obtain ⟨p, signal, hplays, hends⟩ := ih h
        have hserves : s.ServesWith a r .next _ _ := .next
        rw [hn] at hserves
        exact ⟨p, signal, .cons hserves hplays, hends⟩
      · obtain ⟨rfl, rfl⟩ := h
        exact ⟨r, .done, .nil r, hn, .done⟩
      · obtain ⟨rfl, rfl⟩ := h
        exact ⟨r, .failed cause, .nil r, hn, .failed cause⟩

theorem FailsWith.plays {call : Call} {more : List (Yield C)}
    (h : s.FailsWith a r call more r' e) :
    ∃ p, s.PlaysWith a r (List.replicate more.length .next) more p ∧
      s.nextWith a p = (r', .failed (.fault e)) := by
  cases h with
  | next hn => exact ⟨r, .nil r, hn⟩
  | exhaust hx =>
      obtain ⟨p, signal, hplays, hn, hends⟩ := plays_of_exhaustWith hx
      cases hends with
      | failed => exact ⟨p, hplays, hn⟩

/-- A call for the next configuration fails with a fault exactly if that is raised on the way. -/
theorem Booked.nextWith_fault_iff {start : Rat} {found : List (Yield C)} {extra : Option C}
    (h : s.Booked a start found r extra) (ha : s.Faithful a) :
    (s.nextWith a r).2 = .failed (.fault e) ↔
      ∃ q extra, s.PassesWith a r q ∧ s.Raises a q e extra := by
  cases h with
  | kept _ hr _ => exact hr.nextWith_fault_iff ha
  | lapsed _ _ _ _ _ hl =>
      rw [s.nextWith_of_closed a hl.phase]
      refine iff_of_false (by simp) ?_
      rintro ⟨q, _, hpasses, hraises⟩
      exact hpasses.phase_ne_closed hraises hl.phase

theorem Booked.discovers {start : Rat} {found : List (Yield C)} {extra : Option C} {more : List C}
    (h : s.Booked a start found r extra) (ha : s.Faithful a)
    (hd : s.DiscoversWith a r more r') : ∃ found' extra', s.Booked a start found' r' extra' := by
  induction hd generalizing found extra with
  | nil r => exact ⟨found, extra, h⟩
  | cons hn _ ih =>
      obtain ⟨extra', hnext⟩ := h.next ha
      rw [hn] at hnext
      exact ih hnext

theorem Booked.exhaustWith_fault_iff {start : Rat} {found : List (Yield C)} {extra : Option C}
    (h : s.Booked a start found r extra) (ha : s.Faithful a) :
    (∃ fuel q, s.exhaustWith a fuel r = some (q, some (.fault e))) ↔
      ∃ more p q extra, s.DiscoversWith a r more p ∧ s.PassesWith a p q ∧
        s.Raises a q e extra := by
  constructor
  · rintro ⟨fuel, q, hx⟩
    obtain ⟨more, p, signal, hd, -, hn, hends⟩ := exhaustWith_eq_some.mp hx
    cases hends with
    | failed =>
        obtain ⟨_, _, hp⟩ := h.discovers ha hd
        obtain ⟨m, extra, hraised⟩ := (hp.nextWith_fault_iff ha).mp (congrArg Prod.snd hn)
        exact ⟨more, p, m, extra, hd, hraised⟩
  · rintro ⟨more, p, q, extra, hd, hraised⟩
    obtain ⟨_, _, hp⟩ := h.discovers ha hd
    have hfault := (hp.nextWith_fault_iff ha).mpr ⟨q, extra, hraised⟩
    exact ⟨more.length + 1, (s.nextWith a p).1, exhaustWith_eq_some.mpr
      ⟨more, p, .failed (.fault e), hd, Nat.lt_succ_self _, Prod.ext rfl hfault, .failed _⟩⟩

end

/-- The places of a run account for what it has yielded, and its lineage has an execution that leads
to each of these configurations. It does not find those whose key is made anew at each look. -/
structure Keeps (s : ValueSearch) (key : Option KeyFunction) (found : List (Yield Value))
    (extra : Option Value) (r : ValueRun) : Prop extends s.Accounts key found extra r where
  executed : ∀ y ∈ found,
    (∃ k steps, s.identify y.configuration = .ok (some k) ∧
      (Lineage.mk key r.forest).steps y.configuration = .ok steps ∧
      s.graph.Executes steps y.configuration) ∨
    s.identify y.configuration = .ok none ∧
      (Lineage.mk key r.forest).steps y.configuration = .error (.unreachable y.configuration)

section

variable {s : ValueSearch} {key : Option KeyFunction} {q r : ValueRun} {extra : Option Value}
  {found : List (Yield Value)} {order : List (Waiting Value Canon)}

theorem Ledger.executed (h : s.Ledger found order q) (hq : s.Sound q)
    (hkey : s.identify = StateSpace.identify key) (hf : s.Follows q r extra) {y : Yield Value}
    (hy : y ∈ found) :
    (∃ k steps, s.identify y.configuration = .ok (some k) ∧
      (Lineage.mk key r.forest).steps y.configuration = .ok steps ∧
      s.graph.Executes steps y.configuration) ∨
    s.identify y.configuration = .ok none ∧
      (Lineage.mk key r.forest).steps y.configuration = .error (.unreachable y.configuration) := by
  obtain ⟨k, hk⟩ := h.identify_eq_ok hq hy
  have hid : StateSpace.identify key y.configuration = .ok k := hkey ▸ hk
  cases k with
  | none => exact Or.inr ⟨hk, Lineage.steps_of_transient r.forest hid⟩
  | some k =>
      have hc : y.configuration ∈ q.store.toList := h.toList_eq ▸ List.mem_map.mpr ⟨y, hy, rfl⟩
      obtain ⟨ht, htrace⟩ := hq.traceback_eq hc hk
      obtain ⟨hsteps, -⟩ := Lineage.eq_of_extends (hf.forest.extended hq.history) hid
        (h.contains_of_mem hq hy hk)
      exact Or.inl ⟨k, _, hk, hsteps.trans (Lineage.steps_eq_of_traceback hkey ht),
        Graph.executes_of_trace htrace⟩

theorem Booked.keeps {a : Answers Value Canon Action Fault} {start : Rat}
    (h : s.Booked a start found r extra) (hkey : s.identify = StateSpace.identify key) :
    s.Keeps key found extra r where
  toAccounts := h.accounts hkey
  executed y hy := by
    cases h with
    | kept _ hr h => exact h.executed hr.sound hkey (.refl s r) hy
    | lapsed _ _ _ hq h hl => exact h.executed hq hkey hl.toFollows hy

end

/-- A call for configurations fails with a fault exactly if, on its way, a look at a key fails or
the graph breaks off, and it fails with that very fault, except that the sign that a walk has ended
leaves the call as another fault. A key fails if the key function does, or if the key has no
identity, which is told as an error of the configuration; the graph of a relation breaks off with
the first fault of its enabled actions and their execution. The run then keeps exactly what was
yielded before, and its lineage knows that and nothing else, unless the last look at a configuration
has failed: then it knows this one too. Later calls yield nothing and end at once, and the run stays
incomplete and within its budget. -/
theorem fault_lasts (s : ValueSearch) (key : Option KeyFunction)
    (hkey : s.identify = StateSpace.identify key) (a : Answers Value Canon Action Fault)
    (ha : s.Faithful a) (start : Rat) (calls : List Call) (found : List (Yield Value))
    (r : ValueRun) (h : s.PlaysWith a (.initial start) calls found r) :
    (∀ e, (s.nextWith a r).2 = .failed (.fault e) ↔
      ∃ q extra, s.PassesWith a r q ∧ s.Raises a q e extra) ∧
    (∀ e, (∃ fuel q, s.exhaustWith a fuel r = some (q, some (.fault e))) ↔
      ∃ more p q extra, s.DiscoversWith a r more p ∧ s.PassesWith a p q ∧
        s.Raises a q e extra) ∧
    (∀ e, (Failure.fault e : ValueFailure).thrown? = some e.leaving ∧ (e.leaving = e ∨
      ∃ text, e = .raised .stop text ∧ e.leaving.kind = .runtime ∧ e.leaving.cause? = some e)) ∧
    (∀ look c e, StateSpace.identify look c = .error e ↔ Unkeyed look c e) ∧
    (∀ c typeName, (Fault.unidentified c typeName).kind = .configuration) ∧
    (∀ R : Relation, s.graph = R.toGraph → ∀ c e, (s.graph.edges c).fault = some e ↔
      Reply.FirstFault (fun a => R.execute a c) (R.enabled c).fault (R.enabled c).items e) ∧
    ∀ call more q e, s.FailsWith a r call more q e →
      ∃ p m extra, s.PlaysWith a r (List.replicate more.length .next) more p ∧
        s.PassesWith a p m ∧ s.Raises a m e extra ∧ s.Keeps key (found ++ more) extra q ∧
        ∀ later again p, s.PlaysWith a q later again p →
          again = [] ∧ s.Keeps key (found ++ more) extra p ∧
          s.nextWith a p = (p, .done) ∧
          (∀ fuel, 0 < fuel → s.exhaustWith a fuel p = some (p, none)) ∧
          p.outcome.complete = false ∧ p.outcome.budgetExceeded = false := by
  obtain ⟨before, hbooked⟩ := h.booked ha
  refine ⟨fun e => hbooked.nextWith_fault_iff ha, fun e => hbooked.exhaustWith_fault_iff ha,
    fun e => ⟨rfl, e.leaving_eq_or⟩, fun _ _ _ => identify_eq_error, fun _ _ => rfl, ?_, ?_⟩
  · intro R hgraph c e
    rw [hgraph]
    change (R.edges c).fault = some e ↔ _
    rw [(R.edges_eq c).2]
    exact Reply.produced_fault_iff
  · intro call more q e hfails
    obtain ⟨p, hplays, hn⟩ := hfails.plays
    obtain ⟨_, hp⟩ := (h.append hplays).booked ha
    obtain ⟨m, extra, hpasses, hraises, hl, hq⟩ := hp.lapse ha hn
    refine ⟨p, m, extra, hplays, hpasses, hraises, hq.keeps hkey, fun later again p hlater => ?_⟩
    obtain ⟨rfl, hend⟩ := hlater.eq_or_stop hl.phase
    have hlast : s.Booked a start (found ++ more) p extra ∧ s.Lapse m p extra := by
      rcases hend with rfl | rfl
      · exact ⟨hq, hl⟩
      · exact ⟨hq.stop, hl.stop⟩
    obtain ⟨hbooks, hlapse⟩ := hlast
    have hdone := s.nextWith_of_closed a hlapse.phase
    exact ⟨rfl, hbooks.keeps hkey, hdone,
      fun fuel hfuel => exhaustWith_eq_some.mpr ⟨[], p, .done, .nil p, hfuel, hdone, .done⟩,
      by simp [Run.outcome, Run.complete, hlapse.finished],
      by simp [Run.outcome, hlapse.budgetReason]⟩

end Search

def Relation.failing (place : Value) : Relation :=
  .ofFunctions [.int 0]
    (fun c => if c == place then .error (.raised .value "failed") else .ok (.list [.str "go"]))
    (fun _ _ => .ok (.int 1))

namespace Search

def failing (place : Value) (key : Option KeyFunction) : ValueSearch :=
  { single with
    graph := (Relation.failing place).toGraph
    identify := StateSpace.identify key }

/-- The search fails at one. It keeps zero and one, with their traces, for good. -/
theorem failing_fault_lasts :
    ∃ found r more q extra, (failing (.int 1) none).Plays (.initial 0) [.next] found r ∧
      (failing (.int 1) none).Fails r .exhaust more q (.raised .value "failed") ∧
      (found ++ more).map (·.configuration) = [.int 0, .int 1] ∧
      (failing (.int 1) none).Keeps none (found ++ more) extra q ∧
      ∀ later again p, (failing (.int 1) none).Plays q later again p →
        again = [] ∧ p.outcome.complete = false ∧ p.outcome.budgetExceeded = false := by
  have hrun : ∃ found r more q, (failing (.int 1) none).Plays (.initial 0) [.next] found r ∧
      (failing (.int 1) none).Fails r .exhaust more q (.raised .value "failed") ∧
      (found ++ more).map (·.configuration) = [.int 0, .int 1] :=
    ⟨_, _, _, _, .cons .next (.nil _),
      .exhaust (show (failing (.int 1) none).exhaust 2 _ = some (_, _) from rfl), rfl⟩
  obtain ⟨found, r, more, q, hplays, hfails, hfound⟩ := hrun
  obtain ⟨-, -, -, -, -, -, hfault⟩ :=
    fault_lasts (failing (.int 1) none) none rfl _ (faithful_answers _) 0 [.next] found r hplays
  obtain ⟨_, _, extra, -, -, -, hkeeps, hlater⟩ := hfault _ more q _ hfails
  refine ⟨found, r, more, q, extra, hplays, hfails, hfound, hkeeps, fun later again p hp => ?_⟩
  obtain ⟨hagain, -, -, -, hincomplete, hbudget⟩ := hlater later again p hp
  exact ⟨hagain, hincomplete, hbudget⟩

def rootless : ValueSearch :=
  { single with
    graph := { single.graph with roots := { items := [], fault := some (.raised .stop "end") } } }

/-- Under keys that are made anew at each look, the search keeps zero, which it has yielded before
it fails, without a trace. If the last look at a configuration fails, then the lineage knows it,
although it was never yielded. The sign that a walk has ended leaves the search as another fault. If
the key of a configuration changes between two looks, then it was yielded before the search fails
and is not kept. -/
theorem failing_unkept :
    (∃ found r q,
      (failing (.int 0) (some (Expr.stream []).toKey)).Plays (.initial 0) [.next] found r ∧
      found.map (·.configuration) = [.int 0] ∧
      (failing (.int 0) (some (Expr.stream []).toKey)).Fails r .next [] q
        (.raised .value "failed") ∧
      q.store.toList = [.int 0] ∧
      (Lineage.mk (some (Expr.stream []).toKey) q.forest).steps (.int 0) =
        .error (.unreachable (.int 0))) ∧
    (∃ q, single.FailsWith (single.lapsing (.int 0)) (.initial 0) .next [] q
        (.raised .runtime "too deep") ∧
      q.store.toList = [] ∧ (Lineage.mk none q.forest).contains (.int 0) = .ok true) ∧
    (∃ q, rootless.Fails (.initial 0) .next [] q (.raised .stop "end") ∧
      (Failure.fault (.raised .stop "end") : ValueFailure).thrown? = some (.stopped "end") ∧
      (Fault.stopped "end").kind = .runtime) ∧
    ∃ found r q, (failing (.int 1) none).PlaysWith (failing (.int 1) none).shifting (.initial 0)
        [.next, .next] found r ∧ found.map (·.configuration) = [.int 0, .int 1] ∧
      (failing (.int 1) none).FailsWith (failing (.int 1) none).shifting r .next [] q
        (.raised .value "failed") ∧
      q.store.toList = [.int 0] :=
  ⟨⟨_, _, _, .cons .next (.nil _), rfl, .next rfl, rfl, rfl⟩, ⟨_, .next rfl, rfl, rfl⟩,
    ⟨_, .next rfl, rfl, rfl⟩,
    _, _, _, .cons .next (.cons .next (.nil _)), rfl, .next rfl, rfl⟩

end Search

end StateSpace
