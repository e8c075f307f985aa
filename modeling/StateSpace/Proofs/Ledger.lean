import StateSpace.Proofs.Calls
import StateSpace.Proofs.Course
import StateSpace.Proofs.Lapses
import StateSpace.Proofs.Shortest

/-!
# The books of a run

A run keeps what it has discovered in several places: the store, the forest, the frontier and the
greatest depth so far. `Ledger` ties them to the yields of the calls made on it, by a list of all
that was ever put on the frontier. A move that discovers nothing leaves that list as it is, and a
discovery adds one line to every place. What the lineage of a run tells of its yields follows, after
every series of calls and also where some of them fail. If the key of a configuration fails after it
was recorded, then the lineage knows this one configuration more.
-/

namespace StateSpace

namespace Forest

variable {K C A : Type} [DecidableEq K]

theorem isRoot_cons_other {n : Node K C A} {k : Key K} (older : List (Node K C A))
    (h : n.key.same k = false) :
    (Forest.mk (n :: older)).isRoot k = (Forest.mk older).isRoot k := by
  simp [isRoot, origin?, h]

theorem isRoot_none (f : Forest K C A) : f.isRoot none = false := by
  have hnone : f.nodes.find? (fun n => n.key.same none) = none := List.find?_eq_none.mpr (by simp)
  simp only [isRoot, origin?, hnone, Option.map_none]

end Forest

namespace Search

variable {C K A E : Type} [DecidableEq K] {s : Search C K A E} {r r' : Run C K A E}

theorem History.size_eq {store : Store K C} {forest : Forest K C A} (h : s.History store forest) :
    forest.size = store.size := by
  induction h with
  | empty => rfl
  | root _ _ _ _ ih | child _ _ _ _ _ ih => simpa [Forest.size, Store.size, Store.push] using ih

/-- What was put on the frontier, in order, is what was yielded, and every place of the run has it
so. -/
structure Ledger (s : Search C K A E) (found : List (Yield C)) (order : List (Waiting C K))
    (r : Run C K A E) : Prop where
  recorded : Recorded order r.store r.forest
  yielded : found.map (fun y => (y.configuration, y.depth)) =
    order.map (fun w => (w.configuration, w.depth))
  roots : ∀ y ∈ found, ∀ k, s.identify y.configuration = .ok (some k) →
    r.forest.isRoot (some k) = y.root
  frontier : r.frontier ⊆ order
  source : ∀ source pending fault, r.phase = .edges source pending fault → source ∈ order
  maxDepth : r.maxDepth = (order.map (·.depth)).foldl max 0

namespace Ledger

variable {found : List (Yield C)} {order : List (Waiting C K)}

theorem initial (s : Search C K A E) (start : Rat) : s.Ledger [] [] (.initial start) where
  recorded := ⟨rfl, by simp⟩
  yielded := rfl
  roots := by simp
  frontier := List.Subset.refl _
  source _ _ _ hp := by cases hp
  maxDepth := rfl

theorem keep (h : s.Ledger found order r) (hstore : r'.store = r.store)
    (hforest : r'.forest = r.forest) (hdepth : r'.maxDepth = r.maxDepth)
    (hfrontier : r'.frontier ⊆ r.frontier)
    (hsource : ∀ source pending fault, r'.phase = .edges source pending fault → source ∈ order) :
    s.Ledger found order r' where
  recorded := by rw [hstore, hforest]; exact h.recorded
  yielded := h.yielded
  roots := by rw [hforest]; exact h.roots
  frontier := List.Subset.trans hfrontier h.frontier
  source := hsource
  maxDepth := hdepth.trans h.maxDepth

theorem close (h : s.Ledger found order r) (hstore : r'.store = r.store)
    (hforest : r'.forest = r.forest) (hdepth : r'.maxDepth = r.maxDepth)
    (hfrontier : r'.frontier = r.frontier) (hphase : r'.phase = .closed) :
    s.Ledger found order r' :=
  h.keep hstore hforest hdepth (by rw [hfrontier]; exact List.Subset.refl _)
    (fun _ _ _ hp => by rw [hphase] at hp; cases hp)

/-- The line of a yield has the key that its configuration has. -/
theorem exists_line (h : s.Ledger found order r) (hr : s.Sound r) {y : Yield C} (hy : y ∈ found)
    {k : Key K} (hk : s.identify y.configuration = .ok k) :
    ∃ w ∈ order, w.key = k ∧ w.configuration = y.configuration ∧ w.depth = y.depth := by
  have hline : (y.configuration, y.depth) ∈ order.map (fun w => (w.configuration, w.depth)) :=
    h.yielded ▸ List.mem_map.mpr ⟨y, hy, rfl⟩
  obtain ⟨w, hw, heq⟩ := List.mem_map.mp hline
  obtain ⟨hc, hd⟩ := Prod.mk.inj heq
  have hid := hr.history.identify_of_mem (h.recorded.mem_entries hw)
  rw [hc, hk] at hid
  exact ⟨w, hw, (Except.ok.inj hid).symm, hc, hd⟩

theorem exists_yield (h : s.Ledger found order r) {w : Waiting C K} (hw : w ∈ order) :
    ∃ y ∈ found, y.configuration = w.configuration ∧ y.depth = w.depth := by
  have hline : (w.configuration, w.depth) ∈ found.map (fun y => (y.configuration, y.depth)) :=
    h.yielded ▸ List.mem_map.mpr ⟨w, hw, rfl⟩
  obtain ⟨y, hy, heq⟩ := List.mem_map.mp hline
  exact ⟨y, hy, Prod.mk.inj heq⟩

/-- A discovery adds its line to the end. -/
theorem grow (h : s.Ledger found order r) (hr : s.Sound r) {w : Waiting C K}
    {origin : Origin K C A} {root : Bool} (hk : s.identify w.configuration = .ok w.key)
    (hnew : r.store.contains w.key = false)
    (hstore : r'.store = r.store.push w.key w.configuration)
    (hforest : r'.forest = ⟨⟨w.key, origin⟩ :: r.forest.nodes⟩)
    (hdepth : r'.maxDepth = max r.maxDepth w.depth)
    (hfrontier : r'.frontier = enqueue s.plan.strategy w r.frontier)
    (hsource : ∀ source pending fault, r'.phase = .edges source pending fault → source ∈ order)
    (hpath : ∀ k, w.key = some k →
      (Forest.path (some k) w.configuration (⟨w.key, origin⟩ :: r.forest.nodes)).length =
        w.depth + 1)
    (hroot : ∀ k, w.key = some k →
      (Forest.mk (⟨w.key, origin⟩ :: r.forest.nodes)).isRoot (some k) = root) :
    s.Ledger (found ++ [⟨w.configuration, root, w.depth⟩]) (order ++ [w]) r' where
  recorded := by
    rw [hstore, hforest]
    exact h.recorded.push hnew hpath
  yielded := by simp [h.yielded]
  roots := by
    intro y hy k hyk
    rcases List.mem_append.mp hy with hy | hy
    · obtain ⟨v, hv, hkey, -, -⟩ := h.exists_line hr hy hyk
      have hstored : (some k, v.configuration) ∈ r.store.entries := hkey ▸ h.recorded.mem_entries hv
      rw [hforest, Forest.isRoot_cons_other _ (r.store.same_eq_false_of_mem hnew hstored)]
      exact h.roots y hy k hyk
    · rw [List.mem_singleton.mp hy] at hyk ⊢
      rw [hforest]
      exact hroot k (Except.ok.inj (hk.symm.trans hyk))
  frontier := by
    intro v hv
    rw [hfrontier, mem_enqueue] at hv
    rcases hv with rfl | hv
    · exact List.mem_append_right _ (List.mem_singleton.mpr rfl)
    · exact List.mem_append_left _ (h.frontier hv)
  source source pending fault hp := List.mem_append_left _ (hsource source pending fault hp)
  maxDepth := by simp [hdepth, h.maxDepth]

theorem silent {o : Option (Signal C K A E)} (h : s.Ledger found order r) (hm : s.Move r r' o)
    (ho : ∀ c, o ≠ some (.discovered c)) : s.Ledger found order r' := by
  cases hm with
  | rest _ => exact h
  | begin _ => exact h.keep rfl rfl rfl (List.Subset.refl _) (fun _ _ _ hp => by cases hp)
  | known hmeets _ _ =>
      cases hmeets with
      | root _ => exact h.keep rfl rfl rfl (List.Subset.refl _) (fun _ _ _ hp => by cases hp)
      | edge hp =>
          refine h.keep rfl rfl rfl (List.Subset.refl _) ?_
          rintro source pending fault ⟨⟩
          exact h.source _ _ _ hp
  | refused hmeets _ | overBudget hmeets _ _ _ _ =>
      cases hmeets <;> exact h.close rfl rfl rfl rfl rfl
  | root _ _ _ _ | child _ _ _ _ _ => exact absurd rfl (ho _)
  | @expand source rest _ hf _ =>
      have hwaiting : source :: rest ⊆ order := hf ▸ h.frontier
      refine h.keep rfl rfl rfl ?_ ?_
      · rw [hf]
        exact List.subset_cons_self source rest
      · rintro taken pending fault ⟨⟩
        exact hwaiting (List.mem_cons_self ..)
  | orphaned _ _ _ _ _ | broken _ | overTime _ _ _ _ | finish _ _ =>
      exact h.close rfl rfl rfl rfl rfl

theorem discover {c : C} (h : s.Ledger found order r) (hr : s.Sound r)
    (hm : s.Move r r' (some (.discovered c))) :
    ∃ w, s.Ledger (found ++ [⟨c, r'.phase.meetsRoots, r'.phase.level⟩]) (order ++ [w]) r' := by
  cases hm with
  | overBudget _ _ _ _ hs | overTime _ _ _ hs => exact absurd hs (s.exceed_ne_discovered _ _ c)
  | @root _ rest fault k hp hk hc _ =>
      have hforest : r.forest.contains k = false := (hr.history.contains_eq k).trans hc
      refine ⟨_, h.grow (w := ⟨k, c, 0⟩) hr hk hc (r.store.insert_of_new c hc)
        (r.forest.addRoot_of_new c hforest) rfl rfl (fun _ _ _ hp => by cases hp) ?_ ?_⟩
      · rintro a rfl
        simp [Forest.path]
      · rintro a rfl
        simp [Forest.isRoot, Forest.origin?, Phase.meetsRoots]
  | @child source edge rest fault k forest hp hk hc _ hf =>
      -- the path to the source is the one that its line tells the length of
      obtain ⟨⟨j, hj⟩, rfl⟩ := hr.history.record?_of_new hc hf
      have hsource : source ∈ order := h.source _ _ _ hp
      refine ⟨_, h.grow (w := ⟨k, edge.2, source.depth + 1⟩) hr hk hc (r.store.insert_of_new _ hc)
        rfl rfl rfl ?_ ?_ ?_⟩
      · rintro p pending fault ⟨⟩
        exact hsource
      · rintro a rfl
        simp [Forest.path, hj, h.recorded.paths source hsource j hj]
      · rintro a rfl
        simp [Forest.isRoot, Forest.origin?, Phase.meetsRoots]

theorem leads {signal : Signal C K A E} (h : s.Ledger found order r) (hr : s.Sound r)
    (hl : s.Leads r r' signal) :
    ∃ order', s.Ledger (found ++ signal.yields r'.phase) order' r' := by
  induction hl with
  | @last r r' signal hm =>
      cases signal with
      | discovered c =>
          obtain ⟨w, hw⟩ := h.discover hr hm
          exact ⟨_, hw⟩
      | done | failed _ =>
          refine ⟨order, ?_⟩
          change s.Ledger (found ++ []) order _
          rw [List.append_nil]
          exact h.silent hm (by simp)
  | more hm _ ih => exact ih (h.silent hm (by simp)) (hr.move hm)

theorem stop (h : s.Ledger found order r) : s.Ledger found order r.stop := by
  refine h.keep rfl rfl rfl (List.Subset.refl _) ?_
  intro source pending fault hp
  unfold Run.stop at hp
  cases hphase : r.phase <;> simp [hphase] at hp

end Ledger

inductive Booked (s : Search C K A E) (a : Answers C K A E) (start : Rat)
    (found : List (Yield C)) (r : Run C K A E) : Option C → Prop where
  | kept {calls : List Call} {order : List (Waiting C K)}
      (hplays : s.PlaysWith a (.initial start) calls found r) (hr : s.Session r)
      (h : s.Ledger found order r) : Booked s a start found r none
  | lapsed {calls : List Call} {order : List (Waiting C K)} {p q : Run C K A E} {e : E}
      {extra : Option C} (hplays : s.PlaysWith a (.initial start) calls found p)
      (hpasses : s.PassesWith a p q) (hraises : s.Raises a q e extra) (hq : s.Sound q)
      (h : s.Ledger found order q) (hl : s.Lapse q r extra) : Booked s a start found r extra

namespace Booked

variable {a : Answers C K A E} {start : Rat} {found : List (Yield C)} {extra : Option C}

/-- After the last yield before a fault the books are in order, and the fault is met from there. -/
theorem lapse {e : E} (h : s.Booked a start found r extra) (ha : s.Faithful a)
    (hn : s.nextWith a r = (r', .failed (.fault e))) :
    ∃ q extra', s.PassesWith a r q ∧ s.Raises a q e extra' ∧ s.Lapse q r' extra' ∧
      s.Booked a start found r' extra' := by
  cases h with
  | lapsed _ _ _ _ _ hl => cases hn.symm.trans (s.nextWith_of_closed a hl.phase)
  | kept hplays hr h =>
      have hleads := s.nextWith_leads a r
      rw [hn] at hleads
      obtain ⟨q, extra', hpasses, hraises, hl⟩ := ha.lapses hr.sound hr.undecided hleads
      obtain ⟨hq, hledger⟩ := ha.passes hr.sound (fun _ _ h hm => Ledger.silent h hm (by simp))
        hpasses h
      exact ⟨q, extra', hpasses, hraises, hl, .lapsed hplays hpasses hraises hq hledger hl⟩

theorem next (h : s.Booked a start found r extra) (ha : s.Faithful a) :
    ∃ extra', s.Booked a start
      (found ++ (s.nextWith a r).2.yields (s.nextWith a r).1.phase) (s.nextWith a r).1 extra' := by
  rcases hn : s.nextWith a r with ⟨r', signal⟩
  by_cases hfault : ∃ e, signal = .failed (.fault e)
  · obtain ⟨e, rfl⟩ := hfault
    obtain ⟨_, extra', -, -, -, hbooked⟩ := h.lapse ha hn
    exact ⟨extra', (List.append_nil found).symm ▸ hbooked⟩
  · cases h with
    | lapsed hplays hpasses hraises hq h hl =>
        cases hn.symm.trans (s.nextWith_of_closed a hl.phase)
        exact ⟨extra, (List.append_nil found).symm ▸ .lapsed hplays hpasses hraises hq h hl⟩
    | kept hplays hr h =>
        have hnext := ha.next_eq hr.sound hn (fun e he => hfault ⟨e, he⟩)
        obtain ⟨order', hledger⟩ := h.leads hr.sound (leads_of_next hnext)
        have hafter := hplays.append (.cons .next (.nil _))
        rw [List.append_nil, hn] at hafter
        exact ⟨none, .kept hafter (hr.of_next hnext) hledger⟩

theorem stop (h : s.Booked a start found r extra) : s.Booked a start found r.stop extra := by
  cases h with
  | lapsed hplays hpasses hraises hq h hl => exact .lapsed hplays hpasses hraises hq h hl.stop
  | kept hplays hr h =>
      have hafter := hplays.append (.cons .stop (.nil _))
      rw [List.append_nil, List.append_nil] at hafter
      exact .kept hafter hr.stop h.stop

end Booked

/-- Every series of calls on a new run keeps its books, up to a fault. -/
theorem PlaysWith.booked {a : Answers C K A E} {start : Rat} {calls : List Call}
    {found : List (Yield C)} (h : s.PlaysWith a (.initial start) calls found r)
    (ha : s.Faithful a) : ∃ extra, s.Booked a start found r extra :=
  h.invariant (P := fun found r => ∃ extra, s.Booked a start found r extra) []
    (fun _ _ ⟨_, hr⟩ => hr.next ha) (fun _ _ ⟨extra, hr⟩ => ⟨extra, hr.stop⟩)
    ⟨none, .kept (.nil _) (.initial start) (.initial s start)⟩

namespace Ledger

variable {found : List (Yield C)} {order : List (Waiting C K)}

theorem toList_eq (h : s.Ledger found order r) :
    r.store.toList = found.map (·.configuration) := by
  have hmapped := congrArg (List.map Prod.fst) h.yielded
  rw [List.map_map, List.map_map] at hmapped
  rw [Store.toList, ← h.recorded.entries, List.map_map]
  exact hmapped.symm

theorem maxDepth_eq (h : s.Ledger found order r) :
    r.maxDepth = (found.map (·.depth)).foldl max 0 := by
  have hmapped := congrArg (List.map Prod.snd) h.yielded
  rw [List.map_map, List.map_map] at hmapped
  rw [h.maxDepth]
  exact congrArg (List.foldl max 0) hmapped.symm

theorem path_length (h : s.Ledger found order r) (hr : s.Sound r) {y : Yield C} (hy : y ∈ found)
    {k : K} (hk : s.identify y.configuration = .ok (some k)) :
    (Forest.path (some k) y.configuration r.forest.nodes).length = y.depth + 1 := by
  obtain ⟨w, hw, hkey, hc, hd⟩ := h.exists_line hr hy hk
  rw [← hc, ← hd]
  exact h.recorded.paths w hw k hkey

theorem identify_eq_ok (h : s.Ledger found order r) (hr : s.Sound r) {y : Yield C}
    (hy : y ∈ found) : ∃ k, s.identify y.configuration = .ok k := by
  have hc : y.configuration ∈ r.store.toList := h.toList_eq ▸ List.mem_map.mpr ⟨y, hy, rfl⟩
  obtain ⟨k, hk⟩ := r.store.mem_toList.mp hc
  exact ⟨k, hr.history.identify_of_mem hk⟩

/-- The forest knows a key exactly if a yield has it. -/
theorem contains_iff (h : s.Ledger found order r) (hr : s.Sound r) {k : Key K} :
    r.forest.contains k = true ↔
      ∃ y ∈ found, ∃ a, k = some a ∧ s.identify y.configuration = .ok (some a) := by
  rw [hr.history.contains_eq, Store.contains_iff]
  constructor
  · rintro ⟨a, c, rfl, hc⟩
    obtain ⟨w, hw, -, rfl⟩ := h.recorded.exists_of_mem hc
    obtain ⟨y, hy, hyc, -⟩ := h.exists_yield hw
    exact ⟨y, hy, a, rfl, hyc ▸ hr.history.identify_of_mem hc⟩
  · rintro ⟨y, hy, a, rfl, hya⟩
    obtain ⟨w, hw, hkey, -, -⟩ := h.exists_line hr hy hya
    exact ⟨a, w.configuration, rfl, hkey ▸ h.recorded.mem_entries hw⟩

theorem pairwise (h : s.Ledger found order r) (hr : s.Sound r) :
    found.Pairwise fun y z => ∀ k, s.identify y.configuration = .ok (some k) →
      s.identify z.configuration ≠ .ok (some k) := by
  have hkeys := List.pairwise_filterMap.mp hr.history.keys_nodup
  have hstored : r.store.toList.Pairwise fun c d => ∀ k, s.identify c = .ok (some k) →
      s.identify d ≠ .ok (some k) := by
    rw [Store.toList, List.pairwise_map]
    refine hkeys.imp_of_mem ?_
    rintro ⟨i, c⟩ ⟨j, d⟩ hc hd hne k hck hdk
    have hi := (hr.history.identify_of_mem hc).symm.trans hck
    have hj := (hr.history.identify_of_mem hd).symm.trans hdk
    exact hne k (Except.ok.inj hi) k (Except.ok.inj hj) rfl
  rw [h.toList_eq, List.pairwise_map] at hstored
  exact hstored

end Ledger

end Search

namespace Lineage

variable {key : Option KeyFunction} {forest : Forest Canon Value Action} {c : Value}

theorem contains_eq {k : Key Canon} (h : identify key c = .ok k) :
    (Lineage.mk key forest).contains c = .ok (forest.contains k) := by
  simp [contains, h, bind, Except.bind, pure, Except.pure]

theorem isRoot_eq {k : Key Canon} (h : identify key c = .ok k) :
    (Lineage.mk key forest).isRoot c = .ok (forest.isRoot k) := by
  simp [isRoot, h, bind, Except.bind, pure, Except.pure]

theorem depth_of_transient (h : identify key c = .ok none) :
    (Lineage.mk key forest).depth c = .error (.unreachable c) := by
  simp [depth, steps_of_transient forest h, bind, Except.bind]

end Lineage

namespace Search

structure Accounts (s : ValueSearch) (key : Option KeyFunction) (found : List (Yield Value))
    (extra : Option Value) (r : ValueRun) : Prop where
  stored : r.store.toList = found.map (·.configuration)
  distinct : found.Pairwise fun y z => ∀ k, s.identify y.configuration = .ok (some k) →
    s.identify z.configuration ≠ .ok (some k)
  known : ∀ c, (Lineage.mk key r.forest).contains c = .ok true ↔
    ∃ d ∈ found.map (·.configuration) ++ extra.toList, ∃ k,
      s.identify c = .ok (some k) ∧ s.identify d = .ok (some k)
  size : r.forest.size = r.store.size + extra.toList.length
  apart : ∀ c, extra = some c → ∃ k, s.identify c = .ok k ∧ r.store.contains k = false
  /-- The lineage tells a root from a child, and how deep it lies, unless its key is made anew at
  each look. -/
  traced : ∀ y ∈ found,
    (∃ k, s.identify y.configuration = .ok (some k) ∧
      (Lineage.mk key r.forest).isRoot y.configuration = .ok y.root ∧
      (Lineage.mk key r.forest).depth y.configuration = .ok y.depth) ∨
    s.identify y.configuration = .ok none ∧
      (Lineage.mk key r.forest).isRoot y.configuration = .ok false ∧
      (Lineage.mk key r.forest).depth y.configuration = .error (.unreachable y.configuration)
  frontier : ∀ w ∈ r.frontier, (w.key, w.configuration) ∈ r.store.entries ∧
    ∃ y ∈ found, y.configuration = w.configuration ∧ y.depth = w.depth
  maxDepth : r.maxDepth = (found.map (·.depth)).foldl max 0
  complete : r.complete = true → r.frontier = [] ∧ r.budgetReason = none

section

variable {s : ValueSearch} {key : Option KeyFunction} {q r : ValueRun} {found : List (Yield Value)}
  {order : List (Waiting Value Canon)} {extra : Option Value}

theorem Ledger.known (h : s.Ledger found order q) (hq : s.Sound q)
    (hkey : s.identify = StateSpace.identify key) (hf : s.Follows q r extra) (c : Value) :
    (Lineage.mk key r.forest).contains c = .ok true ↔
      ∃ d ∈ found.map (·.configuration) ++ extra.toList, ∃ k,
        s.identify c = .ok (some k) ∧ s.identify d = .ok (some k) := by
  cases hc : s.identify c with
  | error e =>
      rw [hkey] at hc
      simp [Lineage.contains, hc, bind, Except.bind]
  | ok k =>
      rw [Lineage.contains_eq (hkey ▸ hc), Except.ok.injEq, hf.forest.contains_iff,
        h.contains_iff hq]
      simp only [List.mem_append, List.mem_map, Option.mem_toList, Except.ok.injEq]
      constructor
      · rintro (⟨y, hy, a, rfl, ha⟩ | ⟨d, a, hd, rfl, ha⟩)
        · exact ⟨_, Or.inl ⟨y, hy, rfl⟩, a, rfl, ha⟩
        · exact ⟨d, Or.inr hd, a, rfl, ha⟩
      · rintro ⟨d, ⟨y, hy, rfl⟩ | hd, a, rfl, ha⟩
        · exact Or.inl ⟨y, hy, a, rfl, ha⟩
        · exact Or.inr ⟨d, a, hd, rfl, ha⟩

theorem Ledger.contains_of_mem (h : s.Ledger found order q) (hq : s.Sound q) {y : Yield Value}
    (hy : y ∈ found) {k : Canon} (hk : s.identify y.configuration = .ok (some k)) :
    q.forest.contains (some k) = true :=
  (h.contains_iff hq).mpr ⟨y, hy, k, rfl, hk⟩

theorem Ledger.traced (h : s.Ledger found order q) (hq : s.Sound q)
    (hkey : s.identify = StateSpace.identify key) (hf : s.Follows q r extra) {y : Yield Value}
    (hy : y ∈ found) :
    (∃ k, s.identify y.configuration = .ok (some k) ∧
      (Lineage.mk key r.forest).isRoot y.configuration = .ok y.root ∧
      (Lineage.mk key r.forest).depth y.configuration = .ok y.depth) ∨
    s.identify y.configuration = .ok none ∧
      (Lineage.mk key r.forest).isRoot y.configuration = .ok false ∧
      (Lineage.mk key r.forest).depth y.configuration = .error (.unreachable y.configuration) := by
  obtain ⟨k, hk⟩ := h.identify_eq_ok hq hy
  have hid : StateSpace.identify key y.configuration = .ok k := hkey ▸ hk
  cases k with
  | none =>
      refine Or.inr ⟨hk, ?_, Lineage.depth_of_transient hid⟩
      rw [Lineage.isRoot_eq hid, Forest.isRoot_none]
  | some a =>
      obtain ⟨-, hdepth, hroot, -⟩ := Lineage.eq_of_extends (hf.forest.extended hq.history) hid
        (h.contains_of_mem hq hy hk)
      refine Or.inl ⟨a, hk, ?_, hdepth.trans ((Lineage.depth_eq_ok hkey).mpr ?_)⟩
      · rw [hroot, Lineage.isRoot_eq hid, h.roots y hy a hk]
      · have hc : y.configuration ∈ q.store.toList := h.toList_eq ▸ List.mem_map.mpr ⟨y, hy, rfl⟩
        refine ⟨_, (hq.traceback_eq hc hk).1, ?_⟩
        rw [h.path_length hq hy hk]
        omega

theorem Ledger.accounts (h : s.Ledger found order q) (hq : s.Sound q)
    (hkey : s.identify = StateSpace.identify key) (hf : s.Follows q r extra)
    (hcomplete : r.complete = true → r.frontier = [] ∧ r.budgetReason = none) :
    s.Accounts key found extra r where
  stored := hf.store ▸ h.toList_eq
  distinct := h.pairwise hq
  known := h.known hq hkey hf
  size := by rw [hf.forest.size_eq, hq.history.size_eq, hf.store]
  apart := by
    rintro c rfl
    rw [hf.store]
    exact hf.forest.apart
  traced _ hy := h.traced hq hkey hf hy
  frontier w hw := by
    rw [hf.frontier] at hw
    rw [hf.store]
    exact ⟨hq.frontier w hw, h.exists_yield (h.frontier hw)⟩
  maxDepth := hf.maxDepth.trans h.maxDepth_eq
  complete := hcomplete

theorem Booked.accounts {a : Answers Value Canon Action Fault} {start : Rat}
    (h : s.Booked a start found r extra) (hkey : s.identify = StateSpace.identify key) :
    s.Accounts key found extra r := by
  cases h with
  | kept _ hr h =>
      refine h.accounts hr.sound hkey (.refl s r) fun hc => ?_
      have hbudget := (Bool.and_eq_true_iff.mp hc).2
      exact ⟨(hr.finished_accounts (finished_of_complete hc)).1,
        Option.isNone_iff_eq_none.mp hbudget⟩
  | lapsed _ _ _ hq h hl =>
      refine h.accounts hq hkey hl.toFollows fun hc => ?_
      have hfinished := finished_of_complete hc
      rw [hl.finished] at hfinished
      cases hfinished

end

/-- After every series of calls on a new run, its places account for what it has yielded. Some of
the looks at keys may have failed. The lineage knows one configuration more than was yielded only
where the last look at this configuration has failed, at a point that the run passed after its last
yield. -/
theorem calls_accounted (s : ValueSearch) (key : Option KeyFunction)
    (hkey : s.identify = StateSpace.identify key) (a : Answers Value Canon Action Fault)
    (ha : s.Faithful a) (start : Rat) (calls : List Call) (found : List (Yield Value))
    (r : ValueRun) (h : s.PlaysWith a (.initial start) calls found r) :
    ∃ extra, s.Accounts key found extra r ∧
      ∀ c, extra = some c → ∃ calls p q e, s.PlaysWith a (.initial start) calls found p ∧
        s.PassesWith a p q ∧ s.Raises a q e (some c) ∧ s.Lapse q r (some c) := by
  obtain ⟨extra, hbooked⟩ := h.booked ha
  refine ⟨extra, hbooked.accounts hkey, ?_⟩
  rintro c rfl
  cases hbooked with
  | lapsed hplays hpasses hraises _ _ hl => exact ⟨_, _, _, _, hplays, hpasses, hraises, hl⟩

def lapsing (s : ValueSearch) (place : Value) : Answers Value Canon Action Fault :=
  { s.answers with
    store := fun _ c => if c == place then .error (.raised .runtime "too deep") else s.identify c }

theorem faithful_lapsing (s : ValueSearch) (place : Value) : s.Faithful (s.lapsing place) where
  lookup h := h
  record h := h
  parent _ h := (Except.ok.inj h).symm
  store {r c k} h := by
    dsimp only [lapsing] at h
    split_ifs at h
    exact h

/-- The last look at one fails, and the lineage knows it beside zero, which was yielded. -/
theorem single_calls_accounted :
    ∃ found r extra,
      single.PlaysWith (single.lapsing (.int 1)) (.initial 0)
        [.next, .result, .next, .stop, .exhaust] found r ∧
      found = [⟨.int 0, true, 0⟩] ∧ single.Accounts none found extra r ∧
      extra.toList.length = 1 := by
  have hplayed : ∃ found r,
      single.PlaysWith (single.lapsing (.int 1)) (.initial 0)
        [.next, .result, .next, .stop, .exhaust] found r ∧ found = [⟨.int 0, true, 0⟩] ∧
        r.forest.size = r.store.size + 1 :=
    ⟨_, _, .cons .next (.cons .result (.cons .next (.cons .stop
      (.cons (.exhaust (show single.exhaustWith _ 1 _ = some (_, _) from rfl)) (.nil _))))), rfl,
      rfl⟩
  obtain ⟨found, r, h, hfound, hforest⟩ := hplayed
  obtain ⟨extra, haccounts, -⟩ := calls_accounted single none rfl _
    (single.faithful_lapsing (.int 1)) 0 _ found r h
  have hsize := haccounts.size
  exact ⟨found, r, extra, h, hfound, haccounts, by omega⟩

/-- The answers of keys that change: one stores under the key of zero, which it was not looked up
under. -/
def shifting (s : ValueSearch) : Answers Value Canon Action Fault :=
  { s.answers with store := fun _ _ => s.identify (.int 0) }

/-- Under keys that are made anew at each look, a root is yielded that the lineage does not know. If
the last look at a configuration fails, the lineage knows it and the store does not have it. If the
key of a configuration changes between two looks, it is yielded and not stored. -/
theorem single_calls_unaccounted :
    (∃ found r, transient.Plays (.initial 0) [.next] found r ∧ found = [⟨.int 0, true, 0⟩] ∧
      r.store.toList = [.int 0] ∧
      (Lineage.mk (some (Expr.stream []).toKey) r.forest).isRoot (.int 0) = .ok false ∧
      (Lineage.mk (some (Expr.stream []).toKey) r.forest).depth (.int 0) =
        .error (.unreachable (.int 0))) ∧
    (∃ found r, single.PlaysWith (single.lapsing (.int 1)) (.initial 0) [.next, .next] found r ∧
      found = [⟨.int 0, true, 0⟩] ∧ r.store.toList = [.int 0] ∧ r.forest.size = 2 ∧
      (Lineage.mk none r.forest).contains (.int 1) = .ok true) ∧
    ∃ found r, single.PlaysWith single.shifting (.initial 0) [.next, .next] found r ∧
      found.map (·.configuration) = [.int 0, .int 1] ∧ r.store.toList = [.int 0] :=
  ⟨⟨_, _, .cons .next (.nil _), rfl, rfl, rfl, rfl⟩,
    ⟨_, _, .cons .next (.cons .next (.nil _)), rfl, rfl, rfl, rfl⟩,
    _, _, .cons .next (.cons .next (.nil _)), rfl, rfl⟩

end Search

end StateSpace
