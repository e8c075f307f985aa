import Mathlib.Data.Set.Finite.Basic
import StateSpace.Proofs.Scan

/-!
# Verdicts are right, and they are reached

A check that holds has seen every stored configuration, and a run that ends within its budget has
stored all that can be reached. Conversely a search without a budget, in which nothing fails and
every key can be met again, makes no more discoveries than there are reachable keys; it then ends,
and the check has a verdict.
-/

namespace StateSpace.Search

variable {C K A E : Type} {s : Search C K A E} {r r' : Run C K A E}
  {predicates : List (Predicate C E)}

/-- A search without a budget in which nothing that can be reached fails, under keys that can all be
met again. -/
structure Untroubled (s : Search C K A E) : Prop where
  configurations : s.plan.maxConfigurations = none
  seconds : s.plan.maxSeconds = none
  roots : s.graph.roots.fault = none
  edges : ∀ c, s.graph.Reachable c → (s.graph.edges c).fault = none
  keys : ∀ c, s.graph.Reachable c → ∃ k, s.identify c = .ok (some k)

theorem Untroubled.outOfTime_eq (h : s.Untroubled) (r : Run C K A E) : s.outOfTime r = none := by
  simp [outOfTime, h.seconds]

theorem Untroubled.outOfBudget_eq (h : s.Untroubled) (r : Run C K A E) :
    s.outOfBudget r = none := by
  simp [outOfBudget, h.configurations, h.outOfTime_eq r]

variable [DecidableEq K]

/-- What a sound run meets can be reached. -/
theorem Sound.reachable_of_meets {counted : Run C K A E} {c : C} {phase : Phase C K A E}
    (h : s.Sound r) (hm : Meets r counted c phase) : s.graph.Reachable c := by
  have htold := h.told
  cases hm with
  | root hp =>
      rw [hp] at htold
      exact .root (htold.1.subset (List.mem_cons_self ..))
  | edge hp =>
      rw [hp] at htold
      exact (h.history.reachable_of_mem htold.1).step (htold.2.1.subset (List.mem_cons_self ..))

/-- A graph without faults does not break. -/
theorem Untroubled.not_breaks {e : E} (h : s.Untroubled) (hr : s.Sound r) :
    ¬ Breaks r.phase e := by
  intro hb
  have htold := hr.told
  generalize r.phase = phase at hb htold
  cases hb with
  | roots e =>
      have hfault := htold.2.trans h.roots
      cases hfault
  | edges source e =>
      have hfault := htold.2.2.trans (h.edges _ (hr.history.reachable_of_mem htold.1))
      cases hfault

/-- In an untroubled search no move fails, and none uses up a budget. -/
theorem Untroubled.move {o : Option (Signal C K A E)} (h : s.Untroubled) (hr : s.Sound r)
    (hm : s.Move r r' o) :
    (∀ failure, o ≠ some (.failed failure)) ∧ r'.budgetReason = r.budgetReason := by
  cases hm with
  | rest _ => exact ⟨by simp, rfl⟩
  | begin _ => exact ⟨by simp, rfl⟩
  | known hmeets _ _ => cases hmeets <;> exact ⟨by simp, rfl⟩
  | refused hmeets he =>
      obtain ⟨k, hk⟩ := h.keys _ (hr.reachable_of_meets hmeets)
      rw [hk] at he
      cases he
  | overBudget _ _ _ hb _ =>
      rw [h.outOfBudget_eq] at hb
      cases hb
  | root _ _ _ _ => exact ⟨by simp, rfl⟩
  | child _ _ _ _ _ => exact ⟨by simp, rfl⟩
  | @orphaned source edge rest fault k hp _ hc _ hf =>
      -- the source is stored under a key that can be met again, so that the forest knows it
      have htold := hr.told
      rw [hp] at htold
      obtain ⟨j, hj⟩ := h.keys _ (hr.history.reachable_of_mem htold.1)
      have hkey : source.key = some j :=
        Except.ok.inj ((hr.history.identify_of_mem htold.1).symm.trans hj)
      have hknown : r.forest.contains source.key = true := by
        rw [hr.history.contains_eq, hkey]
        exact r.store.contains_of_mem (hkey ▸ htold.1)
      have hnew : r.forest.contains k = false := (hr.history.contains_eq k).trans hc
      simp [Forest.record?, hnew, hknown] at hf
  | broken hb => exact absurd hb (h.not_breaks hr)
  | overTime _ _ ht _ =>
      rw [h.outOfTime_eq] at ht
      cases ht
  | expand _ _ _ => exact ⟨by simp, rfl⟩
  | finish _ _ => exact ⟨by simp, rfl⟩

theorem Untroubled.leads {signal : Signal C K A E} (h : s.Untroubled) (hr : s.Sound r)
    (hl : s.Leads r r' signal) :
    (∀ failure, signal ≠ .failed failure) ∧ r'.budgetReason = r.budgetReason := by
  induction hl with
  | last hm =>
      obtain ⟨hsignal, hreason⟩ := h.move hr hm
      exact ⟨fun failure hs => hsignal failure (congrArg some hs), hreason⟩
  | more hm _ ih =>
      obtain ⟨hsignal, hreason⟩ := ih (hr.move hm)
      exact ⟨hsignal, hreason.trans (h.move hr hm).2⟩

theorem Untroubled.discovers {found : List C} (h : s.Untroubled) (hr : s.Session r)
    (hd : s.Discovers r found r') : r'.budgetReason = r.budgetReason := by
  induction hd with
  | nil => rfl
  | @cons r r₁ r' c found hn _ ih =>
      exact (ih (hr.of_next hn)).trans (h.leads hr.sound (leads_of_next hn)).2

/-- No key that can be met again is stored twice. -/
theorem History.keys_nodup {store : Store K C} {forest : Forest K C A}
    (h : s.History store forest) : (store.entries.filterMap (·.1)).Nodup := by
  have hpush : ∀ (store : Store K C) (k : Key K) (c : C),
      (store.entries.filterMap (·.1)).Nodup → store.contains k = false →
        ((store.push k c).entries.filterMap (·.1)).Nodup := by
    intro store k c hold hnew
    cases k with
    | none => simpa [Store.push, List.filterMap_append] using hold
    | some a =>
        simp only [Store.push, List.filterMap_append, List.filterMap_cons, List.filterMap_nil]
        refine List.nodup_append.mpr ⟨hold, List.nodup_singleton a, ?_⟩
        rintro x hx y hy rfl
        obtain ⟨⟨j, d⟩, hmem, hj⟩ := List.mem_filterMap.mp hx
        have hja : j = some a := (show j = some x from hj).trans (by rw [List.mem_singleton.mp hy])
        subst hja
        rw [store.contains_of_mem hmem] at hnew
        cases hnew
  induction h with
  | empty => exact List.nodup_nil
  | root _ _ _ hnew ih => exact hpush _ _ _ ih hnew
  | child _ _ _ _ hnew ih => exact hpush _ _ _ ih hnew

def reachableKeys (s : Search C K A E) : Set K :=
  {k | ∃ c, s.graph.Reachable c ∧ s.identify c = .ok (some k)}

/-- A run stores no more keys that can be met again than there are reachable ones. -/
theorem Session.keys_length_le (hfin : s.reachableKeys.Finite) (hr : s.Session r) :
    (r.store.entries.filterMap (·.1)).length ≤ hfin.toFinset.card := by
  have hhistory := hr.sound.history
  have hsubset : r.store.entries.filterMap (·.1) ⊆ hfin.toFinset.toList := by
    intro k hk
    obtain ⟨⟨j, c⟩, he, hjk⟩ := List.mem_filterMap.mp hk
    have hid : s.identify c = .ok (some k) :=
      (hhistory.identify_of_mem he).trans (congrArg Except.ok hjk)
    simpa using show k ∈ s.reachableKeys from ⟨c, hhistory.reachable_of_mem he, hid⟩
  rw [← Finset.length_toList]
  exact hhistory.keys_nodup.length_le_of_subset hsubset

/-- An untroubled run stores no more configurations than there are reachable keys. -/
theorem Untroubled.length_le (h : s.Untroubled) (hfin : s.reachableKeys.Finite)
    (hr : s.Session r) : r.store.toList.length ≤ hfin.toFinset.card := by
  have hhistory := hr.sound.history
  have hlength : (r.store.entries.filterMap (·.1)).length = r.store.toList.length := by
    rw [List.filterMap_length_eq_length.mpr]
    · simp [Store.toList]
    · rintro ⟨j, c⟩ he
      obtain ⟨k, hk⟩ := h.keys c (hhistory.reachable_of_mem he)
      have hj : j = some k := Except.ok.inj ((hhistory.identify_of_mem he).symm.trans hk)
      simp [hj]
  rw [← hlength]
  exact hr.keys_length_le hfin

/-- A run makes as many discoveries as it is asked for, or it ends before. -/
theorem discovers_or_ends (s : Search C K A E) (n : Nat) (r : Run C K A E) :
    (∃ found r', s.Discovers r found r' ∧ found.length = n) ∨
      ∃ found r₁ r₂ signal, s.Discovers r found r₁ ∧ found.length < n ∧
        s.next r₁ = (r₂, signal) ∧ ∀ c, signal ≠ .discovered c := by
  induction n generalizing r with
  | zero => exact Or.inl ⟨[], r, .nil r, rfl⟩
  | succ n ih =>
      cases hn : s.next r with
      | mk r₁ signal =>
          cases signal with
          | discovered c =>
              rcases ih r₁ with ⟨found, r', hd, hlen⟩ | ⟨found, r₂, r₃, signal, hd, hlen, hend⟩
              · exact Or.inl ⟨c :: found, r', .cons hn hd, by simp [hlen]⟩
              · exact Or.inr ⟨c :: found, r₂, r₃, signal, .cons hn hd, by simpa using hlen, hend⟩
          | done => exact Or.inr ⟨[], r, r₁, _, .nil r, by simp, hn, by simp⟩
          | failed failure => exact Or.inr ⟨[], r, r₁, _, .nil r, by simp, hn, by simp⟩

/-- An untroubled search with finitely many reachable keys ends without having used up a budget. -/
theorem Untroubled.ends (h : s.Untroubled) (hfin : s.reachableKeys.Finite) (start : Rat) :
    ∃ found r₁ r₂, s.Discovers (.initial start) found r₁ ∧ found.length ≤ hfin.toFinset.card ∧
      s.next r₁ = (r₂, .done) ∧ r₂.budgetReason = none := by
  have hlist : ∀ {found r'}, s.Discovers (.initial start) found r' →
      found.length ≤ hfin.toFinset.card := by
    intro found r' hd
    have hle := h.length_le hfin (hd.session (.initial start))
    rw [hd.toList_eq] at hle
    exact hle
  rcases s.discovers_or_ends (hfin.toFinset.card + 1) (.initial start) with
    ⟨found, r', hd, hlen⟩ | ⟨found, r₁, r₂, signal, hd, -, hn, hsignal⟩
  · have hle := hlist hd
    omega
  · have hsession := hd.session (.initial start)
    obtain ⟨hfailed, hreason⟩ := h.leads hsession.sound (leads_of_next hn)
    have hnone : r₂.budgetReason = none := hreason.trans (h.discovers (.initial start) hd)
    cases signal with
    | discovered c => exact absurd rfl (hsignal c)
    | failed failure => exact absurd rfl (hfailed failure)
    | done => exact ⟨found, r₁, r₂, hd, hlist hd, hn, hnone⟩

theorem Kept.alike_stored {store : Store K C} {forest : Forest K C A} {c : C}
    (hhistory : s.History store forest) (h : s.Kept store c) :
    ∃ d ∈ store.toList, s.Alike c d := by
  obtain ⟨k, hk, hcontains | ⟨-, hmem⟩⟩ := h
  · obtain ⟨a, d, rfl, hd⟩ := store.contains_iff.mp hcontains
    exact ⟨d, store.mem_toList.mpr ⟨_, hd⟩, Or.inr ⟨a, hk, hhistory.identify_of_mem hd⟩⟩
  · exact ⟨c, store.mem_toList.mpr ⟨none, hmem⟩, Or.inl rfl⟩

def Respected (s : Search C K A E) (predicates : List (Predicate C E)) : Prop :=
  ∀ p ∈ predicates, ∀ c d, s.Alike c d → (p.holds c = .ok true ↔ p.holds d = .ok true)

/-- If predicates hold at all discoveries of a run that ends within its budget, they hold
everywhere. -/
theorem holds_of_done {start : Rat} {found : List C} {r₁ r₂ : Run C K A E} (hs : s.Coherent)
    (hp : s.Respected predicates) (hd : s.Discovers (.initial start) found r₁)
    (hn : s.next r₁ = (r₂, .done)) (hbudget : r₂.budgetReason = none)
    (hfound : ∀ c ∈ found, Predicate.firstFailing c predicates = none) {c : C}
    (hc : s.graph.Reachable c) : ∀ p ∈ predicates, p.holds c = .ok true := by
  intro p hmem
  have hleads : s.Leads r₁ r₂ .done := leads_of_next hn
  have hr₂ : s.Session r₂ := (hd.session (.initial start)).of_next hn
  have hopen : r₁.phase ≠ .closed := hd.phase_ne_closed (by simp [Run.initial])
  have hcomplete : r₂.complete = true := by
    rcases hleads.done hopen with hfinished | hsome
    · simp [Run.complete, hfinished, hbudget]
    · simp [hbudget] at hsome
  have hstore : r₂.store.toList = found := by
    rw [(hleads.unchanged (by simp)).1, hd.toList_eq]
    rfl
  obtain ⟨hroots, hedges⟩ := hr₂.kept_of_complete hcomplete
  obtain ⟨d, hstored, halike⟩ :=
    (kept_of_reachable hs hr₂.sound.history hroots hedges hc).alike_stored hr₂.sound.history
  rw [hstore] at hstored
  exact (hp p hmem c d halike).mpr (Predicate.firstFailing_eq_none.mp (hfound d hstored) p hmem)

theorem checkAll_holds {start : Rat} {fuel : Nat} {v : Verdict C A} (hs : s.Coherent)
    (hp : s.Respected predicates)
    (h : s.checkAll predicates fuel (.initial start) = some (r, .ok v)) (hv : v.status = .holds)
    {c : C} (hc : s.graph.Reachable c) : ∀ p ∈ predicates, p.holds c = .ok true := by
  obtain ⟨found, r₁, r₂, signal, hd, -, hfound, hn, hsettle⟩ := checkAll_eq_some.mp h
  rcases settle_eq_ok hsettle with ⟨rfl, rfl⟩ | ⟨d, name, rfl, -, hrefute⟩
  · have hbudget : r₂.budgetReason = none := by
      rw [conclude_eq] at hv
      cases hb : r₂.budgetReason with
      | none => rfl
      | some reason => simp [Run.outcome, hb] at hv
    exact holds_of_done hs hp hd hn hbudget hfound hc
  · obtain ⟨steps, -, hstatus, -, -⟩ := refute_eq_ok hrefute
    rw [hstatus] at hv
    cases hv

theorem checkAll_violated {start : Rat} {fuel : Nat} {v : Verdict C A}
    (h : s.checkAll predicates fuel (.initial start) = some (r, .ok v))
    (hv : v.status = .violated) :
    ∃ ce, v.counterexample = some ce ∧ s.graph.Reachable ce.configuration ∧
      ∃ p ∈ predicates, p.name = v.property ∧ p.holds ce.configuration = .ok false := by
  obtain ⟨found, r₁, r₂, signal, -, -, -, -, hsettle⟩ := checkAll_eq_some.mp h
  rcases settle_eq_ok hsettle with ⟨-, rfl⟩ | ⟨c, name, -, hfirst, hrefute⟩
  · rw [conclude_eq] at hv
    cases hb : r₂.budgetReason <;> simp [Run.outcome, hb] at hv
  · obtain ⟨steps, -, -, hproperty, hce⟩ := refute_eq_ok hrefute
    obtain ⟨earlier, p, later, hsplit, -, hname, hp⟩ := Predicate.firstFailing_eq_some.mp hfirst
    refine ⟨_, hce, ⟨_, (Session.initial start).checkAll_trace h hce⟩, p, ?_, ?_, hp⟩
    · simp [hsplit]
    · rw [hname, hproperty]

/-- The first discovery at which a predicate does not hold. -/
theorem exists_first_failing {found : List C}
    (h : ¬ ∀ c ∈ found, Predicate.firstFailing c predicates = none) :
    ∃ before c after, found = before ++ c :: after ∧
      (∀ d ∈ before, Predicate.firstFailing d predicates = none) ∧
      Predicate.firstFailing c predicates ≠ none := by
  cases hf : found.find? fun c => (Predicate.firstFailing c predicates).isSome with
  | none =>
      refine absurd (fun c hc => ?_) h
      simpa using List.find?_eq_none.mp hf c hc
  | some c =>
      obtain ⟨hc, before, after, hsplit, hbefore⟩ := List.find?_eq_some_iff_append.mp hf
      refine ⟨before, c, after, hsplit, fun d hd => ?_, ?_⟩
      · simpa using hbefore d hd
      · intro hnone
        simp [hnone] at hc

/-- A discovery that breaks a predicate settles an untroubled check. -/
theorem Untroubled.checkAll_fails {start : Rat} {fuel : Nat} {found : List C} {r₁ : Run C K A E}
    (h : s.Untroubled)
    (hanswers : ∀ c, s.graph.Reachable c → ∀ p ∈ predicates, ∃ b, p.holds c = .ok b)
    (hd : s.Discovers (.initial start) found r₁) (hfuel : found.length < fuel)
    (hfound : ¬ ∀ c ∈ found, Predicate.firstFailing c predicates = none) :
    ∃ r v, s.checkAll predicates fuel (.initial start) = some (r, .ok v) ∧
      v.status = .violated := by
  obtain ⟨before, c, after, rfl, hbefore, hc⟩ := exists_first_failing hfound
  have hlen : before.length < fuel := by
    rw [List.length_append] at hfuel
    omega
  obtain ⟨r₂, hr₂, hlist, -, hcheck⟩ := checkAll_stops (.initial start) hd hlen hbefore hc
  have hstored : c ∈ r₂.store.toList := by simp [hlist]
  obtain ⟨j, hj⟩ := r₂.store.mem_toList.mp hstored
  have hreach := hr₂.sound.history.reachable_of_mem hj
  obtain ⟨k, hk⟩ := h.keys c hreach
  have htrace : s.traceback ((s.look r₂).stop).forest c = .ok _ :=
    (hr₂.sound.traceback_eq hstored hk).1
  obtain ⟨⟨name, cause⟩, hfirst⟩ := Option.ne_none_iff_exists'.mp hc
  obtain ⟨earlier, p, later, hsplit, -, -, hp⟩ := Predicate.firstFailing_eq_some.mp hfirst
  obtain ⟨b, hb⟩ := hanswers c hreach p (by simp [hsplit])
  cases cause with
  | some e =>
      rw [hb] at hp
      cases hp
  | none =>
      rw [hcheck]
      simp only [settle, hfirst, refute, Run.note, htrace]
      exact ⟨_, _, rfl, rfl⟩

/-- For predicates that respect the keys of a coherent search, a check that holds is right
everywhere and a violation is a reachable one. If the search is untroubled, has finitely many
reachable keys and gets an answer from each predicate, then the check has a verdict, whichever fuel
it is given beyond some amount: it holds if all that can be reached satisfies the predicates, and is
violated otherwise. -/
theorem checkAll_sound_complete (s : Search C K A E) (predicates : List (Predicate C E))
    (hs : s.Coherent) (hp : s.Respected predicates) :
    (∀ start fuel r v, s.checkAll predicates fuel (.initial start) = some (r, .ok v) →
      v.status = .holds → ∀ c, s.graph.Reachable c → ∀ p ∈ predicates, p.holds c = .ok true) ∧
    (∀ start fuel r v, s.checkAll predicates fuel (.initial start) = some (r, .ok v) →
      v.status = .violated → ∃ ce, v.counterexample = some ce ∧
        s.graph.Reachable ce.configuration ∧
        ∃ p ∈ predicates, p.name = v.property ∧ p.holds ce.configuration = .ok false) ∧
    (s.Untroubled → s.reachableKeys.Finite →
      (∀ c, s.graph.Reachable c → ∀ p ∈ predicates, ∃ b, p.holds c = .ok b) →
      ∀ start, ∃ n, ∀ fuel, n ≤ fuel → ∃ r v,
        s.checkAll predicates fuel (.initial start) = some (r, .ok v) ∧
        ((∀ c, s.graph.Reachable c → ∀ p ∈ predicates, p.holds c = .ok true) →
          v.status = .holds) ∧
        ((∃ c, s.graph.Reachable c ∧ ∃ p ∈ predicates, p.holds c = .ok false) →
          v.status = .violated)) := by
  refine ⟨?_, ?_, ?_⟩
  · intro start fuel r v h hv c hc
    exact checkAll_holds hs hp h hv hc
  · intro start fuel r v h hv
    exact checkAll_violated h hv
  · intro huntroubled hfin hanswers start
    obtain ⟨found, r₁, r₂, hd, hlen, hn, hbudget⟩ := huntroubled.ends hfin start
    refine ⟨hfin.toFinset.card + 1, fun fuel hfuel => ?_⟩
    have hlt : found.length < fuel := by omega
    by_cases hfound : ∀ c ∈ found, Predicate.firstFailing c predicates = none
    · refine ⟨_, _, checkAll_passes hd hlt hfound hn, ?_, ?_⟩
      · intro _
        simp [conclude_eq, Run.outcome, hbudget]
      · rintro ⟨c, hc, p, hmem, hfalse⟩
        have htrue := holds_of_done hs hp hd hn hbudget hfound hc p hmem
        rw [hfalse] at htrue
        cases htrue
    · obtain ⟨r, v, hcheck, hv⟩ := huntroubled.checkAll_fails hanswers hd hlt hfound
      refine ⟨r, v, hcheck, ?_, fun _ => hv⟩
      intro hall
      obtain ⟨ce, -, hreach, p, hmem, -, hfalse⟩ := checkAll_violated hcheck hv
      rw [hall _ hreach p hmem] at hfalse
      cases hfalse

theorem parity_untroubled : parity.Untroubled where
  configurations := rfl
  seconds := rfl
  roots := rfl
  edges _ _ := rfl
  keys c _ := ⟨c % 2, rfl⟩

theorem parity_keys_finite : parity.reachableKeys.Finite := by
  refine (Set.finite_lt_nat 2).subset ?_
  rintro k ⟨c, -, hk⟩
  have hmod : c % 2 = k := Option.some.inj (Except.ok.inj hk)
  change k < 2
  omega

theorem parity_respected : parity.Respected [isEven] := by
  intro p hp c d hcd
  rw [List.mem_singleton.mp hp]
  rcases hcd with rfl | ⟨k, hc, hd⟩
  · rfl
  · have hmod : c % 2 = d % 2 := Option.some.inj (Except.ok.inj (hc.trans hd.symm))
    simp [isEven, hmod]

theorem parity_checkAll_violated :
    ∃ n, ∀ fuel, n ≤ fuel → ∃ r v,
      parity.checkAll [isEven] fuel (.initial 0) = some (r, .ok v) ∧ v.status = .violated := by
  have hanswers : ∀ c, parity.graph.Reachable c → ∀ p ∈ [isEven], ∃ b, p.holds c = .ok b := by
    intro c _ p hp
    rw [List.mem_singleton.mp hp]
    exact ⟨_, rfl⟩
  have hodd : parity.graph.Reachable 1 :=
    (Graph.Reachable.root (List.mem_singleton.mpr rfl)).step (e := (none, 1)) (p := 0)
      (List.mem_singleton.mpr rfl)
  obtain ⟨n, hn⟩ := (checkAll_sound_complete parity [isEven] parity_coherent parity_respected).2.2
    parity_untroubled parity_keys_finite hanswers 0
  refine ⟨n, fun fuel hfuel => ?_⟩
  obtain ⟨r, v, hcheck, -, hviolated⟩ := hn fuel hfuel
  exact ⟨r, v, hcheck, hviolated ⟨1, hodd, isEven, List.mem_singleton.mpr rfl, rfl⟩⟩

/-- Under keys that are made anew at each look nothing else need be amiss, and still a violation
at the only configuration is not reported: the check ends with an error. -/
theorem transient_violation_unreported :
    transient.Coherent ∧ transient.Respected [constantly "never" false] ∧
      transient.plan.maxConfigurations = none ∧ transient.plan.maxSeconds = none ∧
      transient.graph.roots.fault = none ∧ (∀ c, (transient.graph.edges c).fault = none) ∧
      (∀ c, ∃ k, transient.identify c = .ok k) ∧
      {c | transient.graph.Reachable c} = {.int 0} ∧
      (constantly "never" false : ValuePredicate).holds (.int 0) = .ok false ∧
      ∀ fuel, 0 < fuel → ∃ r, transient.checkAll [constantly "never" false] fuel (.initial 0) =
        some (r, .error (.unreachable (.int 0))) := by
  refine ⟨?_, ?_, rfl, rfl, rfl, fun _ => rfl, fun _ => ⟨_, rfl⟩, ?_, rfl, ?_⟩
  · intro c d _ e he
    cases he
  · intro p hp c d _
    rw [List.mem_singleton.mp hp]
    simp [constantly]
  · ext c
    constructor
    · rintro ⟨steps, htrace⟩
      cases htrace with
      | root hc => exact List.mem_singleton.mp hc
      | step _ he => cases he
    · rintro rfl
      exact .root (List.mem_singleton.mpr rfl)
  · intro fuel hfuel
    obtain ⟨n, rfl⟩ : ∃ n, fuel = n + 1 := ⟨fuel - 1, by omega⟩
    exact ⟨_, rfl⟩

end StateSpace.Search
