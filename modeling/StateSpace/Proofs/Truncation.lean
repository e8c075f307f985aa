import StateSpace.Proofs.CanonicalOrder
import StateSpace.Proofs.Deadlock
import StateSpace.Proofs.Replay

/-!
# The bound on configurations only truncates

A search is compared with the same search under another bound on its configurations, without a
limit of time. The bounded run makes every move of the unbounded one as long as there is room. Once
there is none it goes on until room is needed, that is up to the next configuration with a new key,
and ends there instead. So it discovers the beginning of what the other run discovers, from the same
parents, and if it never needed more room than it had, then both runs have the same end.
-/

namespace StateSpace

def full (limit : Option Bound) (size : Nat) : Bool :=
  limit.any fun bound => bound.quantity.le (.ofInt size)

/-- A run needs room when it makes a discovery, and when it fails to record one. -/
def Signal.needsRoom {C K A E : Type} : Signal C K A E → Bool
  | .discovered _ => true
  | .failed (.unreachable _) => true
  | _ => false

theorem Signal.needsRoom_iff {C K A E : Type} {signal : Signal C K A E} :
    signal.needsRoom = true ↔
      (∃ c, signal = .discovered c) ∨ ∃ c, signal = .failed (.unreachable c) := by
  rcases signal with c | _ | _ | c | _ | _ <;> simp [needsRoom]

namespace Quantity

theorem scaled_le_trans {x y z p q t : Int} (hp : 0 < p) (hq : 0 < q) (ht : 0 < t)
    (hxy : x * q ≤ y * p) (hyz : y * t ≤ z * q) : x * t ≤ z * p := by
  -- both sides are compared over the denominator in the middle
  apply Int.le_of_mul_le_mul_right _ hq
  calc x * t * q = x * q * t := Int.mul_right_comm ..
    _ ≤ y * p * t := Int.mul_le_mul_of_nonneg_right hxy (Int.le_of_lt ht)
    _ = y * t * p := Int.mul_right_comm ..
    _ ≤ z * q * p := Int.mul_le_mul_of_nonneg_right hyz (Int.le_of_lt hp)
    _ = z * p * q := Int.mul_right_comm ..

theorem le_trans {a b c : Quantity} (hab : a.le b = true) (hbc : b.le c = true) :
    a.le c = true := by
  cases a <;> cases b <;> cases c <;> simp [le, lt] at hab hbc ⊢
  exact scaled_le_trans (denominator_pos _) (denominator_pos _) (denominator_pos _) hab hbc

end Quantity

theorem full_of_le {limit : Bound} {larger : Option Bound} {size : Nat}
    (hle : ∀ bound ∈ larger, limit.quantity.le bound.quantity = true)
    (h : full larger size = true) : full (some limit) size = true := by
  cases larger with
  | none => cases h
  | some bound =>
      have hbound : bound.quantity.le (.ofInt size) = true := h
      exact Quantity.le_trans (hle bound rfl) hbound

theorem full_ofInt {limit : Bound} {n : Nat} (h : limit.quantity = .ofInt n) (size : Nat) :
    full (some limit) size = true ↔ n ≤ size := by
  simp [full, h, Quantity.ofInt, Quantity.le, Quantity.lt, denominator]

namespace Search

variable {C K A E : Type} {s : Search C K A E} {r r' : Run C K A E} {limit larger : Option Bound}

def capped (s : Search C K A E) (limit : Option Bound) : Search C K A E :=
  { s with plan := { s.plan with maxConfigurations := limit } }

structure Cut (r r' : Run C K A E) (signal : Signal C K A E) : Prop where
  store : r'.store = r.store
  forest : r'.forest = r.forest
  exceeded : r'.budgetReason.isSome = true
  ends : ∃ failure, Ends signal failure

theorem Cut.ne_discovered {signal : Signal C K A E} (h : Cut r r' signal) (c : C) :
    signal ≠ .discovered c := by
  rintro rfl
  obtain ⟨failure, hends⟩ := h.ends
  cases hends

theorem Cut.budgetReason_ne {signal : Signal C K A E} (h : Cut r r' signal) :
    r'.budgetReason ≠ none :=
  Option.isSome_iff_ne_none.mp h.exceeded

theorem outOfBudget_of_room (htime : s.plan.maxSeconds = none)
    (h : full limit r.store.size = false) : (s.capped limit).outOfBudget r = none := by
  cases limit with
  | none => simp [outOfBudget, outOfTime, capped, htime]
  | some bound =>
      have hle : bound.quantity.le (.ofInt r.store.size) = false := by simpa [full] using h
      simp [outOfBudget, outOfTime, capped, htime, hle]

theorem outOfBudget_of_full (h : full limit r.store.size = true) :
    ∃ reason, (s.capped limit).outOfBudget r = some reason := by
  cases limit with
  | none => simp [full] at h
  | some bound =>
      have hle : bound.quantity.le (.ofInt r.store.size) = true := by simpa [full] using h
      simp [outOfBudget, capped, hle]

theorem exceed_ends (s : Search C K A E) (r : Run C K A E) (reason : String) :
    ∃ failure, Ends (s.exceed r reason).2 failure := by
  unfold exceed
  cases s.plan.raiseOnBudget
  · exact ⟨none, .done⟩
  · exact ⟨_, .failed _⟩

theorem exceed_needsRoom (s : Search C K A E) (r : Run C K A E) (reason : String) :
    (s.exceed r reason).2.needsRoom = false := by
  unfold exceed
  cases s.plan.raiseOnBudget <;> rfl

variable [DecidableEq K]

theorem Move.capped (h : (s.capped none).Move r r' none) (limit : Option Bound) :
    (s.capped limit).Move r r' none := by
  cases h with
  | begin hp => exact .begin hp
  | known hmeets hk hc => exact .known hmeets hk hc
  | expand hturns hf ht => exact .expand hturns hf ht

/-- Room is needed for a configuration whose key is not stored yet. -/
theorem Move.meets_of_needsRoom {signal : Signal C K A E} (h : s.Move r r' (some signal))
    (hneeds : signal.needsRoom = true) :
    ∃ counted c phase k, Meets r counted c phase ∧ s.identify c = .ok k ∧
      r.store.contains k = false := by
  cases h with
  | overBudget hmeets hk hc _ _ => exact ⟨_, _, _, _, hmeets, hk, hc⟩
  | root hp hk hc _ => exact ⟨_, _, _, _, .root hp, hk, hc⟩
  | child hp hk hc _ _ => exact ⟨_, _, _, _, .edge hp, hk, hc⟩
  | orphaned hp hk hc _ _ => exact ⟨_, _, _, _, .edge hp, hk, hc⟩
  | overTime _ _ _ hs =>
      rw [← hs, exceed_needsRoom] at hneeds
      cases hneeds
  | _ => cases hneeds

theorem Meets.cut {counted : Run C K A E} {c : C} {phase : Phase C K A E} {k : Key K}
    (h : Meets r counted c phase) (hk : s.identify c = .ok k) (hc : r.store.contains k = false)
    (hfull : full limit r.store.size = true) :
    ∃ q signal, (s.capped limit).Leads r q signal ∧ Cut r q signal := by
  have hsize : full limit ((s.capped limit).look counted).store.size = true := by
    change full limit counted.store.size = true
    rwa [h.store.1]
  obtain ⟨reason, hb⟩ := outOfBudget_of_full (s := s) hsize
  refine ⟨_, _, .last (.overBudget h hk hc hb rfl), ⟨h.store.1, h.store.2, rfl, ?_⟩⟩
  exact exceed_ends _ _ _

theorem Leads.cut {signal : Signal C K A E} (h : (s.capped none).Leads r r' signal)
    (hfull : full limit r.store.size = true) (hneeds : signal.needsRoom = true) :
    ∃ q signal, (s.capped limit).Leads r q signal ∧ Cut r q signal := by
  induction h with
  | last hm =>
      obtain ⟨counted, c, phase, k, hmeets, hk, hc⟩ := hm.meets_of_needsRoom hneeds
      exact hmeets.cut hk hc hfull
  | more hm _ ih =>
      obtain ⟨hstore, hforest⟩ := hm.unchanged (by simp)
      obtain ⟨q, signal, hleads, hcut⟩ := ih (hstore ▸ hfull) hneeds
      exact ⟨q, signal, .more (hm.capped limit) hleads, ⟨hcut.store.trans hstore,
        hcut.forest.trans hforest, hcut.exceeded, hcut.ends⟩⟩

theorem Leads.capped {signal : Signal C K A E} (htime : s.plan.maxSeconds = none)
    (h : (s.capped none).Leads r r' signal)
    (hroom : full limit r.store.size = true → signal.needsRoom = false) :
    (s.capped limit).Leads r r' signal := by
  induction h with
  | @last r r' signal hm =>
      have hbudget : signal.needsRoom = true → ∀ q : Run C K A E, q.store = r.store →
          (s.capped limit).outOfBudget ((s.capped limit).look q) = none := by
        intro hneeds q hq
        apply outOfBudget_of_room htime
        change full limit q.store.size = false
        rw [hq]
        by_contra hfull
        rw [hroom (Bool.of_not_eq_false hfull)] at hneeds
        cases hneeds
      cases hm with
      | rest hp => exact .last (.rest hp)
      | refused hmeets he => exact .last (.refused hmeets he)
      | overBudget _ _ _ hb _ =>
          rw [outOfBudget_of_room htime rfl] at hb
          cases hb
      | root hp hk hc _ => exact .last (.root hp hk hc (hbudget rfl r rfl))
      | child hp hk hc _ hf => exact .last (.child hp hk hc (hbudget rfl r.count rfl) hf)
      | orphaned hp hk hc _ hf => exact .last (.orphaned hp hk hc (hbudget rfl r.count rfl) hf)
      | broken hb => exact .last (.broken hb)
      | overTime _ _ ht _ => simp [outOfTime, Search.capped, htime] at ht
      | finish hturns hf => exact .last (.finish hturns hf)
  | more hm _ ih =>
      have hstore := (hm.unchanged (by simp)).1
      exact .more (hm.capped limit) (ih (hstore ▸ hroom))

/-- As long as there is room where it is needed, the bound makes no difference. -/
theorem next_capped_of_room (htime : s.plan.maxSeconds = none)
    (hroom : full limit r.store.size = true → ((s.capped none).next r).2.needsRoom = false) :
    (s.capped limit).next r = (s.capped none).next r :=
  (((s.capped none).next_leads r).capped htime hroom).next_eq

theorem next_capped_of_full (hfull : full limit r.store.size = true)
    (hneeds : ((s.capped none).next r).2.needsRoom = true) :
    ∃ q signal, (s.capped limit).next r = (q, signal) ∧ Cut r q signal := by
  obtain ⟨q, signal, hleads, hcut⟩ := ((s.capped none).next_leads r).cut hfull hneeds
  exact ⟨q, signal, hleads.next_eq, hcut⟩

/-- What a bounded run does next, it does under every larger bound, unless it is cut. -/
theorem next_capped_cases (htime : s.plan.maxSeconds = none)
    (hle : ∀ n, full larger n = true → full limit n = true) (r : Run C K A E) :
    ((s.capped limit).next r = (s.capped larger).next r ∧
      (full limit r.store.size = true → ((s.capped larger).next r).2.needsRoom = false)) ∨
    full limit r.store.size = true ∧
      ∃ q signal, (s.capped limit).next r = (q, signal) ∧ Cut r q signal := by
  by_cases hcut : full limit r.store.size = true ∧ ((s.capped none).next r).2.needsRoom = true
  · exact Or.inr ⟨hcut.1, next_capped_of_full hcut.1 hcut.2⟩
  · have hroom : full limit r.store.size = true → ((s.capped none).next r).2.needsRoom = false :=
      fun hfull => Bool.of_not_eq_true fun hneeds => hcut ⟨hfull, hneeds⟩
    have hlarger := next_capped_of_room htime fun h => hroom (hle _ h)
    exact Or.inl ⟨(next_capped_of_room htime hroom).trans hlarger.symm, hlarger.symm ▸ hroom⟩

theorem size_of_discovered {c : C} (h : s.next r = (r', .discovered c)) :
    r'.store.size = r.store.size + 1 := by
  obtain ⟨k, -, -, hstore, -⟩ := (leads_of_next h).discovers
  rw [Store.size_eq_length_toList, hstore, Store.toList_push, Store.size_eq_length_toList]
  simp

theorem take_of_ends {signal : Signal C K A E} {failure : Option (Failure C K A E)}
    (h : s.next r = (r', signal)) (hends : Ends signal failure) (n : Nat) :
    s.take (n + 1) r = (r', [], failure) := by
  cases hends <;> simp only [take, h]

theorem exhaust_of_ends {signal : Signal C K A E} {failure : Option (Failure C K A E)} {fuel : Nat}
    (h : s.next r = (r', signal)) (hends : Ends signal failure) (hfuel : 0 < fuel) :
    s.exhaust fuel r = some (r', failure) :=
  exhaust_eq_some.mpr ⟨[], r, signal, .nil r, hfuel, h, hends⟩

/-- Taking discoveries makes them, and then at most ends the run. -/
theorem take_discovers (s : Search C K A E) (n : Nat) (r : Run C K A E) :
    ∃ q, s.Discovers r (s.take n r).2.1 q ∧ (s.take n r).1.store = q.store ∧
      (s.take n r).1.forest = q.forest := by
  induction n generalizing r with
  | zero => exact ⟨r, .nil r, rfl, rfl⟩
  | succ n ih =>
      rcases hn : s.next r with ⟨r₁, c | _ | failure⟩
      · obtain ⟨q, hd, hstore, hforest⟩ := ih r₁
        simp only [take, hn]
        exact ⟨q, .cons hn hd, hstore, hforest⟩
      · obtain ⟨hstore, hforest⟩ := (leads_of_next hn).unchanged (by simp)
        simp only [take, hn]
        exact ⟨r, .nil r, hstore, hforest⟩
      · obtain ⟨hstore, hforest⟩ := (leads_of_next hn).unchanged (by simp)
        simp only [take, hn]
        exact ⟨r, .nil r, hstore, hforest⟩

theorem Session.take_extends (hr : s.Session r) (n : Nat) :
    r.forest.Extends (s.take n r).1.forest := by
  obtain ⟨q, hd, -, hforest⟩ := s.take_discovers n r
  rw [hforest]
  exact hd.extends hr

/-- The bounded run takes the beginning of what the other takes, and its forest grows into that of
the other. -/
theorem Session.take_capped {N : Nat} (htime : s.plan.maxSeconds = none)
    (hN : ∀ size, full limit size = true ↔ N ≤ size)
    (hle : ∀ n, full larger n = true → full limit n = true) (hr : (s.capped larger).Session r)
    (n : Nat) :
    ((s.capped limit).take n r).2.1 =
        ((s.capped larger).take n r).2.1.take (N - r.store.size) ∧
      ((s.capped limit).take n r).1.forest.Extends ((s.capped larger).take n r).1.forest := by
  induction n generalizing r with
  | zero => exact ⟨by simp [take], .refl _⟩
  | succ n ih =>
      rcases next_capped_cases htime hle r with ⟨hsame, hroom⟩ | ⟨hfull, q, signal, hn, hcut⟩
      · rcases hn : (s.capped larger).next r with ⟨r₁, c | _ | failure⟩
        · have hsize : r.store.size < N := by
            by_contra hge
            have hneeds := hroom ((hN _).mpr (by omega))
            rw [hn] at hneeds
            cases hneeds
          have hgrown := size_of_discovered hn
          have hlater : N - r.store.size = (N - r₁.store.size) + 1 := by omega
          obtain ⟨hfound, hforest⟩ := ih (hr.of_next hn)
          simp only [take, hsame, hn, hlater, List.take_succ_cons, hfound]
          exact ⟨trivial, hforest⟩
        · simp only [take, hsame, hn, List.take_nil]
          exact ⟨trivial, .refl _⟩
        · simp only [take, hsame, hn, List.take_nil]
          exact ⟨trivial, .refl _⟩
      · obtain ⟨failure, hends⟩ := hcut.ends
        have hzero : N - r.store.size = 0 := by
          have hge := (hN _).mp hfull
          omega
        rw [take_of_ends hn hends, hzero, List.take_zero]
        refine ⟨rfl, ?_⟩
        change q.forest.Extends _
        rw [hcut.forest]
        exact hr.take_extends (n + 1)

theorem Leads.budgetReason_eq {signal : Signal C K A E} (htime : s.plan.maxSeconds = none)
    (h : (s.capped none).Leads r r' signal) : r'.budgetReason = r.budgetReason := by
  have hmove : ∀ {q q' : Run C K A E} {o : Option (Signal C K A E)},
      (s.capped none).Move q q' o → q'.budgetReason = q.budgetReason := by
    intro q q' o hm
    cases hm with
    | known hmeets _ _ => cases hmeets <;> rfl
    | refused hmeets _ => cases hmeets <;> rfl
    | overBudget _ _ _ hb _ =>
        rw [outOfBudget_of_room htime rfl] at hb
        cases hb
    | overTime _ _ ht _ => simp [outOfTime, Search.capped, htime] at ht
    | _ => rfl
  induction h with
  | last hm => exact hmove hm
  | more hm _ ih => exact ih.trans (hmove hm)

/-- How a run ends that has room for so many more configurations, told by what the run without a
bound takes next. -/
structure Truncated (s : Search C K A E) (limit : Option Bound) (room : Nat)
    (r r' : Run C K A E) (failure : Option (Failure C K A E)) : Prop where
  ends : ∀ fuel, room < fuel → (s.capped limit).exhaust fuel r = some (r', failure)
  exceeded : r'.budgetReason.isSome = true ↔
    ((s.capped none).take (room + 1) r).2.1.length = room + 1 ∨
      ((s.capped none).take (room + 1) r).2.1.length = room ∧
        ∃ c, ((s.capped none).take (room + 1) r).2.2 = some (.unreachable c)
  size : r'.budgetReason.isSome = true → r'.store.size = r.store.size + room
  kept : r'.budgetReason = none →
    ∀ larger, (∀ n, full larger n = true → full limit n = true) →
      ∀ fuel, room < fuel → (s.capped larger).exhaust fuel r = some (r', failure)

theorem exists_truncated_of_full (hfull : full limit r.store.size = true)
    (hneeds : ((s.capped none).next r).2.needsRoom = true) :
    ∃ r' failure, s.Truncated limit 0 r r' failure := by
  obtain ⟨q, signal, hn, hcut⟩ := next_capped_of_full hfull hneeds
  obtain ⟨failure, hends⟩ := hcut.ends
  refine ⟨q, failure, fun fuel hfuel => exhaust_of_ends hn hends hfuel, ?_, ?_, ?_⟩
  · refine iff_of_true hcut.exceeded ?_
    rcases hu : (s.capped none).next r with ⟨r₁, first⟩
    rw [hu] at hneeds
    rcases Signal.needsRoom_iff.mp hneeds with ⟨c, rfl⟩ | ⟨c, rfl⟩
    · exact Or.inl (by simp [take, hu])
    · exact Or.inr (by simp [take, hu])
  · intro _
    rw [hcut.store, Nat.add_zero]
  · intro hnone
    exact absurd hnone hcut.budgetReason_ne

theorem Truncated.of_ends {signal : Signal C K A E} {failure : Option (Failure C K A E)}
    {room : Nat} (htime : s.plan.maxSeconds = none) (hreason : r.budgetReason = none)
    (hn : (s.capped none).next r = (r', signal)) (hends : Ends signal failure)
    (hroom : full limit r.store.size = true → signal.needsRoom = false)
    (hfull : room = 0 → full limit r.store.size = true) : s.Truncated limit room r r' failure := by
  have hnone : r'.budgetReason = none := ((leads_of_next hn).budgetReason_eq htime).trans hreason
  have hsame : ∀ larger, (∀ n, full larger n = true → full limit n = true) →
      (s.capped larger).next r = (r', signal) := by
    intro larger hle
    rw [next_capped_of_room htime (by rw [hn]; exact fun h => hroom (hle _ h)), hn]
  refine ⟨?_, ?_, ?_, ?_⟩
  · intro fuel hfuel
    exact exhaust_of_ends (hsame limit fun _ h => h) hends (by omega)
  · refine iff_of_false (by simp [hnone]) ?_
    rw [take_of_ends hn hends]
    rintro (hlen | ⟨hlen, c, hc⟩)
    · cases hlen
    · -- nothing was discovered, so there is no room left, and the failure would need some
      have hneeds := hroom (hfull hlen.symm)
      cases hends with
      | done => cases hc
      | failed failure =>
          cases hc
          cases hneeds
  · intro hsome
    rw [hnone] at hsome
    cases hsome
  · intro _ larger hle fuel hfuel
    exact exhaust_of_ends (hsame larger hle) hends (by omega)

theorem Truncated.discovered {c : C} {q : Run C K A E} {failure : Option (Failure C K A E)}
    {room : Nat} (htime : s.plan.maxSeconds = none)
    (hn : (s.capped none).next r = (q, .discovered c)) (hroom : full limit r.store.size = false)
    (h : s.Truncated limit room q r' failure) : s.Truncated limit (room + 1) r r' failure := by
  have hsame : ∀ larger, (∀ n, full larger n = true → full limit n = true) →
      (s.capped larger).next r = (q, .discovered c) := by
    intro larger hle
    rw [next_capped_of_room htime, hn]
    intro hfull
    rw [hle _ hfull] at hroom
    cases hroom
  have hstep : ∀ larger, (∀ n, full larger n = true → full limit n = true) → ∀ fuel,
      (s.capped larger).exhaust (fuel + 1) r = (s.capped larger).exhaust fuel q := by
    intro larger hle fuel
    simp only [exhaust, exhaustWith, nextWith_answers, hsame larger hle]
  refine ⟨?_, ?_, ?_, ?_⟩
  · intro fuel hfuel
    obtain ⟨fuel, rfl⟩ : ∃ m, fuel = m + 1 := ⟨fuel - 1, by omega⟩
    rw [hstep limit fun _ hf => hf]
    exact h.ends fuel (by omega)
  · rw [h.exceeded]
    simp [take, hn]
  · intro hsome
    rw [h.size hsome, size_of_discovered hn]
    omega
  · intro hnone larger hle fuel hfuel
    obtain ⟨fuel, rfl⟩ : ∃ m, fuel = m + 1 := ⟨fuel - 1, by omega⟩
    rw [hstep larger hle]
    exact h.kept hnone larger hle fuel (by omega)

theorem exists_truncated {N : Nat} (htime : s.plan.maxSeconds = none)
    (hN : ∀ size, full limit size = true ↔ N ≤ size) (room : Nat) (r : Run C K A E)
    (hsize : r.store.size + room = N) (hreason : r.budgetReason = none) :
    ∃ r' failure, s.Truncated limit room r r' failure := by
  induction room generalizing r with
  | zero =>
      have hfull : full limit r.store.size = true := (hN _).mpr (by omega)
      by_cases hneeds : ((s.capped none).next r).2.needsRoom = true
      · exact exists_truncated_of_full hfull hneeds
      · rcases hn : (s.capped none).next r with ⟨q, c | _ | failure⟩ <;> rw [hn] at hneeds
        · exact absurd rfl hneeds
        · exact ⟨q, none, .of_ends htime hreason hn .done (fun _ => rfl) fun _ => hfull⟩
        · exact ⟨q, _, .of_ends htime hreason hn (.failed failure)
            (fun _ => Bool.of_not_eq_true hneeds) fun _ => hfull⟩
  | succ room ih =>
      have hroom : full limit r.store.size = false :=
        Bool.of_not_eq_true fun hfull => by
          have hge := (hN _).mp hfull
          omega
      have hfalse : ∀ {P : Prop}, full limit r.store.size = true → P := by simp [hroom]
      rcases hn : (s.capped none).next r with ⟨q, c | _ | failure⟩
      · have hgrown := size_of_discovered hn
        have hnone := ((leads_of_next hn).budgetReason_eq htime).trans hreason
        obtain ⟨r', failure, h⟩ := ih q (by omega) hnone
        exact ⟨r', failure, h.discovered htime hn hroom⟩
      · exact ⟨q, none, .of_ends htime hreason hn .done hfalse (by omega)⟩
      · exact ⟨q, _, .of_ends htime hreason hn (.failed failure) hfalse (by omega)⟩

/-- A discovery cannot be recorded only if the key of its stored parent is made anew at each
look. -/
theorem Leads.unreachable {c : C} (h : s.Leads r r' (.failed (.unreachable c))) (hr : s.Sound r) :
    s.identify c = .ok none ∧ c ∈ r'.store.toList := by
  generalize hsig : Signal.failed (Failure.unreachable c) = signal at h
  induction h with
  | @last r r' signal hm =>
      subst hsig
      cases hm with
      | overBudget _ _ _ _ hs => cases hraise : s.plan.raiseOnBudget <;> simp [exceed, hraise] at hs
      | overTime _ _ _ hs => cases hraise : s.plan.raiseOnBudget <;> simp [exceed, hraise] at hs
      | @orphaned source edge rest fault k hp _ hc _ hf =>
          have hsource : (source.key, source.configuration) ∈ r.store.entries := by
            have htold := hr.told
            rw [hp] at htold
            exact htold.1
          have hnew : r.forest.contains k = false := (hr.history.contains_eq k).trans hc
          have hparent : r.store.contains source.key = false := by
            rw [← hr.history.contains_eq]
            by_contra hknown
            simp [Forest.record?, hnew, Bool.of_not_eq_false hknown] at hf
          refine ⟨?_, r.store.mem_toList.mpr ⟨_, hsource⟩⟩
          rw [hr.history.identify_of_mem hsource]
          cases hkey : source.key with
          | none => rfl
          | some a =>
              rw [hkey] at hsource hparent
              rw [r.store.contains_of_mem hsource] at hparent
              cases hparent
  | more hm _ ih => exact ih (hr.move hm) hsig

theorem Session.take_unreachable {c : C} {n : Nat} (hr : s.Session r)
    (h : (s.take n r).2.2 = some (.unreachable c)) :
    s.identify c = .ok none ∧ c ∈ (s.take n r).1.store.toList := by
  induction n generalizing r with
  | zero => cases h
  | succ n ih =>
      rcases hn : s.next r with ⟨q, d | _ | failure⟩ <;> simp only [take, hn] at h ⊢
      · exact ih (hr.of_next hn) h
      · cases h
      · cases h
        exact (leads_of_next hn).unreachable hr.sound

end Search

namespace Search

variable {s : ValueSearch} {key : Option KeyFunction} {r : ValueRun}

/-- Later discoveries leave the parent and the depth of a stored configuration alone. -/
theorem Session.lineage_eq_of_extends {forest : Forest Canon Value Action} {c : Value}
    (hkey : s.identify = StateSpace.identify key) (hr : s.Session r) (hc : c ∈ r.store.toList)
    (h : r.forest.Extends forest) :
    (Lineage.mk key forest).parentOf c = (Lineage.mk key r.forest).parentOf c ∧
      (Lineage.mk key forest).depth c = (Lineage.mk key r.forest).depth c := by
  obtain ⟨k, hk⟩ := r.store.mem_toList.mp hc
  have hid := hr.sound.history.identify_of_mem hk
  rw [hkey] at hid
  cases k with
  | none =>
      have horigin : ∀ f : Forest Canon Value Action, f.origin? none = none := fun f =>
        Option.map_eq_none_iff.mpr (List.find?_eq_none.mpr (by simp))
      simp [Lineage.parentOf, Lineage.depth, Lineage.steps, hid, bind, Except.bind, horigin,
        Forest.steps?, Forest.contains]
  | some a =>
      have hknown : r.forest.contains (some a) = true :=
        (hr.sound.history.contains_eq _).trans (r.store.contains_of_mem hk)
      obtain ⟨-, hdepth, -, hparent⟩ := Lineage.eq_of_extends h hid hknown
      exact ⟨hparent, hdepth⟩

/-- Without a limit of time, a bound of `N` configurations cuts off what a run under a larger bound,
or under none, discovers behind the first `N`; parents and depths stay as they are. The bounded run
always ends. It ends for want of room exactly if the run without a bound discovers more than `N`
configurations, or discovers `N` and then fails to record one more, whose parent has a key that is
made anew at each look. Otherwise both runs are the same to their end. -/
theorem capped_truncates (s : ValueSearch) (key : Option KeyFunction)
    (hkey : s.identify = StateSpace.identify key) (htime : s.plan.maxSeconds = none) (N : Nat)
    (limit : Bound) (hlimit : limit.quantity = .ofInt N) (larger : Option Bound)
    (hle : ∀ bound ∈ larger, limit.quantity.le bound.quantity = true) (start : Rat) :
    (∀ n, ((s.capped (some limit)).take n (.initial start)).2.1 =
      ((s.capped larger).take n (.initial start)).2.1.take N) ∧
    (∀ n, ∀ c ∈ ((s.capped (some limit)).take n (.initial start)).2.1,
      (Lineage.mk key ((s.capped larger).take n (.initial start)).1.forest).parentOf c =
          (Lineage.mk key ((s.capped (some limit)).take n (.initial start)).1.forest).parentOf c ∧
        (Lineage.mk key ((s.capped larger).take n (.initial start)).1.forest).depth c =
          (Lineage.mk key ((s.capped (some limit)).take n (.initial start)).1.forest).depth c) ∧
    (∃ r failure,
      (∀ fuel, N < fuel →
        (s.capped (some limit)).exhaust fuel (.initial start) = some (r, failure)) ∧
      (r.outcome.budgetExceeded = true ↔
        ((s.capped none).take (N + 1) (.initial start)).2.1.length = N + 1 ∨
          ((s.capped none).take (N + 1) (.initial start)).2.1.length = N ∧
            ∃ c, ((s.capped none).take (N + 1) (.initial start)).2.2 = some (.unreachable c)) ∧
      (r.outcome.budgetExceeded = true → r.outcome.store.size = N) ∧
      (r.outcome.budgetExceeded = false → ∀ fuel, N < fuel →
        (s.capped larger).exhaust fuel (.initial start) = some (r, failure))) ∧
    ∀ n c, ((s.capped none).take n (.initial start)).2.2 = some (.unreachable c) →
      s.identify c = .ok none ∧ c ∈ ((s.capped none).take n (.initial start)).2.1 := by
  have hN := full_ofInt hlimit
  have hlarger : ∀ size, full larger size = true → full (some limit) size = true :=
    fun _ => full_of_le hle
  have hempty : ∀ search : ValueSearch, ∀ n,
      (search.take n (.initial start)).1.store.toList = (search.take n (.initial start)).2.1 := by
    intro search n
    obtain ⟨q, hd, hstore, -⟩ := search.take_discovers n (.initial start)
    rw [hstore, hd.toList_eq]
    rfl
  refine ⟨?_, ?_, ?_, ?_⟩
  · intro n
    exact ((Session.initial start).take_capped htime hN hlarger n).1
  · intro n c hc
    have hgrown := ((Session.initial start).take_capped htime hN hlarger n).2
    obtain ⟨q, hd, hstore, hforest⟩ := (s.capped (some limit)).take_discovers n (.initial start)
    rw [← hempty, hstore] at hc
    rw [hforest] at hgrown ⊢
    exact Session.lineage_eq_of_extends (s := s.capped (some limit)) hkey
      (hd.session (.initial start)) hc hgrown
  · obtain ⟨r, failure, h⟩ := exists_truncated htime hN N (.initial start) (Nat.zero_add N) rfl
    refine ⟨r, failure, h.ends, h.exceeded, fun hsome => (h.size hsome).trans (Nat.zero_add N), ?_⟩
    intro hnone fuel hfuel
    exact h.kept (Option.not_isSome_iff_eq_none.mp (by simpa [Run.outcome] using hnone)) larger
      hlarger fuel hfuel
  · intro n c h
    rw [← hempty]
    exact (Session.initial start).take_unreachable h

/-- With room for two of the four configurations. -/
theorem forked_capped_truncates :
    (((forked none).capped (some ⟨.ofInt 2, "2"⟩)).take 9 (.initial 0)).2.1 =
        (((forked none).capped (some ⟨.ofInt 3, "3"⟩)).take 9 (.initial 0)).2.1.take 2 ∧
      (((forked none).capped none).take 3 (.initial 0)).2.1.length = 3 ∧
      ∃ r failure,
        ((forked none).capped (some ⟨.ofInt 2, "2"⟩)).exhaust 3 (.initial 0) = some (r, failure) ∧
          r.outcome.budgetExceeded = true ∧ r.outcome.store.size = 2 := by
  obtain ⟨hfound, -, ⟨r, failure, hends, hexceeded, hsize, -⟩, -⟩ :=
    capped_truncates (forked none) none rfl rfl 2 ⟨.ofInt 2, "2"⟩ rfl (some ⟨.ofInt 3, "3"⟩)
      (by rintro bound ⟨⟩; rfl) 0
  have hthree : (((forked none).capped none).take 3 (.initial 0)).2.1.length = 3 := rfl
  have hsome := hexceeded.mpr (Or.inl hthree)
  exact ⟨hfound 9, hthree, r, failure, hends 3 (by decide), hsome, hsize hsome⟩

def orphan : ValueSearch :=
  { transient with
    graph :=
      { transient.graph with
        edges c := { items := if c == .int 0 then [(none, .int 1)] else [] } } }

/-- The run without a bound discovers the root alone and fails; with room for one configuration it
ends for want of room. -/
theorem orphan_budget_exceeded :
    orphan.plan.maxSeconds = none ∧
      orphan.identify = StateSpace.identify (some (Expr.stream []).toKey) ∧
      ((orphan.capped none).take 2 (.initial 0)).2 =
        ([.int 0], some (.unreachable (.int 0))) ∧
      ∃ r, (orphan.capped (some ⟨.ofInt 1, "1"⟩)).exhaust 2 (.initial 0) = some (r, none) ∧
        r.outcome.budgetExceeded = true :=
  ⟨rfl, rfl, rfl, _, rfl, rfl⟩

end Search

end StateSpace
