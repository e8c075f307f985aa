import StateSpace.Proofs.Course
import StateSpace.Proofs.Levels

/-!
# Complete runs agree

Two searches show the same explored states if their roots, and their successors of each
configuration, have the same keys, however these are ordered, repeated or labelled. Whatever can be
reached in one of them can then be reached in the other, up to keys. Complete runs have stored all
of it, so that they have the same keys, in whichever order each of them went about it. The number of
edges that a complete run has met follows from what it has stored.
-/

namespace StateSpace.Search

variable {C K A B E : Type} {s : Search C K A E} {t : Search C K B E}

/-- The roots of the first search, and its successors of each configuration, are explored states
that the second search has there as well. -/
structure Within (s : Search C K A E) (t : Search C K B E) : Prop where
  identify : s.identify = t.identify
  roots : ∀ c ∈ s.graph.roots.items, ∃ d ∈ t.graph.roots.items, s.Alike c d
  edges : ∀ c, ∀ e ∈ (s.graph.edges c).items, ∃ e' ∈ (t.graph.edges c).items, s.Alike e.2 e'.2

def SameStates (s : Search C K A E) (t : Search C K B E) : Prop := s.Within t ∧ t.Within s

theorem Within.alike (h : s.Within t) {c d : C} (hcd : s.Alike c d) : t.Alike c d := by
  unfold Alike at hcd ⊢
  rwa [← h.identify]

theorem SameStates.coherent (h : s.SameStates t) (hs : s.Coherent) : t.Coherent := by
  intro c d hcd e he
  obtain ⟨e₁, he₁, h₁⟩ := h.2.edges c e he
  obtain ⟨e₂, he₂, h₂⟩ := hs c d (h.2.alike hcd) e₁ he₁
  obtain ⟨e₃, he₃, h₃⟩ := h.1.edges d e₂ he₂
  exact ⟨e₃, he₃, h₁.trans ((h.1.alike h₂).trans (h.1.alike h₃))⟩

theorem Within.reachable (h : s.Within t) (hs : s.Coherent) {c : C} (hc : s.graph.Reachable c) :
    ∃ d, t.graph.Reachable d ∧ s.Alike c d := by
  obtain ⟨steps, htrace⟩ := hc
  induction htrace with
  | root hc =>
      obtain ⟨d, hd, halike⟩ := h.roots _ hc
      exact ⟨d, .root hd, halike⟩
  | @step steps p c action _ he ih =>
      obtain ⟨d, hd, halike⟩ := ih
      -- first to another configuration of the same search, then to the other search
      obtain ⟨e₁, he₁, h₁⟩ := hs p d halike _ he
      obtain ⟨e₂, he₂, h₂⟩ := h.edges d e₁ he₁
      exact ⟨e₂.2, hd.step he₂, h₁.trans h₂⟩

variable [DecidableEq K]

/-- A complete run of the second search has every key that a run of the first one has stored. -/
theorem Within.mem_keys (h : s.Within t) (hs : s.Coherent) (ht : t.Coherent) {r : Run C K A E}
    {q : Run C K B E} (hr : s.Session r) (hq : t.Session q) (hcomplete : q.complete = true)
    {k : Key K} (hk : k ∈ r.store.keys) : k ∈ q.store.keys := by
  obtain ⟨⟨j, c⟩, hmem, rfl⟩ := List.mem_map.mp hk
  have hhistory := hr.sound.history
  obtain ⟨d, hd, halike⟩ := h.reachable hs (hhistory.reachable_of_mem hmem)
  obtain ⟨hroots, hedges⟩ := hq.kept_of_complete hcomplete
  have hkept : t.Kept q.store c :=
    (kept_of_reachable ht hq.sound.history hroots hedges hd).alike (h.alike halike)
  obtain ⟨i, hi, hstored⟩ := hkept
  -- the two searches make the same key of it
  have hij : i = j := by
    rw [← h.identify, hhistory.identify_of_mem hmem] at hi
    exact (Except.ok.inj hi).symm
  subst hij
  rcases hstored with hcontains | ⟨rfl, hnone⟩
  · obtain ⟨a, b, rfl, hb⟩ := q.store.contains_iff.mp hcontains
    exact List.mem_map.mpr ⟨_, hb, rfl⟩
  · exact List.mem_map.mpr ⟨_, hnone, rfl⟩

theorem SameStates.keys_eq (h : s.SameStates t) (hs : s.Coherent) {r : Run C K A E}
    {q : Run C K B E} (hr : s.Session r) (hq : t.Session q) (hrc : r.complete = true)
    (hqc : q.complete = true) (k : Key K) : k ∈ r.store.keys ↔ k ∈ q.store.keys :=
  ⟨h.1.mem_keys hs (h.coherent hs) hr hq hqc, h.2.mem_keys (h.coherent hs) hs hq hr hrc⟩

/-- Complete runs of two searches with the same explored states, of which the keys of successors
follow from keys, have stored the same keys. Every complete run has met each edge of each stored
configuration once. -/
theorem complete_agree (s : Search C K A E) (t : Search C K B E) :
    (s.Coherent → s.SameStates t → ∀ r q, s.Session r → t.Session q →
      r.outcome.complete = true → q.outcome.complete = true →
      ∀ k, k ∈ r.outcome.store.keys ↔ k ∈ q.outcome.store.keys) ∧
    ∀ r, s.Session r → r.outcome.complete = true →
      (∀ c ∈ r.outcome.store.toList, (s.graph.edges c).fault = none) ∧
      r.outcome.transitions =
        (r.outcome.store.toList.map fun c => (s.graph.edges c).items.length).sum := by
  refine ⟨?_, ?_⟩
  · intro hs hst r q hr hq hrc hqc k
    exact hst.keys_eq hs hr hq hrc hqc k
  · intro r hr hc
    refine ⟨hr.fault_eq_none_of_complete hc, ?_⟩
    exact congrArg Int.ofNat (hr.finished_accounts (finished_of_complete hc)).2

def detour : Search Nat Nat Unit Unit where
  graph :=
    { title := "Detour"
      text := "Detour()"
      labelled := true
      roots := { items := [2, 0, 0] }
      edges n := { items := [(some (), n + 3), (some (), n + 1)] }
      neighbours n := .ok [n + 3, n + 1] }
  plan := ⟨none, none, .depthFirst, false, .ofInt 1⟩
  identify := parity.identify
  clock := .steady 1

theorem parity_sameStates_detour : parity.SameStates detour := by
  have hparity : ∀ n, parity.Alike (n + 3) (n + 1) := by
    intro n
    refine Or.inr ⟨(n + 1) % 2, ?_, rfl⟩
    change Except.ok (some ((n + 3) % 2)) = Except.ok (some ((n + 1) % 2))
    rw [show (n + 3) % 2 = (n + 1) % 2 by omega]
  refine ⟨⟨rfl, ?_, ?_⟩, ⟨rfl, ?_, ?_⟩⟩
  · intro c hc
    rw [List.mem_singleton.mp hc]
    exact ⟨0, by decide, Or.inl rfl⟩
  · intro n e he
    rw [List.mem_singleton.mp he]
    exact ⟨(some (), n + 1), by simp [detour], Or.inl rfl⟩
  · intro c hc
    refine ⟨0, List.mem_singleton.mpr rfl, Or.inr ⟨0, ?_, rfl⟩⟩
    have heven : ∀ c ∈ [2, 0, 0], c % 2 = 0 := by decide
    exact congrArg (fun k => Except.ok (some k)) (heven c hc)
  · intro n e he
    refine ⟨(none, n + 1), List.mem_singleton.mpr rfl, ?_⟩
    rcases List.mem_cons.mp he with rfl | he
    · exact hparity n
    · rw [List.mem_singleton.mp he]
      exact Or.inl rfl

/-- A breadth-first run over plain edges and a depth-first run over labelled ones. -/
theorem parity_complete_agree :
    ∃ r q, parity.exhaust 3 (.initial 0) = some (r, none) ∧
      detour.exhaust 3 (.initial 0) = some (q, none) ∧ r.outcome.complete = true ∧
      q.outcome.complete = true ∧ r.outcome.store.toList = [0, 1] ∧
      q.outcome.store.toList = [2, 5] ∧
      (∀ k, k ∈ r.outcome.store.keys ↔ k ∈ q.outcome.store.keys) ∧
      r.outcome.transitions =
        (r.outcome.store.toList.map fun c => (parity.graph.edges c).items.length).sum := by
  have hparity : ∃ r, parity.exhaust 3 (.initial 0) = some (r, none) ∧
      r.outcome.complete = true ∧ r.outcome.store.toList = [0, 1] := ⟨_, rfl, rfl, rfl⟩
  have hdetour : ∃ q, detour.exhaust 3 (.initial 0) = some (q, none) ∧
      q.outcome.complete = true ∧ q.outcome.store.toList = [2, 5] := ⟨_, rfl, rfl, rfl⟩
  obtain ⟨r, hr, hrc, hrlist⟩ := hparity
  obtain ⟨q, hq, hqc, hqlist⟩ := hdetour
  have hrs : parity.Session r := (Session.initial 0).exhaust hr
  have hqs : detour.Session q := (Session.initial 0).exhaust hq
  obtain ⟨hkeys, hcount⟩ := complete_agree parity detour
  exact ⟨r, q, hr, hq, hrc, hqc, hrlist, hqlist,
    hkeys parity_coherent parity_sameStates_detour r q hrs hqs hrc hqc, (hcount r hrs hrc).2⟩

end StateSpace.Search
