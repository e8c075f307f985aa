import StateSpace.Proofs.CanonicalOrder
import StateSpace.Proofs.Deadlock

/-!
# The views of a relation agree

A relation can be asked for the successors of each enabled action, for its edges one after the
other, and for the set of all neighbours. Each view puts the same questions in the same order, so
they fail together. Where they do not fail, edges and neighbours are read off the successors: the
edges are the successors one action after the other, and the neighbours are their union, in which
the first of equal configurations is kept. Two things set the views apart: the edges are a walk,
which the sign that a walk has ended cannot leave as such, and the neighbours are a set, which takes
only values with an identity.
-/

namespace StateSpace

namespace Value

def candidates : Value → List Value
  | .null => []
  | .openSet items | .list items | .stream _ items => items
  | v => [v]

theorem successorsOf_eq_members (v : Value) : successorsOf v = members v.candidates := by
  cases v <;> rfl

end Value

/-- A fault leaves a walk as it is, unless it is the sign that a walk has ended. -/
theorem Fault.leaving_eq_or (e : Fault) :
    e.leaving = e ∨
      ∃ text, e = .raised .stop text ∧ e.leaving.kind = .runtime ∧ e.leaving.cause? = some e := by
  cases e with
  | raised kind text =>
      cases kind with
      | stop => exact Or.inr ⟨text, rfl, rfl, rfl⟩
      | _ => exact Or.inl rfl
  | _ => exact Or.inl rfl

namespace Reply

variable {C E α β γ : Type}

def produced (f : α → Except E (List γ)) (fault : Option E) (items : List α) :
    List (α × List γ) × Option E :=
  expand (fun a => do return [(a, ← f a)]) fault items

theorem produced_cons_ok {f : α → Except E (List γ)} {fault : Option E} {a : α} {rest : List α}
    {found : List γ} (h : f a = .ok found) :
    produced f fault (a :: rest) =
      ((a, found) :: (produced f fault rest).1, (produced f fault rest).2) := by
  simp [produced, expand, h, Bind.bind, Except.bind, pure, Except.pure]

theorem produced_cons_error {f : α → Except E (List γ)} {fault : Option E} {a : α}
    {rest : List α} {e : E} (h : f a = .error e) :
    produced f fault (a :: rest) = ([], some e) := by
  simp [produced, expand, h, Bind.bind, Except.bind]

/-- What is made of each item and its products is read off these pairs, and it fails as they do. -/
theorem expand_eq_produced (f : α → Except E (List γ)) (g : α → List γ → List β)
    (fault : Option E) (items : List α) :
    expand (fun a => do return g a (← f a)) fault items =
      ((produced f fault items).1.flatMap fun p => g p.1 p.2, (produced f fault items).2) := by
  induction items with
  | nil => rfl
  | cons a rest ih =>
      cases ha : f a with
      | error e => simp [expand, produced_cons_error ha, ha, Bind.bind, Except.bind]
      | ok found =>
          rw [produced_cons_ok ha, List.flatMap_cons, expand, ih]
          simp [ha, Bind.bind, Except.bind, pure, Except.pure]

theorem produced_of_fault_eq_none {f : α → Except E (List γ)} {fault : Option E} {items : List α}
    (h : (produced f fault items).2 = none) :
    (produced f fault items).1.map (·.1) = items ∧
      ∀ p ∈ (produced f fault items).1, f p.1 = .ok p.2 := by
  induction items with
  | nil => simp [produced, expand]
  | cons a rest ih =>
      cases ha : f a with
      | error e =>
          rw [produced_cons_error ha] at h
          cases h
      | ok found =>
          rw [produced_cons_ok ha] at h ⊢
          obtain ⟨hitems, hall⟩ := ih h
          refine ⟨by simp [hitems], ?_⟩
          intro p hp
          rcases List.mem_cons.mp hp with rfl | hp
          · exact ha
          · exact hall p hp

theorem produced_congr {f g : α → Except E (List γ)} {fault : Option E} {items : List α}
    (h : ∀ a ∈ items, f a = g a) : produced f fault items = produced g fault items := by
  induction items with
  | nil => rfl
  | cons a rest ih =>
      have hrest := ih fun b hb => h b (List.mem_cons_of_mem _ hb)
      cases ha : g a with
      | error e =>
          rw [produced_cons_error ha,
            produced_cons_error ((h a (List.mem_cons_self ..)).trans ha)]
      | ok found =>
          rw [produced_cons_ok ha, produced_cons_ok ((h a (List.mem_cons_self ..)).trans ha), hrest]

/-- What fails as something else does, or in a way of its own, fails so item by item. -/
theorem produced_fault_or {P : E → Prop} {f g : α → Except E (List γ)} {fault : Option E}
    {items : List α} {e : E} (hfg : ∀ a ∈ items, g a = f a ∨ ∃ cause, g a = .error cause ∧ P cause)
    (h : (produced g fault items).2 = some e) : (produced f fault items).2 = some e ∨ P e := by
  induction items with
  | nil => exact Or.inl h
  | cons a rest ih =>
      have hrest := ih fun b hb => hfg b (List.mem_cons_of_mem _ hb)
      rcases hfg a (List.mem_cons_self ..) with heq | ⟨cause, hcause, hP⟩
      · cases ha : f a with
        | error cause =>
            rw [produced_cons_error (heq.trans ha)] at h
            rw [produced_cons_error ha]
            exact Or.inl h
        | ok found =>
            rw [produced_cons_ok (heq.trans ha)] at h
            rw [produced_cons_ok ha]
            exact hrest h
      · rw [produced_cons_error hcause] at h
        cases h
        exact Or.inr hP

end Reply

namespace Relation

def produced (R : Relation) (c : Value) : List (Action × List Value) × Option Fault :=
  Reply.produced (fun a => R.execute a c) (R.enabled c).fault (R.enabled c).items

theorem edges_eq (R : Relation) (c : Value) :
    (R.edges c).items = ((R.produced c).1.flatMap fun p => p.2.map fun d => (p.1.label, d)) ∧
      (R.edges c).fault = (R.produced c).2 := by
  have hexpand := Reply.expand_eq_produced (fun a => R.execute a c)
    (fun a found => found.map fun d => (a.label, d)) (R.enabled c).fault (R.enabled c).items
  exact ⟨congrArg Prod.fst hexpand, congrArg Prod.snd hexpand⟩

def Identified (R : Relation) (c : Value) : Prop :=
  ∀ a ∈ (R.enabled c).items, ∀ found, R.execute a c = .ok found →
    Value.firstUnhashable? found = none

/-- Successors are entered as they are found, or one of them is refused for want of an identity. -/
theorem entered_eq_or (R : Relation) (c : Value) (a : Action) :
    R.entered c a = R.execute a c ∨ ∃ typeName, R.entered c a = .error (.unhashable typeName) := by
  unfold entered
  cases hfound : R.execute a c with
  | error e => exact Or.inl rfl
  | ok found =>
      cases hmembers : Value.members found with
      | ok set =>
          left
          simp [hmembers, bind, Except.bind, pure, Except.pure]
      | error e =>
          obtain ⟨typeName, rfl, -⟩ := Value.members_eq_error.mp hmembers
          right
          exact ⟨typeName, by simp [hmembers, bind, Except.bind]⟩

theorem entered_eq_ok {R : Relation} {c : Value} {a : Action} {found : List Value} :
    R.entered c a = .ok found ↔
      R.execute a c = .ok found ∧ Value.firstUnhashable? found = none := by
  unfold entered
  cases hfound : R.execute a c with
  | error e => simp [bind, Except.bind]
  | ok successors =>
      cases hmembers : Value.members successors with
      | ok set =>
          have hnone := (Value.members_eq_ok.mp hmembers).1
          simp only [hmembers, bind, Except.bind, pure, Except.pure, Except.ok.injEq]
          exact ⟨fun h => ⟨h, h ▸ hnone⟩, fun h => h.1⟩
      | error e =>
          obtain ⟨typeName, rfl, hfirst⟩ := Value.members_eq_error.mp hmembers
          simp only [hmembers, bind, Except.bind, Except.ok.injEq, reduceCtorEq, false_iff]
          rintro ⟨rfl, hnone⟩
          rw [hfirst] at hnone
          cases hnone

theorem Identified.entered_eq {R : Relation} {c : Value} (h : R.Identified c) {a : Action}
    (ha : a ∈ (R.enabled c).items) : R.entered c a = R.execute a c := by
  cases hfound : R.execute a c with
  | ok found => exact entered_eq_ok.mpr ⟨hfound, h a ha found hfound⟩
  | error e => simp [entered, hfound, bind, Except.bind]

theorem neighbours_eq (R : Relation) (c : Value) :
    R.neighbours c = (Reply.all (C := Value)
      { items := (Reply.produced (R.entered c) (R.enabled c).fault (R.enabled c).items).1.flatMap
          (·.2)
        fault := (Reply.produced (R.entered c) (R.enabled c).fault (R.enabled c).items).2 }).map
        Value.canonical := by
  have hexpand := Reply.expand_eq_produced (R.entered c) (fun _ found => found)
    (R.enabled c).fault (R.enabled c).items
  simp only [bind_pure] at hexpand
  simp only [neighbours, Reply.bind, hexpand]
  rfl

theorem Identified.neighbours_eq {R : Relation} {c : Value} (h : R.Identified c) :
    R.neighbours c = (Reply.all (C := Value)
      { items := (R.produced c).1.flatMap (·.2), fault := (R.produced c).2 }).map
        Value.canonical := by
  rw [Relation.neighbours_eq, Reply.produced_congr fun a ha => h.entered_eq ha]
  rfl

/-- The neighbours fail as the successors do, or over a successor without identity. -/
theorem produced_of_neighbours_eq_error {R : Relation} {c : Value} {e : Fault}
    (h : R.neighbours c = .error e) :
    (R.produced c).2 = some e ∨ ∃ typeName, e = .unhashable typeName := by
  rw [R.neighbours_eq] at h
  cases hfault : (Reply.produced (R.entered c) (R.enabled c).fault (R.enabled c).items).2 with
  | none =>
      rw [hfault] at h
      cases h
  | some cause =>
      rw [hfault] at h
      cases h
      refine Reply.produced_fault_or (P := fun e => ∃ typeName, e = .unhashable typeName)
        (fun a _ => ?_) hfault
      rcases R.entered_eq_or c a with heq | ⟨typeName, heq⟩
      · exact Or.inl heq
      · exact Or.inr ⟨_, heq, typeName, rfl⟩

end Relation

end StateSpace
