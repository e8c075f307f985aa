import Mathlib.Data.List.Forall2
import StateSpace.Proofs.Faults
import StateSpace.Proofs.Flattening

/-!
# Actions and the configurations that they belong to

Pieces are resolved for a configuration, and every action that comes of it is bound to that
configuration. It is run where the configuration equals its own, and elsewhere it is refused before
its effect is called. Null is an exception, since an action that is bound to null counts as one
without a source and is run everywhere. A search runs every action where it is enabled, so that the
faults that it meets are those of the functions that it was given. The number that is none is the
other exception: it does not equal itself, and what is enabled in it is refused there.
-/

namespace StateSpace

namespace Action

variable {relation name : String} {c d : Value} {effect : Routine}

theorem execute_bound_of_same (h : c.equals d = true ∨ c = .null) :
    execute relation (.bound name c effect) d = effect.run d >>= successorsOf := by
  apply execute_of_effect
  by_cases hc : c = .null
  · subst hc
    rfl
  · have hsame := h.resolve_right hc
    rw [effect?_bound hc, if_pos hsame]

theorem execute_bound_of_other (hc : c ≠ .null) (h : c.equals d = false) :
    execute relation (.bound name c effect) d =
      .error (.contractViolation (Action.bound name c effect).text d c) := by
  rw [execute_bound hc, h]
  rfl

end Action

namespace Canon

mutual

/-- The number that is none stands somewhere in a form. As a part it is compared by where it is
kept, which forms do not tell. -/
def holdsNaN : Canon → Bool
  | .num .nan => true
  | .node _ items => anyHoldsNaN items
  | _ => false

def anyHoldsNaN : List Canon → Bool
  | [] => false
  | form :: rest => holdsNaN form || anyHoldsNaN rest

end

end Canon

namespace Value

theorem equals_self (c : Value) : c.equals c = !c.isNaN := by
  simp [equals, (beq_iff c c).mpr rfl]

theorem equals_of_isNaN {c : Value} (h : c.isNaN = true) (d : Value) : c.equals d = false := by
  simp [equals, h]

theorem ne_null_of_isNaN {c : Value} (h : c.isNaN = true) : c ≠ .null := by
  rintro rfl
  cases h

end Value

namespace Piece

variable {path : String} {c : Value} {pieces : List Piece}

def Branch.Binds (c : Value) (a : Action) (b : Branch) : Prop := ∃ name, a = .bound name c b.effect

theorem binds_enabledBelow (path : String) (c : Value) (bs : List Branch) :
    List.Forall₂ (Branch.Binds c) (enabledBelow path c bs) (bs.filter (·.enabled c)) := by
  rw [enabledBelow, List.forall₂_map_left_iff]
  exact List.forall₂_same.mpr fun b _ => ⟨_, rfl⟩

theorem binds_group {guard : Guard} {parts : List Piece} {actions : List Action} (place : Nat)
    (name : Option String)
    (h : List.Forall₂ (Branch.Binds c) actions ((branchesFrom 0 parts).filter (·.enabled c))) :
    List.Forall₂ (Branch.Binds c) (if guard.accepts c then actions else [])
      ((branchesAt place (.group guard name parts)).filter (·.enabled c)) := by
  rw [branchesAt, filter_enabled_under]
  split_ifs
  · exact List.forall₂_map_right_iff.mpr h
  · exact .nil

/-- Resolving pieces asks the guards that are due and then gives an action for each branch that is
enabled, whatever the names. -/
theorem resolveFrom_binds (path : String) (place : Nat) (c : Value) (pieces : List Piece) :
    ∃ actions, List.Forall₂ (Branch.Binds c) actions
        ((branchesFrom place pieces).filter (·.enabled c)) ∧
      resolveFrom path place c pieces = .after c (due c pieces) actions := by
  induction pieces using forest_induction generalizing path place with
  | nil => exact ⟨[], .nil, rfl⟩
  | leaf guard name effect rest ih =>
      obtain ⟨later, hlater, hrest⟩ := ih path (place + 1)
      refine ⟨_, ?_, resolveFrom_cons_after (resolvePiece_leaf path place c guard name effect) hrest⟩
      rw [branchesFrom, List.filter_append]
      exact List.rel_append (binds_enabledBelow ..) hlater
  | group guard name parts rest ihparts ih =>
      obtain ⟨inner, hinner, hparts⟩ := ihparts (pathName path place name) 0
      obtain ⟨later, hlater, hrest⟩ := ih path (place + 1)
      refine ⟨_, ?_, resolveFrom_cons_after (resolvePiece_group_after hparts) hrest⟩
      rw [branchesFrom, List.filter_append]
      exact List.rel_append (binds_group place name hinner) hlater

theorem binds_of_resolve {actions : List Action} (h : resolve path pieces c = .ok actions) :
    List.Forall₂ (Branch.Binds c) actions ((branches pieces).filter (·.enabled c)) := by
  obtain ⟨bound, hbound, heq⟩ := resolveFrom_binds path 0 c pieces
  rw [resolve, heq] at h
  rw [Inquiry.eq_of_after_ok h]
  exact hbound

theorem guard_of_resolve_error {e : Fault} (h : resolve path pieces c = .error e) :
    ∃ k ∈ checkpoints pieces, k.guard.test c = .error e := by
  obtain ⟨actions, -, heq⟩ := resolveFrom_binds path 0 c pieces
  rw [resolve, heq] at h
  rcases Inquiry.after_cases (c := c) (due c pieces) actions with
    ⟨-, hafter⟩ | ⟨before, g, behind, cause, hsplit, -, hg, hafter⟩
  · rw [hafter] at h
    cases h
  · rw [hafter] at h
    cases h
    have hdue : g ∈ due c pieces := by
      rw [hsplit]
      exact List.mem_append_right _ (List.mem_cons_self ..)
    obtain ⟨k, hk, rfl⟩ := List.mem_map.mp hdue
    exact ⟨k, (List.mem_filter.mp hk).1, hg⟩

end Piece

theorem Search.Fails.blames {C K A E : Type} [DecidableEq K] {s : Search C K A E}
    {r q : Run C K A E} {call : Call} {more : List (Yield C)} {e : E}
    (h : s.Fails r call more q e) (hr : s.Session r) : s.Blames q e := by
  cases h with
  | next hn => exact (leads_of_next hn).blames hr.sound
  | exhaust hx => exact hr.exhaust_blames hx

namespace Relation

variable {roots : List Value} {pieces : List Piece} {c : Value} {a : Action} {e : Fault}

theorem branch_of_enabled (h : a ∈ ((ofPieces roots pieces).enabled c).items) :
    ∃ name, ∃ b ∈ Piece.branches pieces, b.enabled c = true ∧ a = .bound name c b.effect := by
  cases hresolve : Piece.resolve "" pieces c with
  | error e => simp [ofPieces, hresolve] at h
  | ok actions =>
      simp only [ofPieces, hresolve] at h
      have hbinds := Piece.binds_of_resolve hresolve
      obtain ⟨i, hi, rfl⟩ := List.mem_iff_getElem.mp h
      have hi' := hbinds.length_eq ▸ hi
      obtain ⟨name, heq⟩ := hbinds.get hi hi'
      obtain ⟨hb, henabled⟩ := List.mem_filter.mp (List.getElem_mem hi')
      exact ⟨name, _, hb, henabled, heq⟩

theorem guard_of_enabled_fault (h : ((ofPieces roots pieces).enabled c).fault = some e) :
    ∃ k ∈ Piece.checkpoints pieces, k.guard.test c = .error e := by
  cases hresolve : Piece.resolve "" pieces c with
  | error cause =>
      simp only [ofPieces, hresolve, Option.some.injEq] at h
      exact Piece.guard_of_resolve_error (h ▸ hresolve)
  | ok actions => simp [ofPieces, hresolve] at h

inductive FaultOf (key : Option KeyFunction) (pieces : List Piece) (c : Value) : Fault → Prop where
  | key {f : KeyFunction} {e : Fault} (hf : key = some f) (he : f c = .error e) :
      FaultOf key pieces c e
  | guard {k : Piece.Checkpoint} {e : Fault} (hk : k ∈ Piece.checkpoints pieces)
      (he : k.guard.test c = .error e) : FaultOf key pieces c e
  | effect {b : Piece.Branch} {e : Fault} (hb : b ∈ Piece.branches pieces)
      (henabled : b.enabled c = true) (he : b.effect.run c = .error e) : FaultOf key pieces c e

/-- An action is refused in the configuration that it is enabled in, which does not equal itself. -/
def Refuses (roots : List Value) (pieces : List Piece) (c : Value) (e : Fault) : Prop :=
  c.isNaN = true ∧ ∃ a ∈ ((ofPieces roots pieces).enabled c).items,
    e = .contractViolation a.text c c

/-- An action that is run where it is enabled fails only if its effect does, if a successor has no
identity, or if the configuration does not equal itself. -/
theorem execute_fault_of_enabled (key : Option KeyFunction)
    (ha : a ∈ ((ofPieces roots pieces).enabled c).items)
    (h : (ofPieces roots pieces).execute a c = .error e) :
    FaultOf key pieces c e ∨ (∃ typeName, e = .unhashable typeName) ∨
      Refuses roots pieces c e := by
  obtain ⟨name, b, hb, henabled, rfl⟩ := branch_of_enabled ha
  cases hnan : c.isNaN with
  | true =>
      have hrefused : (ofPieces roots pieces).execute (.bound name c b.effect) c = .error _ :=
        Action.execute_bound_of_other (Value.ne_null_of_isNaN hnan) (Value.equals_of_isNaN hnan c)
      cases hrefused.symm.trans h
      exact Or.inr (Or.inr ⟨hnan, _, ha, rfl⟩)
  | false =>
      have hrun : (ofPieces roots pieces).execute (.bound name c b.effect) c =
          b.effect.run c >>= successorsOf :=
        Action.execute_bound_of_same (Or.inl (by rw [Value.equals_self, hnan]; rfl))
      rw [hrun] at h
      cases heffect : b.effect.run c with
      | error cause =>
          rw [heffect] at h
          cases h
          exact Or.inl (.effect hb henabled heffect)
      | ok v =>
          rw [heffect] at h
          have hmembers : Value.members v.candidates = .error e := by
            rw [← Value.successorsOf_eq_members]
            exact h
          obtain ⟨typeName, he, -⟩ := Value.members_eq_error.mp hmembers
          exact Or.inr (Or.inl ⟨typeName, he⟩)

theorem produced_fault_of_pieces (key : Option KeyFunction)
    (h : ((ofPieces roots pieces).produced c).2 = some e) :
    FaultOf key pieces c e ∨ (∃ typeName, e = .unhashable typeName) ∨
      Refuses roots pieces c e := by
  rcases Reply.produced_eq_fault h with hfault | ⟨a, ha, he⟩
  · obtain ⟨k, hk, hguard⟩ := guard_of_enabled_fault hfault
    exact Or.inl (.guard hk hguard)
  · exact execute_fault_of_enabled key ha he

theorem view_fault_of_pieces (key : Option KeyFunction)
    (h : ((ofPieces roots pieces).toGraph.edges c).fault = some e ∨
      (ofPieces roots pieces).toGraph.neighbours c = .error e) :
    FaultOf key pieces c e ∨ (∃ typeName, e = .unhashable typeName) ∨
      Refuses roots pieces c e := by
  rcases h with h | h
  · exact produced_fault_of_pieces key (((ofPieces roots pieces).edges_eq c).2.symm.trans h)
  · rcases produced_of_neighbours_eq_error h with hfault | hunhashable
    · exact produced_fault_of_pieces key hfault
    · exact Or.inr (Or.inl hunhashable)

/-- In a configuration that does not equal itself the first action is refused. -/
theorem edges_of_isNaN {rest : List Action} (hc : c.isNaN = true)
    (h : ((ofPieces roots pieces).enabled c).items = a :: rest) :
    ((ofPieces roots pieces).toGraph.edges c).items = [] ∧
      ((ofPieces roots pieces).toGraph.edges c).fault = some (.contractViolation a.text c c) := by
  have ha : a ∈ ((ofPieces roots pieces).enabled c).items := h ▸ List.mem_cons_self ..
  obtain ⟨name, b, -, -, rfl⟩ := branch_of_enabled ha
  have hrefused : (ofPieces roots pieces).execute (.bound name c b.effect) c = .error _ :=
    Action.execute_bound_of_other (Value.ne_null_of_isNaN hc) (Value.equals_of_isNaN hc c)
  obtain ⟨hitems, hfault⟩ := (ofPieces roots pieces).edges_eq c
  rw [produced, h, Reply.produced_cons_error
    (f := fun a => (ofPieces roots pieces).execute a c) hrefused] at hitems hfault
  exact ⟨hitems, hfault⟩

theorem search_fault_of_pieces {s : ValueSearch} {key : Option KeyFunction} {r q : ValueRun}
    {call : Call} {more : List (Yield Value)} (hgraph : s.graph = (ofPieces roots pieces).toGraph)
    (hkey : s.identify = identify key) (hr : s.Session r) (h : s.Fails r call more q e) :
    (∃ c, FaultOf key pieces c e) ∨ (∃ c typeName, e = .unidentified c typeName) ∨
      (∃ typeName, e = .unhashable typeName) ∨ ∃ c ∈ q.store.toList, Refuses roots pieces c e := by
  rcases h.blames hr with ⟨c, -, hid⟩ | hroots | ⟨c, hc, hedges⟩
  · rw [hkey, identify_eq_error] at hid
    cases hid with
    | raised hf he => exact Or.inl ⟨c, .key hf he⟩
    | unhashable hk hu => exact Or.inr (Or.inl ⟨c, _, rfl⟩)
  · -- the roots of a relation are a list, which does not fail
    rw [hgraph] at hroots
    cases hroots
  · rw [hgraph] at hedges
    rcases view_fault_of_pieces key (Or.inl hedges) with hfault | hunhashable | hrefuses
    · exact Or.inl ⟨c, hfault⟩
    · exact Or.inr (Or.inr (Or.inl hunhashable))
    · exact Or.inr (Or.inr (Or.inr ⟨c, hc, hrefuses⟩))

/-- An action of pieces that is enabled in a configuration has the effect of an enabled branch. Run
in this or in an equal configuration it gives the successors of that effect there. In any other it
is refused, and the effect does not matter, unless the configuration is null: then it is run all the
same. Graph and searches of pieces only fail as the functions that they are given do, or over a
value without identity, or in the number that is none: as this does not equal itself, the first
action that is enabled in it is refused. -/
theorem ofPieces_contract (roots : List Value) (pieces : List Piece) :
    (∀ c a, a ∈ ((ofPieces roots pieces).enabled c).items →
      ∃ name, ∃ b ∈ Piece.branches pieces, b.enabled c = true ∧ a = .bound name c b.effect ∧
        (∀ d, c.equals d = true ∧ (d = c ∨ c.canon.holdsNaN = false) ∨ c = .null →
          (ofPieces roots pieces).execute a d = b.effect.run d >>= successorsOf) ∧
        ∀ d, c.equals d = false → c ≠ .null → ∀ effect,
          (ofPieces roots pieces).execute (.bound name c effect) d =
            .error (.contractViolation a.text d c)) ∧
    (∀ c e, ((ofPieces roots pieces).toGraph.edges c).fault = some e ∨
        (ofPieces roots pieces).toGraph.neighbours c = .error e →
      FaultOf none pieces c e ∨ (∃ typeName, e = .unhashable typeName) ∨
        Refuses roots pieces c e) ∧
    (∀ c a rest, c.isNaN = true → ((ofPieces roots pieces).enabled c).items = a :: rest →
      ((ofPieces roots pieces).toGraph.edges c).items = [] ∧
        ((ofPieces roots pieces).toGraph.edges c).fault =
          some (.contractViolation a.text c c)) ∧
    ∀ (s : ValueSearch) (key : Option KeyFunction), s.graph = (ofPieces roots pieces).toGraph →
      s.identify = identify key → ∀ r call more q e, s.Session r → s.Fails r call more q e →
        (∃ c, FaultOf key pieces c e) ∨ (∃ c typeName, e = .unidentified c typeName) ∨
          (∃ typeName, e = .unhashable typeName) ∨
          ∃ c ∈ q.store.toList, Refuses roots pieces c e := by
  refine ⟨?_, fun _ _ => view_fault_of_pieces none, fun _ _ _ => edges_of_isNaN, ?_⟩
  · intro c a ha
    obtain ⟨name, b, hb, henabled, rfl⟩ := branch_of_enabled ha
    refine ⟨name, b, hb, henabled, rfl, ?_, ?_⟩
    · intro d hd
      exact Action.execute_bound_of_same (hd.imp_left And.left)
    · intro d hother hc effect
      exact Action.execute_bound_of_other hc hother
  · intro s key hgraph hkey r call more q e hr hfails
    exact search_fault_of_pieces hgraph hkey hr hfails

/-- True is the same configuration as one, and two is another. The guard that fails at null ends a
search. -/
theorem nested_contract :
    (ofPieces [.null] Piece.nested).execute (.bound "outer/piece1" (.int 1) ⟨"second", .ok⟩)
        (.bool true) = .ok [.bool true] ∧
      (ofPieces [.null] Piece.nested).execute (.bound "outer/piece1" (.int 1) ⟨"second", .ok⟩)
        (.int 2) = .error (.contractViolation "Action(name='outer/piece1', source=1)" (.int 2)
          (.int 1)) ∧
      ∃ c, FaultOf none Piece.nested c .indexOutOfRange := by
  obtain ⟨hactions, -, -, hsearch⟩ := ofPieces_contract [.null] Piece.nested
  obtain ⟨name, b, -, -, heq, hsame, hother⟩ := hactions (.int 1)
    (.bound "outer/piece1" (.int 1) ⟨"second", .ok⟩) (List.mem_cons_self ..)
  obtain ⟨hname, -, heffect⟩ := Action.bound.inj heq
  subst hname
  rw [hsame (.bool true) (Or.inl ⟨rfl, Or.inr rfl⟩), ← heffect,
    hother (.int 2) rfl (by simp) ⟨"second", .ok⟩]
  refine ⟨rfl, rfl, ?_⟩
  have hfails := hsearch { Search.single with graph := (ofPieces [.null] Piece.nested).toGraph }
    none rfl rfl _ .next [] _ _ (.next (.initial 0)) (.next rfl)
  rcases hfails with hfault | ⟨_, _, hcause⟩ | ⟨_, hcause⟩ | ⟨_, -, -, _, -, hcause⟩
  · exact hfault
  · cases hcause
  · cases hcause
  · cases hcause

def anywhere : List Piece := [.leaf .always (some "go") ⟨"five", fun _ => .ok (.int 5)⟩]

/-- An action that is enabled in null is run in three, which is another configuration. A search from
the number that is none fails, because the action that is enabled there is refused. -/
theorem anywhere_runs_elsewhere :
    (∃ a ∈ ((ofPieces [.null] anywhere).enabled .null).items, Value.null.equals (.int 3) = false ∧
      (ofPieces [.null] anywhere).execute a (.int 3) = .ok [.int 5]) ∧
    ∃ found r q,
      Search.Plays { Search.single with graph := (ofPieces [.real .nan] anywhere).toGraph }
        (.initial 0) [.next] found r ∧
      found.map (·.configuration) = [.real .nan] ∧
      Search.Fails { Search.single with graph := (ofPieces [.real .nan] anywhere).toGraph } r .next
        [] q (.contractViolation "Action(name='go', source=nan)" (.real .nan) (.real .nan)) :=
  ⟨⟨_, List.mem_cons_self .., rfl, rfl⟩, _, _, _, .cons .next (.nil _), rfl, .next rfl⟩

end Relation

end StateSpace
