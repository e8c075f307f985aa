import Mathlib.Data.List.Nodup
import StateSpace.Collection
import StateSpace.Expr
import StateSpace.Lineage
import StateSpace.Proofs.Equality
import StateSpace.Proofs.Store

/-!
# States are assignments

A state is made from a mapping of names to values and remembers in which order the names were given.
It is compared by its key, in which the variables are sorted by name, and two states are equal
exactly if they have the same names and equal values under each of them.
-/

namespace StateSpace

@[ext]
structure Mapping where
  entries : List (String × Value)
  distinct : (entries.map (·.1)).Nodup

namespace Mapping

def names (d : Mapping) : List String := d.entries.map (·.1)

def vars (d : Mapping) : List (Value × Value) := d.entries.map fun e => (.str e.1, e.2)

def value? (d : Mapping) (name : String) : Option Value := Value.lookup d.vars (.str name)

def build (d : Mapping) : Except Fault Value := State.build (.map d.vars) []

def Hashable (d : Mapping) : Prop := ∀ e ∈ d.entries, e.2.unhashable? = none

instance (d : Mapping) : Decidable d.Hashable :=
  inferInstanceAs (Decidable (∀ e ∈ d.entries, e.2.unhashable? = none))

def Agrees (d₁ d₂ : Mapping) : Prop :=
  (∀ name, name ∈ d₁.names ↔ name ∈ d₂.names) ∧
    ∀ name v w, (name, v) ∈ d₁.entries → (name, w) ∈ d₂.entries → (v == w) = true

variable (d d₁ d₂ : Mapping)

theorem mem_names {name : String} : name ∈ d.names ↔ ∃ v, (name, v) ∈ d.entries := by
  simp [names]

theorem eq_of_mem {name : String} {v w : Value} (hv : (name, v) ∈ d.entries)
    (hw : (name, w) ∈ d.entries) : v = w := by
  have heq := List.inj_on_of_nodup_map d.distinct hv hw rfl
  exact congrArg Prod.snd heq

theorem exists_of_names {name : String} {v : Value} (h : name ∈ d₁.names → name ∈ d₂.names)
    (hv : (name, v) ∈ d₁.entries) : ∃ w, (name, w) ∈ d₂.entries :=
  d₂.mem_names.mp (h (d₁.mem_names.mpr ⟨v, hv⟩))

theorem str_beq_iff {name : String} {k : Value} : (Value.str name == k) = true ↔ k = .str name := by
  rw [Value.beq_iff]
  constructor
  · intro h
    cases k <;> simp [Value.canon] at h
    rw [h]
  · rintro rfl
    rfl

theorem str_beq_str_iff {name other : String} :
    (Value.str name == Value.str other) = true ↔ name = other := by
  rw [str_beq_iff, Value.str.injEq, eq_comm]

/-- Only a name of the mapping finds a value, and that is the value under this name. -/
theorem lookup_eq_some_iff {k v : Value} :
    Value.lookup d.vars k = some v ↔ ∃ name, k = .str name ∧ (name, v) ∈ d.entries := by
  unfold Value.lookup
  rw [Option.map_eq_some_iff]
  constructor
  · rintro ⟨e, he, rfl⟩
    obtain ⟨⟨name, w⟩, hmem, rfl⟩ := List.mem_map.mp (List.mem_of_find?_eq_some he)
    have hname := List.find?_some he
    exact ⟨name, str_beq_iff.mp hname, hmem⟩
  · rintro ⟨name, rfl, hmem⟩
    have hvar : (Value.str name, v) ∈ d.vars := List.mem_map.mpr ⟨_, hmem, rfl⟩
    cases hfind : d.vars.find? (fun e => e.1 == Value.str name) with
    | none =>
        have hno := List.find?_eq_none.mp hfind _ hvar
        exact absurd (str_beq_iff.mpr rfl) hno
    | some e =>
        obtain ⟨⟨other, w⟩, hother, rfl⟩ := List.mem_map.mp (List.mem_of_find?_eq_some hfind)
        have hname := List.find?_some hfind
        obtain rfl := Value.str.inj (str_beq_iff.mp hname)
        exact ⟨_, rfl, d.eq_of_mem hother hmem⟩

theorem lookup_eq_none_iff {k : Value} :
    Value.lookup d.vars k = none ↔ ∀ name ∈ d.names, k ≠ .str name := by
  rw [Option.eq_none_iff_forall_ne_some]
  constructor
  · rintro h name hname rfl
    obtain ⟨v, hv⟩ := d.mem_names.mp hname
    exact h v (d.lookup_eq_some_iff.mpr ⟨name, rfl, hv⟩)
  · intro h v hv
    obtain ⟨name, rfl, hmem⟩ := d.lookup_eq_some_iff.mp hv
    exact h name (d.mem_names.mpr ⟨v, hmem⟩) rfl

theorem value?_eq_some_iff {d : Mapping} {name : String} {v : Value} :
    d.value? name = some v ↔ (name, v) ∈ d.entries := by
  rw [value?, lookup_eq_some_iff]
  constructor
  · rintro ⟨_, ⟨⟩, h⟩
    exact h
  · intro h
    exact ⟨name, rfl, h⟩

theorem value?_eq_none_iff {d : Mapping} {name : String} :
    d.value? name = none ↔ name ∉ d.names := by
  rw [mem_names, not_exists, Option.eq_none_iff_forall_ne_some]
  exact forall_congr' fun v => not_congr value?_eq_some_iff

theorem vars_pairwise : d.vars.Pairwise fun e f => (e.1 == f.1) = false := by
  rw [vars, List.pairwise_map]
  refine (List.pairwise_map.mp d.distinct).imp ?_
  intro e f hne
  rw [← Bool.not_eq_true, str_beq_str_iff]
  exact hne

theorem vars_text : (d.vars.all fun e => e.1.isText) = true := by
  simp [vars, Value.isText]

theorem canonEntries_text : ((Value.canonEntries d.vars).all fun e => (Canon.nameOf e).isText) =
    true := by
  simp [vars, Value.canonEntries_eq_map, Value.nameOf_entryForm, Value.isText_canon, Value.isText]

/-- Names that are texts can be sorted. -/
theorem exists_sorted : ∃ sorted, Value.sortByName d.vars = .ok sorted := by
  rw [Value.sortByName, if_pos d.vars_text]
  exact ⟨_, rfl⟩

end Mapping

namespace Value

theorem unhashable?_pairs {entries : List (Value × Value)} :
    (pairs entries).unhashable? = none ↔
      ∀ e ∈ entries, e.1.unhashable? = none ∧ e.2.unhashable? = none := by
  rw [pairs, unhashable?, firstUnhashable?_eq_none, List.forall_mem_map]
  simp [unhashable?, firstUnhashable?_eq_none]

end Value

namespace Mapping

variable (d d₁ d₂ : Mapping)

theorem unhashable?_key_eq_none : (State.key d.vars).unhashable? = none ↔ d.Hashable := by
  obtain ⟨sorted, hsorted⟩ := d.exists_sorted
  have hperm := (Value.sortByName_eq_ok (Value.canon_ne_of_beq d.vars_pairwise) hsorted).1
  rw [Value.key_eq_pairs hsorted, Value.unhashable?_pairs]
  simp only [hperm.mem_iff, vars, List.forall_mem_map, Value.unhashable?, true_and]
  rfl

theorem make_eq : State.make d.vars =
    match (State.key d.vars).unhashable? with
    | some typeName => .error (.unidentified (.map d.vars) typeName)
    | none => .ok (.state .written d.vars) := by
  obtain ⟨sorted, hsorted⟩ := d.exists_sorted
  rw [State.make, hsorted]
  rfl

theorem make_of_hashable (h : d.Hashable) : State.make d.vars = .ok (.state .written d.vars) := by
  rw [make_eq, d.unhashable?_key_eq_none.mpr h]

theorem build_eq : d.build = State.make d.vars := by
  unfold build State.build
  cases h : d.vars <;> rfl

theorem build_of_hashable (h : d.Hashable) : d.build = .ok (.state .written d.vars) := by
  rw [build_eq, d.make_of_hashable h]

theorem canon_state (m : Mark) : (Value.state m d.vars).canon =
    .node .state (Canon.sortBy id (Value.canonEntries d.vars)) := by
  rw [Value.canon, Canon.byName, if_pos d.canonEntries_text]

def Assigns (name : String) (form : Canon) : Prop := ∃ v, (name, v) ∈ d.entries ∧ v.canon = form

theorem mem_canonEntries {form : Canon} : form ∈ Value.canonEntries d.vars ↔
    ∃ name value, d.Assigns name value ∧ form = Canon.pair (.str name) value := by
  rw [Value.canonEntries_eq_map, vars, List.map_map, List.mem_map]
  constructor
  · rintro ⟨⟨name, v⟩, hv, rfl⟩
    exact ⟨name, v.canon, ⟨v, hv, rfl⟩, rfl⟩
  · rintro ⟨name, _, ⟨v, hv, rfl⟩, rfl⟩
    exact ⟨(name, v), hv, rfl⟩

theorem agrees_iff : d₁.Agrees d₂ ↔ ∀ name form, d₁.Assigns name form ↔ d₂.Assigns name form := by
  constructor
  · rintro ⟨hnames, hvalues⟩ name form
    constructor
    · rintro ⟨v, hv, rfl⟩
      obtain ⟨w, hw⟩ := exists_of_names d₁ d₂ (hnames name).mp hv
      exact ⟨w, hw, ((Value.beq_iff v w).mp (hvalues name v w hv hw)).symm⟩
    · rintro ⟨w, hw, rfl⟩
      obtain ⟨v, hv⟩ := exists_of_names d₂ d₁ (hnames name).mpr hw
      exact ⟨v, hv, (Value.beq_iff v w).mp (hvalues name v w hv hw)⟩
  · intro h
    refine ⟨?_, ?_⟩
    · intro name
      rw [mem_names, mem_names]
      constructor
      · rintro ⟨v, hv⟩
        obtain ⟨w, hw, -⟩ := (h name v.canon).mp ⟨v, hv, rfl⟩
        exact ⟨w, hw⟩
      · rintro ⟨w, hw⟩
        obtain ⟨v, hv, -⟩ := (h name w.canon).mpr ⟨w, hw, rfl⟩
        exact ⟨v, hv⟩
    · intro name v w hv hw
      obtain ⟨u, hu, heq⟩ := (h name v.canon).mp ⟨v, hv, rfl⟩
      rw [Value.beq_iff, ← heq, d₂.eq_of_mem hu hw]

theorem state_beq_iff (m n : Mark) :
    (Value.state m d₁.vars == Value.state n d₂.vars) = true ↔ d₁.Agrees d₂ := by
  have hnodup : ∀ d : Mapping, (Value.canonEntries d.vars).Nodup := fun d =>
    Value.nodup_canonEntries (Value.canon_ne_of_beq d.vars_pairwise)
  -- Sorted entries are known by which there are, and these say what is assigned to which name.
  rw [Value.beq_iff, canon_state, canon_state, Canon.node.injEq, Canon.sortBy_eq_iff,
    List.perm_ext_iff_of_nodup (hnodup d₁) (hnodup d₂), agrees_iff]
  simp only [true_and, mem_canonEntries]
  constructor
  · intro h name form
    have hpair := h (Canon.pair (.str name) form)
    simpa [Canon.pair] using hpair
  · intro h form
    simp only [h]

theorem regular_state {m : Mark} (h : ∀ e ∈ d.entries, e.2.Regular) :
    (Value.state m d.vars).Regular := by
  refine .intro ⟨d.vars_pairwise, d.exists_sorted⟩ ?_
  intro p hp
  obtain ⟨e, he, hp⟩ := List.mem_flatMap.mp hp
  obtain ⟨⟨name, v⟩, hv, rfl⟩ := List.mem_map.mp he
  rcases List.mem_cons.mp hp with rfl | hp
  · exact .intro trivial fun _ hnil => absurd hnil List.not_mem_nil
  · rw [List.mem_singleton.mp hp]
    exact h _ hv

end Mapping

namespace Value

theorem item_of_unhashable {entries : List (Value × Value)} {k : Value} {typeName : String}
    (hk : k.unhashable? = some typeName) : item entries k = .error (.unhashable typeName) := by
  simp [item, requireHashable, hk, bind, Except.bind]

theorem item_of_hashable {entries : List (Value × Value)} {k : Value}
    (hk : k.unhashable? = none) :
    item entries k = (lookup entries k).elim (.error (.missingKey k)) .ok := by
  cases h : lookup entries k <;> simp [item, requireHashable, hk, h, bind, Except.bind, pure,
    Except.pure]

end Value

/-- Two states that are taken for each other: every item of one is an equal item of the other, and
where configurations are told apart by themselves, whatever holds one of them holds the other. -/
structure Interchangeable (s t : Value) : Prop where
  item : ∀ k, (∃ v w, Expr.itemOf s k = .ok v ∧ Expr.itemOf t k = .ok w ∧ (v == w) = true) ∨
    ∃ e, Expr.itemOf s k = .error e ∧ Expr.itemOf t k = .error e
  collection : ∀ c : Collection, c.key = none →
    c.contains s = c.contains t ∧ c.get? s = c.get? t
  lineage : ∀ l : Lineage, l.key = none → l.contains s = l.contains t ∧ l.isRoot s = l.isRoot t
  added : s.canon.lasting = true → ∀ c c' fresh, Collection.key c = none →
    c.add s = .ok (c', fresh) → c'.contains t = .ok true
  rooted : s.canon.lasting = true → ∀ l l' fresh, Lineage.key l = none →
    l.addRoot s = .ok (l', fresh) → l'.contains t = .ok true

namespace Mapping

variable {d₁ d₂ : Mapping} {m n : Mark}

theorem Agrees.item (h : d₁.Agrees d₂) (k : Value) :
    (∃ v w, Value.item d₁.vars k = .ok v ∧ Value.item d₂.vars k = .ok w ∧ (v == w) = true) ∨
      ∃ e, Value.item d₁.vars k = .error e ∧ Value.item d₂.vars k = .error e := by
  cases hk : k.unhashable? with
  | some typeName => exact Or.inr ⟨_, Value.item_of_unhashable hk, Value.item_of_unhashable hk⟩
  | none =>
      rw [Value.item_of_hashable hk, Value.item_of_hashable hk]
      cases hv : Value.lookup d₁.vars k with
      | some v =>
          obtain ⟨name, rfl, hmem⟩ := d₁.lookup_eq_some_iff.mp hv
          obtain ⟨w, hw⟩ := exists_of_names d₁ d₂ (h.1 name).mp hmem
          rw [d₂.lookup_eq_some_iff.mpr ⟨name, rfl, hw⟩]
          exact Or.inl ⟨v, w, rfl, rfl, h.2 name v w hmem hw⟩
      | none =>
          have hnone := d₁.lookup_eq_none_iff.mp hv
          rw [d₂.lookup_eq_none_iff.mpr fun name hname => hnone name ((h.1 name).mpr hname)]
          exact Or.inr ⟨_, rfl, rfl⟩

theorem identify_state (vars : List (Value × Value)) :
    identify none (.state m vars) =
      .ok (if (Value.state m vars).canon.lasting then some (Value.state m vars).canon else none) :=
  rfl

theorem Agrees.interchangeable (h : d₁.Agrees d₂) :
    Interchangeable (.state m d₁.vars) (.state n d₂.vars) := by
  have hcanon := (Value.beq_iff _ _).mp ((d₁.state_beq_iff d₂ m n).mpr h)
  have hkey : identify none (.state m d₁.vars) = identify none (.state n d₂.vars) := by
    rw [identify_state, identify_state, hcanon]
  refine ⟨h.item, ?_, ?_, ?_, ?_⟩
  · intro c hc
    rw [Collection.contains, Collection.contains, Collection.get?, Collection.get?, hc, hkey]
    exact ⟨rfl, rfl⟩
  · intro l hl
    rw [Lineage.contains, Lineage.contains, Lineage.isRoot, Lineage.isRoot, hl, hkey]
    exact ⟨rfl, rfl⟩
  · intro hlasting c c' fresh hc hadd
    rw [identify_state, if_pos hlasting] at hkey
    rw [Collection.add, hc, identify_state, if_pos hlasting] at hadd
    obtain ⟨rfl, -⟩ := Prod.mk.inj (Except.ok.inj hadd)
    rw [Collection.contains, ← hkey]
    exact congrArg Except.ok (c.store.contains_insert_self _ _)
  · intro hlasting l l' fresh hl hadd
    rw [identify_state, if_pos hlasting] at hkey
    rw [Lineage.addRoot, hl, identify_state, if_pos hlasting] at hadd
    obtain ⟨rfl, -⟩ := Prod.mk.inj (Except.ok.inj hadd)
    rw [Lineage.contains, ← hkey]
    exact congrArg Except.ok (l.forest.contains_addRoot_self _ _)

end Mapping

theorem Value.equals_equivalence :
    Equivalence fun a b : {v : Value // v.Regular} => a.1.Equals b.1 := by
  have hiff (a b : {v : Value // v.Regular}) : a.1.Equals b.1 ↔ a.1.canon = b.1.canon := by
    rw [← Value.beq_iff_equals a.2 b.2, Value.beq_iff]
  refine ⟨fun a => (hiff a a).mpr rfl, ?_, ?_⟩
  · intro a b h
    exact (hiff b a).mpr ((hiff a b).mp h).symm
  · intro a b c hab hbc
    exact (hiff a c).mpr (((hiff a b).mp hab).trans ((hiff b c).mp hbc))

/-- A state is built from every mapping of names to hashable values, and it is that mapping: two are
equal if and only if they have the same names and equal values at each of them, in whatever order
the names were given. Equality holds at every depth by its rules and is an equivalence, and equal
states are taken for each other. -/
theorem states_equal_iff_same_assignment :
    (∀ d₁ d₂ : Mapping, d₁.Hashable → d₂.Hashable →
      ∃ s₁ s₂, d₁.build = .ok s₁ ∧ d₂.build = .ok s₂ ∧
        ((s₁ == s₂) = true ↔ d₁.Agrees d₂) ∧
        ((s₁ == s₂) = true → Interchangeable s₁ s₂) ∧
        ((∀ e ∈ d₁.entries, e.2.Regular) → s₁.Regular)) ∧
    (∀ a b : Value, a.Regular → b.Regular → ((a == b) = true ↔ a.Equals b)) ∧
    Equivalence fun a b : {v : Value // v.Regular} => a.1.Equals b.1 := by
  refine ⟨?_, fun a b => Value.beq_iff_equals, Value.equals_equivalence⟩
  intro d₁ d₂ h₁ h₂
  refine ⟨_, _, d₁.build_of_hashable h₁, d₂.build_of_hashable h₂, d₁.state_beq_iff d₂ _ _, ?_,
    d₁.regular_state⟩
  intro h
  exact ((d₁.state_beq_iff d₂ _ _).mp h).interchangeable

/-- Two names in either order, one with a tuple of a state whose own names stand in either order. -/
theorem states_equal_iff_same_assignment_nested :
    let inner₁ := Value.state .written [(.str "x", .int 1), (.str "y", .null)]
    let inner₂ := Value.state .written [(.str "y", .null), (.str "x", .bool true)]
    let d₁ : Mapping := ⟨[("a", .int 0), ("b", .tuple [inner₁])], by decide⟩
    let d₂ : Mapping := ⟨[("b", .tuple [inner₂]), ("a", .bool false)], by decide⟩
    ∃ s₁ s₂, d₁.build = .ok s₁ ∧ d₂.build = .ok s₂ ∧ Interchangeable s₁ s₂ := by
  intro inner₁ inner₂ d₁ d₂
  obtain ⟨s₁, s₂, h₁, h₂, hiff, hsame, -⟩ :=
    states_equal_iff_same_assignment.1 d₁ d₂ (by decide) (by decide)
  have hagrees : d₁.Agrees d₂ := (d₁.state_beq_iff d₂ .written .written).mp (by decide)
  exact ⟨s₁, s₂, h₁, h₂, hsame (hiff.mpr hagrees)⟩

end StateSpace
