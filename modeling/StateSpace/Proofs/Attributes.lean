import StateSpace.Proofs.Changes

/-!
# Names behind a point

A variable of a state can be read in two ways, as an item and by its name behind a point. Both give
the value that was last given for it, when the state was made or in a later change. Behind a point
two kinds of names are no variables, even if variables are called so: those that every state has,
and those with a leading underscore.
-/

namespace StateSpace

namespace Value

theorem beq_str_iff {k : Value} {name : String} : (k == Value.str name) = true ↔ k = .str name := by
  rw [beq_iff, eq_comm, ← beq_iff, Mapping.str_beq_iff]

theorem lookup_cons (e : Value × Value) (entries : List (Value × Value)) (j : Value) :
    lookup (e :: entries) j = if e.1 == j then some e.2 else lookup entries j := by
  by_cases h : (e.1 == j) = true <;> simp [lookup, h]

theorem lookup_append (entries later : List (Value × Value)) (j : Value) :
    lookup (entries ++ later) j = (lookup entries j).or (lookup later j) := by
  rw [lookup, List.find?_append, Option.map_or]
  rfl

/-- What is put under a key is found under every equal one. -/
theorem lookup_put (entries : List (Value × Value)) (k v j : Value) :
    lookup (put entries k v) j = if k == j then some v else lookup entries j := by
  induction entries with
  | nil => exact lookup_cons (k, v) [] j
  | cons e rest ih =>
      obtain ⟨i, w⟩ := e
      rw [put, lookup_cons]
      by_cases hk : (i == k) = true
      · -- The entry keeps its key, which equals whatever the new key equals.
        have hsame : (i == j) = (k == j) := by
          rw [Bool.eq_iff_iff, beq_iff, beq_iff, (beq_iff i k).mp hk]
        rw [if_pos hk, lookup_cons, hsame]
        split <;> rfl
      · rw [if_neg hk, lookup_cons, ih]
        by_cases hj : (i == j) = true
        · have hkj : ¬ (k == j) = true := by
            rw [beq_iff, ← (beq_iff i j).mp hj, eq_comm, ← beq_iff]
            exact hk
          rw [if_pos hj, if_neg hkj, if_pos hj]
        · rw [if_neg hj, if_neg hj]

/-- The value that was put last is found. -/
theorem lookup_putAll (entries changes : List (Value × Value)) (j : Value) :
    lookup (putAll entries changes) j = (lookup changes.reverse j).or (lookup entries j) := by
  induction changes generalizing entries with
  | nil => rfl
  | cons e rest ih =>
      change lookup (putAll (put entries e.1 e.2) rest) j = _
      rw [ih, lookup_put, List.reverse_cons, lookup_append, lookup_cons, Option.or_assoc]
      split <;> rfl

theorem lookup_named (given : List (String × Value)) (name : String) :
    lookup (given.map fun e => (.str e.1, e.2)) (.str name) = given.lookup name := by
  induction given with
  | nil => rfl
  | cons e rest ih =>
      obtain ⟨other, v⟩ := e
      rw [List.map_cons, lookup_cons, List.lookup_cons, ih]
      by_cases hname : name = other
      · rw [if_pos (beq_str_iff.mpr (congrArg Value.str hname.symm)), beq_iff_eq.mpr hname]
      · have hother : ¬ (Value.str other == Value.str name) = true := by
          rw [beq_str_iff, Value.str.injEq]
          exact fun h => hname h.symm
        rw [if_neg hother, beq_false_of_ne hname]

theorem lookup_isSome_iff {vars : List (Value × Value)} {name : String} :
    (lookup vars (.str name)).isSome = true ↔ Value.str name ∈ vars.map (·.1) := by
  rw [lookup, Option.isSome_map, List.find?_isSome, List.mem_map]
  exact exists_congr fun e => and_congr_right fun _ => beq_str_iff

end Value

namespace State

/-- The names that every state has. Those at the end stand for parts that are not values. -/
def ownNames : List String :=
  operations ++ common.map (·.1) ++ ["_values", "_key"] ++
    ["_hash", "__class__", "__class_getitem__", "_abc_impl"]

def Hidden (name : String) : Prop := name.toList.head? = some '_'

instance (name : String) : Decidable (Hidden name) :=
  inferInstanceAs (Decidable (name.toList.head? = some '_'))

def evolve (mapping : Value) (named : List (String × Value))
    (changes : List (List (String × Value))) : Except Fault Value := do
  changes.foldlM (fun s ch => do change (← vars s) ch) (← build mapping named)

def baseOf (mapping : Value) : Except Fault (List (Value × Value)) :=
  if mapping.truthy then entriesOf mapping else pure []

def latest (entries : List (Value × Value)) (given : List (String × Value)) (name : String) :
    Option Value :=
  (given.reverse.lookup name).or (Value.lookup entries (.str name))

variable {vars : List (Value × Value)} {s t : Value} {name : String}

theorem eq_of_make (h : make vars = .ok s) : s = .state .written vars := by
  obtain ⟨sorted, -, hs⟩ := bind_eq_ok.mp h
  split at hs
  · cases hs
  · exact (Except.ok.inj hs).symm

theorem eq_of_build {mapping : Value} {named : List (String × Value)}
    (h : build mapping named = .ok s) : ∃ entries, baseOf mapping = .ok entries ∧
      s = .state .written (Value.putAll entries (named.map fun e => (.str e.1, e.2))) := by
  unfold build at h
  split at h
  · cases h
  · by_cases htruthy : mapping.truthy = true
    · simp only [htruthy, if_true] at h
      obtain ⟨entries, hentries, hmake⟩ := bind_eq_ok.mp h
      exact ⟨entries, by rw [baseOf, if_pos htruthy, hentries], eq_of_make hmake⟩
    · simp only [htruthy, Bool.false_eq_true, if_false] at h
      exact ⟨[], if_neg htruthy, eq_of_make h⟩

theorem eq_of_change {changes : List (String × Value)} (h : change vars changes = .ok t) :
    t = .state .written (Value.putAll vars (changes.map fun e => (.str e.1, e.2))) := by
  unfold change at h
  split at h
  · cases h
  · dsimp only at h
    split at h
    · exact eq_of_make h
    · cases h

/-- All that was given is put into the mapping, one value after the other. -/
theorem eq_of_evolve {mapping : Value} {named : List (String × Value)}
    {changes : List (List (String × Value))} (h : evolve mapping named changes = .ok s) :
    ∃ entries, baseOf mapping = .ok entries ∧ s = .state .written
      (Value.putAll entries ((named ++ changes.flatten).map fun e => (.str e.1, e.2))) := by
  obtain ⟨made, hmade, hchanged⟩ := bind_eq_ok.mp h
  obtain ⟨entries, hentries, rfl⟩ := eq_of_build hmade
  refine ⟨entries, hentries, ?_⟩
  clear h hmade
  -- Each change joins what was given by name before it, so that the rest begins from both.
  induction changes generalizing named with
  | nil => simpa using (Except.ok.inj hchanged).symm
  | cons ch rest ih =>
      rw [List.foldlM_cons] at hchanged
      obtain ⟨t, ht, hrest⟩ := bind_eq_ok.mp hchanged
      have hput := eq_of_change ht
      rw [Value.putAll, Value.putAll, ← List.foldl_append, ← List.map_append] at hput
      rw [hput] at hrest
      rw [ih hrest, List.flatten_cons, List.append_assoc]

theorem lookup_evolved (entries : List (Value × Value)) (given : List (String × Value))
    (name : String) :
    Value.lookup (Value.putAll entries (given.map fun e => (.str e.1, e.2))) (.str name) =
      latest entries given name := by
  rw [Value.lookup_putAll, ← List.map_reverse, Value.lookup_named, latest]

/-- Other names than those of every state are hidden, or they are names of variables. -/
theorem access_of_not_own (mark : Mark) (vars : List (Value × Value)) (h : name ∉ ownNames) :
    access mark vars name = if Hidden name then .error (.hiddenVariable name)
    else (Value.lookup vars (.str name)).elim (.error (.noVariable name)) .ok := by
  simp only [ownNames, List.mem_append, not_or] at h
  obtain ⟨⟨⟨hoperation, hcommon⟩, hparts⟩, -⟩ := h
  have hnone : common.lookup name = none := by
    rw [List.lookup_eq_none_iff]
    intro e he
    rw [bne_iff_ne]
    rintro rfl
    exact hcommon (List.mem_map_of_mem he)
  have hcontains : operations.contains name = false := by
    rw [← Bool.not_eq_true, List.contains_iff_mem]
    exact hoperation
  have hvalues : name ≠ "_values" := by rintro rfl; exact hparts (by decide)
  have hkey : name ≠ "_key" := by rintro rfl; exact hparts (by decide)
  rw [access, hcontains, if_neg Bool.false_ne_true, hnone]
  dsimp only
  rw [if_neg hvalues, if_neg hkey]
  by_cases hhidden : Hidden name
  · rw [if_pos hhidden]
    exact if_pos hhidden
  · rw [if_neg hhidden]
    cases hlookup : Value.lookup vars (.str name) <;> exact if_neg hhidden

end State

open State

/-- However a state was made and changed: a variable whose name is neither hidden nor one that every
state has is read behind a point as it is read as an item, and both give the value that was last
given for it. A name that is hidden, or of no variable, is refused as long as it is not one that
every state has. -/
theorem attribute_reads_variable {mapping : Value} {named : List (String × Value)}
    {changes : List (List (String × Value))} {s : Value}
    (h : evolve mapping named changes = .ok s) :
    ∃ entries declared, baseOf mapping = .ok entries ∧ State.vars s = .ok declared ∧
      ∀ name ∉ ownNames,
        (Value.str name ∈ declared.map (·.1) → ¬ Hidden name →
          ∃ v, latest entries (named ++ changes.flatten) name = some v ∧
            State.member s name = .ok v ∧ Expr.itemOf s (.str name) = .ok v) ∧
        (Value.str name ∉ declared.map (·.1) ∨ Hidden name →
          ∃ e, State.member s name = .error e ∧ e.kind = .member) := by
  obtain ⟨entries, hentries, rfl⟩ := eq_of_evolve h
  refine ⟨entries, _, hentries, rfl, ?_⟩
  intro name hown
  have haccess := access_of_not_own .written
    (Value.putAll entries ((named ++ changes.flatten).map fun e => (.str e.1, e.2))) hown
  rw [lookup_evolved] at haccess
  rw [← Value.lookup_isSome_iff, lookup_evolved]
  refine ⟨fun hdeclared hshown => ?_, fun hrefused => ?_⟩
  · obtain ⟨v, hv⟩ := Option.isSome_iff_exists.mp hdeclared
    refine ⟨v, hv, ?_, ?_⟩
    · rw [if_neg hshown, hv] at haccess
      exact haccess
    · exact (Value.item_of_hashable rfl).trans (by rw [lookup_evolved, hv]; rfl)
  · by_cases hhidden : Hidden name
    · rw [if_pos hhidden] at haccess
      exact ⟨_, haccess, rfl⟩
    · have hnone := Option.not_isSome_iff_eq_none.mp (hrefused.resolve_right hhidden)
      rw [if_neg hhidden, hnone] at haccess
      exact ⟨_, haccess, rfl⟩

/-- A state made from a mapping and a value given by name, one variable of which is then changed. -/
theorem attribute_reads_variable_changed :
    let s := Value.state .written [(.str "a", .int 2), (.str "_p", .int 1), (.str "b", .str "x")]
    evolve (.map [(.str "a", .int 0), (.str "_p", .int 1)]) [("b", .str "x")] [[("a", .int 2)]] =
      .ok s ∧
    State.member s "a" = .ok (.int 2) ∧ Expr.itemOf s (.str "a") = .ok (.int 2) ∧
    (∃ e, State.member s "_p" = .error e ∧ e.kind = .member) ∧
    ∃ e, State.member s "c" = .error e ∧ e.kind = .member := by
  intro s
  have hs : evolve (.map [(.str "a", .int 0), (.str "_p", .int 1)]) [("b", .str "x")]
      [[("a", .int 2)]] = .ok s := rfl
  obtain ⟨entries, declared, hentries, hdeclared, hread⟩ := attribute_reads_variable hs
  cases hentries
  cases hdeclared
  obtain ⟨v, hv, hmember, hitem⟩ := (hread "a" (by decide)).1 (by simp) (by decide)
  cases hv
  exact ⟨hs, hmember, hitem, (hread "_p" (by decide)).2 (Or.inr (by decide)),
    (hread "c" (by decide)).2 (Or.inl (by simp))⟩

/-- A variable with a leading underscore is refused behind a point, and one that is called like an
operation is not read there. -/
theorem attribute_misses_variable :
    (∃ s, evolve .null [("_x", .int 1)] [] = .ok s ∧ Expr.itemOf s (.str "_x") = .ok (.int 1) ∧
      State.member s "_x" = .error (.hiddenVariable "_x")) ∧
    ∃ s v, evolve .null [("items", .int 1)] [] = .ok s ∧
      Expr.itemOf s (.str "items") = .ok (.int 1) ∧ State.member s "items" = .ok v ∧
      (v == .int 1) = false :=
  ⟨⟨_, rfl, rfl, rfl⟩, _, _, rfl, rfl, rfl, by decide⟩

end StateSpace
