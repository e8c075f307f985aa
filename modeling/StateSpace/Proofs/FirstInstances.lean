import Mathlib.Data.Finset.Card
import StateSpace.Collection
import StateSpace.Proofs.Faults
import StateSpace.Proofs.Store

/-!
# Collections hold first instances

A collection that is filled by any series of calls holds the first configuration given for each key,
in the order of the calls. Calls with a configuration that gets no key are refused and leave no
trace. A key that is made anew whenever it is asked for counts as one of its own: it matches no key,
not even the one that the same configuration gets next time.
-/

namespace StateSpace

section Firsts

variable {K C : Type} [DecidableEq K]

def firsts : List (Key K × C) → List (Key K × C)
  | [] => []
  | e :: rest => e :: (firsts rest).filter fun f => !e.1.same f.1

theorem firsts_sublist (calls : List (Key K × C)) : (firsts calls).Sublist calls := by
  induction calls with
  | nil => exact .slnil
  | cons e rest ih => exact (List.filter_sublist.trans ih).cons_cons e

theorem firsts_append_singleton (calls : List (Key K × C)) (e : Key K × C) :
    firsts (calls ++ [e]) =
      if calls.any fun f => f.1.same e.1 then firsts calls else firsts calls ++ [e] := by
  induction calls with
  | nil => rfl
  | cons d rest ih =>
      rw [List.cons_append, firsts, ih, firsts, List.any_cons]
      cases hrest : rest.any fun f => f.1.same e.1 with
      | true => simp
      | false => cases hd : d.1.same e.1 <;> simp [hd]

/-- The first entry for a key is that of all entries. -/
theorem find?_firsts (calls : List (Key K × C)) (k : Key K) :
    (firsts calls).find? (fun e => e.1.same k) = calls.find? fun e => e.1.same k := by
  induction calls with
  | nil => rfl
  | cons d rest ih =>
      rw [firsts, List.find?_cons, List.find?_cons]
      cases hd : d.1.same k with
      | true => rfl
      | false =>
          -- What has the key is not among the entries that the first one hides.
          have hshown (f : Key K × C) : (!d.1.same f.1 && f.1.same k) = f.1.same k := by
            by_cases hf : f.1.same k = true
            · obtain ⟨a, hfa, rfl⟩ := Key.same_iff.mp hf
              rw [hfa, hd, Bool.not_false, Bool.true_and]
            · rw [Bool.not_eq_true] at hf
              rw [hf, Bool.and_false]
          simp only [List.find?_filter, Bool.decide_and, Bool.decide_eq_true, hshown, ih]

theorem mem_keys {calls : List (Key K × C)} {a : K} :
    a ∈ calls.filterMap (·.1) ↔ (calls.find? fun e => e.1.same (some a)).isSome = true := by
  rw [List.find?_isSome, List.mem_filterMap]
  refine exists_congr fun e => and_congr_right fun _ => ?_
  rw [Key.same_iff]
  simp

theorem nodup_keys_firsts (calls : List (Key K × C)) :
    ((firsts calls).filterMap (·.1)).Nodup := by
  induction calls with
  | nil => exact List.nodup_nil
  | cons d rest ih =>
      rw [firsts]
      have hrest : (((firsts rest).filter fun f => !d.1.same f.1).filterMap (·.1)).Nodup :=
        ih.sublist (List.filter_sublist.filterMap _)
      cases hd : d.1 with
      | none => simpa [hd] using ih
      | some a =>
          rw [List.filterMap_cons_some hd, List.nodup_cons]
          refine ⟨fun ha => ?_, hd ▸ hrest⟩
          obtain ⟨f, hf, hfa⟩ := List.mem_filterMap.mp ha
          have hhidden := (List.mem_filter.mp hf).2
          rw [hfa] at hhidden
          simp at hhidden

theorem countP_none_firsts (calls : List (Key K × C)) :
    (firsts calls).countP (·.1.isNone) = calls.countP (·.1.isNone) := by
  induction calls with
  | nil => rfl
  | cons d rest ih =>
      have hshown (f : Key K × C) : (f.1.isNone && !d.1.same f.1) = f.1.isNone := by
        cases hf : f.1 <;> simp
      rw [firsts, List.countP_cons, List.countP_cons, List.countP_filter, ← ih]
      simp only [hshown]

omit [DecidableEq K] in
theorem length_eq_keys_add (calls : List (Key K × C)) :
    calls.length = (calls.filterMap (·.1)).length + calls.countP (·.1.isNone) := by
  rw [List.length_filterMap_eq_countP, List.length_eq_countP_add_countP fun e => e.1.isSome]
  congr 1
  apply List.countP_congr
  intro e _
  simp

/-- Keys that can be compared count once, and every other one counts. -/
theorem length_firsts (calls : List (Key K × C)) :
    (firsts calls).length =
      (calls.filterMap (·.1)).toFinset.card + calls.countP (·.1.isNone) := by
  have hkeys : ((firsts calls).filterMap (·.1)).toFinset = (calls.filterMap (·.1)).toFinset := by
    ext a
    rw [List.mem_toFinset, List.mem_toFinset, mem_keys, mem_keys, find?_firsts]
  rw [length_eq_keys_add, countP_none_firsts, ← hkeys,
    List.toFinset_card_of_nodup (nodup_keys_firsts calls)]

end Firsts

def accepted (key : Option KeyFunction) (history : List Value) : List (Key Canon × Value) :=
  history.filterMap fun v => (identify key v).toOption.map fun k => (k, v)

theorem accepted_cons_ok {key : Option KeyFunction} {v : Value} {k : Key Canon}
    (h : identify key v = .ok k) (history : List Value) :
    accepted key (v :: history) = (k, v) :: accepted key history := by
  simp [accepted, h, Except.toOption]

theorem accepted_cons_error {key : Option KeyFunction} {v : Value} {e : Fault}
    (h : identify key v = .error e) (history : List Value) :
    accepted key (v :: history) = accepted key history := by
  simp [accepted, h, Except.toOption]

theorem identify_of_mem_accepted {key : Option KeyFunction} {history : List Value}
    {e : Key Canon × Value} (h : e ∈ accepted key history) : identify key e.2 = .ok e.1 := by
  obtain ⟨v, -, hv⟩ := List.mem_filterMap.mp h
  obtain ⟨k, hk, rfl⟩ := Option.map_eq_some_iff.mp hv
  cases hid : identify key v with
  | error f => simp [hid, Except.toOption] at hk
  | ok j => simpa [hid, Except.toOption] using hk

namespace Collection

def after (c : Collection) (v : Value) : Collection :=
  match c.add v with
  | .ok (grown, _) => grown
  | .error _ => c

def replay (c : Collection) (history : List Value) : Collection := history.foldl after c

variable {c : Collection} {v : Value} {k : Key Canon} {e : Fault}

theorem add_of_error (h : identify c.key v = .error e) : c.add v = .error e := by
  simp [add, h, bind, Except.bind]

theorem add_of_ok (h : identify c.key v = .ok k) :
    c.add v = .ok (⟨c.key, c.store.insert k v⟩, !c.store.contains k) := by
  simp [add, h, bind, Except.bind, pure, Except.pure]

theorem contains_of_ok (h : identify c.key v = .ok k) :
    c.contains v = .ok (c.store.contains k) := by
  simp [contains, h, bind, Except.bind, pure, Except.pure]

theorem get?_of_ok (h : identify c.key v = .ok k) : c.get? v = .ok (c.store.get? k) := by
  simp [get?, h, bind, Except.bind, pure, Except.pure]

theorem after_of_error (h : identify c.key v = .error e) : c.after v = c := by
  rw [after, add_of_error h]

theorem after_of_ok (h : identify c.key v = .ok k) :
    c.after v = ⟨c.key, c.store.insert k v⟩ := by
  rw [after, add_of_ok h]

structure Holds (c : Collection) (key : Option KeyFunction) (calls : List (Key Canon × Value)) :
    Prop where
  key_eq : c.key = key
  entries_eq : c.store.entries = firsts calls

theorem Holds.contains_eq {key : Option KeyFunction} {calls : List (Key Canon × Value)}
    (h : c.Holds key calls) (k : Key Canon) :
    c.store.contains k = calls.any fun e => e.1.same k := by
  rw [Store.contains, h.entries_eq, ← List.isSome_find?, ← List.isSome_find?, find?_firsts]

theorem Holds.push {key : Option KeyFunction} {calls : List (Key Canon × Value)}
    (h : c.Holds key calls) (v : Value) (k : Key Canon) :
    Holds ⟨c.key, c.store.insert k v⟩ key (calls ++ [(k, v)]) := by
  refine ⟨h.key_eq, ?_⟩
  rw [firsts_append_singleton, ← h.contains_eq k, ← h.entries_eq, Store.insert]
  split <;> rfl

theorem Holds.replay {key : Option KeyFunction} {calls : List (Key Canon × Value)}
    (h : c.Holds key calls) (history : List Value) :
    (c.replay history).Holds key (calls ++ accepted key history) := by
  induction history generalizing c calls with
  | nil => exact (List.append_nil calls).symm ▸ h
  | cons v history ih =>
      change ((c.after v).replay history).Holds key _
      cases hk : identify key v with
      | error e =>
          rw [after_of_error (h.key_eq ▸ hk), accepted_cons_error hk]
          exact ih h
      | ok k =>
          rw [after_of_ok (h.key_eq ▸ hk), accepted_cons_ok hk, List.append_cons]
          exact ih (h.push v k)

theorem replay_holds (key : Option KeyFunction) (history : List Value) :
    ((empty key).replay history).Holds key (accepted key history) := by
  have h : (empty key).Holds key [] := ⟨rfl, rfl⟩
  exact h.replay history

end Collection

/-- A collection is the ordered set of first instances. After any series of calls, of which those
without a key are refused, it holds the first configuration given for each key. -/
theorem collection_holds_first_instances (key : Option KeyFunction) (history : List Value) :
    let c := (Collection.empty key).replay history
    let calls := accepted key history
    c.store.toList = (firsts calls).map (·.2) ∧
    c.store.size = (calls.filterMap (·.1)).toFinset.card + calls.countP (·.1.isNone) ∧
    ∀ x,
      (∀ e, (c.add x = .error e ↔ Unkeyed key x e) ∧ (c.add x = .error e → c.after x = c)) ∧
      ∀ k, identify key x = .ok k →
        c.contains x = .ok (calls.any fun e => e.1.same k) ∧
        c.get? x = .ok ((calls.find? fun e => e.1.same k).map (·.2)) ∧
        ∃ fresh, c.add x = .ok (c.after x, fresh) ∧ c.contains x = .ok !fresh := by
  intro c calls
  have h : c.Holds key calls := Collection.replay_holds key history
  refine ⟨?_, ?_, ?_⟩
  · rw [Store.toList, h.entries_eq]
  · rw [Store.size, h.entries_eq, length_firsts]
  · intro x
    refine ⟨fun e => ⟨?_, ?_⟩, ?_⟩
    · rw [← identify_eq_error, ← h.key_eq]
      cases hk : identify c.key x with
      | error e' => rw [Collection.add_of_error hk]; simp
      | ok k => rw [Collection.add_of_ok hk]; simp
    · intro he
      rw [Collection.after, he]
    · intro k hk
      rw [← h.key_eq] at hk
      refine ⟨?_, ?_, !c.store.contains k, ?_, ?_⟩
      · rw [Collection.contains_of_ok hk, h.contains_eq]
      · rw [Collection.get?_of_ok hk, Store.get?, h.entries_eq, find?_firsts]
      · rw [Collection.after_of_ok hk, Collection.add_of_ok hk]
      · rw [Collection.contains_of_ok hk, Bool.not_not]

/-- A number, a list without identity, the same number again as a truth value, and another one. -/
theorem collection_holds_first_instances_four :
    let c := (Collection.empty none).replay [.int 1, .list [], .bool true, .int 2]
    c.store.toList = [.int 1, .int 2] ∧ c.store.size = 2 ∧
    c.contains (.bool true) = .ok true ∧ c.get? (.bool true) = .ok (some (.int 1)) ∧
    c.add (.int 3) = .ok (c.after (.int 3), true) ∧ c.after (.list []) = c := by
  intro c
  obtain ⟨hlist, hsize, hask⟩ :=
    collection_holds_first_instances none [.int 1, .list [], .bool true, .int 2]
  obtain ⟨-, hknown⟩ := hask (.bool true)
  obtain ⟨hcontains, hget, -⟩ := hknown _ rfl
  obtain ⟨-, hnew⟩ := hask (.int 3)
  obtain ⟨hmissing, -, fresh, hadd, hfresh⟩ := hnew _ rfl
  refine ⟨hlist, hsize.trans (by decide), hcontains, hget, ?_, ?_⟩
  · have hfalse := Except.ok.inj (hmissing.symm.trans hfresh)
    cases fresh with
    | true => exact hadd
    | false => exact absurd hfalse (by decide)
  · exact ((hask (.list [])).1 _).2 rfl

end StateSpace
