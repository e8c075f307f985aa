import Mathlib.Data.List.Perm.Subperm
import Mathlib.Data.List.ReduceOption
import StateSpace.Proofs.FirstInstances

/-!
# Collections are compared by their keys

Equality of collections asks for equal sizes and looks for each element of the left one in the right
one. Because no key stands in a collection twice, this decides whether both have the same keys, so
that it does not matter which of the two is asked. Inclusion and disjointness are decided by keys as
well. A key that is made anew whenever it is asked for is a key of one collection only.
-/

namespace StateSpace

namespace Store

variable {K C : Type} {s t u : Store K C}

theorem size_eq_length_keys : s.size = s.keys.length := by simp [size, keys]

theorem reduceOption_length_le_size : s.keys.reduceOption.length ≤ s.size := by
  rw [size_eq_length_keys]
  exact List.reduceOption_length_le s.keys

variable [DecidableEq K]

def Within (s t : Store K C) : Prop := ∀ k ∈ s.keys, ∃ l ∈ t.keys, k.same l = true

instance (s t : Store K C) : Decidable (s.Within t) :=
  inferInstanceAs (Decidable (∀ k ∈ s.keys, ∃ l ∈ t.keys, k.same l = true))

def SameKeys (s t : Store K C) : Prop := s.Within t ∧ t.Within s

instance (s t : Store K C) : Decidable (s.SameKeys t) :=
  inferInstanceAs (Decidable (s.Within t ∧ t.Within s))

def Apart (s t : Store K C) : Prop := ∀ k ∈ s.keys, ∀ l ∈ t.keys, k.same l = false

instance (s t : Store K C) : Decidable (s.Apart t) :=
  inferInstanceAs (Decidable (∀ k ∈ s.keys, ∀ l ∈ t.keys, k.same l = false))

theorem SameKeys.symm (h : s.SameKeys t) : t.SameKeys s := ⟨h.2, h.1⟩

theorem Within.trans (hst : s.Within t) (htu : t.Within u) : s.Within u := by
  intro k hk
  obtain ⟨l, hl, hkl⟩ := hst k hk
  obtain ⟨a, rfl, rfl⟩ := Key.same_iff.mp hkl
  exact htu _ hl

theorem SameKeys.trans (hst : s.SameKeys t) (htu : t.SameKeys u) : s.SameKeys u :=
  ⟨hst.1.trans htu.1, htu.2.trans hst.2⟩

theorem contains_eq_any_keys (k : Key K) : t.contains k = t.keys.any fun l => k.same l := by
  rw [contains, keys, List.any_map]
  congr 1
  funext e
  rw [Bool.eq_iff_iff, Key.same_iff, Function.comp_apply, Key.same_iff]
  exact exists_congr fun a => and_comm

theorem all_contains_eq : (s.keys.all fun k => t.contains k) = decide (s.Within t) := by
  rw [Bool.eq_iff_iff, decide_eq_true_iff, List.all_eq_true]
  simp only [contains_eq_any_keys, List.any_eq_true]
  rfl

theorem all_missing_eq : (t.keys.all fun k => !s.contains k) = decide (s.Apart t) := by
  rw [Bool.eq_iff_iff, decide_eq_true_iff, List.all_eq_true]
  simp only [contains, Bool.not_eq_true', List.any_eq_false, Bool.not_eq_true]
  constructor
  · intro h k hk l hl
    obtain ⟨e, he, rfl⟩ := List.mem_map.mp hk
    exact h l hl e he
  · intro h l hl e he
    exact h e.1 (List.mem_map_of_mem he) l hl

/-- Keys that can be compared are within others if they are a part of them. -/
theorem within_iff : s.Within t ↔
    s.keys.reduceOption.length = s.size ∧ s.keys.reduceOption ⊆ t.keys.reduceOption := by
  rw [size_eq_length_keys, List.reduceOption_length_eq_iff]
  constructor
  · intro h
    refine ⟨?_, ?_⟩
    · intro k hk
      obtain ⟨l, -, hkl⟩ := h k hk
      obtain ⟨a, rfl, -⟩ := Key.same_iff.mp hkl
      rfl
    · intro a ha
      obtain ⟨l, hl, hal⟩ := h (some a) (List.reduceOption_mem_iff.mp ha)
      obtain ⟨b, hb, rfl⟩ := Key.same_iff.mp hal
      rw [List.reduceOption_mem_iff, hb]
      exact hl
  · rintro ⟨hsome, hsub⟩ k hk
    obtain ⟨a, rfl⟩ := Option.isSome_iff_exists.mp (hsome k hk)
    have ha := hsub (List.reduceOption_mem_iff.mpr hk)
    exact ⟨some a, List.reduceOption_mem_iff.mp ha, by simp⟩

theorem size_le_of_within (hs : s.keys.reduceOption.Nodup) (h : s.Within t) : s.size ≤ t.size := by
  obtain ⟨hsize, hsub⟩ := within_iff.mp h
  calc s.size = s.keys.reduceOption.length := hsize.symm
    _ ≤ t.keys.reduceOption.length := (hs.subperm hsub).length_le
    _ ≤ t.size := reduceOption_length_le_size

/-- Of two stores of one size, the keys of one are within the other only if they are all of them. -/
theorem within_of_size_eq (hs : s.keys.reduceOption.Nodup) (hsize : t.size = s.size)
    (h : s.Within t) : t.Within s := by
  obtain ⟨hall, hsub⟩ := within_iff.mp h
  -- There is no room for another key in the second store, nor for one that cannot be compared.
  have hle : t.keys.reduceOption.length ≤ s.keys.reduceOption.length := by
    rw [hall, ← hsize]
    exact reduceOption_length_le_size
  have hperm := (hs.subperm hsub).perm_of_length_le hle
  refine within_iff.mpr ⟨?_, hperm.symm.subset⟩
  rw [← hperm.length_eq, hall, hsize]

theorem sameKeys_iff (hs : s.keys.reduceOption.Nodup) (ht : t.keys.reduceOption.Nodup) :
    s.SameKeys t ↔ t.size = s.size ∧ s.Within t := by
  constructor
  · intro h
    exact ⟨(size_le_of_within ht h.2).antisymm (size_le_of_within hs h.1), h.1⟩
  · rintro ⟨hsize, h⟩
    exact ⟨h, within_of_size_eq hs hsize h⟩

end Store

namespace Collection

variable {c d : Collection} {key : Option KeyFunction}

/-- What comparisons rely on: each configuration stands under the key that it gets when it is looked
for, and no key stands there twice. -/
structure Keyed (c : Collection) (key : Option KeyFunction) : Prop where
  key_eq : c.key = key
  own : ∀ e ∈ c.store.entries, identify key e.2 = .ok e.1
  distinct : c.store.keys.reduceOption.Nodup

theorem replay_keyed (key : Option KeyFunction) (history : List Value) :
    ((empty key).replay history).Keyed key := by
  have h := replay_holds key history
  refine ⟨h.key_eq, ?_, ?_⟩
  · intro e he
    rw [h.entries_eq] at he
    exact identify_of_mem_accepted ((firsts_sublist _).subset he)
  · rw [Store.keys, h.entries_eq, List.reduceOption, List.filterMap_map]
    exact nodup_keys_firsts (accepted key history)

theorem allIn_eq {member : Value → Except Fault Bool} {test : Key Canon → Bool}
    {entries : List (Key Canon × Value)} (h : ∀ e ∈ entries, member e.2 = .ok (test e.1)) :
    allIn member (entries.map (·.2)) = .ok ((entries.map (·.1)).all test) := by
  induction entries with
  | nil => rfl
  | cons e rest ih =>
      have hrest := ih fun f hf => h f (List.mem_cons_of_mem e hf)
      rw [List.map_cons, allIn, h e List.mem_cons_self, hrest]
      cases he : test e.1 <;> simp [he, bind, Except.bind, pure, Except.pure]

theorem noneIn_eq {test : Key Canon → Bool} {entries : List (Key Canon × Value)}
    (h : ∀ e ∈ entries, c.contains e.2 = .ok (test e.1)) :
    c.noneIn (entries.map (·.2)) = .ok ((entries.map (·.1)).all fun k => !test k) := by
  induction entries with
  | nil => rfl
  | cons e rest ih =>
      have hrest := ih fun f hf => h f (List.mem_cons_of_mem e hf)
      rw [List.map_cons, noneIn, h e List.mem_cons_self, hrest]
      cases he : test e.1 <;> simp [he, bind, Except.bind, pure, Except.pure]

/-- An element of one collection is looked for in another by the key under which it stands. -/
theorem Keyed.contains_eq (hc : c.Keyed key) (hd : d.Keyed key) {e : Key Canon × Value}
    (he : e ∈ c.store.entries) : d.contains e.2 = .ok (d.store.contains e.1) :=
  contains_of_ok (hd.key_eq ▸ hc.own e he)

theorem Keyed.subset_eq (hc : c.Keyed key) (hd : d.Keyed key) :
    c.subset (.collection d) = .ok (decide (c.store.Within d.store)) := by
  rw [← Store.all_contains_eq]
  exact allIn_eq fun e he => hc.contains_eq hd he

theorem Keyed.equal_eq (hc : c.Keyed key) (hd : d.Keyed key) :
    c.equal (.collection d) = .ok (decide (c.store.SameKeys d.store)) := by
  have hsize : d.store.toList.length = d.store.size := d.store.size_eq_length_toList.symm
  simp only [equal, Operand.setElements?, hc.subset_eq hd, hsize,
    Store.sameKeys_iff hc.distinct hd.distinct, Bool.decide_and]
  by_cases h : d.store.size = c.store.size <;> simp [h]

theorem Keyed.le_eq (hc : c.Keyed key) (hd : d.Keyed key) :
    c.le (.collection d) = .ok (decide (c.store.Within d.store)) := by
  have hsize : d.store.toList.length = d.store.size := d.store.size_eq_length_toList.symm
  change (if d.store.toList.length < c.store.size then .ok false else c.subset (.collection d)) = _
  rw [hc.subset_eq hd, hsize]
  by_cases h : d.store.size < c.store.size
  · have hnot : ¬ c.store.Within d.store := fun hw =>
      Nat.not_le_of_lt h (Store.size_le_of_within hc.distinct hw)
    rw [if_pos h, decide_eq_false hnot]
  · rw [if_neg h]

theorem Keyed.isDisjoint_eq (hc : c.Keyed key) (hd : d.Keyed key) :
    c.isDisjoint (.collection d) = .ok (decide (c.store.Apart d.store)) := by
  rw [← Store.all_missing_eq]
  exact noneIn_eq fun e he => hd.contains_eq hc he

end Collection

open Collection

/-- Collections that were filled under one key function are compared by their keys, whatever was
given to them in which order: they are equal if they have the same keys, one is included in the
other if its keys are, and they are disjoint if they share no key. Equality is symmetric and
transitive. -/
theorem comparison_by_keys (key : Option KeyFunction) (history₁ history₂ : List Value) :
    let c₁ := (Collection.empty key).replay history₁
    let c₂ := (Collection.empty key).replay history₂
    c₁.equal (.collection c₂) = .ok (decide (c₁.store.SameKeys c₂.store)) ∧
    c₁.le (.collection c₂) = .ok (decide (c₁.store.Within c₂.store)) ∧
    c₁.isDisjoint (.collection c₂) = .ok (decide (c₁.store.Apart c₂.store)) ∧
    c₂.equal (.collection c₁) = c₁.equal (.collection c₂) ∧
    ∀ history₃, let c₃ := (Collection.empty key).replay history₃
      c₁.equal (.collection c₂) = .ok true → c₂.equal (.collection c₃) = .ok true →
        c₁.equal (.collection c₃) = .ok true := by
  intro c₁ c₂
  have h₁ : c₁.Keyed key := replay_keyed key history₁
  have h₂ : c₂.Keyed key := replay_keyed key history₂
  refine ⟨h₁.equal_eq h₂, h₁.le_eq h₂, h₁.isDisjoint_eq h₂, ?_, ?_⟩
  · have hiff : c₂.store.SameKeys c₁.store ↔ c₁.store.SameKeys c₂.store :=
      ⟨Store.SameKeys.symm, Store.SameKeys.symm⟩
    rw [h₂.equal_eq h₁, h₁.equal_eq h₂, decide_eq_decide.mpr hiff]
  · intro history₃ c₃ h₁₂ h₂₃
    have h₃ : c₃.Keyed key := replay_keyed key history₃
    rw [h₁.equal_eq h₂, Except.ok.injEq, decide_eq_true_iff] at h₁₂
    rw [h₂.equal_eq h₃, Except.ok.injEq, decide_eq_true_iff] at h₂₃
    rw [h₁.equal_eq h₃, decide_eq_true (h₁₂.trans h₂₃)]

def firstItem : KeyFunction
  | .tuple (v :: _) => .ok v
  | v => .ok v

/-- Three collections with the keys one and two, which stand for different pairs, and one that
shares the second key only. -/
theorem comparison_by_keys_pairs :
    let c₁ := (Collection.empty (some firstItem)).replay
      [.tuple [.int 1, .str "a"], .tuple [.int 2, .str "b"], .tuple [.int 1, .str "c"]]
    let c₂ := (Collection.empty (some firstItem)).replay [.int 2, .bool true]
    let c₃ := (Collection.empty (some firstItem)).replay [.list [], .int 1, .tuple [.int 2]]
    let c₄ := (Collection.empty (some firstItem)).replay [.int 2, .int 3, .int 4]
    c₁.equal (.collection c₂) = .ok true ∧ c₂.equal (.collection c₁) = .ok true ∧
    c₁.equal (.collection c₃) = .ok true ∧
    c₁.le (.collection c₄) = .ok false ∧ c₁.isDisjoint (.collection c₄) = .ok false := by
  intro c₁ c₂ c₃ c₄
  obtain ⟨hequal, -, -, hsymm, htrans⟩ := comparison_by_keys (some firstItem)
    [.tuple [.int 1, .str "a"], .tuple [.int 2, .str "b"], .tuple [.int 1, .str "c"]]
    [.int 2, .bool true]
  obtain ⟨-, hle, hdisjoint, -⟩ := comparison_by_keys (some firstItem)
    [.tuple [.int 1, .str "a"], .tuple [.int 2, .str "b"], .tuple [.int 1, .str "c"]]
    [.int 2, .int 3, .int 4]
  have h₁₂ : c₁.equal (.collection c₂) = .ok true :=
    hequal.trans (congrArg Except.ok (by decide))
  refine ⟨h₁₂, hsymm.trans h₁₂, ?_, ?_, ?_⟩
  · exact htrans [.list [], .int 1, .tuple [.int 2]] h₁₂ rfl
  · exact hle.trans (congrArg Except.ok (by decide))
  · exact hdisjoint.trans (congrArg Except.ok (by decide))

end StateSpace
