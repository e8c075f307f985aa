import Mathlib.Tactic.Common
import StateSpace.Forest
import StateSpace.Store

/-!
# Look-ups in stores and forests

A store is looked at through its entries, a forest through its nodes. A forest extends another if it
has only new keys in front of it; paths to keys that were known before stay as they were.
-/

namespace StateSpace

namespace Store

variable {K C : Type} (store : Store K C)

@[simp] theorem mem_entries_push (k : Key K) (c : C) (e : Key K × C) :
    e ∈ (store.push k c).entries ↔ e ∈ store.entries ∨ e = (k, c) := by simp [push]

@[simp] theorem toList_push (k : Key K) (c : C) :
    (store.push k c).toList = store.toList ++ [c] := by simp [push, toList]

theorem size_eq_length_toList : store.size = store.toList.length := by simp [size, toList]

theorem mem_toList {c : C} : c ∈ store.toList ↔ ∃ k, (k, c) ∈ store.entries := by
  simp [toList]

variable [DecidableEq K]

@[simp] theorem contains_push (k j : Key K) (c : C) :
    (store.push k c).contains j = (store.contains j || k.same j) := by simp [push, contains]

theorem insert_of_new {k : Key K} (c : C) (hk : store.contains k = false) :
    store.insert k c = store.push k c := by simp [insert, hk]

theorem contains_iff {k : Key K} :
    store.contains k = true ↔ ∃ a c, k = some a ∧ (some a, c) ∈ store.entries := by
  simp only [contains, List.any_eq_true]
  constructor
  · rintro ⟨⟨j, c⟩, hmem, hsame⟩
    obtain ⟨a, rfl, rfl⟩ := Key.same_iff.mp hsame
    exact ⟨a, c, rfl, hmem⟩
  · rintro ⟨a, c, rfl, hmem⟩
    exact ⟨(some a, c), hmem, by simp⟩

theorem contains_of_mem {a : K} {c : C} (h : (some a, c) ∈ store.entries) :
    store.contains (some a) = true := store.contains_iff.mpr ⟨a, c, rfl, h⟩

theorem contains_insert_self (a : K) (c : C) :
    (store.insert (some a) c).contains (some a) = true := by
  cases h : store.contains (some a) with
  | true => rw [insert, if_pos h, h]
  | false => simp [store.insert_of_new c h]

/-- A key that is not in the store is none of those that are. -/
theorem same_eq_false_of_mem {k : Key K} {a : K} {c : C} (hk : store.contains k = false)
    (h : (some a, c) ∈ store.entries) : k.same (some a) = false := by
  by_contra hs
  obtain ⟨b, rfl, hab⟩ := Key.same_iff.mp (Bool.of_not_eq_false hs)
  rw [← hab, store.contains_of_mem h] at hk
  cases hk

end Store

namespace Forest

variable {K C A : Type} [DecidableEq K]

@[simp] theorem contains_cons (n : Node K C A) (nodes : List (Node K C A)) (k : Key K) :
    (Forest.mk (n :: nodes)).contains k = (n.key.same k || (Forest.mk nodes).contains k) := by
  simp [contains]

theorem addRoot_of_new (f : Forest K C A) {k : Key K} (c : C) (hk : f.contains k = false) :
    f.addRoot k c = ⟨⟨k, .root c⟩ :: f.nodes⟩ := by simp [addRoot, hk]

theorem contains_addRoot_self (f : Forest K C A) (a : K) (c : C) :
    (f.addRoot (some a) c).contains (some a) = true := by
  cases h : f.contains (some a) with
  | true => rw [addRoot, if_pos h, h]
  | false => simp [f.addRoot_of_new c h]

/-- A new child is put in front of all others, and its parent's key can be compared. -/
theorem record?_of_new (f f' : Forest K C A) {k parentKey : Key K} {parent : C} {action : Option A}
    (hk : f.contains k = false) (h : f.record? k parent parentKey action = some f') :
    f.contains parentKey = true ∧ f' = ⟨⟨k, .child parent parentKey action⟩ :: f.nodes⟩ := by
  simp only [record?, hk, Bool.false_eq_true, if_false] at h
  split_ifs at h with hp
  exact ⟨hp, (Option.some.inj h).symm⟩

theorem path_cons_other {n : Node K C A} {k : Key K} (c : C) (older : List (Node K C A))
    (h : n.key.same k = false) : path k c (n :: older) = path k c older := by
  simp [path, h]

/-- Whether a forest has grown from another one by new keys only. -/
def Extends (f g : Forest K C A) : Prop :=
  ∃ newer, g.nodes = newer ++ f.nodes ∧ ∀ n ∈ newer, f.contains n.key = false

theorem Extends.refl (f : Forest K C A) : f.Extends f := ⟨[], rfl, by simp⟩

theorem Extends.contains {f g : Forest K C A} {k : Key K} (h : f.Extends g)
    (hk : f.contains k = true) : g.contains k = true := by
  obtain ⟨newer, hg, -⟩ := h
  simp only [Forest.contains, hg, List.any_append, Bool.or_eq_true]
  exact Or.inr hk

theorem Extends.trans {f g h : Forest K C A} (hfg : f.Extends g) (hgh : g.Extends h) :
    f.Extends h := by
  obtain ⟨newer, hg, hnew⟩ := id hfg
  obtain ⟨newest, hh, hnewest⟩ := hgh
  refine ⟨newest ++ newer, by rw [hh, hg, List.append_assoc], ?_⟩
  intro n hn
  rcases List.mem_append.mp hn with hn | hn
  · by_contra hc
    have hgn := hfg.contains (Bool.of_not_eq_false hc)
    rw [hnewest n hn] at hgn
    cases hgn
  · exact hnew n hn

/-- A new node in front leaves the path to every other key alone. -/
theorem path_append_of_new (newer older : List (Node K C A)) {k : Key K} (c : C)
    (h : ∀ n ∈ newer, n.key.same k = false) : path k c (newer ++ older) = path k c older := by
  induction newer with
  | nil => rfl
  | cons n newer ih =>
      rw [List.cons_append, path_cons_other c _ (h n (by simp))]
      exact ih (fun m hm => h m (by simp [hm]))

/-- What a forest has in front of an older one has none of the keys known there. -/
theorem Extends.others {f g : Forest K C A} {k : Key K} (h : f.Extends g)
    (hk : f.contains k = true) :
    ∃ newer, g.nodes = newer ++ f.nodes ∧ ∀ n ∈ newer, n.key.same k = false := by
  obtain ⟨newer, hg, hnew⟩ := h
  refine ⟨newer, hg, ?_⟩
  intro n hn
  by_contra hs
  obtain ⟨a, hna, rfl⟩ := Key.same_iff.mp (Bool.of_not_eq_false hs)
  have hnk := hnew n hn
  rw [hna, hk] at hnk
  cases hnk

theorem Extends.steps?_eq {f g : Forest K C A} {k : Key K} (h : f.Extends g) (c : C)
    (hk : f.contains k = true) : g.steps? k c = f.steps? k c := by
  obtain ⟨newer, hg, hother⟩ := h.others hk
  simp only [steps?, hk, h.contains hk, if_true, hg]
  rw [path_append_of_new newer f.nodes c hother]

theorem Extends.origin?_eq {f g : Forest K C A} {k : Key K} (h : f.Extends g)
    (hk : f.contains k = true) : g.origin? k = f.origin? k := by
  obtain ⟨newer, hg, hother⟩ := h.others hk
  have hnone : newer.find? (fun n => n.key.same k) = none := by simpa using hother
  simp only [origin?, hg, List.find?_append, hnone, Option.none_or]

end Forest

end StateSpace
