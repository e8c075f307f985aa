import Mathlib.Algebra.Order.Field.Rat
import Mathlib.Data.Int.Cast.Lemmas
import Mathlib.Data.List.Basic
import Mathlib.Order.Compare
import Mathlib.Tactic.Common
import StateSpace.Value.Canon

/-!
# The canonical order

Canonical forms are totally ordered, and only a form itself compares as equal to it. Forms can
therefore be sorted in one way only: a sorted list is known by its elements, and the elements of a
set are walked in the same order however they were put together.
-/

namespace StateSpace

theorem denominator_pos (places : Nat) : (0 : Int) < denominator places :=
  Int.natCast_pos.mpr (Nat.pow_pos (by decide))

structure Chained (ab bc ac : Ordering) : Prop where
  left : ab = .eq → ac = bc
  right : bc = .eq → ac = ab
  trans : ab = .lt → bc = .lt → ac = .lt

namespace Chained

variable {ab bc ac ab' bc' ac' : Ordering}

theorem eq : Chained .eq .eq .eq := ⟨id, id, fun h => by cases h⟩

theorem isLE (h : Chained ab bc ac) (hab : ab.isLE = true) (hbc : bc.isLE = true) :
    ac.isLE = true := by
  cases hb : bc with
  | gt =>
      rw [hb] at hbc
      cases hbc
  | eq => rw [h.right hb, hab]
  | lt =>
      cases ha : ab with
      | gt =>
          rw [ha] at hab
          cases hab
      | eq => rw [h.left ha, hbc]
      | lt => rw [h.trans ha hb, Ordering.isLE_lt]

theorem of_cmp {α : Type} (cmp : α → α → Ordering) [Std.TransCmp cmp] (a b c : α) :
    Chained (cmp a b) (cmp b c) (cmp a c) :=
  ⟨fun h => Std.TransCmp.congr_left h, fun h => (Std.TransCmp.congr_right h).symm,
    fun hab hbc => Std.TransCmp.lt_trans hab hbc⟩

/-- A second comparison has to fit only where the first one finds no difference. -/
theorem append (h : Chained ab bc ac) (h' : ab = .eq → bc = .eq → Chained ab' bc' ac') :
    Chained (ab.then ab') (bc.then bc') (ac.then ac') := by
  have hthen : ∀ {x y : Ordering}, x ≠ .eq → x.then y = x := by
    intro x y hx
    cases x <;> first | rfl | exact absurd rfl hx
  by_cases ha : ab = .eq
  · by_cases hb : bc = .eq
    · rw [h.left ha, ha, hb]
      exact h' ha hb
    · rw [h.left ha, ha, hthen hb, hthen hb]
      exact ⟨fun _ => rfl, fun heq => absurd heq hb, fun _ hlt => hlt⟩
  · by_cases hb : bc = .eq
    · rw [h.right hb, hb, hthen ha, hthen ha]
      exact ⟨fun heq => absurd heq ha, fun _ => rfl, fun hlt _ => hlt⟩
    · rw [hthen ha, hthen hb]
      refine ⟨fun heq => absurd heq ha, fun heq => absurd heq hb, ?_⟩
      intro hlt hlt'
      rw [h.trans hlt hlt']
      rfl

/-- Things of different ranks are compared by rank alone. -/
theorem ranked {r s t : Nat} (h : r = s → s = t → Chained ab bc ac) :
    Chained ((Ord.compare r s).then ab) ((Ord.compare s t).then bc)
      ((Ord.compare r t).then ac) :=
  (of_cmp Ord.compare r s t).append fun hrs hst =>
    h (Nat.compare_eq_eq.mp hrs) (Nat.compare_eq_eq.mp hst)

end Chained

namespace Quantity

/-- Numbers are compared as rationals, whatever their denominators. -/
theorem compareRatios_eq (a b : Int) (p q : Nat) :
    compareRatios a p b q =
      (Ord.compare (a / denominator p : ℚ) (b / denominator q)).then (Ord.compare p q) := by
  have hp : (0 : ℚ) < denominator p := by exact_mod_cast denominator_pos p
  have hq : (0 : ℚ) < denominator q := by exact_mod_cast denominator_pos q
  have hlt : (a / denominator p : ℚ) < b / denominator q ↔
      a * (denominator q : Int) < b * denominator p := by
    rw [div_lt_div_iff₀ hp hq]
    exact_mod_cast Iff.rfl
  have hgt : (b / denominator q : ℚ) < a / denominator p ↔
      b * (denominator p : Int) < a * denominator q := by
    rw [div_lt_div_iff₀ hq hp]
    exact_mod_cast Iff.rfl
  unfold compareRatios
  rcases lt_trichotomy (a / denominator p : ℚ) (b / denominator q) with h | h | h
  · rw [if_pos (hlt.mp h), compare_lt_iff_lt.mpr h]
    rfl
  · rw [if_neg (fun h' => (hlt.mpr h').ne h), if_neg (fun h' => (hgt.mpr h').ne' h),
      compare_eq_iff_eq.mpr h]
    rfl
  · rw [if_neg (fun h' => (hlt.mpr h').not_gt h), if_pos (hgt.mp h), compare_gt_iff_gt.mpr h]
    rfl

theorem compare_swap (a b : Quantity) : a.compare b = (b.compare a).swap := by
  unfold compare
  rw [Ordering.swap_then, ← Std.OrientedOrd.eq_swap]
  congr 1
  cases a <;> cases b <;> try rfl
  dsimp only
  rw [compareRatios_eq, compareRatios_eq, Ordering.swap_then, ← Std.OrientedOrd.eq_swap,
    ← Std.OrientedOrd.eq_swap]

theorem compare_chained (a b c : Quantity) :
    Chained (a.compare b) (b.compare c) (a.compare c) := by
  unfold compare
  apply Chained.ranked
  intro hab hbc
  cases a <;> cases b <;> cases hab <;> cases c <;> cases hbc <;> try exact .eq
  dsimp only
  rw [compareRatios_eq, compareRatios_eq, compareRatios_eq]
  exact (Chained.of_cmp Ord.compare _ _ _).append fun _ _ => .of_cmp Ord.compare _ _ _

theorem eq_of_compare {a b : Quantity} (h : a.compare b = .eq) : a = b := by
  obtain ⟨hrank, h⟩ := Ordering.then_eq_eq.mp h
  cases a with
  | ratio a p =>
      cases b <;> cases hrank
      obtain ⟨hsize, hplaces⟩ := Ordering.then_eq_eq.mp ((compareRatios_eq ..).symm.trans h)
      obtain rfl := Nat.compare_eq_eq.mp hplaces
      have hne : (denominator p : ℚ) ≠ 0 := by exact_mod_cast (denominator_pos p).ne'
      rw [Int.cast_inj.mp ((div_left_inj' hne).mp (compare_eq_iff_eq.mp hsize))]
  | _ =>
      cases b <;> cases hrank
      rfl

end Quantity

namespace Canon

instance : Std.TransCmp comparePlaces := inferInstanceAs (Std.TransCmp (List.compareLex _))

instance : Std.LawfulEqCmp comparePlaces :=
  inferInstanceAs (Std.LawfulEqCmp (List.compareLex _))

theorem comparePlaces_swap (p q : List Nat) : comparePlaces p q = (comparePlaces q p).swap :=
  Std.OrientedCmp.eq_swap

theorem eq_of_comparePlaces {p q : List Nat} (h : comparePlaces p q = .eq) : p = q :=
  Std.LawfulEqCmp.eq_of_compare h

/-- Texts are compared as lists of code points. -/
theorem compareChars_eq (cs ds : List Char) :
    compareChars cs ds = comparePlaces (cs.map Char.toNat) (ds.map Char.toNat) := by
  unfold comparePlaces
  induction cs generalizing ds with
  | nil => cases ds <;> simp [compareChars, List.compareLex]
  | cons c cs ih =>
      cases ds with
      | nil => simp [compareChars, List.compareLex]
      | cons d ds => simp [compareChars, ih, List.compareLex_cons_cons]

theorem compareChars_swap (cs ds : List Char) :
    compareChars cs ds = (compareChars ds cs).swap := by
  rw [compareChars_eq, compareChars_eq, ← comparePlaces_swap]

theorem compareChars_chained (cs ds es : List Char) :
    Chained (compareChars cs ds) (compareChars ds es) (compareChars cs es) := by
  rw [compareChars_eq, compareChars_eq, compareChars_eq]
  exact .of_cmp comparePlaces _ _ _

theorem eq_of_compareChars {s t : String} (h : compareChars s.toList t.toList = .eq) : s = t := by
  rw [compareChars_eq] at h
  have hinj : Function.Injective Char.toNat := fun _ _ heq => Char.toNat_inj.mp heq
  exact String.toList_injective (List.map_injective_iff.mpr hinj (eq_of_comparePlaces h))

theorem compareMarks_swap (m n : Mark) : compareMarks m n = (compareMarks n m).swap := by
  induction m generalizing n with
  | written => cases n <;> rfl
  | given p | passing p =>
      cases n <;> try rfl
      exact comparePlaces_swap _ _
  | made r m p ih =>
      cases n <;> try rfl
      unfold compareMarks
      rw [Ordering.swap_then, ← Std.OrientedOrd.eq_swap, Ordering.swap_then, Ordering.swap_then,
        ← compareChars_swap, ← ih, ← comparePlaces_swap]

theorem compareMarks_chained (l m n : Mark) :
    Chained (compareMarks l m) (compareMarks m n) (compareMarks l n) := by
  induction l generalizing m n with
  | made r l p ih =>
      unfold compareMarks
      apply Chained.ranked
      intro hlm hmn
      cases m <;> cases hlm; cases n <;> cases hmn
      refine (compareChars_chained _ _ _).append fun _ _ => (ih _ _).append fun _ _ => ?_
      exact .of_cmp comparePlaces _ _ _
  | _ =>
      unfold compareMarks
      apply Chained.ranked
      intro hlm hmn
      cases m <;> cases hlm; cases n <;> cases hmn
      first | exact .eq | exact .of_cmp comparePlaces _ _ _

theorem eq_of_compareMarks {m n : Mark} (h : compareMarks m n = .eq) : m = n := by
  induction m generalizing n with
  | made r m p ih =>
      unfold compareMarks at h
      obtain ⟨hrank, h⟩ := Ordering.then_eq_eq.mp h
      cases n <;> cases hrank
      obtain ⟨hroutine, h⟩ := Ordering.then_eq_eq.mp h
      obtain ⟨hsource, hsite⟩ := Ordering.then_eq_eq.mp h
      rw [eq_of_compareChars hroutine, ih hsource, eq_of_comparePlaces hsite]
  | _ =>
      unfold compareMarks at h
      obtain ⟨hrank, h⟩ := Ordering.then_eq_eq.mp h
      cases n <;> cases hrank
      first | rfl | rw [eq_of_comparePlaces h]

theorem compareShapes_swap (s t : Shape) : compareShapes s t = (compareShapes t s).swap := by
  unfold compareShapes
  rw [Ordering.swap_then, ← Std.OrientedOrd.eq_swap]
  congr 1
  cases s <;> cases t <;> try rfl
  rw [Ordering.swap_then, ← compareChars_swap, ← compareMarks_swap]

theorem compareShapes_chained (s t u : Shape) :
    Chained (compareShapes s t) (compareShapes t u) (compareShapes s u) := by
  unfold compareShapes
  apply Chained.ranked
  intro hst htu
  cases s <;> cases t <;> cases hst <;> cases u <;> cases htu <;> try exact .eq
  exact (compareChars_chained _ _ _).append fun _ _ => compareMarks_chained _ _ _

theorem eq_of_compareShapes {s t : Shape} (h : compareShapes s t = .eq) : s = t := by
  obtain ⟨hrank, h⟩ := Ordering.then_eq_eq.mp h
  cases s <;> cases t <;> cases hrank <;> try rfl
  obtain ⟨hname, hmark⟩ := Ordering.then_eq_eq.mp h
  rw [eq_of_compareChars hname, eq_of_compareMarks hmark]

mutual

/-- Induction over forms, with the hypothesis for every item of a node. -/
theorem form_induction {motive : Canon → Prop} (null : motive .null)
    (num : ∀ q, motive (.num q)) (str : ∀ s, motive (.str s))
    (node : ∀ shape items, (∀ x ∈ items, motive x) → motive (.node shape items))
    (tagged : ∀ tag, motive (.tagged tag)) : ∀ form, motive form
  | .null => null
  | .num q => num q
  | .str s => str s
  | .node shape items => node shape items (forms_induction null num str node tagged items)
  | .tagged tag => tagged tag

theorem forms_induction {motive : Canon → Prop} (null : motive .null)
    (num : ∀ q, motive (.num q)) (str : ∀ s, motive (.str s))
    (node : ∀ shape items, (∀ x ∈ items, motive x) → motive (.node shape items))
    (tagged : ∀ tag, motive (.tagged tag)) : ∀ forms : List Canon, ∀ x ∈ forms, motive x
  | [] => List.forall_mem_nil _
  | form :: rest =>
      List.forall_mem_cons.mpr ⟨form_induction null num str node tagged form,
        forms_induction null num str node tagged rest⟩

end

inductive SameKind : Canon → Canon → Prop where
  | null : SameKind .null .null
  | num (p q : Quantity) : SameKind (.num p) (.num q)
  | str (s t : String) : SameKind (.str s) (.str t)
  | node (s t : Shape) (xs ys : List Canon) : SameKind (.node s xs) (.node t ys)
  | tagged (s t : String) : SameKind (.tagged s) (.tagged t)

theorem sameKind_of_rank {a b : Canon} (h : a.rank = b.rank) : SameKind a b := by
  have hshape : ∀ shape : Shape, 2 < shape.rank ∧ shape.rank ≠ 6 := by
    intro shape
    cases shape <;> simp [Shape.rank]
  cases a <;> cases b <;> try constructor
  all_goals
    simp only [rank] at h
    try have := hshape ‹Shape›
    omega

theorem compareList_swap {xs : List Canon}
    (h : ∀ x ∈ xs, ∀ y, compare x y = (compare y x).swap) (ys : List Canon) :
    compareList xs ys = (compareList ys xs).swap := by
  induction xs generalizing ys with
  | nil => cases ys <;> rfl
  | cons x xs ih =>
      cases ys with
      | nil => rfl
      | cons y ys =>
          rw [compareList, compareList, Ordering.swap_then, ← h x (by simp),
            ih (fun z hz => h z (by simp [hz]))]

theorem compare_swap (a b : Canon) : compare a b = (compare b a).swap := by
  induction a using form_induction generalizing b with
  | node s xs ih =>
      rw [compare.eq_def, compare.eq_def, Ordering.swap_then, ← Std.OrientedOrd.eq_swap]
      congr 1
      cases b <;> try rfl
      dsimp only
      rw [compareList_swap ih, compareShapes_swap, Ordering.swap_then]
  | _ =>
      rw [compare.eq_def, compare.eq_def, Ordering.swap_then, ← Std.OrientedOrd.eq_swap]
      congr 1
      cases b <;> first | rfl | exact Quantity.compare_swap _ _ | exact compareChars_swap _ _

theorem compareList_chained {xs : List Canon}
    (h : ∀ x ∈ xs, ∀ y z, Chained (compare x y) (compare y z) (compare x z))
    (ys zs : List Canon) :
    Chained (compareList xs ys) (compareList ys zs) (compareList xs zs) := by
  induction xs generalizing ys zs with
  | nil => cases ys <;> cases zs <;> exact ⟨by simp [compareList], by simp [compareList],
      by simp [compareList]⟩
  | cons x xs ih =>
      cases ys <;> cases zs
      case cons.cons y ys z zs =>
        exact (h x (by simp) y z).append fun _ _ => ih (fun w hw => h w (by simp [hw])) ys zs
      all_goals exact ⟨by simp [compareList], by simp [compareList], by simp [compareList]⟩

theorem compare_chained (a b c : Canon) :
    Chained (compare a b) (compare b c) (compare a c) := by
  induction a using form_induction generalizing b c with
  | node s xs ih =>
      -- Where ranks differ they decide, and forms of one rank are of one kind.
      rw [compare.eq_def, compare.eq_def, compare.eq_def]
      apply Chained.ranked
      intro hab hbc
      cases sameKind_of_rank hab
      cases sameKind_of_rank hbc
      exact (compareList_chained ih _ _).append fun _ _ => compareShapes_chained _ _ _
  | _ =>
      rw [compare.eq_def, compare.eq_def, compare.eq_def]
      apply Chained.ranked
      intro hab hbc
      cases sameKind_of_rank hab
      cases sameKind_of_rank hbc
      first
        | exact .eq
        | exact Quantity.compare_chained _ _ _
        | exact compareChars_chained _ _ _

theorem eq_of_compareList {xs ys : List Canon}
    (h : ∀ x ∈ xs, ∀ y, compare x y = .eq → x = y) (heq : compareList xs ys = .eq) : xs = ys := by
  induction xs generalizing ys with
  | nil =>
      cases ys with
      | nil => rfl
      | cons y ys => cases heq
  | cons x xs ih =>
      cases ys with
      | nil => cases heq
      | cons y ys =>
          obtain ⟨hx, hxs⟩ := Ordering.then_eq_eq.mp heq
          rw [h x (by simp) y hx, ih (fun z hz => h z (by simp [hz])) hxs]

theorem eq_of_compare {a b : Canon} (h : compare a b = .eq) : a = b := by
  induction a using form_induction generalizing b with
  | node s xs ih =>
      rw [compare.eq_def] at h
      obtain ⟨hrank, h⟩ := Ordering.then_eq_eq.mp h
      cases sameKind_of_rank (Nat.compare_eq_eq.mp hrank)
      obtain ⟨hitems, hshape⟩ := Ordering.then_eq_eq.mp h
      rw [eq_of_compareShapes hshape, eq_of_compareList (fun x hx y => ih x hx) hitems]
  | _ =>
      rw [compare.eq_def] at h
      obtain ⟨hrank, h⟩ := Ordering.then_eq_eq.mp h
      cases sameKind_of_rank (Nat.compare_eq_eq.mp hrank)
      first | rfl | rw [Quantity.eq_of_compare h] | rw [eq_of_compareChars h]

theorem le_iff {a b : Canon} : le a b = true ↔ (compare a b).isLE = true := by
  unfold le
  cases compare a b <;> simp

theorem le_trans {a b c : Canon} (hab : le a b = true) (hbc : le b c = true) : le a c = true :=
  le_iff.mpr ((compare_chained a b c).isLE (le_iff.mp hab) (le_iff.mp hbc))

theorem le_total (a b : Canon) : le a b = true ∨ le b a = true := by
  rw [le_iff, le_iff, compare_swap b a]
  cases compare a b <;> simp

theorem le_antisymm {a b : Canon} (hab : le a b = true) (hba : le b a = true) : a = b := by
  apply eq_of_compare
  rw [le_iff, compare_swap] at hba
  rw [le_iff] at hab
  cases h : compare a b with
  | eq => rfl
  | lt => simp [h] at hba
  | gt => simp [h] at hab

section Sorting

variable {α : Type} (form : α → Canon)

theorem insertBy_perm (a : α) (xs : List α) : (insertBy form a xs).Perm (a :: xs) := by
  induction xs with
  | nil => exact .refl _
  | cons b rest ih =>
      unfold insertBy
      split_ifs
      · exact .refl _
      · exact (ih.cons b).trans (.swap a b rest)

theorem sortBy_perm (xs : List α) : (sortBy form xs).Perm xs := by
  induction xs with
  | nil => exact .refl _
  | cons a rest ih => exact (insertBy_perm form a _).trans (ih.cons a)

theorem find?_of_mem_distinctBy {seen : List Canon} {xs : List α} {a : α}
    (h : a ∈ distinctBy form seen xs) :
    form a ∉ seen ∧ xs.find? (fun b => decide (form b = form a)) = some a := by
  induction xs generalizing seen with
  | nil => cases h
  | cons b rest ih =>
      unfold distinctBy at h
      by_cases hb : form b ∈ seen
      · obtain ⟨hnew, hfind⟩ := ih (by simpa [hb] using h)
        have hne : form b ≠ form a := fun heq => hnew (heq ▸ hb)
        exact ⟨hnew, by simpa [hne] using hfind⟩
      · rw [if_neg hb] at h
        rcases List.mem_cons.mp h with rfl | h
        · exact ⟨hb, by simp⟩
        · obtain ⟨hnew, hfind⟩ := ih h
          have hne : form b ≠ form a := fun heq => hnew (heq ▸ List.mem_cons_self ..)
          exact ⟨fun hs => hnew (List.mem_cons_of_mem _ hs), by simpa [hne] using hfind⟩

theorem exists_mem_distinctBy {seen : List Canon} {xs : List α} {a : α} (ha : a ∈ xs)
    (hnew : form a ∉ seen) : ∃ b ∈ distinctBy form seen xs, form b = form a := by
  induction xs generalizing seen with
  | nil => cases ha
  | cons b rest ih =>
      unfold distinctBy
      by_cases heq : form b = form a
      · rw [if_neg (heq ▸ hnew)]
        exact ⟨b, List.mem_cons_self .., heq⟩
      · have hrest : a ∈ rest := by
          rcases List.mem_cons.mp ha with rfl | hrest
          · exact absurd rfl heq
          · exact hrest
        by_cases hb : form b ∈ seen
        · rw [if_pos hb]
          exact ih hrest hnew
        · rw [if_neg hb]
          have hlater : form a ∉ form b :: seen := by
            simpa [Ne.symm heq] using hnew
          obtain ⟨d, hd, hform⟩ := ih hrest hlater
          exact ⟨d, List.mem_cons_of_mem _ hd, hform⟩

theorem distinctBy_pairwise (seen : List Canon) (xs : List α) :
    (distinctBy form seen xs).Pairwise fun a b => form a ≠ form b := by
  induction xs generalizing seen with
  | nil => exact .nil
  | cons a rest ih =>
      unfold distinctBy
      by_cases ha : form a ∈ seen
      · rw [if_pos ha]
        exact ih seen
      · rw [if_neg ha]
        refine .cons ?_ (ih _)
        intro b hb heq
        exact (find?_of_mem_distinctBy form hb).1 (heq ▸ List.mem_cons_self ..)

theorem insertBy_sorted (a : α) {xs : List α}
    (h : xs.Pairwise fun b c => le (form b) (form c) = true) :
    (insertBy form a xs).Pairwise fun b c => le (form b) (form c) = true := by
  induction xs with
  | nil => exact List.pairwise_singleton _ _
  | cons b rest ih =>
      obtain ⟨hb, hrest⟩ := List.pairwise_cons.mp h
      unfold insertBy
      by_cases hab : le (form a) (form b) = true
      · rw [if_pos hab]
        refine .cons ?_ h
        intro c hc
        rcases List.mem_cons.mp hc with rfl | hc
        · exact hab
        · exact le_trans hab (hb c hc)
      · rw [if_neg hab]
        refine .cons ?_ (ih hrest)
        intro c hc
        rcases List.mem_cons.mp ((insertBy_perm form a rest).mem_iff.mp hc) with rfl | hc
        · exact (le_total _ _).resolve_left hab
        · exact hb c hc

theorem sortBy_sorted (xs : List α) :
    (sortBy form xs).Pairwise fun a b => le (form a) (form b) = true := by
  induction xs with
  | nil => exact .nil
  | cons a rest ih => exact insertBy_sorted form a ih

/-- A sorted list of forms is known by its elements. -/
theorem eq_of_sorted {xs ys : List Canon} (hx : xs.Pairwise fun a b => le a b = true)
    (hy : ys.Pairwise fun a b => le a b = true) (h : xs.Perm ys) : xs = ys :=
  List.Perm.eq_of_pairwise (fun _ _ _ _ hab hba => le_antisymm hab hba) hx hy h

theorem sortBy_eq_iff {xs ys : List Canon} : sortBy id xs = sortBy id ys ↔ xs.Perm ys := by
  constructor
  · intro h
    exact (sortBy_perm id xs).symm.trans (h ▸ sortBy_perm id ys)
  · intro h
    apply eq_of_sorted (sortBy_sorted id xs) (sortBy_sorted id ys)
    exact (sortBy_perm id xs).trans (h.trans (sortBy_perm id ys).symm)

theorem mem_distinctBy {form : Canon} {forms : List Canon} :
    form ∈ distinctBy id [] forms ↔ form ∈ forms := by
  constructor
  · intro h
    exact List.mem_of_find?_eq_some (find?_of_mem_distinctBy id h).2
  · intro h
    obtain ⟨found, hfound, heq⟩ := exists_mem_distinctBy id h List.not_mem_nil
    exact (show found = form from heq) ▸ hfound

theorem nodup_distinctBy (forms : List Canon) : (distinctBy id [] forms).Nodup :=
  distinctBy_pairwise id [] forms

theorem elements_eq_iff {xs ys : List Canon} :
    elements xs = elements ys ↔ ∀ form, form ∈ xs ↔ form ∈ ys := by
  unfold elements
  rw [sortBy_eq_iff, List.perm_ext_iff_of_nodup (nodup_distinctBy xs) (nodup_distinctBy ys)]
  simp only [mem_distinctBy]

end Sorting

end Canon

end StateSpace
