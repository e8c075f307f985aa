import StateSpace.Proofs.CanonicalOrder
import StateSpace.State

/-!
# The order of names

The key of a state lists its variables in the order of their names. That order is found by comparing
the names, which may fail, and again by comparing their canonical forms, which always has an answer.
Where the first succeeds both make the same comparisons, so the canonical form of a state is that of
its key.
-/

namespace StateSpace

theorem bind_eq_ok {ε α β : Type} {x : Except ε α} {f : α → Except ε β} {b : β} :
    (x >>= f) = .ok b ↔ ∃ a, x = .ok a ∧ f a = .ok b := by
  cases x <;> simp [bind, Except.bind]

namespace Sorting

open scoped List

variable {α β ε : Type} {lt : α → α → Except ε Bool} {r : β → β → Bool} {f : α → β}
variable {a last : α} {items run rest sorted out : List α} {fuel : Nat}

def surely (r : β → β → Bool) (a b : β) : Id Bool := r a b

section

variable (hlt : ∀ a b c, lt a b = .ok c → r (f a) (f b) = c)

include hlt

theorem falling_eq_ok (h : falling lt last items = .ok (run, rest)) :
    run ++ rest = items ∧
      falling (surely r) (f last) (items.map f) = (run.map f, rest.map f) := by
  induction items generalizing last run with
  | nil =>
      cases h
      exact ⟨rfl, rfl⟩
  | cons a items ih =>
      obtain ⟨c, hc, h⟩ := bind_eq_ok.mp h
      have hcf : surely r (f a) (f last) = c := hlt a last c hc
      cases c with
      | false =>
          cases h
          exact ⟨rfl, by simp [falling, hcf, bind, pure]⟩
      | true =>
          obtain ⟨⟨below, others⟩, hbelow, h⟩ := bind_eq_ok.mp h
          cases h
          obtain ⟨happend, hmap⟩ := ih hbelow
          exact ⟨by rw [List.cons_append, happend], by simp [falling, hcf, hmap, bind, pure]⟩

theorem rising_eq_ok (h : rising lt last items = .ok (run, rest)) :
    run ++ rest = items ∧
      rising (surely r) (f last) (items.map f) = (run.map f, rest.map f) := by
  induction items generalizing last run with
  | nil =>
      cases h
      exact ⟨rfl, rfl⟩
  | cons a items ih =>
      obtain ⟨c, hc, h⟩ := bind_eq_ok.mp h
      have hcf : surely r (f a) (f last) = c := hlt a last c hc
      cases c with
      | true =>
          cases h
          exact ⟨rfl, by simp [rising, hcf, bind, pure]⟩
      | false =>
          obtain ⟨⟨above, others⟩, habove, h⟩ := bind_eq_ok.mp h
          cases h
          obtain ⟨happend, hmap⟩ := ih habove
          exact ⟨by rw [List.cons_append, happend], by simp [rising, hcf, hmap, bind, pure]⟩

theorem firstRun_eq_ok (h : firstRun lt items = .ok (run, rest)) :
    (run ++ rest).Perm items ∧
      firstRun (surely r) (items.map f) = (run.map f, rest.map f) := by
  match items with
  | [] =>
      cases h
      exact ⟨.refl _, rfl⟩
  | [a] =>
      cases h
      exact ⟨.refl _, rfl⟩
  | a :: b :: items =>
      obtain ⟨c, hc, h⟩ := bind_eq_ok.mp h
      have hcf : surely r (f b) (f a) = c := hlt b a c hc
      cases c with
      | true =>
          obtain ⟨⟨below, others⟩, hbelow, h⟩ := bind_eq_ok.mp h
          cases h
          obtain ⟨happend, hmap⟩ := falling_eq_ok hlt hbelow
          refine ⟨?_, by simp [firstRun, hcf, hmap, bind, pure]⟩
          rw [← happend]
          exact (List.reverse_perm _).append_right _
      | false =>
          obtain ⟨⟨above, others⟩, habove, h⟩ := bind_eq_ok.mp h
          cases h
          obtain ⟨happend, hmap⟩ := rising_eq_ok hlt habove
          exact ⟨by simp [happend], by simp [firstRun, hcf, hmap, bind, pure]⟩

theorem insert_eq_ok (h : insert lt a fuel sorted = .ok out) :
    out.Perm (a :: sorted) ∧
      insert (surely r) (f a) fuel (sorted.map f) = out.map f := by
  induction fuel generalizing sorted out with
  | zero =>
      cases h
      exact ⟨.refl _, rfl⟩
  | succ fuel ih =>
      have hsplit := List.take_append_drop (sorted.length / 2) sorted
      simp only [insert, List.length_map, ← List.map_drop, ← List.map_take] at h ⊢
      cases hdrop : sorted.drop (sorted.length / 2) with
      | nil =>
          -- The middle of a list is past its end only if the list is empty.
          rw [hdrop] at h
          cases h
          have hlength := congrArg List.length hdrop
          rw [List.length_drop, List.length_nil] at hlength
          have hnil : sorted = [] := List.length_eq_zero_iff.mp (by omega)
          exact ⟨by rw [hnil], rfl⟩
      | cons middle after =>
          rw [hdrop] at h hsplit
          generalize sorted.take (sorted.length / 2) = left at *
          subst hsplit
          obtain ⟨c, hc, h⟩ := bind_eq_ok.mp h
          have hcf : surely r (f a) (f middle) = c := hlt a middle c hc
          cases c with
          | true =>
              obtain ⟨front, hfront, h⟩ := bind_eq_ok.mp h
              cases h
              obtain ⟨hperm, hmap⟩ := ih hfront
              exact ⟨hperm.append_right _, by simp [hcf, hmap, bind, pure]⟩
          | false =>
              obtain ⟨behind, hbehind, h⟩ := bind_eq_ok.mp h
              cases h
              obtain ⟨hperm, hmap⟩ := ih hbehind
              refine ⟨?_, by simp [hcf, hmap, bind, pure]⟩
              calc left ++ middle :: behind
                  _ ~ left ++ middle :: a :: after := (hperm.cons middle).append_left left
                  _ ~ left ++ a :: middle :: after := (List.Perm.swap a middle after).append_left _
                  _ ~ a :: (left ++ middle :: after) := List.perm_middle

theorem insertAll_eq_ok (h : insertAll lt sorted items = .ok out) :
    out.Perm (sorted ++ items) ∧
      insertAll (surely r) (sorted.map f) (items.map f) = out.map f := by
  induction items generalizing sorted with
  | nil =>
      cases h
      exact ⟨by rw [List.append_nil], rfl⟩
  | cons a items ih =>
      obtain ⟨more, hmore, h⟩ := bind_eq_ok.mp h
      obtain ⟨hinsert, hmap⟩ := insert_eq_ok hlt hmore
      obtain ⟨hperm, hall⟩ := ih h
      refine ⟨?_, ?_⟩
      · exact hperm.trans ((hinsert.append_right items).trans List.perm_middle.symm)
      · simp only [List.map_cons, insertAll, List.length_map, hmap]
        exact hall

/-- Sorting by comparisons that all succeed gives a permutation, and the images of the items are
sorted in the same way. -/
theorem sort_eq_ok (h : sort lt items = .ok out) :
    out.Perm items ∧ sort (surely r) (items.map f) = out.map f := by
  obtain ⟨⟨run, rest⟩, hrun, h⟩ := bind_eq_ok.mp h
  obtain ⟨hfirst, hmap⟩ := firstRun_eq_ok hlt hrun
  obtain ⟨hperm, hall⟩ := insertAll_eq_ok hlt h
  refine ⟨hperm.trans hfirst, ?_⟩
  rw [← hall]
  simp only [sort, hmap]
  rfl

end

end Sorting

namespace Value

theorem canonList_eq_map (values : List Value) : canonList values = values.map canon := by
  induction values with
  | nil => rfl
  | cons v rest ih => rw [canonList, ih, List.map_cons]

def entryForm (e : Value × Value) : Canon := Canon.pair e.1.canon e.2.canon

theorem canonEntries_eq_map (entries : List (Value × Value)) :
    canonEntries entries = entries.map entryForm := by
  induction entries with
  | nil => rfl
  | cons e rest ih => rw [canonEntries, ih, List.map_cons, entryForm]

def parts : Value → List Value
  | .tuple items | .list items | .set items | .openSet items | .stream _ items => items
  | .map entries | .state _ entries | .operation _ _ entries =>
    entries.flatMap fun e => [e.1, e.2]
  | _ => []

theorem sizeOf_lt_of_mem_entries {p : Value} {entries : List (Value × Value)}
    (h : p ∈ entries.flatMap fun e => [e.1, e.2]) : sizeOf p < sizeOf entries := by
  obtain ⟨e, he, hp⟩ := List.mem_flatMap.mp h
  have hentry := List.sizeOf_lt_of_mem he
  have hsize : sizeOf e = 1 + sizeOf e.1 + sizeOf e.2 := rfl
  rcases List.mem_cons.mp hp with rfl | hp
  · omega
  · rw [List.mem_singleton.mp hp]
    omega

theorem sizeOf_lt_of_mem_parts {p v : Value} (h : p ∈ v.parts) : sizeOf p < sizeOf v := by
  cases v <;> simp only [parts, List.not_mem_nil] at h
  case map | state | operation =>
    have := sizeOf_lt_of_mem_entries h
    simp only [map.sizeOf_spec, state.sizeOf_spec, operation.sizeOf_spec]
    omega
  all_goals
    have := List.sizeOf_lt_of_mem h
    simp only [tuple.sizeOf_spec, list.sizeOf_spec, set.sizeOf_spec, openSet.sizeOf_spec,
      stream.sizeOf_spec]
    omega

/-- Induction over values, from the parts to the whole. -/
@[elab_as_elim]
theorem parts_induction {motive : Value → Prop}
    (whole : ∀ v, (∀ p ∈ v.parts, motive p) → motive v) (v : Value) : motive v :=
  whole v fun p hp =>
    have := sizeOf_lt_of_mem_parts hp
    parts_induction whole p
termination_by sizeOf v

theorem canon_of_quantity? {v : Value} {q : Quantity} (h : v.quantity? = some q) :
    v.canon = .num q := by
  cases v <;> simp only [quantity?, reduceCtorEq, Option.some.injEq] at h <;> rw [canon, h]

theorem isText_canon (v : Value) : v.canon.isText = v.isText := by
  cases v <;> rfl

theorem beforeItems_eq_ok {xs ys : List Value} {c : Bool}
    (hbefore : ∀ x ∈ xs, ∀ y c, before x y = .ok c → Canon.before x.canon y.canon = c)
    (h : beforeItems xs ys = .ok c) :
    Canon.beforeList (canonList xs) (canonList ys) = c := by
  induction xs generalizing ys with
  | nil =>
      cases h
      cases ys <;> rfl
  | cons x xs ih =>
      cases ys with
      | nil =>
          cases h
          rfl
      | cons y ys =>
          unfold beforeItems at h
          by_cases hxy : x.canon = y.canon
          · rw [if_pos ((beq_iff x y).mpr hxy)] at h
            rw [canonList, canonList, Canon.beforeList, if_pos hxy]
            exact ih (fun z hz => hbefore z (List.mem_cons_of_mem x hz)) h
          · rw [if_neg (fun heq => hxy ((beq_iff x y).mp heq))] at h
            rw [canonList, canonList, Canon.beforeList, if_neg hxy]
            exact hbefore x (List.mem_cons_self ..) y c h

/-- Where names can be compared, so can their forms, with the same answer. -/
theorem before_eq_ok {a b : Value} {c : Bool} (h : before a b = .ok c) :
    Canon.before a.canon b.canon = c := by
  induction a using parts_induction generalizing b c with
  | whole a ih =>
      rw [before.eq_def] at h
      -- Two tuples, two texts, two sets, or two numbers; names of other kinds cannot be compared.
      split at h
      · rw [canon, canon, Canon.before]
        exact beforeItems_eq_ok (fun x hx y c => ih x hx) h
      · exact Except.ok.inj h
      · exact Except.ok.inj h
      · split at h
        · rename_i p q hp hq
          rw [canon_of_quantity? hp, canon_of_quantity? hq]
          exact Except.ok.inj h
        · cases h

theorem nameOf_entryForm (e : Value × Value) : Canon.nameOf (entryForm e) = e.1.canon := rfl

/-- Entries with different names are ordered by their names. -/
theorem le_entryForm {d e : Value × Value} (hne : d.1.canon ≠ e.1.canon)
    (hle : Canon.le d.1.canon e.1.canon = true) :
    Canon.le (entryForm d) (entryForm e) = true := by
  have hlt : Canon.compare d.1.canon e.1.canon = .lt := by
    cases hc : Canon.compare d.1.canon e.1.canon with
    | lt => rfl
    | eq => exact absurd (Canon.eq_of_compare hc) hne
    | gt => simp [Canon.le, hc] at hle
  rw [Canon.le_iff, entryForm, entryForm, Canon.pair, Canon.pair, Canon.compare.eq_def]
  simp [Canon.compareList, hlt, Canon.rank, Shape.rank]

/-- The variables of a state that could be made, sorted by name: none is lost, and their forms are
those of the variables sorted by their forms. -/
theorem sortByName_eq_ok {vars sorted : List (Value × Value)}
    (hnames : vars.Pairwise fun d e => d.1.canon ≠ e.1.canon)
    (h : sortByName vars = .ok sorted) :
    sorted.Perm vars ∧ canonEntries sorted = Canon.byName (canonEntries vars) := by
  have htext : ((canonEntries vars).all fun e => (Canon.nameOf e).isText) =
      vars.all fun e => e.1.isText := by
    simp only [canonEntries_eq_map, List.all_map, Function.comp_def, nameOf_entryForm, isText_canon]
  unfold sortByName at h
  unfold Canon.byName
  rw [htext]
  split_ifs at h ⊢ with hall
  · cases h
    have hperm := Canon.sortBy_perm (fun e : Value × Value => e.1.canon) vars
    refine ⟨hperm, ?_⟩
    apply Canon.eq_of_sorted _ (Canon.sortBy_sorted id _)
    · rw [canonEntries_eq_map, canonEntries_eq_map]
      exact (hperm.map entryForm).trans (Canon.sortBy_perm id _).symm
    · rw [canonEntries_eq_map, List.pairwise_map]
      have hdistinct := hperm.symm.pairwise hnames fun {d e} hne => hne.symm
      exact (Canon.sortBy_sorted _ vars).imp₂ (fun d e hle hne => le_entryForm hne hle) hdistinct
  · obtain ⟨hperm, hmap⟩ := Sorting.sort_eq_ok (f := entryForm)
      (r := fun d e => Canon.before (Canon.nameOf d) (Canon.nameOf e))
      (fun d e c hc => before_eq_ok hc) h
    refine ⟨hperm, ?_⟩
    rw [canonEntries_eq_map, canonEntries_eq_map, ← hmap]
    rfl

end Value

end StateSpace
