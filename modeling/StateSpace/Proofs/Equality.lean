import Mathlib.Data.List.Forall2
import Mathlib.Tactic.FieldSimp
import Mathlib.Tactic.Ring
import StateSpace.Proofs.NameOrder

/-!
# Equality of values

`Value.Equals` says when two values are equal, part by part: numbers by what they amount to, tuples
item by item, sets when each has a counterpart of every element of the other, maps likewise, and
states when their keys are equal. Values are compared by canonical form instead, in one go. For
values that are regular, which leaves out those with a `nan` in them, the two are the same, and both
are equivalences.
-/

namespace StateSpace

namespace Quantity

def Lowest (n : Int) (places : Nat) : Prop := places = 0 ∨ n % 10 ≠ 0

theorem denominator_succ (places : Nat) : denominator (places + 1) = denominator places * 10 := rfl

theorem denominator_ne_zero (places : Nat) : (denominator places : ℚ) ≠ 0 := by
  exact_mod_cast (denominator_pos places).ne'

/-- Leaving out trailing zeros does not change the number. -/
theorem reduced_eq (n : Int) (places : Nat) :
    ∃ m p, reduced n places = .ratio m p ∧ Lowest m p ∧
      (n / denominator places : ℚ) = m / denominator p := by
  induction places generalizing n with
  | zero => exact ⟨n, 0, rfl, Or.inl rfl, rfl⟩
  | succ places ih =>
      unfold reduced
      by_cases h : n % 10 = 0
      · rw [if_pos h]
        obtain ⟨m, p, hreduced, hlowest, hvalue⟩ := ih (n / 10)
        refine ⟨m, p, hreduced, hlowest, ?_⟩
        have hn : (n : ℚ) = (n / 10 : Int) * 10 := by
          have hdiv : n = n / 10 * 10 := by omega
          exact_mod_cast hdiv
        rw [← hvalue, hn, denominator_succ]
        have := denominator_ne_zero places
        push_cast
        field_simp
      · rw [if_neg h]
        exact ⟨n, places + 1, rfl, Or.inr h, rfl⟩

theorem dvd_of_scaled {m k : Int} {p d : Nat}
    (h : m * denominator (p + d + 1) = k * denominator p) : k % 10 = 0 := by
  have hsplit : (denominator (p + d + 1) : Int) = denominator p * (denominator d * 10) := by
    simp only [denominator, Nat.pow_eq]
    push_cast
    ring
  rw [hsplit] at h
  have hk : k = m * denominator d * 10 := by
    apply Int.eq_of_mul_eq_mul_right (denominator_pos p).ne'
    rw [← h]
    ring
  omega

/-- A number has one numerator and one number of places if these are the lowest. -/
theorem lowest_unique {m k : Int} {p q : Nat} (hm : Lowest m p) (hk : Lowest k q)
    (h : (m / denominator p : ℚ) = k / denominator q) : Quantity.ratio m p = .ratio k q := by
  have hscaled : m * (denominator q : Int) = k * denominator p := by
    rw [div_eq_div_iff (denominator_ne_zero p) (denominator_ne_zero q)] at h
    exact_mod_cast h
  rcases Nat.lt_trichotomy p q with hlt | rfl | hlt
  · obtain ⟨d, rfl⟩ := Nat.exists_eq_add_of_lt hlt
    have := dvd_of_scaled hscaled
    rcases hk with hk | hk
    · omega
    · exact absurd this hk
  · rw [Int.eq_of_mul_eq_mul_right (denominator_pos p).ne' hscaled]
  · obtain ⟨d, rfl⟩ := Nat.exists_eq_add_of_lt hlt
    have := dvd_of_scaled hscaled.symm
    rcases hm with hm | hm
    · omega
    · exact absurd this hm

end Quantity

namespace Value

open Quantity (Lowest)

def rational? : Value → Option ℚ
  | .bool b => some (if b then 1 else 0)
  | .int n => some n
  | .real (.finite negative digits places) =>
    some ((if negative then -(digits : ℚ) else digits) / denominator places)
  | _ => none

def setItems? : Value → Option (List Value)
  | .set items | .openSet items => some items
  | _ => none

def pairs (entries : List (Value × Value)) : Value :=
  .tuple (entries.map fun e => .tuple [e.1, e.2])

/-- When two values are equal. Nothing equals `nan`, and what is told apart by its mark equals only
what has the same one. -/
inductive Equals : Value → Value → Prop where
  | null : Equals .null .null
  | number {a b : Value} {q : ℚ} (ha : a.rational? = some q) (hb : b.rational? = some q) :
      Equals a b
  | infinite (negative : Bool) :
      Equals (.real (.infinite negative)) (.real (.infinite negative))
  | str (s : String) : Equals (.str s) (.str s)
  | tagged (tag digest digest' : String) : Equals (.tagged tag digest) (.tagged tag digest')
  | tuple {xs ys : List Value} (hlength : xs.length = ys.length)
      (hitems : ∀ p ∈ xs.zip ys, Equals p.1 p.2) : Equals (.tuple xs) (.tuple ys)
  | list {xs ys : List Value} (h : Equals (.tuple xs) (.tuple ys)) : Equals (.list xs) (.list ys)
  | set {a b : Value} {xs ys : List Value} (r : Value → Value → Prop)
      (ha : a.setItems? = some xs) (hb : b.setItems? = some ys)
      (hr : ∀ x y, r x y → Equals x y) (hleft : ∀ x ∈ xs, ∃ y ∈ ys, r x y)
      (hright : ∀ y ∈ ys, ∃ x ∈ xs, r x y) : Equals a b
  | map {xs ys : List (Value × Value)} (r : Value × Value → Value × Value → Prop)
      (hkey : ∀ d e, r d e → Equals d.1 e.1) (hvalue : ∀ d e, r d e → Equals d.2 e.2)
      (hleft : ∀ d ∈ xs, ∃ e ∈ ys, r d e) (hright : ∀ e ∈ ys, ∃ d ∈ xs, r d e) :
      Equals (.map xs) (.map ys)
  | state {m n : Mark} {vs ws : List (Value × Value)}
      (h : Equals (State.key vs) (State.key ws)) : Equals (.state m vs) (.state n ws)
  | stream {m : Mark} {xs ys : List Value} (h : Equals (.tuple xs) (.tuple ys)) :
      Equals (.stream m xs) (.stream m ys)
  | operation {name : String} {m : Mark} {vs ws : List (Value × Value)}
      (h : Equals (pairs vs) (pairs ws)) : Equals (.operation name m vs) (.operation name m ws)

/-- What a value must be like apart from its parts: no `nan`, keys and names one by one different,
names that can be sorted. An operation has a name. -/
def Wellmade : Value → Prop
  | .real d => d ≠ .nan
  | .map entries => entries.Pairwise fun d e => (d.1 == e.1) = false
  | .state _ vars => (vars.Pairwise fun d e => (d.1 == e.1) = false) ∧
      ∃ sorted, sortByName vars = .ok sorted
  | .operation name _ _ => name ≠ ""
  | _ => True

inductive Regular : Value → Prop where
  | intro {v : Value} (here : v.Wellmade) (below : ∀ p ∈ v.parts, Regular p) : Regular v

/-- Numbers have forms in lowest terms. -/
theorem canon_of_rational? {v : Value} {q : ℚ} (h : v.rational? = some q) :
    ∃ m p, v.canon = .num (.ratio m p) ∧ Lowest m p ∧ q = m / denominator p := by
  have hwhole : ∀ n : Int, (n : ℚ) = n / denominator 0 := by simp [denominator]
  cases v with
  | bool b =>
      cases h
      exact ⟨if b then 1 else 0, 0, by rw [canon, Quantity.ofInt], Or.inl rfl, by
        rw [← hwhole]; split_ifs <;> simp⟩
  | int n =>
      cases h
      exact ⟨n, 0, by rw [canon, Quantity.ofInt], Or.inl rfl, hwhole n⟩
  | real d =>
      cases d with
      | finite negative digits places =>
          cases h
          obtain ⟨m, p, hreduced, hlowest, hvalue⟩ :=
            Quantity.reduced_eq (if negative then -digits else digits) places
          refine ⟨m, p, by rw [canon, Decimal.toQuantity, hreduced], hlowest, ?_⟩
          rw [← hvalue]
          split_ifs <;> simp
      | _ => cases h
  | _ => cases h

theorem rational?_eq_iff {a b : Value} {q : ℚ} (ha : a.rational? = some q) :
    b.rational? = some q ↔ a.canon = b.canon := by
  obtain ⟨m, p, hcanon, hlowest, hq⟩ := canon_of_rational? ha
  constructor
  · intro hb
    obtain ⟨k, r, hcanon', hlowest', hq'⟩ := canon_of_rational? hb
    rw [hcanon, hcanon', Quantity.lowest_unique hlowest hlowest' (hq.symm.trans hq')]
  · intro h
    rw [hcanon] at h
    have hsome : ∃ r, b.rational? = some r := by
      cases b with
      | bool b => exact ⟨_, rfl⟩
      | int n => exact ⟨_, rfl⟩
      | real d =>
          cases d with
          | finite negative digits places => exact ⟨_, rfl⟩
          | infinite negative => cases negative <;> simp [canon, Decimal.toQuantity] at h
          | nan => simp [canon, Decimal.toQuantity] at h
      | _ => simp [canon] at h
    obtain ⟨r, hr⟩ := hsome
    obtain ⟨k, s, hcanon', -, hr'⟩ := canon_of_rational? hr
    obtain ⟨rfl, rfl⟩ : m = k ∧ p = s := by simpa [hcanon'] using h
    rw [hr, hr', hq]

theorem eq_infinite_of_canon {v : Value} {negative : Bool}
    (h : (Value.real (.infinite negative)).canon = v.canon) :
    v = .real (.infinite negative) := by
  have hne : ∀ m p, (Value.real (.infinite negative)).canon ≠ .num (.ratio m p) := by
    cases negative <;> simp [canon, Decimal.toQuantity]
  have hnone : v.rational? = none := by
    apply Option.eq_none_iff_forall_ne_some.mpr
    intro q hq
    obtain ⟨m, p, hcanon, -, -⟩ := canon_of_rational? hq
    exact hne m p (h.trans hcanon)
  cases v with
  | real d =>
      cases d with
      | infinite sign => cases negative <;> cases sign <;> simp [canon, Decimal.toQuantity] at h ⊢
      | nan => cases negative <;> simp [canon, Decimal.toQuantity] at h
      | finite _ _ _ => cases hnone
  | bool _ => cases hnone
  | int _ => cases hnone
  | _ => simp [canon] at h

theorem map_eq_iff_zip {α β : Type} {f : α → β} {xs ys : List α} :
    xs.map f = ys.map f ↔ xs.length = ys.length ∧ ∀ p ∈ xs.zip ys, f p.1 = f p.2 := by
  rw [← List.forall₂_eq_eq_eq, List.forall₂_map_left_iff, List.forall₂_map_right_iff,
    List.forall₂_iff_zip, Prod.forall]

/-- Lists of which each has a counterpart for every element of the other have the same forms. -/
theorem mem_map_iff {α : Type} {f : α → Canon} {r : α → α → Prop} {xs ys : List α}
    (hleft : ∀ x ∈ xs, ∃ y ∈ ys, r x y) (hright : ∀ y ∈ ys, ∃ x ∈ xs, r x y)
    (hsame : ∀ x ∈ xs, ∀ y ∈ ys, r x y → f x = f y) (form : Canon) :
    form ∈ xs.map f ↔ form ∈ ys.map f := by
  rw [List.mem_map, List.mem_map]
  constructor
  · rintro ⟨x, hx, rfl⟩
    obtain ⟨y, hy, hxy⟩ := hleft x hx
    exact ⟨y, hy, (hsame x hx y hy hxy).symm⟩
  · rintro ⟨y, hy, rfl⟩
    obtain ⟨x, hx, hxy⟩ := hright y hy
    exact ⟨x, hx, hsame x hx y hy hxy⟩

/-- In lists with the same forms every element has a counterpart. -/
theorem counterparts {α : Type} {f : α → Canon} {xs ys : List α}
    (h : ∀ form, form ∈ xs.map f ↔ form ∈ ys.map f) :
    (∀ x ∈ xs, ∃ y ∈ ys, f x = f y) ∧ ∀ y ∈ ys, ∃ x ∈ xs, f x = f y := by
  refine ⟨?_, ?_⟩
  · intro x hx
    obtain ⟨y, hy, heq⟩ := List.mem_map.mp ((h (f x)).mp (List.mem_map_of_mem hx))
    exact ⟨y, hy, heq.symm⟩
  · intro y hy
    obtain ⟨x, hx, heq⟩ := List.mem_map.mp ((h (f y)).mpr (List.mem_map_of_mem hy))
    exact ⟨x, hx, heq⟩

theorem canon_pairs (entries : List (Value × Value)) :
    (pairs entries).canon = .node .tuple (canonEntries entries) := by
  rw [pairs, canon, canonList_eq_map, canonEntries_eq_map, List.map_map]
  rfl

theorem key_eq_pairs {vars sorted : List (Value × Value)} (h : sortByName vars = .ok sorted) :
    State.key vars = pairs sorted := by
  rw [State.key, State.sorted, h, pairs]

theorem canon_of_setItems? {v : Value} {items : List Value} (h : v.setItems? = some items) :
    v.canon = .node .set (Canon.elements (items.map canon)) ∧ v.parts = items := by
  cases v <;> cases h <;> exact ⟨by rw [canon, canonList_eq_map], rfl⟩

theorem canon_ne_of_beq {entries : List (Value × Value)}
    (h : entries.Pairwise fun d e => (d.1 == e.1) = false) :
    entries.Pairwise fun d e => d.1.canon ≠ e.1.canon := by
  refine h.imp ?_
  intro d e hne heq
  rw [(beq_iff d.1 e.1).mpr heq] at hne
  cases hne

namespace Regular

variable {v : Value} {m : Mark} {entries sorted : List (Value × Value)}

theorem wellmade (h : Regular v) : v.Wellmade := by
  cases h
  assumption

theorem part (h : Regular v) {p : Value} (hp : p ∈ v.parts) : Regular p := by
  cases h with
  | intro _ below => exact below p hp

theorem entry (h : ∀ p ∈ entries.flatMap (fun e => [e.1, e.2]), Regular p) {e : Value × Value}
    (he : e ∈ entries) : Regular e.1 ∧ Regular e.2 :=
  ⟨h e.1 (List.mem_flatMap.mpr ⟨e, he, by simp⟩), h e.2 (List.mem_flatMap.mpr ⟨e, he, by simp⟩)⟩

theorem tuple {items : List Value} (h : ∀ x ∈ items, Regular x) : Regular (.tuple items) :=
  .intro trivial h

theorem pairs (h : ∀ e ∈ entries, Regular e.1 ∧ Regular e.2) : Regular (Value.pairs entries) := by
  apply Regular.tuple
  intro x hx
  obtain ⟨e, he, rfl⟩ := List.mem_map.mp hx
  apply Regular.tuple
  intro y hy
  rcases List.mem_cons.mp hy with rfl | hy
  · exact (h e he).1
  · rw [List.mem_singleton.mp hy]
    exact (h e he).2

/-- A regular state has a key, which is regular, and its form is that of the key. -/
theorem key (h : Regular (.state m entries)) :
    ∃ sorted, State.key entries = Value.pairs sorted ∧ sorted.Perm entries ∧
      Regular (State.key entries) ∧ canonEntries sorted = Canon.byName (canonEntries entries) := by
  obtain ⟨hdistinct, sorted, hsorted⟩ := h.wellmade
  obtain ⟨hperm, hforms⟩ := sortByName_eq_ok (canon_ne_of_beq hdistinct) hsorted
  have hkey := key_eq_pairs hsorted
  refine ⟨sorted, hkey, hperm, ?_, hforms⟩
  rw [hkey]
  exact .pairs fun e he => entry (fun p hp => h.part hp) (hperm.mem_iff.mp he)

end Regular

/-- Entries with different keys have different forms. -/
theorem nodup_canonEntries {entries : List (Value × Value)}
    (h : entries.Pairwise fun d e => d.1.canon ≠ e.1.canon) : (canonEntries entries).Nodup := by
  rw [canonEntries_eq_map, List.Nodup, List.pairwise_map]
  refine h.imp ?_
  intro d e hne heq
  exact hne (congrArg Canon.nameOf heq)

theorem canon_eq_of_equals {a b : Value} (h : Equals a b) (ha : Regular a) (hb : Regular b) :
    a.canon = b.canon := by
  induction h with
  | null => rfl
  | number hq hq' => exact (rational?_eq_iff hq).mp hq'
  | infinite negative => rfl
  | str s => rfl
  | tagged tag digest digest' => rfl
  | @tuple xs ys hlength hitems ih =>
      rw [canon, canon, canonList_eq_map, canonList_eq_map, map_eq_iff_zip.mpr ⟨hlength, ?_⟩]
      intro p hp
      obtain ⟨hx, hy⟩ := List.of_mem_zip (show (p.1, p.2) ∈ xs.zip ys from hp)
      exact ih p hp (ha.part hx) (hb.part hy)
  | @list xs ys _ ih | @stream m xs ys _ ih =>
      have heq := ih (.tuple fun x hx => ha.part hx) (.tuple fun y hy => hb.part hy)
      rw [canon, canon] at heq
      rw [canon, canon, (Canon.node.inj heq).2]
  | @set a b xs ys r hxs hys hr hleft hright ih =>
      obtain ⟨hca, hpa⟩ := canon_of_setItems? hxs
      obtain ⟨hcb, hpb⟩ := canon_of_setItems? hys
      have hsame : ∀ x ∈ xs, ∀ y ∈ ys, r x y → x.canon = y.canon := by
        intro x hx y hy hxy
        exact ih x y hxy (ha.part (hpa ▸ hx)) (hb.part (hpb ▸ hy))
      rw [hca, hcb, Canon.elements_eq_iff.mpr (mem_map_iff hleft hright hsame)]
  | @map xs ys r hkey hvalue hleft hright ihkey ihvalue =>
      have hsame : ∀ d ∈ xs, ∀ e ∈ ys, r d e → entryForm d = entryForm e := by
        intro d hd e he hde
        obtain ⟨hd₁, hd₂⟩ := Regular.entry (fun p hp => ha.part hp) hd
        obtain ⟨he₁, he₂⟩ := Regular.entry (fun p hp => hb.part hp) he
        rw [entryForm, entryForm, ihkey d e hde hd₁ he₁, ihvalue d e hde hd₂ he₂]
      have hxs := nodup_canonEntries (canon_ne_of_beq ha.wellmade)
      have hys := nodup_canonEntries (canon_ne_of_beq hb.wellmade)
      rw [canon, canon, Canon.sortBy_eq_iff.mpr ((List.perm_ext_iff_of_nodup hxs hys).mpr ?_)]
      rw [canonEntries_eq_map, canonEntries_eq_map]
      exact mem_map_iff hleft hright hsame
  | @state m n vs ws _ ih =>
      obtain ⟨vs', hvkey, -, hvregular, hvforms⟩ := ha.key
      obtain ⟨ws', hwkey, -, hwregular, hwforms⟩ := hb.key
      have heq := ih hvregular hwregular
      rw [hvkey, hwkey, canon_pairs, canon_pairs] at heq
      rw [canon, canon, ← hvforms, ← hwforms, (Canon.node.inj heq).2]
  | @operation name m vs ws _ ih =>
      have heq := ih (.pairs fun e he => Regular.entry (fun p hp => ha.part hp) he)
        (.pairs fun e he => Regular.entry (fun p hp => hb.part hp) he)
      rw [canon_pairs, canon_pairs] at heq
      rw [canon, canon, (Canon.node.inj heq).2]

theorem equals_tuple {xs ys : List Value}
    (hequals : ∀ x ∈ xs, ∀ y ∈ ys, x.canon = y.canon → Equals x y)
    (h : canonList xs = canonList ys) : Equals (.tuple xs) (.tuple ys) := by
  rw [canonList_eq_map, canonList_eq_map, map_eq_iff_zip] at h
  refine .tuple h.1 ?_
  intro p hp
  obtain ⟨hx, hy⟩ := List.of_mem_zip (show (p.1, p.2) ∈ xs.zip ys from hp)
  exact hequals p.1 hx p.2 hy (h.2 p hp)

theorem entryForm_eq_iff {d e : Value × Value} :
    entryForm d = entryForm e ↔ d.1.canon = e.1.canon ∧ d.2.canon = e.2.canon := by
  simp [entryForm, Canon.pair]

theorem equals_pairs {vs ws : List (Value × Value)}
    (hequals : ∀ d ∈ vs, ∀ e ∈ ws, entryForm d = entryForm e → Equals d.1 e.1 ∧ Equals d.2 e.2)
    (h : canonEntries vs = canonEntries ws) : Equals (pairs vs) (pairs ws) := by
  apply equals_tuple
  · intro x hx y hy hxy
    obtain ⟨d, hd, rfl⟩ := List.mem_map.mp hx
    obtain ⟨e, he, rfl⟩ := List.mem_map.mp hy
    obtain ⟨hname, hvalue⟩ := hequals d hd e he hxy
    refine .tuple rfl ?_
    simp only [List.zip_cons_cons, List.zip_nil_left, List.forall_mem_cons]
    exact ⟨hname, hvalue, List.forall_mem_nil _⟩
  · rw [canonList_eq_map, List.map_map, canonList_eq_map, List.map_map]
    rw [canonEntries_eq_map, canonEntries_eq_map] at h
    exact h

theorem exists_setItems? {v : Value} {forms : List Canon} (h : v.canon = .node .set forms) :
    ∃ items, v.setItems? = some items := by
  cases v with
  | set items => exact ⟨items, rfl⟩
  | openSet items => exact ⟨items, rfl⟩
  | _ => simp [canon] at h

theorem equals_set {a b : Value} {xs : List Value} (hxs : a.setItems? = some xs)
    (hequals : ∀ x ∈ a.parts, ∀ y ∈ b.parts, x.canon = y.canon → Equals x y)
    (h : a.canon = b.canon) : Equals a b := by
  obtain ⟨hca, hpa⟩ := canon_of_setItems? hxs
  obtain ⟨ys, hys⟩ := exists_setItems? (h.symm.trans hca)
  obtain ⟨hcb, hpb⟩ := canon_of_setItems? hys
  rw [hca, hcb, Canon.node.injEq, Canon.elements_eq_iff] at h
  obtain ⟨hleft, hright⟩ := counterparts h.2
  rw [hpa, hpb] at hequals
  refine .set (fun x y => x ∈ xs ∧ y ∈ ys ∧ x.canon = y.canon) hxs hys ?_ ?_ ?_
  · rintro x y ⟨hx, hy, heq⟩
    exact hequals x hx y hy heq
  · intro x hx
    obtain ⟨y, hy, heq⟩ := hleft x hx
    exact ⟨y, hy, hx, hy, heq⟩
  · intro y hy
    obtain ⟨x, hx, heq⟩ := hright y hy
    exact ⟨x, hx, hx, hy, heq⟩

theorem equals_map {xs ys : List (Value × Value)}
    (hequals : ∀ d ∈ xs, ∀ e ∈ ys, entryForm d = entryForm e → Equals d.1 e.1 ∧ Equals d.2 e.2)
    (h : Canon.sortBy id (canonEntries xs) = Canon.sortBy id (canonEntries ys)) :
    Equals (.map xs) (.map ys) := by
  rw [Canon.sortBy_eq_iff, canonEntries_eq_map, canonEntries_eq_map] at h
  obtain ⟨hleft, hright⟩ := counterparts fun form => h.mem_iff
  refine .map (fun d e => d ∈ xs ∧ e ∈ ys ∧ entryForm d = entryForm e) ?_ ?_ ?_ ?_
  · rintro d e ⟨hd, he, heq⟩
    exact (hequals d hd e he heq).1
  · rintro d e ⟨hd, he, heq⟩
    exact (hequals d hd e he heq).2
  · intro d hd
    obtain ⟨e, he, heq⟩ := hleft d hd
    exact ⟨e, he, hd, he, heq⟩
  · intro e he
    obtain ⟨d, hd, heq⟩ := hright e he
    exact ⟨d, hd, hd, he, heq⟩

theorem equals_state {m n : Mark} {vs ws : List (Value × Value)} (hv : Regular (.state m vs))
    (hw : Regular (.state n ws))
    (hequals : ∀ d ∈ vs, ∀ e ∈ ws, entryForm d = entryForm e → Equals d.1 e.1 ∧ Equals d.2 e.2)
    (h : Canon.byName (canonEntries vs) = Canon.byName (canonEntries ws)) :
    Equals (.state m vs) (.state n ws) := by
  obtain ⟨vs', hvkey, hvperm, -, hvforms⟩ := hv.key
  obtain ⟨ws', hwkey, hwperm, -, hwforms⟩ := hw.key
  apply Equals.state
  rw [hvkey, hwkey]
  apply equals_pairs _ (hvforms.trans (h.trans hwforms.symm))
  intro d hd e he
  exact hequals d (hvperm.mem_iff.mp hd) e (hwperm.mem_iff.mp he)

/-- What holds of parts with equal forms holds of names and values of entries with equal forms. -/
theorem of_entries {P : Value → Value → Prop} {vs ws : List (Value × Value)}
    (h : ∀ x ∈ vs.flatMap (fun e => [e.1, e.2]), ∀ y ∈ ws.flatMap (fun e => [e.1, e.2]),
      x.canon = y.canon → P x y) :
    ∀ d ∈ vs, ∀ e ∈ ws, entryForm d = entryForm e → P d.1 e.1 ∧ P d.2 e.2 := by
  have hmem : ∀ {us : List (Value × Value)} {u : Value × Value}, u ∈ us →
      u.1 ∈ us.flatMap (fun e => [e.1, e.2]) ∧ u.2 ∈ us.flatMap (fun e => [e.1, e.2]) :=
    fun hu => ⟨List.mem_flatMap.mpr ⟨_, hu, by simp⟩, List.mem_flatMap.mpr ⟨_, hu, by simp⟩⟩
  intro d hd e he heq
  obtain ⟨hname, hvalue⟩ := entryForm_eq_iff.mp heq
  exact ⟨h _ (hmem hd).1 _ (hmem he).1 hname, h _ (hmem hd).2 _ (hmem he).2 hvalue⟩

theorem equals_of_canon_eq {a b : Value} (ha : Regular a) (hb : Regular b)
    (h : a.canon = b.canon) : Equals a b := by
  induction a using parts_induction generalizing b with
  | whole a ih =>
      have hparts : ∀ x ∈ a.parts, ∀ y ∈ b.parts, x.canon = y.canon → Equals x y :=
        fun x hx y hy heq => ih x hx (ha.part hx) (hb.part hy) heq
      cases hq : a.rational? with
      | some q => exact .number hq ((rational?_eq_iff hq).mpr h)
      | none =>
          -- only a form of the same kind can be the same, so that `b` is of the kind of `a`
          cases a with
          | null =>
              cases b <;> simp [canon] at h
              exact .null
          | bool b => cases hq
          | int n => cases hq
          | real d =>
              cases d with
              | finite negative digits places => cases hq
              | infinite negative =>
                  rw [eq_infinite_of_canon h]
                  exact .infinite negative
              | nan => exact absurd rfl ha.wellmade
          | str s =>
              cases b <;> simp [canon] at h
              rw [h]
              exact .str _
          | tagged tag digest =>
              cases b <;> simp [canon] at h
              rw [h]
              exact .tagged _ _ _
          | tuple xs =>
              cases b <;> simp [canon] at h
              exact equals_tuple hparts h
          | list xs =>
              cases b <;> simp [canon] at h
              exact .list (equals_tuple hparts h)
          | set xs => exact equals_set rfl hparts h
          | openSet xs => exact equals_set rfl hparts h
          | map entries =>
              cases b <;> simp [canon] at h
              exact equals_map (of_entries hparts) h
          | stream m xs =>
              cases b <;> simp [canon] at h
              · obtain ⟨rfl, h⟩ := h
                exact .stream (equals_tuple hparts h)
              · exact absurd h.1.1 hb.wellmade
          | state m vs =>
              cases b <;> simp [canon] at h
              exact equals_state ha hb (of_entries hparts) h
          | operation name m vs =>
              cases b <;> simp [canon] at h
              · exact absurd h.1.1 ha.wellmade
              · obtain ⟨⟨rfl, rfl⟩, h⟩ := h
                exact .operation (equals_pairs (of_entries hparts) h)

/-- Regular values are compared part by part. -/
theorem beq_iff_equals {a b : Value} (ha : Regular a) (hb : Regular b) :
    (a == b) = true ↔ Equals a b :=
  (beq_iff a b).trans ⟨equals_of_canon_eq ha hb, fun h => canon_eq_of_equals h ha hb⟩

end Value

end StateSpace
