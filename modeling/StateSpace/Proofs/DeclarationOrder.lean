import Mathlib.Algebra.BigOperators.Group.List.Basic
import StateSpace.Proofs.Assignments

/-!
# Declaration order and fingerprints

The fingerprint of a state is a digest of its variables, sorted by name, and of the written forms of
their values. A state among these values is written with its variables as they were declared. The
order of declaration does not count at the top, and counts below exactly where it can be read off
the written form of a value. Written forms of values that differ in such orders only have the same
length, so that one text cannot be made of different parts.
-/

namespace StateSpace

section Joining

theorem length_intercalate (sep : String) (items : List String) :
    (sep.intercalate items).length =
      (items.map String.length).sum + sep.length * (items.length - 1) := by
  induction items with
  | nil => simp
  | cons x rest ih =>
      cases rest with
      | nil => simp
      | cons y rest =>
          rw [String.intercalate_cons_cons, String.length_append, String.length_append, ih]
          simp only [List.map_cons, List.sum_cons, List.length_cons, Nat.add_sub_cancel,
            Nat.mul_add, Nat.mul_one]
          omega

/-- Joining adds up lengths, in whatever order. -/
theorem length_intercalate_eq (sep : String) {xs ys : List String}
    (h : (xs.map String.length).Perm (ys.map String.length)) :
    (sep.intercalate xs).length = (sep.intercalate ys).length := by
  have hlength : xs.length = ys.length := by simpa using h.length_eq
  rw [length_intercalate, length_intercalate, h.sum_eq, hlength]

theorem append_inj {s t s' t' : String} (h : s ++ t = s' ++ t') (hlength : s.length = s'.length) :
    s = s' ∧ t = t' := by
  rw [← String.toList_inj, String.toList_append, String.toList_append (s := s')] at h
  rw [← String.length_toList, ← String.length_toList] at hlength
  simpa only [String.toList_inj] using List.append_inj h hlength

/-- Texts joined from parts of the same lengths are the same only if their parts are. -/
theorem intercalate_map_inj {α : Type} (sep : String) {f g : α → String} {xs : List α}
    (hlength : ∀ x ∈ xs, (f x).length = (g x).length) :
    sep.intercalate (xs.map f) = sep.intercalate (xs.map g) ↔ ∀ x ∈ xs, f x = g x := by
  rw [← List.map_inj_left]
  refine ⟨fun h => ?_, congrArg _⟩
  induction xs with
  | nil => rfl
  | cons x rest ih =>
      cases rest with
      | nil => simpa using h
      | cons y rest =>
          simp only [List.map_cons, String.intercalate_cons_cons, String.append_assoc] at h ih ⊢
          obtain ⟨hfirst, hrest⟩ := append_inj h (hlength x List.mem_cons_self)
          rw [String.append_right_inj] at hrest
          rw [hfirst, ih (fun z hz => hlength z (List.mem_cons_of_mem x hz)) hrest]

end Joining

namespace Value

theorem textList_eq_map (values : List Value) : textList values = values.map text := by
  induction values with
  | nil => rfl
  | cons v rest ih => rw [textList, ih, List.map_cons]

theorem text_tuple (items : List Value) : (Value.tuple items).text =
    "(" ++ ", ".intercalate (items.map text) ++ if items.length = 1 then ",)" else ")" := by
  match items with
  | [] => rfl
  | [v] => rfl
  | v :: w :: rest =>
      rw [if_neg (by simp), ← textList_eq_map]
      rfl

theorem text_set (items : List Value) : (Value.set items).text =
    if items.length = 0 then "frozenset()"
    else "frozenset(\x7b" ++ ", ".intercalate (items.map text) ++ "\x7d)" := by
  cases items with
  | nil => rfl
  | cons v rest =>
      rw [if_neg (by simp), ← textList_eq_map]
      rfl

end Value

theorem Mapping.text_state (d : Mapping) (m : Mark) : (Value.state m d.vars).text =
    "State(" ++ ", ".intercalate (d.entries.map fun e => e.1 ++ "=" ++ e.2.text) ++ ")" := by
  have hvars : ∀ entries : List (String × Value),
      Value.textVars (entries.map fun e => (.str e.1, e.2)) =
        entries.map fun e => e.1 ++ "=" ++ e.2.text := by
    intro entries
    induction entries with
    | nil => rfl
    | cons e rest ih => rw [List.map_cons, List.map_cons, Value.textVars, ih]
  rw [← hvars]
  rfl

/-- Values that differ only in the orders in which the variables of states in them were declared. Of
a set the elements stand in their canonical order. -/
inductive Reordered : Value → Value → Prop
  | same (v : Value) : Reordered v v
  | tuple {xs ys : List Value} (hlength : xs.length = ys.length)
      (h : ∀ p ∈ xs.zip ys, Reordered p.1 p.2) : Reordered (.tuple xs) (.tuple ys)
  | set {xs ys : List Value} (hlength : xs.length = ys.length)
      (h : ∀ p ∈ xs.zip ys, Reordered p.1 p.2) : Reordered (.set xs) (.set ys)
  | state {d₁ d₂ : Mapping} {m n : Mark} (hnames : ∀ name, name ∈ d₁.names ↔ name ∈ d₂.names)
      (h : ∀ name v w, (name, v) ∈ d₁.entries → (name, w) ∈ d₂.entries → Reordered v w) :
      Reordered (.state m d₁.vars) (.state n d₂.vars)

namespace Reordered

variable {v w : Value}

theorem canon_eq (h : Reordered v w) : v.canon = w.canon := by
  induction h with
  | same v => rfl
  | tuple hlength h ih =>
      rw [Value.canon, Value.canon, Value.canonList_eq_map, Value.canonList_eq_map,
        Value.map_eq_iff_zip.mpr ⟨hlength, ih⟩]
  | set hlength h ih =>
      rw [Value.canon, Value.canon, Value.canonList_eq_map, Value.canonList_eq_map,
        Value.map_eq_iff_zip.mpr ⟨hlength, ih⟩]
  | @state d₁ d₂ m n hnames h ih =>
      refine (Value.beq_iff _ _).mp ((d₁.state_beq_iff d₂ m n).mpr ⟨hnames, ?_⟩)
      intro name v w hv hw
      exact (Value.beq_iff v w).mpr (ih name v w hv hw)

/-- The variables of two states with the lengths of what is written for their values. -/
theorem perm_lengths {d₁ d₂ : Mapping} (hnames : ∀ name, name ∈ d₁.names ↔ name ∈ d₂.names)
    (h : ∀ name v w, (name, v) ∈ d₁.entries → (name, w) ∈ d₂.entries →
      v.text.length = w.text.length) :
    (d₁.entries.map fun e => (e.1, e.2.text.length)).Perm
      (d₂.entries.map fun e => (e.1, e.2.text.length)) := by
  have hnodup (d : Mapping) : (d.entries.map fun e => (e.1, e.2.text.length)).Nodup := by
    apply List.Nodup.of_map Prod.fst
    rw [List.map_map]
    exact d.distinct
  rw [List.perm_ext_iff_of_nodup (hnodup d₁) (hnodup d₂)]
  rintro ⟨name, length⟩
  simp only [List.mem_map, Prod.exists, Prod.mk.injEq]
  constructor
  · rintro ⟨_, v, hv, rfl, rfl⟩
    obtain ⟨w, hw⟩ := Mapping.exists_of_names d₁ d₂ (hnames _).mp hv
    exact ⟨_, w, hw, rfl, (h _ v w hv hw).symm⟩
  · rintro ⟨_, w, hw, rfl, rfl⟩
    obtain ⟨v, hv⟩ := Mapping.exists_of_names d₂ d₁ (hnames _).mpr hw
    exact ⟨_, v, hv, rfl, h _ v w hv hw⟩

theorem length_text (h : Reordered v w) : v.text.length = w.text.length := by
  have hitems {xs ys : List Value} (hlength : xs.length = ys.length)
      (ih : ∀ p ∈ xs.zip ys, p.1.text.length = p.2.text.length) :
      (", ".intercalate (xs.map Value.text)).length =
        (", ".intercalate (ys.map Value.text)).length := by
    have hlengths := Value.map_eq_iff_zip (f := fun v : Value => v.text.length) |>.mpr ⟨hlength, ih⟩
    apply length_intercalate_eq
    rw [List.map_map, List.map_map]
    exact .of_eq hlengths
  induction h with
  | same v => rfl
  | tuple hlength h ih =>
      rw [Value.text_tuple, Value.text_tuple, String.length_append, String.length_append,
        String.length_append, String.length_append, hitems hlength ih, hlength]
  | set hlength h ih =>
      rw [Value.text_set, Value.text_set, hlength]
      split
      · rfl
      · simp only [String.length_append, hitems hlength ih]
  | @state d₁ d₂ m n hnames h ih =>
      have hperm := (perm_lengths hnames ih).map fun p => p.1.length + "=".length + p.2
      rw [List.map_map, List.map_map] at hperm
      rw [Mapping.text_state, Mapping.text_state, String.length_append, String.length_append,
        String.length_append, String.length_append]
      congr 2
      apply length_intercalate_eq
      simpa [Function.comp_def] using hperm

/-- Two states that stand at the same place of two values, each in no other state. -/
inductive Corresponding : Value → Value → Value → Value → Prop
  | state {m n : Mark} {vs ws : List (Value × Value)} :
      Corresponding (.state m vs) (.state n ws) (.state m vs) (.state n ws)
  | tuple {xs ys : List Value} {p : Value × Value} {s t : Value} (hp : p ∈ xs.zip ys)
      (h : Corresponding p.1 p.2 s t) : Corresponding (.tuple xs) (.tuple ys) s t
  | set {xs ys : List Value} {p : Value × Value} {s t : Value} (hp : p ∈ xs.zip ys)
      (h : Corresponding p.1 p.2 s t) : Corresponding (.set xs) (.set ys) s t

theorem eq_of_mem_zip_self {xs : List Value} {p : Value × Value} (h : p ∈ xs.zip xs) :
    p.1 = p.2 := by
  induction xs with
  | nil => cases h
  | cons x rest ih =>
      rcases List.mem_cons.mp h with rfl | h
      · rfl
      · exact ih h

theorem Corresponding.eq_of_eq {s t : Value} (h : Corresponding v w s t) (heq : v = w) : s = t := by
  induction h with
  | state => exact heq
  | tuple hp h ih =>
      cases heq
      exact ih (eq_of_mem_zip_self hp)
  | set hp h ih =>
      cases heq
      exact ih (eq_of_mem_zip_self hp)

theorem intercalate_text_inj {xs ys : List Value} (hlength : xs.length = ys.length)
    (h : ∀ p ∈ xs.zip ys, Reordered p.1 p.2) :
    ", ".intercalate (xs.map Value.text) = ", ".intercalate (ys.map Value.text) ↔
      ∀ p ∈ xs.zip ys, p.1.text = p.2.text := by
  have hleft : xs.map Value.text = (xs.zip ys).map fun p => p.1.text := by
    rw [← List.map_fst_zip hlength.le, List.map_map, List.map_fst_zip hlength.le]
    rfl
  have hright : ys.map Value.text = (xs.zip ys).map fun p => p.2.text := by
    rw [← List.map_snd_zip hlength.ge, List.map_map, List.map_snd_zip hlength.ge]
    rfl
  rw [hleft, hright, intercalate_map_inj ", " fun p hp => (h p hp).length_text]

/-- Two values are written alike if and only if the states in them are. -/
theorem text_eq_iff (h : Reordered v w) :
    v.text = w.text ↔ ∀ s t, Corresponding v w s t → s.text = t.text := by
  induction h with
  | same v =>
      refine ⟨fun _ s t hst => ?_, fun _ => rfl⟩
      rw [hst.eq_of_eq rfl]
  | @tuple xs ys hlength h ih =>
      rw [Value.text_tuple, Value.text_tuple, hlength, String.append_left_inj,
        String.append_right_inj, intercalate_text_inj hlength h]
      constructor
      · rintro htexts s t (_ | ⟨hp, hst⟩)
        exact (ih _ hp).mp (htexts _ hp) s t hst
      · intro hstates p hp
        exact (ih p hp).mpr fun s t hst => hstates s t (.tuple hp hst)
  | @set xs ys hlength h ih =>
      have htext : (Value.set xs).text = (Value.set ys).text ↔
          ∀ p ∈ xs.zip ys, p.1.text = p.2.text := by
        rw [← intercalate_text_inj hlength h, Value.text_set, Value.text_set, hlength]
        split
        case isTrue hempty =>
          obtain rfl := List.length_eq_zero_iff.mp hempty
          obtain rfl := List.length_eq_zero_iff.mp hlength
          exact iff_of_true rfl rfl
        case isFalse => rw [String.append_left_inj, String.append_right_inj]
      rw [htext]
      constructor
      · rintro htexts s t (_ | _ | ⟨hp, hst⟩)
        exact (ih _ hp).mp (htexts _ hp) s t hst
      · intro hstates p hp
        exact (ih p hp).mpr fun s t hst => hstates s t (.set hp hst)
  | @state d₁ d₂ m n hnames h ih =>
      constructor
      · rintro htext s t (_ | _ | _)
        exact htext
      · intro hstates
        exact hstates _ _ .state

end Reordered

namespace Mapping

variable {d d₁ d₂ : Mapping}

def valueAt (d : Mapping) (name : String) : Value := (d.value? name).getD .null

theorem valueAt_of_mem {name : String} {v : Value} (h : (name, v) ∈ d.entries) :
    d.valueAt name = v := by
  rw [valueAt, value?_eq_some_iff.mpr h, Option.getD_some]

theorem mem_valueAt {name : String} (h : name ∈ d.names) :
    (name, d.valueAt name) ∈ d.entries := by
  obtain ⟨v, hv⟩ := d.mem_names.mp h
  rw [valueAt_of_mem hv]
  exact hv

/-- The variables sorted by name are given by the sorted names. -/
theorem sorted_eq (d : Mapping) : ∃ names : List String, names.Perm d.names ∧
    State.sorted d.vars = (names.map fun name => (.str name, d.valueAt name)) ∧
    (names.map fun name => (Value.str name).canon) =
      (Canon.byName (Value.canonEntries d.vars)).map Canon.nameOf := by
  obtain ⟨sorted, hsorted⟩ := d.exists_sorted
  obtain ⟨hperm, hforms⟩ :=
    Value.sortByName_eq_ok (Value.canon_ne_of_beq d.vars_pairwise) hsorted
  have hnamed : ∀ e ∈ sorted, ∃ name, e = (.str name, d.valueAt name) := by
    intro e he
    obtain ⟨⟨name, v⟩, hv, rfl⟩ := List.mem_map.mp (hperm.mem_iff.mp he)
    exact ⟨name, by rw [valueAt_of_mem hv]⟩
  refine ⟨sorted.map fun e => e.1.shown, ?_, ?_, ?_⟩
  · have hnames : d.vars.map (fun e => e.1.shown) = d.names := by
      simp [vars, names, Value.shown, Function.comp_def]
    rw [← hnames]
    exact hperm.map _
  · rw [State.sorted, hsorted, List.map_map]
    apply ((List.map_congr_left _).trans (List.map_id _)).symm
    intro e he
    obtain ⟨name, rfl⟩ := hnamed e he
    rfl
  · rw [← hforms, Value.canonEntries_eq_map, List.map_map, List.map_map]
    apply List.map_congr_left
    intro e he
    obtain ⟨name, rfl⟩ := hnamed e he
    rfl

/-- Equal states have their names sorted alike. -/
theorem sorted_eq_of_agrees (h : d₁.Agrees d₂) : ∃ names : List String, names.Perm d₁.names ∧
    State.sorted d₁.vars = (names.map fun name => (.str name, d₁.valueAt name)) ∧
    State.sorted d₂.vars = names.map fun name => (.str name, d₂.valueAt name) := by
  obtain ⟨names, hperm, hsorted, hforms⟩ := d₁.sorted_eq
  obtain ⟨names', -, hsorted', hforms'⟩ := d₂.sorted_eq
  have hcanon := (Value.beq_iff _ _).mp ((d₁.state_beq_iff d₂ .written .written).mpr h)
  rw [Value.canon, Value.canon, Canon.node.injEq] at hcanon
  have hsame : names = names' := by
    rw [hcanon.2, ← hforms'] at hforms
    refine List.map_injective_iff.mpr ?_ hforms
    intro name name' hname
    simpa [Value.canon] using hname
  subst hsame
  exact ⟨names, hperm, hsorted, hsorted'⟩

theorem text_key {names : List String}
    (h : State.sorted d.vars = names.map fun name => (.str name, d.valueAt name)) :
    (State.key d.vars).text =
      "(" ++ ", ".intercalate (names.map fun name =>
        (Value.tuple [.str name, d.valueAt name]).text) ++
        if names.length = 1 then ",)" else ")" := by
  rw [State.key, h, Value.text_tuple, List.length_map, List.length_map, List.map_map, List.map_map]
  rfl

theorem text_pair_inj (name : String) {v w : Value} :
    (Value.tuple [.str name, v]).text = (Value.tuple [.str name, w]).text ↔ v.text = w.text := by
  simp [Value.text_tuple, String.intercalate_cons_cons, String.append_assoc]

theorem length_text_pair (name : String) {v w : Value} (h : v.text.length = w.text.length) :
    (Value.tuple [.str name, v]).text.length = (Value.tuple [.str name, w]).text.length := by
  simp [Value.text_tuple, String.intercalate_cons_cons, h]

def Redeclares (d₁ d₂ : Mapping) : Prop :=
  (∀ name, name ∈ d₁.names ↔ name ∈ d₂.names) ∧
    ∀ name v w, (name, v) ∈ d₁.entries → (name, w) ∈ d₂.entries → Reordered v w

theorem Redeclares.agrees (h : d₁.Redeclares d₂) : d₁.Agrees d₂ :=
  ⟨h.1, fun name v w hv hw => (Value.beq_iff v w).mpr (h.2 name v w hv hw).canon_eq⟩

theorem Redeclares.text_key_eq_iff (h : d₁.Redeclares d₂) :
    (State.key d₁.vars).text = (State.key d₂.vars).text ↔
      ∀ name v w, (name, v) ∈ d₁.entries → (name, w) ∈ d₂.entries → v.text = w.text := by
  obtain ⟨names, hperm, hsorted₁, hsorted₂⟩ := sorted_eq_of_agrees h.agrees
  have hmem₁ {name} (hname : name ∈ names) : (name, d₁.valueAt name) ∈ d₁.entries :=
    mem_valueAt (hperm.mem_iff.mp hname)
  have hmem₂ {name} (hname : name ∈ names) : (name, d₂.valueAt name) ∈ d₂.entries :=
    mem_valueAt ((h.1 name).mp (hperm.mem_iff.mp hname))
  -- The names stand in the same order, so that both texts can be cut at the same places.
  have hlength : ∀ name ∈ names, (Value.tuple [.str name, d₁.valueAt name]).text.length =
      (Value.tuple [.str name, d₂.valueAt name]).text.length := by
    intro name hname
    exact length_text_pair name (h.2 name _ _ (hmem₁ hname) (hmem₂ hname)).length_text
  rw [text_key hsorted₁, text_key hsorted₂, String.append_left_inj, String.append_right_inj,
    intercalate_map_inj _ hlength]
  simp only [text_pair_inj]
  constructor
  · intro htexts name v w hv hw
    have hname := hperm.mem_iff.mpr (d₁.mem_names.mpr ⟨v, hv⟩)
    rw [← valueAt_of_mem hv, ← valueAt_of_mem hw]
    exact htexts name hname
  · intro htexts name hname
    exact htexts name _ _ (hmem₁ hname) (hmem₂ hname)

theorem Redeclares.of_perm (h : d₁.entries.Perm d₂.entries) : d₁.Redeclares d₂ := by
  refine ⟨fun name => (h.map (·.1)).mem_iff, ?_⟩
  intro name v w hv hw
  rw [d₂.eq_of_mem (h.mem_iff.mp hv) hw]
  exact .same w

end Mapping

/-- States that differ only in orders of declaration are equal. The texts of which their
fingerprints are taken are the same if and only if the states at the same places of their values are
written alike, and so always if nothing but the order of the states' own variables differs. -/
theorem fingerprint_of_redeclared (d₁ d₂ : Mapping) (m n : Mark) (h : d₁.Redeclares d₂) :
    (Value.state m d₁.vars == .state n d₂.vars) = true ∧
    ((State.key d₁.vars).text = (State.key d₂.vars).text ↔
      ∀ name v w, (name, v) ∈ d₁.entries → (name, w) ∈ d₂.entries →
        ∀ s t, Reordered.Corresponding v w s t → s.text = t.text) ∧
    ((State.key d₁.vars).text = (State.key d₂.vars).text →
      (Value.state m d₁.vars).fingerprint = (Value.state n d₂.vars).fingerprint) ∧
    (d₁.entries.Perm d₂.entries → (State.key d₁.vars).text = (State.key d₂.vars).text) := by
  refine ⟨(d₁.state_beq_iff d₂ m n).mpr h.agrees, ?_, congrArg Digest.ofText, ?_⟩
  · rw [h.text_key_eq_iff]
    refine forall_congr' fun name => forall_congr' fun v => forall_congr' fun w =>
      forall_congr' fun hv => forall_congr' fun hw => ?_
    exact (h.2 name v w hv hw).text_eq_iff
  · intro hperm
    rw [h.text_key_eq_iff]
    intro name v w hv hw
    rw [d₂.eq_of_mem (hperm.mem_iff.mp hv) hw]

/-- Two variables in either order, one with a state in a tuple. -/
theorem fingerprint_of_redeclared_pair :
    let inner := Value.state .written [(.str "x", .null), (.str "y", .int 1)]
    let d₁ : Mapping := ⟨[("a", .tuple [inner]), ("b", .int 0)], by decide⟩
    let d₂ : Mapping := ⟨[("b", .int 0), ("a", .tuple [inner])], by decide⟩
    d₁.Redeclares d₂ ∧ (State.key d₁.vars).text = (State.key d₂.vars).text ∧
      (Value.state .written d₁.vars).fingerprint = (Value.state .written d₂.vars).fingerprint := by
  intro inner d₁ d₂
  have hperm : d₁.entries.Perm d₂.entries := .swap _ _ _
  have hredeclares : d₁.Redeclares d₂ := .of_perm hperm
  obtain ⟨-, -, hdigest, htext⟩ := fingerprint_of_redeclared d₁ d₂ .written .written hredeclares
  exact ⟨hredeclares, htext hperm, hdigest (htext hperm)⟩

/-- The order of declaration in a state below is part of the text. -/
theorem nested_declaration_order_is_hashed :
    let inner₁ : Mapping := ⟨[("a", .int 1), ("b", .int 2)], by decide⟩
    let inner₂ : Mapping := ⟨[("b", .int 2), ("a", .int 1)], by decide⟩
    let d₁ : Mapping := ⟨[("x", .state .written inner₁.vars)], by decide⟩
    let d₂ : Mapping := ⟨[("x", .state .written inner₂.vars)], by decide⟩
    d₁.Redeclares d₂ ∧ (Value.state .written d₁.vars == .state .written d₂.vars) = true ∧
      (State.key d₁.vars).text ≠ (State.key d₂.vars).text := by
  intro inner₁ inner₂ d₁ d₂
  have hinner : inner₁.Redeclares inner₂ := .of_perm (.swap _ _ _)
  refine ⟨⟨fun _ => Iff.rfl, ?_⟩, by decide, by decide⟩
  intro name v w hv hw
  obtain ⟨-, rfl⟩ := Prod.mk.inj (List.mem_singleton.mp hv)
  obtain ⟨-, rfl⟩ := Prod.mk.inj (List.mem_singleton.mp hw)
  exact .state hinner.1 hinner.2

end StateSpace
