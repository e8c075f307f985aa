import Mathlib.Data.List.Nodup
import StateSpace.Proofs.Flattening

/-!
# Names of actions

The name of an action joins the names on the way to its leaf by slashes. If siblings are called by
different names without a slash, the way can be read off the joined name, so that actions that are
enabled together have different names. Names by place are always of this kind.
-/

namespace StateSpace

/-- Names without a slash can be read off their joined form. -/
theorem join_injective {names others : List String} (hne : names ≠ []) (hne' : others ≠ [])
    (hplain : ∀ n ∈ names, '/' ∉ n.toList) (hplain' : ∀ n ∈ others, '/' ∉ n.toList)
    (h : "/".intercalate names = "/".intercalate others) : names = others := by
  have hread {ns : List String} (hne : ns ≠ []) (hplain : ∀ n ∈ ns, '/' ∉ n.toList) :
      ("/".intercalate ns).toList.splitOn '/' = ns.map String.toList := by
    rw [String.toList_intercalate]
    exact List.splitOn_intercalate '/' (List.forall_mem_map.mpr hplain) (by simpa using hne)
  apply List.map_injective_iff.mpr fun _ _ => String.toList_inj.mp
  rw [← hread hne hplain, ← hread hne' hplain', h]

namespace Piece

def siblingNames (place : Nat) (pieces : List Piece) : List String :=
  (pieces.zipIdx place).map fun x => localName x.2 x.1.name

def Unambiguous (pieces : List Piece) : Prop :=
  (siblingNames 0 pieces).Nodup ∧ ∀ n ∈ siblingNames 0 pieces, n ≠ "" ∧ '/' ∉ n.toList

instance (pieces : List Piece) : Decidable (Unambiguous pieces) :=
  inferInstanceAs (Decidable (_ ∧ _))

def Unnamed (pieces : List Piece) : Prop := ∀ p ∈ pieces, p.name = none

theorem siblingNames_cons (place : Nat) (p : Piece) (rest : List Piece) :
    siblingNames place (p :: rest) = localName place p.name :: siblingNames (place + 1) rest := rfl

theorem localName_mem_siblingNames {p : Piece} {pieces : List Piece} (h : p ∈ pieces)
    (place : Nat) : ∃ i, localName i p.name ∈ siblingNames place pieces := by
  induction pieces generalizing place with
  | nil => cases h
  | cons q rest ih =>
      rw [siblingNames_cons]
      rcases List.mem_cons.mp h with rfl | h
      · exact ⟨place, List.mem_cons_self⟩
      · obtain ⟨i, hi⟩ := ih h (place + 1)
        exact ⟨i, List.mem_cons_of_mem _ hi⟩

theorem Unambiguous.titled {pieces : List Piece} (h : Unambiguous pieces) : Titled pieces := by
  intro p hp hname
  obtain ⟨i, hi⟩ := localName_mem_siblingNames hp 0
  rw [hname] at hi
  exact (h.2 _ hi).1 rfl

theorem siblingNames_of_unnamed {pieces : List Piece} (h : Unnamed pieces) (place : Nat) :
    siblingNames place pieces =
      (List.range' place pieces.length).map fun i => localName i none := by
  induction pieces generalizing place with
  | nil => rfl
  | cons p rest ih =>
      rw [siblingNames_cons, h p List.mem_cons_self,
        ih (fun q hq => h q (List.mem_cons_of_mem _ hq))]
      rfl

theorem toList_localName_none (i : Nat) :
    (localName i none).toList = "piece".toList ++ Nat.toDigits 10 i := by
  have hdigits : (toString i).toList = Nat.toDigits 10 i := by
    rw [Nat.toString_eq_ofList_toDigits, String.toList_ofList]
  rw [localName, String.toList_append, hdigits]

theorem localName_none_injective {i j : Nat} (h : localName i none = localName j none) : i = j := by
  have hdigits : Nat.toDigits 10 i = Nat.toDigits 10 j := by
    have htext := congrArg String.toList h
    rw [toList_localName_none, toList_localName_none] at htext
    exact List.append_cancel_left htext
  calc
    i = Nat.ofDigitChars 10 (Nat.toDigits 10 i) 0 := Nat.ofDigitChars_ten_toDigits.symm
    _ = j := by rw [hdigits, Nat.ofDigitChars_ten_toDigits]

theorem slash_not_mem_localName_none (i : Nat) : '/' ∉ (localName i none).toList := by
  rw [toList_localName_none, List.mem_append, not_or]
  refine ⟨by decide, fun h => ?_⟩
  have hdigit := Nat.isDigit_of_mem_toDigits (by decide) (by decide) h
  exact absurd hdigit (by decide)

theorem Unnamed.unambiguous {pieces : List Piece} (h : Unnamed pieces) : Unambiguous pieces := by
  rw [Unambiguous, siblingNames_of_unnamed h]
  refine ⟨(List.nodup_range' 1).map fun i j => localName_none_injective, ?_⟩
  rintro _ hn
  obtain ⟨i, -, rfl⟩ := List.mem_map.mp hn
  exact ⟨localName_ne_empty (by simp), slash_not_mem_localName_none i⟩

structure Apart (bs : List Branch) : Prop where
  nodup : (bs.map (·.names)).Nodup
  plain : ∀ b ∈ bs, ∀ n ∈ b.names, '/' ∉ n.toList

namespace Apart

theorem single {b : Branch} (h : ∀ n ∈ b.names, '/' ∉ n.toList) : Apart [b] :=
  ⟨List.nodup_singleton _, by simpa using h⟩

theorem under {bs : List Branch} (h : Apart bs) (guard : Guard) {name : String}
    (hname : '/' ∉ name.toList) : Apart (bs.map (·.under guard name)) := by
  constructor
  · have hnames : (bs.map (·.under guard name)).map (·.names) =
        (bs.map (·.names)).map (name :: ·) := by
      rw [List.map_map, List.map_map]
      rfl
    rw [hnames]
    exact h.nodup.map fun _ _ => (List.cons.inj · |>.2)
  · intro b hb
    obtain ⟨inner, hinner, rfl⟩ := List.mem_map.mp hb
    exact List.forall_mem_cons.mpr ⟨hname, h.plain inner hinner⟩

theorem append {bs more : List Branch} (h : Apart bs) (h' : Apart more)
    (hne : ∀ a ∈ bs, ∀ b ∈ more, a.names ≠ b.names) : Apart (bs ++ more) := by
  constructor
  · rw [List.map_append, List.nodup_append]
    refine ⟨h.nodup, h'.nodup, ?_⟩
    intro ns hns ms hms
    obtain ⟨a, ha, rfl⟩ := List.mem_map.mp hns
    obtain ⟨b, hb, rfl⟩ := List.mem_map.mp hms
    exact hne a ha b hb
  · intro b hb
    rcases List.mem_append.mp hb with hb | hb
    · exact h.plain b hb
    · exact h'.plain b hb

theorem joined {bs : List Branch} (h : Apart bs) :
    (bs.map fun b => "/".intercalate b.names).Nodup := by
  have hne (b : Branch) : b.names ≠ [] := by simp [Branch.names]
  have hjoin : (bs.map (·.names)).map "/".intercalate = bs.map fun b => "/".intercalate b.names :=
    List.map_map
  rw [← hjoin]
  apply h.nodup.map_on
  intro ns hns ms hms heq
  obtain ⟨a, ha, rfl⟩ := List.mem_map.mp hns
  obtain ⟨b, hb, rfl⟩ := List.mem_map.mp hms
  exact join_injective (hne a) (hne b) (h.plain a ha) (h.plain b hb) heq

end Apart

theorem head?_names_of_mem_branchesAt {place : Nat} {p : Piece} {b : Branch}
    (h : b ∈ branchesAt place p) : b.names.head? = some (localName place p.name) := by
  cases p with
  | leaf guard name effect =>
      cases List.mem_singleton.mp h
      rfl
  | group guard name parts =>
      obtain ⟨inner, -, rfl⟩ := List.mem_map.mp h
      rfl

theorem head?_names_of_mem_branchesFrom {place : Nat} {pieces : List Piece} {b : Branch}
    (h : b ∈ branchesFrom place pieces) :
    ∃ n ∈ siblingNames place pieces, b.names.head? = some n := by
  induction pieces generalizing place with
  | nil => cases h
  | cons p rest ih =>
      rw [siblingNames_cons]
      rcases List.mem_append.mp h with h | h
      · exact ⟨_, List.mem_cons_self, head?_names_of_mem_branchesAt h⟩
      · obtain ⟨n, hn, hhead⟩ := ih h
        exact ⟨n, List.mem_cons_of_mem _ hn, hhead⟩

theorem apart_cons {place : Nat} {p : Piece} {rest : List Piece}
    (hnodup : (siblingNames place (p :: rest)).Nodup) (hpiece : Apart (branchesAt place p))
    (hrest : Apart (branchesFrom (place + 1) rest)) : Apart (branchesFrom place (p :: rest)) := by
  apply hpiece.append hrest
  -- Equal paths begin with equal names, and the name of the piece is not taken to its right.
  intro a ha b hb heq
  obtain ⟨n, hn, hhead⟩ := head?_names_of_mem_branchesFrom hb
  rw [← heq, head?_names_of_mem_branchesAt ha] at hhead
  cases hhead
  exact (List.nodup_cons.mp hnodup).1 hn

theorem apart_branchesFrom {place : Nat} {pieces : List Piece}
    (hnodup : (siblingNames place pieces).Nodup)
    (hplain : ∀ n ∈ siblingNames place pieces, '/' ∉ n.toList)
    (hbelow : ∀ guard name parts, .group guard name parts ∈ pieces → Throughout Unambiguous parts) :
    Apart (branchesFrom place pieces) := by
  -- Only the whole row of siblings is `Unambiguous`; its tail starts at a later place.
  induction pieces using forest_induction generalizing place with
  | nil => exact ⟨List.nodup_nil, fun b hb => absurd hb List.not_mem_nil⟩
  | leaf guard name effect rest ih =>
      obtain ⟨hown, hplain'⟩ := List.forall_mem_cons.mp hplain
      apply apart_cons hnodup (.single (List.forall_mem_singleton.mpr hown))
      exact ih (List.nodup_cons.mp hnodup).2 hplain'
        fun g n parts hp => hbelow g n parts (List.mem_cons_of_mem _ hp)
  | group guard name parts rest ihparts ih =>
      obtain ⟨hown, hplain'⟩ := List.forall_mem_cons.mp hplain
      obtain ⟨⟨hnodup', hnames⟩, hbelow'⟩ := hbelow guard name parts List.mem_cons_self
      have hparts := ihparts hnodup' (fun n hn => (hnames n hn).2) hbelow'
      apply apart_cons hnodup (hparts.under guard hown)
      exact ih (List.nodup_cons.mp hnodup).2 hplain'
        fun g n parts hp => hbelow g n parts (List.mem_cons_of_mem _ hp)

theorem Throughout.apart {pieces : List Piece} (h : Throughout Unambiguous pieces) :
    Apart (branches pieces) := by
  obtain ⟨⟨hnodup, hnames⟩, hbelow⟩ := h
  exact apart_branchesFrom hnodup (fun n hn => (hnames n hn).2) hbelow

theorem bound_beq_of_ne {name other : String} (h : name ≠ other) (c d : Value)
    (effect effect' : Routine) :
    (Action.bound name c effect == Action.bound other d effect') = false := by
  have hname : (name == other) = false := beq_eq_false_iff_ne.mpr h
  change (name == other && c == d) = false
  rw [hname, Bool.false_and]

/-- Actions that are enabled together have different names, so no two of them are equal. -/
theorem resolve_names_distinct {c : Value} {pieces : List Piece} {actions : List Action}
    (hpieces : Throughout Unambiguous pieces ∨ Throughout Unnamed pieces)
    (h : resolve "" pieces c = .ok actions) :
    (∀ a ∈ actions, ∃ name effect, a = .bound name c effect) ∧
      (actions.map (·.shown)).Nodup ∧ actions.Pairwise fun a b => (a == b) = false := by
  have hclear : Throughout Unambiguous pieces :=
    hpieces.elim id (·.mono fun _ => Unnamed.unambiguous)
  have hdistinct : (((branches pieces).filter (·.enabled c)).map
      fun b => "/".intercalate b.names).Nodup :=
    hclear.apart.joined.sublist (List.filter_sublist.map _)
  rw [resolve_eq_ok (hclear.mono fun _ => Unambiguous.titled) h]
  refine ⟨?_, ?_, ?_⟩
  · intro a ha
    obtain ⟨b, -, rfl⟩ := List.mem_map.mp ha
    exact ⟨_, _, rfl⟩
  · rw [List.map_map]
    exact hdistinct
  · rw [List.pairwise_map]
    exact (List.pairwise_map.mp hdistinct).imp fun hne => bound_beq_of_ne hne c c _ _

theorem nested_names_distinct :
    Throughout Unambiguous nested ∧
      ∃ actions, resolve "" nested (.int 1) = .ok actions ∧
        actions.map (·.shown) = ["outer/piece1", "piece1"] ∧ (actions.map (·.shown)).Nodup := by
  have hclear : Throughout Unambiguous nested := throughout_nested (by decide) (by decide)
  exact ⟨hclear, _, rfl, rfl, (resolve_names_distinct (c := .int 1) (.inl hclear) rfl).2.1⟩

end Piece

end StateSpace
