import StateSpace.Proofs.FirstDiscovery
import StateSpace.Proofs.Ledger

/-!
# Lineages are forests

Roots and discoveries may be offered to a lineage in any order, with known configurations, unknown
parents and refused keys among them. A node joins the others only if its key is new and, for a
child, if the key of its parent is known. Keys are therefore distinct and parents stand behind their
children, so that the walk from parent to parent ends at a root and meets no key twice. Later offers
only put nodes in front of those that are there, and leave every path as it is.
-/

namespace StateSpace

namespace Forest

variable {K C A E : Type} [DecidableEq K] {identify : C → Except E (Key K)}
variable {n : Node K C A} {older nodes : List (Node K C A)} {k parentKey : Key K} {c parent : C}
variable {action : Option A}

inductive Joins (identify : C → Except E (Key K)) (older : List (Node K C A)) :
    Node K C A → Prop where
  | root {k : Key K} {c : C} (hk : identify c = .ok k)
      (hnew : (Forest.mk older).contains k = false) : Joins identify older ⟨k, .root c⟩
  | child {k parentKey : Key K} {parent : C} {action : Option A}
      (hnew : (Forest.mk older).contains k = false) (hparent : identify parent = .ok parentKey)
      (hknown : (Forest.mk older).contains parentKey = true) :
      Joins identify older ⟨k, .child parent parentKey action⟩

inductive Grown (identify : C → Except E (Key K)) : List (Node K C A) → Prop where
  | nil : Grown identify []
  | cons {n : Node K C A} {older : List (Node K C A)} (h : Grown identify older)
      (hn : Joins identify older n) : Grown identify (n :: older)

theorem origin?_cons (n : Node K C A) (older : List (Node K C A)) (k : Key K) :
    (Forest.mk (n :: older)).origin? k =
      if n.key.same k = true then some n.origin else (Forest.mk older).origin? k := by
  unfold origin?
  rw [List.find?_cons]
  cases n.key.same k <;> rfl

theorem contains_eq_isSome (f : Forest K C A) (k : Key K) :
    f.contains k = (f.origin? k).isSome := by
  rw [contains, origin?, Option.isSome_map, List.isSome_find?]

theorem exists_origin {f : Forest K C A} (h : f.contains k = true) :
    ∃ origin, f.origin? k = some origin := by
  rw [contains_eq_isSome] at h
  exact Option.isSome_iff_exists.mp h

theorem Joins.new (h : Joins identify older n) : (Forest.mk older).contains n.key = false := by
  cases h <;> assumption

/-- A node that joins has none of the known keys. -/
theorem Joins.other (h : Joins identify older n) (hk : (Forest.mk older).contains k = true) :
    n.key.same k = false := by
  by_contra hs
  obtain ⟨a, hn, rfl⟩ := Key.same_iff.mp (Bool.of_not_eq_false hs)
  have hnew := h.new
  rw [hn, hk] at hnew
  cases hnew

theorem Grown.distinct (h : Grown identify nodes) :
    nodes.Pairwise fun m n => ∀ a, m.key = some a → n.key ≠ some a := by
  induction h with
  | nil => exact .nil
  | @cons n older _ hn ih =>
      refine .cons ?_ ih
      intro m hm a hna hma
      have hnew := hn.new
      rw [contains, List.any_eq_false] at hnew
      apply hnew m hm
      rw [hna, hma]
      simp

theorem contains_of_mem {a : K} {origin : Origin K C A} (h : ⟨some a, origin⟩ ∈ nodes) :
    (Forest.mk nodes).contains (some a) = true := by
  rw [contains, List.any_eq_true]
  exact ⟨_, h, by simp⟩

theorem Grown.origin?_of_mem (h : Grown identify nodes) {a : K} {origin : Origin K C A}
    (hmem : ⟨some a, origin⟩ ∈ nodes) : (Forest.mk nodes).origin? (some a) = some origin := by
  induction h with
  | nil => cases hmem
  | @cons n older _ hn ih =>
      rw [origin?_cons]
      rcases List.mem_cons.mp hmem with rfl | hmem
      · simp
      · rw [if_neg (by rw [hn.other (contains_of_mem hmem)]; exact Bool.false_ne_true)]
        exact ih hmem

/-- A key is not that of a root and of a child. -/
theorem Grown.apart (h : Grown identify nodes) {a : K} {r : C}
    (hroot : ⟨some a, .root r⟩ ∈ nodes) :
    ⟨some a, .child parent parentKey action⟩ ∉ nodes := by
  intro hchild
  have heq := (h.origin?_of_mem hroot).symm.trans (h.origin?_of_mem hchild)
  cases heq

theorem Grown.parent_known (h : Grown identify nodes)
    (hmem : ⟨k, .child parent parentKey action⟩ ∈ nodes) :
    identify parent = .ok parentKey ∧ (Forest.mk nodes).contains parentKey = true := by
  induction h with
  | nil => cases hmem
  | @cons n older _ hn ih =>
      have hbehind :
          identify parent = .ok parentKey ∧ (Forest.mk older).contains parentKey = true := by
        rcases List.mem_cons.mp hmem with rfl | hmem
        · cases hn with
          | child _ hparent hknown => exact ⟨hparent, hknown⟩
        · exact ih hmem
      rw [contains_cons, hbehind.2, Bool.or_true]
      exact ⟨hbehind.1, rfl⟩

theorem Grown.parent_of_origin (h : Grown identify nodes)
    (ho : (Forest.mk nodes).origin? k = some (.child parent parentKey action)) :
    identify parent = .ok parentKey ∧ (Forest.mk nodes).contains parentKey = true := by
  obtain ⟨a, rfl, hmem⟩ := mem_of_origin? ho
  exact h.parent_known hmem

omit [DecidableEq K] in
theorem mem_roots_of_mem (h : ⟨k, .root c⟩ ∈ nodes) : c ∈ (Forest.mk nodes).roots := by
  rw [roots, List.mem_reverse, List.mem_filterMap]
  exact ⟨_, h, rfl⟩

theorem Grown.root_of_origin (h : Grown identify nodes)
    (ho : (Forest.mk nodes).origin? k = some (.root c)) :
    identify c = .ok k ∧ c ∈ (Forest.mk nodes).roots := by
  obtain ⟨a, rfl, hmem⟩ := mem_of_origin? ho
  refine ⟨?_, mem_roots_of_mem hmem⟩
  clear ho
  induction h with
  | nil => cases hmem
  | cons _ hn ih =>
      rcases List.mem_cons.mp hmem with rfl | hmem
      · cases hn with
        | root hk _ => exact hk
      · exact ih hmem

theorem path_of_root {r : C} (c : C) (ho : (Forest.mk nodes).origin? k = some (.root r)) :
    path k c nodes = [⟨r, none⟩] := by
  induction nodes with
  | nil => cases ho
  | cons n older ih =>
      rw [origin?_cons] at ho
      by_cases hs : n.key.same k = true
      · rw [if_pos hs] at ho
        rw [path, if_pos hs, Option.some.inj ho]
      · rw [if_neg hs] at ho
        rw [path, if_neg hs]
        exact ih ho

/-- The path to a child goes on from the path to its parent. -/
theorem Grown.path_of_child (h : Grown identify nodes) (c : C)
    (ho : (Forest.mk nodes).origin? k = some (.child parent parentKey action)) :
    path k c nodes = path parentKey parent nodes ++ [⟨c, action⟩] := by
  induction h with
  | nil => cases ho
  | @cons n older hgrown hn ih =>
      rw [origin?_cons] at ho
      by_cases hs : n.key.same k = true
      · rw [if_pos hs] at ho
        rw [path, if_pos hs, Option.some.inj ho]
        cases hn with
        | root _ _ => cases ho
        | child hnew hparent hknown =>
            cases ho
            rw [path_cons_other parent older ((Joins.child hnew hparent hknown).other hknown)]
      · rw [if_neg hs] at ho
        obtain ⟨-, hknown⟩ := hgrown.parent_of_origin ho
        rw [path, if_neg hs, path_cons_other parent older (hn.other hknown)]
        exact ih ho

theorem length_path_le (k : Key K) (c : C) (nodes : List (Node K C A)) :
    (path k c nodes).length ≤ nodes.length := by
  induction nodes generalizing k c with
  | nil => exact Nat.le_refl 0
  | cons n older ih =>
      rw [path, List.length_cons]
      split_ifs
      · cases n.origin with
        | root r => exact Nat.succ_le_succ (Nat.zero_le _)
        | child parent parentKey action =>
            simp only [List.length_append, List.length_singleton]
            exact Nat.succ_le_succ (ih parentKey parent)
      · exact Nat.le_succ_of_le (ih k c)

/-- A key determines how long the path to it is, whatever configuration stands at its end. -/
theorem length_path_eq (k : Key K) (c d : C) (nodes : List (Node K C A)) :
    (path k c nodes).length = (path k d nodes).length := by
  induction nodes with
  | nil => rfl
  | cons n older ih =>
      rw [path, path]
      split_ifs
      · cases n.origin <;> simp
      · exact ih

def Under (f : Forest K C A) (a b : K) : Prop :=
  ∃ parent action, ⟨some a, .child parent (some b) action⟩ ∈ f.nodes

/-- The path to a child is one step longer than the path to its parent. -/
theorem Grown.length_of_under (h : Grown identify nodes) {a b : K}
    (hab : (Forest.mk nodes).Under a b) (c : C) :
    (path (some a) c nodes).length = (path (some b) c nodes).length + 1 := by
  obtain ⟨parent, action, hmem⟩ := hab
  rw [h.path_of_child c (h.origin?_of_mem hmem), List.length_append, length_path_eq _ parent c]
  rfl

theorem Grown.length_lt_of_descends (h : Grown identify nodes) {a b : K}
    (hab : Relation.TransGen (Forest.mk nodes).Under a b) (c : C) :
    (path (some b) c nodes).length < (path (some a) c nodes).length := by
  induction hab with
  | single hstep =>
      rw [h.length_of_under hstep]
      exact Nat.lt_succ_self _
  | tail _ hstep ih =>
      rw [h.length_of_under hstep] at ih
      exact Nat.lt_of_succ_lt ih

theorem Grown.acyclic (h : Grown identify nodes) (a : K) :
    ¬ Relation.TransGen (Forest.mk nodes).Under a a := by
  intro hcycle
  obtain ⟨b, ⟨parent, -⟩, -⟩ := Relation.TransGen.head'_iff.mp hcycle
  exact Nat.lt_irrefl _ (h.length_lt_of_descends hcycle parent)

structure Rooted (identify : C → Except E (Key K)) (nodes : List (Node K C A))
    (steps : List (Step C A)) : Prop where
  known : ∀ s ∈ steps, ∃ k, identify s.configuration = .ok k ∧
    (Forest.mk nodes).contains k = true
  distinct : steps.Pairwise fun s t => identify s.configuration ≠ identify t.configuration
  root : ∃ r ∈ (Forest.mk nodes).roots, steps.head? = some ⟨r, none⟩

omit [DecidableEq K] in
theorem mem_roots_cons (n : Node K C A) (h : c ∈ (Forest.mk older).roots) :
    c ∈ (Forest.mk (n :: older)).roots := by
  rw [roots, List.mem_reverse, List.mem_filterMap] at h ⊢
  obtain ⟨m, hm, hc⟩ := h
  exact ⟨m, List.mem_cons_of_mem _ hm, hc⟩

theorem Rooted.cons {steps : List (Step C A)} (h : Rooted identify older steps)
    (n : Node K C A) : Rooted identify (n :: older) steps := by
  obtain ⟨r, hr, hhead⟩ := h.root
  refine ⟨?_, h.distinct, r, mem_roots_cons n hr, hhead⟩
  intro s hs
  obtain ⟨k, hk, hknown⟩ := h.known s hs
  exact ⟨k, hk, by rw [contains_cons, hknown, Bool.or_true]⟩

/-- A step to a new key goes on from known ones. -/
theorem Rooted.snoc {steps : List (Step C A)} (h : Rooted identify older steps)
    (hk : identify c = .ok k) (hnew : (Forest.mk older).contains k = false)
    (hn : n.key.same k = true) : Rooted identify (n :: older) (steps ++ [⟨c, action⟩]) := by
  refine ⟨?_, ?_, ?_⟩
  · intro s hs
    rcases List.mem_append.mp hs with hs | hs
    · exact (h.cons n).known s hs
    · rw [List.mem_singleton.mp hs]
      exact ⟨k, hk, by rw [contains_cons, hn, Bool.true_or]⟩
  · rw [List.pairwise_append]
    refine ⟨h.distinct, List.pairwise_singleton .., ?_⟩
    intro s hs t ht heq
    obtain ⟨j, hj, hknown⟩ := h.known s hs
    rw [List.mem_singleton.mp ht, hj, hk] at heq
    rw [Except.ok.inj heq, hnew] at hknown
    cases hknown
  · obtain ⟨r, hr, hhead⟩ := (h.cons n).root
    refine ⟨r, hr, ?_⟩
    rw [List.head?_append, hhead]
    rfl

theorem Grown.rooted_path (h : Grown identify nodes) (hk : identify c = .ok k)
    (hknown : (Forest.mk nodes).contains k = true) :
    Rooted identify nodes (path k c nodes) := by
  induction h generalizing k c with
  | nil => cases hknown
  | @cons n older _ hn ih =>
      by_cases hs : n.key.same k = true
      · obtain ⟨a, hna, rfl⟩ := Key.same_iff.mp hs
        have hnew := hn.new
        rw [hna] at hnew
        rw [path, if_pos hs]
        cases hn with
        | @root key r hr _ =>
            have hkey : key = some a := hna
            subst hkey
            have hmem : ⟨some a, .root r⟩ ∈ ⟨some a, .root r⟩ :: older := List.mem_cons_self ..
            refine ⟨?_, List.pairwise_singleton .., r, mem_roots_of_mem hmem, rfl⟩
            intro s hs
            rw [List.mem_singleton.mp hs]
            exact ⟨some a, hr, contains_of_mem hmem⟩
        | child _ hparent hparentKnown => exact (ih hparent hparentKnown).snoc hk hnew hs
      · rw [path, if_neg hs]
        rw [contains_cons, Bool.eq_false_iff.mpr hs, Bool.false_or] at hknown
        exact (ih hk hknown).cons n

end Forest

namespace Lineage

variable {l : Lineage} {c r parent : Value} {k parentKey : Key Canon} {action : Option Action}

inductive Offer where
  | root (c : Value)
  | discovery (child parent : Value) (action : Option Action)

def answer (l : Lineage) : Offer → Except Fault (Lineage × Bool)
  | .root c => l.addRoot c
  | .discovery child parent action => l.record child parent action

def after (l : Lineage) (offer : Offer) : Lineage :=
  match l.answer offer with
  | .ok (grown, _) => grown
  | .error _ => l

def replay (l : Lineage) (offers : List Offer) : Lineage := offers.foldl after l

def push (l : Lineage) (n : Node Canon Value Action) : Lineage := ⟨l.key, ⟨n :: l.forest.nodes⟩⟩

theorem addRoot_of_known (hk : identify l.key c = .ok k) (h : l.forest.contains k = true) :
    l.addRoot c = .ok (l, false) := by
  simp [addRoot, hk, Forest.addRoot, h, bind, Except.bind, pure, Except.pure]

theorem addRoot_of_unknown (hk : identify l.key c = .ok k) (h : l.forest.contains k = false) :
    l.addRoot c = .ok (l.push ⟨k, .root c⟩, true) := by
  simp [addRoot, hk, Forest.addRoot, h, push, bind, Except.bind, pure, Except.pure]

theorem record_of_known (parent : Value) (action : Option Action) (hk : identify l.key c = .ok k)
    (h : l.forest.contains k = true) : l.record c parent action = .ok (l, false) := by
  simp [record, hk, h, bind, Except.bind, pure, Except.pure]

theorem record_of_unknown (action : Option Action) (hk : identify l.key c = .ok k)
    (h : l.forest.contains k = false) (hparent : identify l.key parent = .ok parentKey)
    (hknown : l.forest.contains parentKey = true) :
    l.record c parent action = .ok (l.push ⟨k, .child parent parentKey action⟩, true) := by
  simp [record, hk, h, hparent, Forest.record?, hknown, push, bind, Except.bind, pure, Except.pure]

theorem record_of_orphan (action : Option Action) (hk : identify l.key c = .ok k)
    (h : l.forest.contains k = false) (hparent : identify l.key parent = .ok parentKey)
    (hunknown : l.forest.contains parentKey = false) :
    l.record c parent action = .error (.unreachable parent) := by
  simp [record, hk, h, hparent, Forest.record?, hunknown, bind, Except.bind]

/-- An offer is refused with a fault or as one that is known, or a node joins the others. -/
theorem answer_cases (l : Lineage) (offer : Offer) :
    (∃ e, l.answer offer = .error e) ∨ l.answer offer = .ok (l, false) ∨
      ∃ n, Forest.Joins (identify l.key) l.forest.nodes n ∧
        l.answer offer = .ok (l.push n, true) := by
  cases offer with
  | root c =>
      cases hk : identify l.key c with
      | error e => exact Or.inl ⟨e, by simp [answer, addRoot, hk, bind, Except.bind]⟩
      | ok k =>
          refine Or.inr ?_
          cases h : l.forest.contains k with
          | true => exact Or.inl (addRoot_of_known hk h)
          | false => exact Or.inr ⟨_, .root hk h, addRoot_of_unknown hk h⟩
  | discovery c parent action =>
      cases hk : identify l.key c with
      | error e => exact Or.inl ⟨e, by simp [answer, record, hk, bind, Except.bind]⟩
      | ok k =>
          cases h : l.forest.contains k with
          | true => exact Or.inr (Or.inl (record_of_known parent action hk h))
          | false =>
              cases hp : identify l.key parent with
              | error e => exact Or.inl ⟨e, by simp [answer, record, hk, h, hp, bind, Except.bind]⟩
              | ok parentKey =>
                  cases hknown : l.forest.contains parentKey with
                  | true =>
                      exact Or.inr (Or.inr
                        ⟨_, .child h hp hknown, record_of_unknown action hk h hp hknown⟩)
                  | false => exact Or.inl ⟨_, record_of_orphan action hk h hp hknown⟩

/-- The node of an offer that is taken is put in front, and no other offer changes anything. -/
theorem after_cases (l : Lineage) (offer : Offer) :
    l.after offer = l ∨
      ∃ n, Forest.Joins (identify l.key) l.forest.nodes n ∧ l.after offer = l.push n := by
  unfold after
  rcases l.answer_cases offer with ⟨e, h⟩ | h | ⟨n, hn, h⟩
  · exact Or.inl (by rw [h])
  · exact Or.inl (by rw [h])
  · exact Or.inr ⟨n, hn, by rw [h]⟩

/-- What holds of a lineage and is kept whenever a node joins holds after every series of offers. -/
theorem replay_induction {motive : Lineage → Prop} (l : Lineage) (offers : List Offer)
    (start : motive l)
    (join : ∀ l n, motive l → Forest.Joins (identify l.key) l.forest.nodes n → motive (l.push n)) :
    motive (l.replay offers) := by
  induction offers generalizing l with
  | nil => exact start
  | cons offer offers ih =>
      apply ih
      rcases l.after_cases offer with h | ⟨n, hn, h⟩
      · rw [h]
        exact start
      · rw [h]
        exact join l n start hn

theorem replay_key (l : Lineage) (offers : List Offer) : (l.replay offers).key = l.key := by
  apply replay_induction (motive := fun grown => grown.key = l.key) l offers rfl
  intro grown n h _
  exact h

theorem replay_grown (l : Lineage) (offers : List Offer)
    (h : Forest.Grown (identify l.key) l.forest.nodes) :
    Forest.Grown (identify (l.replay offers).key) (l.replay offers).forest.nodes := by
  apply replay_induction (motive := fun grown => Forest.Grown (identify grown.key)
    grown.forest.nodes) l offers h
  intro grown n hgrown hn
  exact hgrown.cons hn

theorem replay_extends (l : Lineage) (offers : List Offer) :
    l.forest.Extends (l.replay offers).forest := by
  apply replay_induction (motive := fun grown => l.forest.Extends grown.forest) l offers
    (Forest.Extends.refl _)
  intro grown n h hn
  exact h.trans (grown.forest.extends_cons n hn.new)

theorem contains_eq_ok {b : Bool} :
    l.contains c = .ok b ↔ ∃ k, identify l.key c = .ok k ∧ l.forest.contains k = b := by
  cases hk : identify l.key c with
  | error e => simp [contains, hk, bind, Except.bind]
  | ok k => simp [contains, hk, bind, Except.bind, pure, Except.pure]

theorem steps_of_known (hk : identify l.key c = .ok k) (h : l.forest.contains k = true) :
    l.steps c = .ok (Forest.path k c l.forest.nodes) := by
  simp [steps, hk, Forest.steps?, h, bind, Except.bind, pure, Except.pure]

theorem depth_of_steps {steps : List TraceStep} (h : l.steps c = .ok steps) :
    l.depth c = .ok (steps.length - 1) := by
  simp [depth, h, depthOf, bind, Except.bind, pure, Except.pure]

theorem parentOf_of_root (hk : identify l.key c = .ok k)
    (ho : l.forest.origin? k = some (.root r)) : l.parentOf c = .ok none := by
  simp [parentOf, hk, ho, bind, Except.bind, pure, Except.pure]

theorem parentOf_of_child (hk : identify l.key c = .ok k)
    (ho : l.forest.origin? k = some (.child parent parentKey action)) :
    l.parentOf c = .ok (some ⟨parent, action⟩) := by
  simp [parentOf, hk, ho, bind, Except.bind, pure, Except.pure]

/-- Nothing can be asked about an unknown configuration. -/
theorem unreachable_of_unknown (h : l.contains c = .ok false) :
    l.steps c = .error (.unreachable c) ∧ l.depth c = .error (.unreachable c) ∧
      l.parentOf c = .error (.unreachable c) := by
  obtain ⟨k, hk, hunknown⟩ := contains_eq_ok.mp h
  have hsteps : l.steps c = .error (.unreachable c) := by
    simp [steps, hk, Forest.steps?, hunknown, bind, Except.bind]
  have ho : l.forest.origin? k = none := by
    rw [Forest.contains_eq_isSome] at hunknown
    exact Option.isNone_iff_eq_none.mp (Option.isSome_eq_false_iff.mp hunknown)
  refine ⟨hsteps, ?_, ?_⟩
  · simp [depth, hsteps, bind, Except.bind]
  · simp [parentOf, hk, ho, bind, Except.bind]

/-- The walk from a configuration to its parent, from there to the parent of that one and so on, for
some rounds at most. There is no result if they do not do. -/
def climb (l : Lineage) : Nat → Value → Except Fault (Option (List TraceStep))
  | 0, _ => return none
  | rounds + 1, c => do
    match l.forest.origin? (← identify l.key c) with
    | some (.child parent _ action) =>
      return (← l.climb rounds parent).map (· ++ [⟨c, action⟩])
    | some (.root r) => return some [⟨r, none⟩]
    | none => return some [⟨c, none⟩]

theorem climb_eq_path (hl : Forest.Grown (identify l.key) l.forest.nodes)
    (hk : identify l.key c = .ok k) (h : l.forest.contains k = true) {rounds : Nat}
    (hrounds : (Forest.path k c l.forest.nodes).length ≤ rounds) :
    l.climb rounds c = .ok (some (Forest.path k c l.forest.nodes)) := by
  induction rounds generalizing c k with
  | zero =>
      -- A path has at least its root.
      obtain ⟨r, -, hhead⟩ := (hl.rooted_path hk h).root
      rw [List.length_eq_zero_iff.mp (Nat.le_zero.mp hrounds)] at hhead
      cases hhead
  | succ rounds ih =>
      obtain ⟨origin, ho⟩ := Forest.exists_origin h
      cases origin with
      | root r =>
          rw [Forest.path_of_root c ho]
          simp [climb, hk, ho, bind, Except.bind, pure, Except.pure]
      | child parent parentKey action =>
          obtain ⟨hparent, hknown⟩ := hl.parent_of_origin ho
          rw [hl.path_of_child c ho, List.length_append] at hrounds
          have hclimb := ih hparent hknown (Nat.le_of_succ_le_succ hrounds)
          rw [hl.path_of_child c ho]
          simp [climb, hk, ho, hclimb, bind, Except.bind, pure, Except.pure]

/-- Each key stands at one node, either that of a root or that of a child, the parents of children
are known, and nobody is their own ancestor. -/
structure IsForest (l : Lineage) : Prop where
  distinct : l.forest.nodes.Pairwise fun m n => ∀ a, m.key = some a → n.key ≠ some a
  apart : ∀ a r parent parentKey action, ⟨some a, .root r⟩ ∈ l.forest.nodes →
    ⟨some a, .child parent parentKey action⟩ ∉ l.forest.nodes
  parents : ∀ k parent parentKey action, ⟨k, .child parent parentKey action⟩ ∈ l.forest.nodes →
    identify l.key parent = .ok parentKey ∧ l.forest.contains parentKey = true
  acyclic : ∀ a, ¬ Relation.TransGen l.forest.Under a a

inductive Arrives (l : Lineage) (c : Value) : List TraceStep → Prop where
  | root {r : Value} (hroot : l.isRoot c = .ok true) (hparent : l.parentOf c = .ok none)
      (hr : r ∈ l.forest.roots) (hsame : identify l.key r = identify l.key c) :
      Arrives l c [⟨r, none⟩]
  | child {parent : Value} {action : Option Action} {steps : List TraceStep}
      (hroot : l.isRoot c = .ok false) (hparent : l.parentOf c = .ok (some ⟨parent, action⟩))
      (hsteps : l.steps parent = .ok steps) : Arrives l c (steps ++ [⟨c, action⟩])

structure Traces (l : Lineage) (c : Value) (steps : List TraceStep) : Prop where
  answer : l.steps c = .ok steps
  climbs : ∀ rounds, l.forest.size ≤ rounds → l.climb rounds c = .ok (some steps)
  depth : l.depth c = .ok (steps.length - 1)
  short : steps.length ≤ l.forest.size
  rooted : Forest.Rooted (identify l.key) l.forest.nodes steps
  arrives : l.Arrives c steps

theorem isForest_of_grown (h : Forest.Grown (identify l.key) l.forest.nodes) : l.IsForest where
  distinct := h.distinct
  apart _ _ _ _ _ := h.apart
  parents _ _ _ _ := h.parent_known
  acyclic := h.acyclic

theorem arrives_path (hl : Forest.Grown (identify l.key) l.forest.nodes)
    (hk : identify l.key c = .ok k) (h : l.forest.contains k = true) :
    l.Arrives c (Forest.path k c l.forest.nodes) := by
  have hroot : l.isRoot c = .ok (l.forest.isRoot k) := isRoot_eq hk
  obtain ⟨origin, ho⟩ := Forest.exists_origin h
  rw [Forest.isRoot, ho] at hroot
  cases origin with
  | root r =>
      obtain ⟨hr, hmem⟩ := hl.root_of_origin ho
      rw [Forest.path_of_root c ho]
      exact .root hroot (parentOf_of_root hk ho) hmem (hr.trans hk.symm)
  | child parent parentKey action =>
      obtain ⟨hparent, hknown⟩ := hl.parent_of_origin ho
      rw [hl.path_of_child c ho]
      exact .child hroot (parentOf_of_child hk ho) (steps_of_known hparent hknown)

theorem traces_path (hl : Forest.Grown (identify l.key) l.forest.nodes)
    (hk : identify l.key c = .ok k) (h : l.forest.contains k = true) :
    l.Traces c (Forest.path k c l.forest.nodes) where
  answer := steps_of_known hk h
  climbs _ hrounds := climb_eq_path hl hk h (Nat.le_trans (Forest.length_path_le ..) hrounds)
  depth := depth_of_steps (steps_of_known hk h)
  short := Forest.length_path_le ..
  rooted := hl.rooted_path hk h
  arrives := arrives_path hl hk h

/-- Whatever is offered to a lineage, in whatever order, it is a forest. Each known configuration
has a trace from a root, and an unknown one has none. Offers that are refused change nothing, and
those of new roots and of new children of known parents are taken. -/
theorem replay_isForest (key : Option KeyFunction) (offers : List Offer) :
    let l := (empty key).replay offers
    l.IsForest ∧
    (∀ c, l.contains c = .ok true → ∃ steps, l.Traces c steps) ∧
    (∀ c, l.contains c = .ok false → l.steps c = .error (.unreachable c) ∧
      l.depth c = .error (.unreachable c) ∧ l.parentOf c = .error (.unreachable c)) ∧
    (∀ offer, (∀ grown, l.answer offer ≠ .ok (grown, true)) →
      l.after offer = l ∧ ∀ grown, l.answer offer = .ok (grown, false) → grown = l) ∧
    (∀ c, l.contains c = .ok false → ∃ k, identify key c = .ok k ∧
      l.answer (.root c) = .ok (l.push ⟨k, .root c⟩, true)) ∧
    ∀ c parent action, l.contains c = .ok false → l.contains parent = .ok true →
      ∃ k parentKey, identify key c = .ok k ∧ l.answer (.discovery c parent action) =
        .ok (l.push ⟨k, .child parent parentKey action⟩, true) := by
  intro l
  have hkey : l.key = key := replay_key (empty key) offers
  have hl : Forest.Grown (identify l.key) l.forest.nodes := replay_grown (empty key) offers .nil
  refine ⟨isForest_of_grown hl, ?_, fun _ => unreachable_of_unknown, ?_, ?_, ?_⟩
  · intro c h
    obtain ⟨k, hk, hknown⟩ := contains_eq_ok.mp h
    exact ⟨_, traces_path hl hk hknown⟩
  · intro offer hrefused
    unfold after
    rcases l.answer_cases offer with ⟨e, h⟩ | h | ⟨n, -, h⟩
    · exact ⟨by rw [h], by simp [h]⟩
    · exact ⟨by rw [h], by simp [h]⟩
    · exact absurd h (hrefused _)
  · intro c h
    obtain ⟨k, hk, hunknown⟩ := contains_eq_ok.mp h
    exact ⟨k, hkey ▸ hk, addRoot_of_unknown hk hunknown⟩
  · intro c parent action h hp
    obtain ⟨k, hk, hunknown⟩ := contains_eq_ok.mp h
    obtain ⟨parentKey, hparent, hknown⟩ := contains_eq_ok.mp hp
    exact ⟨k, parentKey, hkey ▸ hk, record_of_unknown action hk hunknown hparent hknown⟩

def byRest : KeyFunction
  | .int n => .ok (.int (n % 3))
  | v => .ok v

def restsOffers : List Offer :=
  [.root (.int 0), .discovery (.int 1) (.int 3) (some (.value (.str "up"))),
    .discovery (.int 6) (.int 4) none, .root (.int 1), .discovery (.int 5) (.int 2) none]

def rests : Lineage := (empty (some byRest)).replay restsOffers

/-- The parent of four is three, as it was offered, and the root of three is zero. -/
theorem rests_isForest :
    rests.contains (.int 4) = .ok true ∧ rests.contains (.int 2) = .ok false ∧
      rests.Traces (.int 4) [⟨.int 0, none⟩, ⟨.int 4, some (.value (.str "up"))⟩] ∧
      rests.depth (.int 2) = .error (.unreachable (.int 2)) ∧
      rests.after (.discovery (.int 5) (.int 2) none) = rests := by
  have h := replay_isForest (some byRest) restsOffers
  obtain ⟨steps, hsteps⟩ := h.2.1 (.int 4) rfl
  have heq : Except.ok [⟨.int 0, none⟩, ⟨.int 4, some (.value (.str "up"))⟩] = Except.ok steps :=
    hsteps.answer
  cases heq
  exact ⟨rfl, rfl, hsteps, (h.2.2.1 (.int 2) rfl).2.1,
    (h.2.2.2.1 _ (fun _ hanswer => by cases hanswer)).1⟩

/-- What a lineage tells of a configuration that it knows is settled, whatever is offered later. -/
theorem replay_keeps (l : Lineage) (later : List Offer) {c : Value}
    (h : l.contains c = .ok true) :
    (∃ steps, l.steps c = .ok steps) ∧
      (l.replay later).contains c = .ok true ∧
      (l.replay later).steps c = l.steps c ∧
      (l.replay later).depth c = l.depth c ∧
      (l.replay later).isRoot c = l.isRoot c ∧
      (l.replay later).parentOf c = l.parentOf c := by
  obtain ⟨k, hk, hknown⟩ := contains_eq_ok.mp h
  have hext := l.replay_extends later
  have hgrown : l.replay later = ⟨l.key, (l.replay later).forest⟩ := by rw [← l.replay_key later]
  rw [hgrown]
  refine ⟨⟨_, steps_of_known hk hknown⟩, ?_, eq_of_extends hext hk hknown⟩
  rw [contains_eq hk, hext.contains hknown]

def restsLater : List Offer :=
  [.discovery (.int 2) (.int 4) none, .root (.int 4), .discovery (.int 7) (.int 2) none,
    .discovery (.str "apart") (.str "unknown") none]

/-- Two is found later, by way of four, and no offer makes a root of four or gives it another
parent. -/
theorem rests_keeps :
    rests.contains (.int 4) = .ok true ∧
      (rests.replay restsLater).contains (.int 2) = .ok true ∧
      (rests.replay restsLater).steps (.int 4) = rests.steps (.int 4) ∧
      (rests.replay restsLater).parentOf (.int 4) =
        .ok (some ⟨.int 3, some (.value (.str "up"))⟩) := by
  have hknown : rests.contains (.int 4) = .ok true := rfl
  have h := replay_keeps rests restsLater hknown
  exact ⟨hknown, rfl, h.2.2.1, h.2.2.2.2.2⟩

end Lineage

end StateSpace
