import StateSpace.Piece.Term
import StateSpace.Proofs.Flattening

/-!
# Pieces and their written forms

Pieces can be written as tuples in many ways: some are left as they are, a missing name may be null
or nothing at all, and whatever stands behind the name is of no account. `Written` relates such
terms to the pieces that they stand for, and reading any of them gives these pieces back. One form
has tuples all the way down.
-/

namespace StateSpace

namespace Piece

variable {t : Term} {g : Guard} {name : Option String} {effect : Routine}
variable {terms inner items : List Term} {pieces parts : List Piece}

inductive GuardTerm : Term → Guard → Prop
  | routine (r : Routine) : GuardTerm (.routine r) (.ofRoutine r)
  | always : GuardTerm .always .always

inductive EffectTerm : Term → Routine → Prop
  | routine (effect : Routine) : EffectTerm (.routine effect) effect
  | always : EffectTerm .always ⟨"always", fun _ => .ok (.bool true)⟩

inductive NameItems : List Term → Option String → Prop
  | nothing : NameItems [] none
  | null (extra : List Term) : NameItems (.value .null :: extra) none
  | str (name : String) (extra : List Term) : NameItems (.value (.str name) :: extra) (some name)

/-- Terms that stand for pieces. A piece that is left as it is has no tuples inside. -/
inductive Written : List Term → List Piece → Prop
  | nil : Written [] []
  | piece (p : Piece) {terms : List Term} {pieces : List Piece} (hrest : Written terms pieces) :
      Written (.piece p :: terms) (p :: pieces)
  | leaf {guard body : Term} {g : Guard} {effect : Routine} {items terms : List Term}
      {name : Option String} {pieces : List Piece} (hguard : GuardTerm guard g)
      (hbody : EffectTerm body effect) (hname : NameItems items name)
      (hrest : Written terms pieces) :
      Written (.tuple (guard :: body :: items) :: terms) (.leaf g name effect :: pieces)
  | group {guard : Term} {g : Guard} {items inner terms : List Term} {name : Option String}
      {parts pieces : List Piece} (hguard : GuardTerm guard g) (hname : NameItems items name)
      (hparts : Written inner parts) (hrest : Written terms pieces) :
      Written (.tuple (guard :: .list inner :: items) :: terms) (.group g name parts :: pieces)

theorem GuardTerm.guard_eq (h : GuardTerm t g) : t.guard = .ok g := by
  cases h <;> rfl

theorem NameItems.pieceName_eq (h : NameItems items name) : Term.pieceName items.head? = name := by
  cases h <;> rfl

theorem pieces_map_piece (pieces : List Piece) : Term.pieces (pieces.map .piece) = .ok pieces := by
  induction pieces with
  | nil => rfl
  | cons p rest ih =>
      rw [List.map_cons, Term.pieces, ih]
      rfl

theorem make_group (h : GuardTerm t g) (name : Option String) (parts : List Piece) :
    make t (.list (parts.map .piece)) name = .ok (.group g name parts) := by
  simp only [make, h.guard_eq, Term.elements?, pieces_map_piece, bind, Except.bind, pure, Except.pure]

theorem ofItems_leaf {body : Term} (hguard : GuardTerm t g) (hbody : EffectTerm body effect)
    (hname : NameItems items name) : ofItems (t :: body :: items) = .ok (.leaf g name effect) := by
  rw [ofItems, hname.pieceName_eq]
  cases hbody <;> rw [ofParts, make, hguard.guard_eq] <;> rfl

theorem ofItems_group (hguard : GuardTerm t g) (hname : NameItems items name)
    (hparts : ofTerms inner = .ok parts) :
    ofItems (t :: .list inner :: items) = .ok (.group g name parts) := by
  rw [ofItems, hname.pieceName_eq, ofParts, hparts]
  exact make_group hguard name parts

theorem ofTerms_cons {p : Piece} (hp : ofTerm t = .ok p) (hrest : ofTerms terms = .ok pieces) :
    ofTerms (t :: terms) = .ok (p :: pieces) := by
  rw [ofTerms, hp, hrest]
  rfl

theorem Written.ofTerms_eq (h : Written terms pieces) : ofTerms terms = .ok pieces := by
  induction h with
  | nil => rfl
  | piece p _ ih => exact ofTerms_cons rfl ih
  | leaf hguard hbody hname _ ih => exact ofTerms_cons (ofItems_leaf hguard hbody hname) ih
  | group hguard hname _ _ ihparts ih =>
      exact ofTerms_cons (ofItems_group hguard hname ihparts) ih

def guardTerm (g : Guard) : Term :=
  match g.label with
  | some label => .routine ⟨label, fun c => (g.test c).map .bool⟩
  | none => .always

/-- A guard that can be written down: the one without a label is that which always holds. -/
def Writable (g : Guard) : Prop := g.label = none → g = .always

def nameItems : Option String → List Term
  | none => []
  | some name => [.value (.str name)]

mutual

def tuple : Piece → Term
  | .leaf guard name effect => .tuple (guardTerm guard :: .routine effect :: nameItems name)
  | .group guard name parts => .tuple (guardTerm guard :: .list (tuples parts) :: nameItems name)

def tuples : List Piece → List Term
  | [] => []
  | p :: rest => tuple p :: tuples rest

end

theorem ofRoutine_bool (label : String) (test : Value → Except Fault Bool) :
    Guard.ofRoutine ⟨label, fun c => (test c).map .bool⟩ = ⟨some label, test⟩ := by
  have hholds : Routine.holds ⟨label, fun c => (test c).map .bool⟩ = test := by
    funext c
    cases h : test c <;>
      simp [Routine.holds, h, Except.map, bind, Except.bind, pure, Except.pure, Value.truthy]
  rw [Guard.ofRoutine, hholds]

theorem written_guardTerm (h : Writable g) : GuardTerm (guardTerm g) g := by
  obtain ⟨label, test⟩ := g
  cases label with
  | none =>
      rw [h rfl]
      exact .always
  | some label =>
      have hterm := GuardTerm.routine ⟨label, fun c => (test c).map .bool⟩
      rw [ofRoutine_bool] at hterm
      exact hterm

theorem written_nameItems (name : Option String) : NameItems (nameItems name) name := by
  cases name with
  | none => exact .nothing
  | some name => exact .str name []

theorem written_tuples (h : ∀ k ∈ checkpoints pieces, Writable k.guard) :
    Written (tuples pieces) pieces := by
  induction pieces using forest_induction with
  | nil => exact .nil
  | leaf guard name effect rest ih =>
      simp only [checkpoints, checkpointsOf, List.forall_mem_append, List.forall_mem_singleton] at h
      exact .leaf (written_guardTerm h.1) (.routine effect) (written_nameItems name) (ih h.2)
  | group guard name parts rest ihparts ih =>
      simp only [checkpoints, checkpointsOf, List.forall_mem_append, List.forall_mem_cons,
        List.forall_mem_map] at h
      exact .group (written_guardTerm h.1.1) (written_nameItems name) (ihparts h.1.2) (ih h.2)

/-- Whichever way pieces are written, reading gives them back, so that the same actions are enabled
everywhere. All pieces can be written as tuples throughout if their guards can be written. -/
theorem ofTerms_written (pieces : List Piece) :
    (∀ terms, Written terms pieces → ofTerms terms = .ok pieces ∧
      ∀ path c, (do resolve path (← ofTerms terms) c) = resolve path pieces c) ∧
    ((∀ k ∈ checkpoints pieces, Writable k.guard) → Written (tuples pieces) pieces) := by
  refine ⟨?_, written_tuples⟩
  intro terms h
  refine ⟨h.ofTerms_eq, ?_⟩
  intro path c
  rw [h.ofTerms_eq]
  rfl

def layered : List Piece := [.group .always none [], .group .always (some "layer") nested]

def layeredTerms : List Term :=
  [.tuple [.always, .list []],
   .tuple [.always,
     .list
       [.tuple [.always,
         .list [.piece (.leaf ⟨some "off", fun _ => .ok false⟩ (some "first") ⟨"first", .ok⟩),
           .tuple [.always, .routine ⟨"second", .ok⟩, .value .null, .value (.int 2)]],
         .value (.str "outer")],
        .piece (.leaf ⟨some "defined", fun c => if c == .null then .error .indexOutOfRange
          else .ok true⟩ none ⟨"third", .ok⟩)],
     .value (.str "layer"), .always, .value (.str "unread")]]

theorem layered_written : Written layeredTerms layered := by
  refine .group .always .nothing .nil (.group .always (.str _ _) ?_ .nil)
  refine .group .always (.str _ _) ?_ (.piece _ .nil)
  exact .piece _ (.leaf .always (.routine _) (.null _) .nil)

theorem layered_writable : ∀ k ∈ checkpoints layered, Writable k.guard := by
  simp [layered, nested, innerPieces, checkpoints, checkpointsOf, Checkpoint.under, Writable,
    Guard.always]

theorem layered_ofTerms_written :
    ofTerms layeredTerms = .ok layered ∧ ofTerms (tuples layered) = .ok layered ∧
      (do resolve "" (← ofTerms layeredTerms) (.int 1)) =
        .ok [.bound "layer/outer/piece1" (.int 1) ⟨"second", .ok⟩,
          .bound "layer/piece1" (.int 1) ⟨"third", .ok⟩] := by
  obtain ⟨hread, hwritten⟩ := ofTerms_written layered
  obtain ⟨hterms, hresolve⟩ := hread _ layered_written
  exact ⟨hterms, (hread _ (hwritten layered_writable)).1, hresolve "" (.int 1)⟩

end Piece

end StateSpace
