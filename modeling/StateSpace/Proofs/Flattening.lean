import Mathlib.Data.List.Basic
import StateSpace.Piece

/-!
# Nested pieces and their flattening

Trees of pieces are read as two flat lists that know nothing of a configuration: the checkpoints are
all the guards, each with the guards around it, and the branches are all the leaves, each with the
guards and the names on the way to it. Resolving pieces asks the guards of those checkpoints whose
surrounding guards all hold, one after the other, and gives the actions of the branches whose guards
all hold. The first guard that fails ends the walk with its fault.
-/

namespace StateSpace

def Guard.accepts (g : Guard) (c : Value) : Bool :=
  match g.test c with
  | .ok answer => answer
  | .error _ => false

theorem Guard.accepts_of_ok {g : Guard} {c : Value} {answer : Bool} (h : g.test c = .ok answer) :
    g.accepts c = answer := by
  rw [accepts, h]

theorem Guard.ask_bind_ok {α : Type} {g : Guard} {c : Value} {answer : Bool}
    (h : g.test c = .ok answer) (next : Bool → Inquiry α) :
    g.ask c >>= next = ⟨g :: (next answer).asked, (next answer).outcome⟩ := by
  change Inquiry.bind ⟨[g], g.test c⟩ next = _
  rw [h]
  rfl

theorem Guard.ask_bind_error {α : Type} {g : Guard} {c : Value} {e : Fault}
    (h : g.test c = .error e) (next : Bool → Inquiry α) :
    g.ask c >>= next = ⟨[g], .error e⟩ := by
  change Inquiry.bind ⟨[g], g.test c⟩ next = _
  rw [h]
  rfl

namespace Inquiry

variable {α β : Type} {c : Value}

def after (c : Value) : List Guard → α → Inquiry α
  | [], a => pure a
  | g :: rest, a => do
    let _ ← g.ask c
    after c rest a

theorem after_cons_ok {g : Guard} {answer : Bool} (h : g.test c = .ok answer)
    (rest : List Guard) (a : α) :
    after c (g :: rest) a = ⟨g :: (after c rest a).asked, (after c rest a).outcome⟩ :=
  Guard.ask_bind_ok h _

theorem after_cons_error {g : Guard} {e : Fault} (h : g.test c = .error e)
    (rest : List Guard) (a : α) : after c (g :: rest) a = ⟨[g], .error e⟩ :=
  Guard.ask_bind_error h _

theorem after_bind (guards more : List Guard) (a : α) (f : α → β) :
    (after c guards a >>= fun x => after c more (f x)) = after c (guards ++ more) (f a) := by
  induction guards with
  | nil => rfl
  | cons g rest ih =>
      cases h : g.test c with
      | error e => rw [List.cons_append, after_cons_error h, after_cons_error h]; rfl
      | ok answer =>
          rw [List.cons_append, after_cons_ok h, after_cons_ok h, ← ih]
          -- A guard that answers only goes in front of those asked later.
          change bind _ _ = Inquiry.mk (g :: (bind _ _).asked) (bind _ _).outcome
          cases hrest : (after c rest a).outcome <;> simp [bind, hrest]

theorem after_bind_pure (guards : List Guard) (a : α) (f : α → β) :
    (after c guards a >>= fun x => pure (f x)) = after c guards (f a) := by
  rw [← List.append_nil guards, ← after_bind, List.append_nil]
  rfl

/-- Either every guard answers, or the first that fails is the last one asked. -/
theorem after_cases (guards : List Guard) (a : α) :
    ((∀ g ∈ guards, ∃ answer, g.test c = .ok answer) ∧ after c guards a = ⟨guards, .ok a⟩) ∨
      ∃ before g behind e, guards = before ++ g :: behind ∧
        (∀ h ∈ before, ∃ answer, h.test c = .ok answer) ∧ g.test c = .error e ∧
        after c guards a = ⟨before ++ [g], .error e⟩ := by
  induction guards with
  | nil => exact .inl ⟨fun g hg => absurd hg List.not_mem_nil, rfl⟩
  | cons g rest ih =>
      cases h : g.test c with
      | error e =>
          exact .inr ⟨[], g, rest, e, rfl, fun g hg => absurd hg List.not_mem_nil, h,
            after_cons_error h rest a⟩
      | ok answer =>
          rcases ih with ⟨hall, heq⟩ | ⟨before, f, behind, e, hsplit, hall, hf, heq⟩
          · exact .inl ⟨List.forall_mem_cons.mpr ⟨⟨answer, h⟩, hall⟩, by
              rw [after_cons_ok h, heq]⟩
          · exact .inr ⟨g :: before, f, behind, e, by rw [hsplit, List.cons_append],
              List.forall_mem_cons.mpr ⟨⟨answer, h⟩, hall⟩, hf, by
                rw [after_cons_ok h, heq, List.cons_append]⟩

theorem eq_of_after_ok {guards : List Guard} {a b : α} (h : (after c guards a).outcome = .ok b) :
    b = a := by
  rcases after_cases (c := c) guards a with ⟨-, heq⟩ | ⟨_, _, _, _, -, -, -, heq⟩
  · rw [heq] at h
    exact (Except.ok.inj h).symm
  · rw [heq] at h
    cases h

end Inquiry

namespace Piece

/-- Induction over pieces that stand side by side: over the parts of each group and over what
stands to its right. -/
@[elab_as_elim]
theorem forest_induction {motive : List Piece → Prop} (nil : motive [])
    (leaf : ∀ guard name effect rest, motive rest → motive (.leaf guard name effect :: rest))
    (group : ∀ guard name parts rest, motive parts → motive rest →
      motive (.group guard name parts :: rest)) :
    ∀ pieces, motive pieces
  | [] => nil
  | .leaf guard name effect :: rest =>
      leaf guard name effect rest (forest_induction nil leaf group rest)
  | .group guard name parts :: rest =>
      group guard name parts rest (forest_induction nil leaf group parts)
        (forest_induction nil leaf group rest)

/-- A property of pieces that stand side by side, there and among the parts of every group. -/
inductive Throughout (P : List Piece → Prop) : List Piece → Prop
  | intro {pieces : List Piece} (here : P pieces)
      (below : ∀ guard name parts, .group guard name parts ∈ pieces → Throughout P parts) :
      Throughout P pieces

theorem Throughout.mono {P Q : List Piece → Prop} (hmono : ∀ pieces, P pieces → Q pieces)
    {pieces : List Piece} (h : Throughout P pieces) : Throughout Q pieces := by
  induction h with
  | intro here _ ih => exact ⟨hmono _ here, ih⟩

def Titled (pieces : List Piece) : Prop := ∀ p ∈ pieces, p.name ≠ some ""

structure Checkpoint where
  around : List Guard
  guard : Guard

def Checkpoint.under (g : Guard) (k : Checkpoint) : Checkpoint := { k with around := g :: k.around }

def Checkpoint.due (c : Value) (k : Checkpoint) : Bool := k.around.all (·.accepts c)

mutual

def checkpointsOf : Piece → List Checkpoint
  | .leaf guard _ _ => [⟨[], guard⟩]
  | .group guard _ parts => ⟨[], guard⟩ :: (checkpoints parts).map (·.under guard)

def checkpoints : List Piece → List Checkpoint
  | [] => []
  | p :: rest => checkpointsOf p ++ checkpoints rest

end

/-- A leaf with its guards and the names of the groups around it, the outermost first, and its own
name. -/
structure Branch where
  guards : List Guard
  outer : List String
  name : String
  effect : Routine

namespace Branch

def names (b : Branch) : List String := b.outer ++ [b.name]

def under (g : Guard) (name : String) (b : Branch) : Branch :=
  { b with guards := g :: b.guards, outer := name :: b.outer }

def enabled (c : Value) (b : Branch) : Bool := b.guards.all (·.accepts c)

def action (c : Value) (b : Branch) : Action := .bound ("/".intercalate b.names) c b.effect

end Branch

mutual

def branchesAt (place : Nat) : Piece → List Branch
  | .leaf guard name effect => [⟨[guard], [], localName place name, effect⟩]
  | .group guard name parts => (branchesFrom 0 parts).map (·.under guard (localName place name))

def branchesFrom (place : Nat) : List Piece → List Branch
  | [] => []
  | p :: rest => branchesAt place p ++ branchesFrom (place + 1) rest

end

def branches (pieces : List Piece) : List Branch := branchesFrom 0 pieces

def due (c : Value) (pieces : List Piece) : List Guard :=
  ((checkpoints pieces).filter (·.due c)).map (·.guard)

theorem effects_branchesFrom (pieces : List Piece) (place : Nat) :
    (branchesFrom place pieces).map (·.effect) = leavesOf pieces := by
  induction pieces using forest_induction generalizing place with
  | nil => rfl
  | leaf guard name effect rest ih =>
      rw [branchesFrom, leavesOf, List.map_append, ih]
      rfl
  | group guard name parts rest ihparts ih =>
      rw [branchesFrom, leavesOf, leaves, List.map_append, ih, branchesAt, List.map_map,
        ← ihparts 0]
      rfl

theorem due_cons (c : Value) (p : Piece) (rest : List Piece) :
    due c (p :: rest) = due c [p] ++ due c rest := by
  simp [due, checkpoints]

theorem due_group (c : Value) (guard : Guard) (name : Option String) (parts : List Piece) :
    due c [.group guard name parts] = guard :: (if guard.accepts c then due c parts else []) := by
  cases h : guard.accepts c <;>
    simp [due, checkpoints, checkpointsOf, List.filter_cons, List.filter_map, Function.comp_def,
      Checkpoint.due, Checkpoint.under, h]

theorem filter_enabled_under (c : Value) (guard : Guard) (name : String) (bs : List Branch) :
    (bs.map (·.under guard name)).filter (·.enabled c) =
      if guard.accepts c then (bs.filter (·.enabled c)).map (·.under guard name) else [] := by
  cases h : guard.accepts c <;>
    simp [Branch.enabled, Branch.under, List.filter_map, Function.comp_def, h]

def nameBelow (path name : String) : String := if path = "" then name else path ++ "/" ++ name

theorem nameBelow_nameBelow (path : String) {outer : String} (h : outer ≠ "") (name : String) :
    nameBelow (nameBelow path outer) name = nameBelow path (outer ++ "/" ++ name) := by
  by_cases hpath : path = ""
  · simp [nameBelow, hpath, h]
  · have hne : path ++ "/" ++ outer ≠ "" := by simp [hpath]
    simp only [nameBelow, if_neg hpath, if_neg hne]
    simp only [String.append_assoc]

theorem localName_ne_empty {place : Nat} {name : Option String} (h : name ≠ some "") :
    localName place name ≠ "" := by
  cases name with
  | none => simp [localName]
  | some name => exact fun heq => h (congrArg some heq)

def Branch.actionBelow (path : String) (c : Value) (b : Branch) : Action :=
  .bound (nameBelow path ("/".intercalate b.names)) c b.effect

theorem Branch.actionBelow_under (path : String) (c : Value) (guard : Guard) {name : String}
    (h : name ≠ "") (b : Branch) :
    (b.under guard name).actionBelow path c = b.actionBelow (nameBelow path name) c := by
  have hjoin : "/".intercalate (b.under guard name).names =
      name ++ "/" ++ "/".intercalate b.names :=
    String.intercalate_cons_of_ne_nil (List.append_ne_nil_of_right_ne_nil _ (List.cons_ne_nil _ _))
  rw [actionBelow, actionBelow, hjoin, nameBelow_nameBelow path h]
  rfl

def enabledBelow (path : String) (c : Value) (bs : List Branch) : List Action :=
  (bs.filter (·.enabled c)).map (·.actionBelow path c)

theorem enabledBelow_under (path : String) (c : Value) (guard : Guard) {name : String}
    (h : name ≠ "") (bs : List Branch) :
    enabledBelow path c (bs.map (·.under guard name)) =
      if guard.accepts c then enabledBelow (nameBelow path name) c bs else [] := by
  rw [enabledBelow, filter_enabled_under]
  split_ifs
  · simp only [enabledBelow, List.map_map, Function.comp_def,
      Branch.actionBelow_under path c guard h]
  · rfl

theorem enabledBelow_append (path : String) (c : Value) (bs more : List Branch) :
    enabledBelow path c (bs ++ more) = enabledBelow path c bs ++ enabledBelow path c more := by
  simp [enabledBelow]

theorem enabledBelow_leaf (path : String) (place : Nat) (c : Value) (guard : Guard)
    (name : Option String) (effect : Routine) :
    enabledBelow path c (branchesAt place (.leaf guard name effect)) =
      if guard.accepts c then [.bound (pathName path place name) c effect] else [] := by
  have hname : "/".intercalate [localName place name] = localName place name :=
    String.intercalate_singleton
  cases h : guard.accepts c <;>
    simp [branchesAt, enabledBelow, Branch.enabled, Branch.actionBelow, Branch.names, nameBelow,
      pathName, hname, h]

theorem resolvePiece_leaf (path : String) (place : Nat) (c : Value) (guard : Guard)
    (name : Option String) (effect : Routine) :
    resolvePiece path place c (.leaf guard name effect) =
      .after c (due c [.leaf guard name effect])
        (enabledBelow path c (branchesAt place (.leaf guard name effect))) := by
  have hdue : due c [.leaf guard name effect] = [guard] := rfl
  rw [hdue, resolvePiece, enabledBelow_leaf]
  cases h : guard.test c with
  | error e => rw [Guard.ask_bind_error h, Inquiry.after_cons_error h]
  | ok answer =>
      rw [Guard.ask_bind_ok h, Inquiry.after_cons_ok h, Guard.accepts_of_ok h]
      cases answer <;> rfl

theorem resolvePiece_group_after {path : String} {place : Nat} {c : Value} {guard : Guard}
    {name : Option String} {parts : List Piece} {actions : List Action}
    (hparts : resolveFrom (pathName path place name) 0 c parts = .after c (due c parts) actions) :
    resolvePiece path place c (.group guard name parts) =
      .after c (due c [.group guard name parts]) (if guard.accepts c then actions else []) := by
  rw [due_group, resolvePiece]
  cases h : guard.test c with
  | error e => rw [Guard.ask_bind_error h, Inquiry.after_cons_error h]
  | ok answer =>
      rw [Guard.ask_bind_ok h, Inquiry.after_cons_ok h, Guard.accepts_of_ok h]
      cases answer with
      | false => rfl
      | true =>
          rw [if_pos rfl, if_pos rfl, if_pos rfl, hparts]

theorem resolvePiece_group {path : String} {place : Nat} {c : Value} {guard : Guard}
    {name : Option String} {parts : List Piece} (hname : name ≠ some "")
    (hparts : resolveFrom (pathName path place name) 0 c parts =
      .after c (due c parts) (enabledBelow (pathName path place name) c (branchesFrom 0 parts))) :
    resolvePiece path place c (.group guard name parts) =
      .after c (due c [.group guard name parts])
        (enabledBelow path c (branchesAt place (.group guard name parts))) := by
  rw [resolvePiece_group_after hparts, branchesAt,
    enabledBelow_under path c guard (localName_ne_empty hname)]
  rfl

theorem resolveFrom_cons_after {path : String} {place : Nat} {c : Value} {p : Piece}
    {rest : List Piece} {first later : List Action}
    (hpiece : resolvePiece path place c p = .after c (due c [p]) first)
    (hrest : resolveFrom path (place + 1) c rest = .after c (due c rest) later) :
    resolveFrom path place c (p :: rest) = .after c (due c (p :: rest)) (first ++ later) := by
  rw [resolveFrom, hpiece, hrest, due_cons c p rest]
  simp only [Inquiry.after_bind_pure]
  exact Inquiry.after_bind _ _ _ (· ++ later)

theorem resolveFrom_cons {path : String} {place : Nat} {c : Value} {p : Piece} {rest : List Piece}
    (hpiece : resolvePiece path place c p =
      .after c (due c [p]) (enabledBelow path c (branchesAt place p)))
    (hrest : resolveFrom path (place + 1) c rest =
      .after c (due c rest) (enabledBelow path c (branchesFrom (place + 1) rest))) :
    resolveFrom path place c (p :: rest) =
      .after c (due c (p :: rest)) (enabledBelow path c (branchesFrom place (p :: rest))) := by
  rw [branchesFrom, enabledBelow_append]
  exact resolveFrom_cons_after hpiece hrest

/-- Resolving pieces asks the guards that are due and then gives the enabled actions. -/
theorem resolveFrom_eq_after (path : String) (place : Nat) (c : Value) {pieces : List Piece}
    (h : Throughout Titled pieces) :
    resolveFrom path place c pieces =
      .after c (due c pieces) (enabledBelow path c (branchesFrom place pieces)) := by
  obtain ⟨htitled, hbelow⟩ := h
  -- The parts of a group start anew at place zero, below another path.
  induction pieces using forest_induction generalizing path place with
  | nil => rfl
  | leaf guard name effect rest ih =>
      apply resolveFrom_cons (resolvePiece_leaf path place c guard name effect)
      exact ih _ _ (fun p hp => htitled p (List.mem_cons_of_mem _ hp))
        fun g n parts hp => hbelow g n parts (List.mem_cons_of_mem _ hp)
  | group guard name parts rest ihparts ih =>
      obtain ⟨htitled', hbelow'⟩ := hbelow guard name parts List.mem_cons_self
      apply resolveFrom_cons (resolvePiece_group (htitled _ List.mem_cons_self)
        (ihparts _ 0 htitled' hbelow'))
      exact ih _ _ (fun p hp => htitled p (List.mem_cons_of_mem _ hp))
        fun g n parts hp => hbelow g n parts (List.mem_cons_of_mem _ hp)

theorem resolve_eq_ok {c : Value} {pieces : List Piece} (hnames : Throughout Titled pieces)
    {actions : List Action} (h : resolve "" pieces c = .ok actions) :
    actions = ((branches pieces).filter (·.enabled c)).map (·.action c) := by
  rw [resolve, resolveFrom_eq_after "" 0 c hnames] at h
  exact Inquiry.eq_of_after_ok h

/-- Pieces mean their flattening. The guards that are due are asked from the outside in and from
left to right. If they all answer, the actions are those of the branches whose guards all hold, and
otherwise the first guard that fails is the last one asked and gives the fault. -/
theorem resolve_flattens (c : Value) (pieces : List Piece) (hnames : Throughout Titled pieces) :
    (branches pieces).map (·.effect) = leavesOf pieces ∧
      (((∀ g ∈ due c pieces, ∃ answer, g.test c = .ok answer) ∧
          guardsAsked pieces c = due c pieces ∧
          resolve "" pieces c =
            .ok (((branches pieces).filter (·.enabled c)).map (·.action c))) ∨
        ∃ before g behind e, due c pieces = before ++ g :: behind ∧
          (∀ h ∈ before, ∃ answer, h.test c = .ok answer) ∧ g.test c = .error e ∧
          guardsAsked pieces c = before ++ [g] ∧ resolve "" pieces c = .error e) := by
  refine ⟨effects_branchesFrom pieces 0, ?_⟩
  rw [guardsAsked, resolve, resolveFrom_eq_after "" 0 c hnames]
  rcases Inquiry.after_cases (c := c) (due c pieces) (enabledBelow "" c (branches pieces)) with
    ⟨hall, hafter⟩ | ⟨before, g, behind, e, hsplit, hall, hg, hafter⟩
  · exact .inl ⟨hall, congrArg Inquiry.asked hafter, congrArg Inquiry.outcome hafter⟩
  · exact .inr ⟨before, g, behind, e, hsplit, hall, hg, congrArg Inquiry.asked hafter,
      congrArg Inquiry.outcome hafter⟩

def innerPieces : List Piece :=
  [.leaf ⟨some "off", fun _ => .ok false⟩ (some "first") ⟨"first", .ok⟩,
   .leaf .always none ⟨"second", .ok⟩]

def nested : List Piece :=
  [.group .always (some "outer") innerPieces,
   .leaf ⟨some "defined", fun c => if c == .null then .error .indexOutOfRange else .ok true⟩ none
     ⟨"third", .ok⟩]

theorem throughout_nested {P : List Piece → Prop} (houter : P nested) (hinner : P innerPieces) :
    Throughout P nested := by
  refine ⟨houter, fun guard name parts h => ?_⟩
  rcases List.mem_pair.mp h with h | h
  · cases h
    refine ⟨hinner, fun guard name parts h => ?_⟩
    rcases List.mem_pair.mp h with h | h <;> cases h
  · cases h

theorem nested_resolve_flattens :
    Throughout Titled nested ∧
      resolve "" nested (.int 1) = .ok [.bound "outer/piece1" (.int 1) ⟨"second", .ok⟩,
        .bound "piece1" (.int 1) ⟨"third", .ok⟩] ∧
      asked nested .null = ["off", "defined"] ∧
      resolve "" nested .null = .error .indexOutOfRange := by
  have htitled : Throughout Titled nested :=
    throughout_nested (by simp [Titled, nested, name]) (by simp [Titled, innerPieces, name])
  refine ⟨htitled, ?_, ?_⟩
  · obtain ⟨-, ⟨-, -, hok⟩ | ⟨_, _, _, _, -, -, -, -, herror⟩⟩ :=
      resolve_flattens (.int 1) nested htitled
    · exact hok
    · cases herror
  · obtain ⟨-, ⟨-, -, hok⟩ | ⟨before, g, behind, e, hsplit, -, hg, hasked, herror⟩⟩ :=
      resolve_flattens .null nested htitled
    · cases hok
    · cases herror
      exact ⟨rfl, rfl⟩

end Piece

end StateSpace
