/-
# A term leaves the stack as it is

Evaluation on a stack of frames is that of `Term.eval`, which is handed the frames and gives none
back: whatever a term computes, it ends on the stack on which it started, for the frame that a
comprehension has put there is taken off again. Within a comprehension the frame on top changes,
and the loops of `runLoops` lead from one to the next as those of `runClauses` do.

Key definitions: `Keeps`, `Changes`.
Key theorems: `Term.run_keeps`, `runLoops_changes`, `evaluate_eq`.
-/
import EnergyPlan.Expr.Run

namespace EnergyPlan.Expr

open Config

variable {α β : Type} {x : Run α} {f : α → Run β}

/-- A computation has an outcome and ends on the stack on which it starts. -/
def Keeps (frames : List Frame) (x : Run α) (outcome : Eval α) : Prop :=
  x frames = outcome.map fun v => (v, frames)

/-- A computation in a frame has an outcome with the frame in which it ends. -/
def Changes (outer : List Frame) (frame : Frame) (x : Run α) (outcome : Eval (Frame × α)) : Prop :=
  x (frame :: outer) = outcome.map fun v => (v.2, v.1 :: outer)

/-- One after the other: the second starts on the stack that the first has left. -/
theorem bind_apply (x : Run α) (f : α → Run β) (frames : List Frame) :
    (x >>= f) frames = x frames >>= fun p => f p.1 p.2 := rfl

theorem Keeps.pure (frames : List Frame) (v : α) : Keeps frames (Pure.pure v) (.ok v) := rfl

theorem Keeps.lift (frames : List Frame) (outcome : Eval α) :
    Keeps frames (liftM outcome) outcome := by
  cases outcome <;> rfl

/-- Both of them keep the stack if each does. -/
theorem Keeps.bind {frames : List Frame} {outcome : Eval α} {next : α → Eval β}
    (hx : Keeps frames x outcome) (hf : ∀ v, Keeps frames (f v) (next v)) :
    Keeps frames (x >>= f) (outcome >>= next) := by
  rw [Keeps, bind_apply, hx]
  cases outcome with
  | error e => rfl
  | ok v => exact hf v

theorem Keeps.ite {frames : List Frame} {c : Prop} [Decidable c] {x y : Run α}
    {outcome other : Eval α}
    (hx : Keeps frames x outcome) (hy : Keeps frames y other) :
    Keeps frames (if c then x else y) (if c then outcome else other) := by
  split
  · exact hx
  · exact hy

section

variable {outer : List Frame} {frame : Frame}

theorem Changes.pure (outer : List Frame) (frame : Frame) (v : α) :
    Changes outer frame (Pure.pure v) (.ok (frame, v)) := rfl

/-- A computation that keeps the stack leads to the frame in which it starts. -/
theorem Keeps.changes {outcome : Eval α} (hx : Keeps (frame :: outer) x outcome) :
    Changes outer frame x (outcome >>= fun v => .ok (frame, v)) := by
  rw [Changes, hx]
  cases outcome <;> rfl

theorem Changes.bind {outcome : Eval (Frame × α)} {next : Frame × α → Eval (Frame × β)}
    (hx : Changes outer frame x outcome) (hf : ∀ p, Changes outer p.1 (f p.2) (next p)) :
    Changes outer frame (x >>= f) (outcome >>= next) := by
  rw [Changes, bind_apply, hx]
  cases outcome with
  | error e => rfl
  | ok v => exact hf v

/-- A computation that only changes the frame, and one that goes on from there. -/
theorem Changes.bind_unit {x : Run Unit} {y : Run β} {outcome : Eval Frame}
    {next : Frame → Eval (Frame × β)}
    (hx : Changes outer frame x (outcome >>= fun frame => .ok (frame, ())))
    (hy : ∀ frame, Changes outer frame y (next frame)) :
    Changes outer frame (x >>= fun _ => y) (outcome >>= next) := by
  have hbind := hx.bind (f := fun _ : Unit => y) fun p => hy p.1
  rwa [bind_assoc] at hbind

theorem Keeps.bind_changes {outcome : Eval α} {next : α → Eval (Frame × β)}
    (hx : Keeps (frame :: outer) x outcome) (hf : ∀ v, Changes outer frame (f v) (next v)) :
    Changes outer frame (x >>= f) (outcome >>= next) := by
  rw [Changes, bind_apply, hx]
  cases outcome with
  | error e => rfl
  | ok v => exact hf v

theorem Changes.ite {c : Prop} [Decidable c] {x y : Run α} {outcome other : Eval (Frame × α)}
    (hx : Changes outer frame x outcome) (hy : Changes outer frame y other) :
    Changes outer frame (if c then x else y) (if c then outcome else other) := by
  split
  · exact hx
  · exact hy

/-- A loop over elements leads from frame to frame as each of its rounds does. -/
theorem Changes.foldlM {element : Type} {round : α → element → Run α}
    {next : Frame × α → element → Eval (Frame × α)}
    (h : ∀ frame v e, Changes outer frame (round v e) (next (frame, v) e)) (elements : List element)
    (frame : Frame) (v : α) :
    Changes outer frame (elements.foldlM round v) (elements.foldlM next (frame, v)) := by
  induction elements generalizing frame v with
  | nil => exact .pure outer frame v
  | cons e elements ih =>
    rw [List.foldlM_cons, List.foldlM_cons]
    exact (h frame v e).bind fun p => ih p.1 p.2

theorem bindInnermost_changes (outer : List Frame) (frame : Frame) (targets : List String)
    (element : Value) :
    Changes outer frame (bindInnermost targets element)
      (bindTargets frame targets element >>= fun frame => .ok (frame, ())) := by
  have hbind : bindInnermost targets element (frame :: outer) =
      bindTargets frame targets element >>= fun frame => .ok ((), frame :: outer) := rfl
  rw [Changes, hbind]
  cases bindTargets frame targets element <;> rfl

/-- A frame is put on the stack, led to another one and taken off. -/
theorem Changes.inFrame {outcome : Eval (Frame × α)} {f : α → β} (h : Changes outer [] x outcome) :
    Keeps outer
      (do
        modify ([] :: ·)
        let v ← x
        modify List.tail
        return f v)
      (do
        let (_, v) ← outcome
        return f v) := by
  have hbind : (do
      modify ([] :: ·)
      let v ← x
      modify List.tail
      return f v : Run β) outer = x ([] :: outer) >>= fun p => .ok (f p.1, p.2.tail) := rfl
  rw [Keeps, hbind, h]
  cases outcome <;> rfl

end

mutual

/-- **A term leaves the stack as it is,** and has the value that it has in the scope of the stack's
frames. -/
theorem Term.run_keeps (root : Node) (frames : List Frame) :
    ∀ t : Term, Keeps frames (t.run root) (t.eval ⟨root, frames⟩)
  | .literal value => by
    rw [Term.run, Term.eval]
    exact .pure frames value
  | .name head rest => by
    rw [Term.run, Term.eval]
    exact .lift frames _
  | .unary op operand => by
    rw [Term.run, Term.eval]
    exact (operand.run_keeps root frames).bind fun v => .lift frames _
  | .binary op left right => by
    rw [Term.run, Term.eval]
    exact (left.run_keeps root frames).bind fun a =>
      (right.run_keeps root frames).bind fun b => .lift frames _
  | .compare first rest => by
    rw [Term.run, Term.eval]
    exact (first.run_keeps root frames).bind fun v =>
      (runChain_keeps root frames rest v).bind fun holds => .pure frames _
  | .both left right => by
    rw [Term.run, Term.eval]
    exact (left.run_keeps root frames).bind fun v =>
      (right.run_keeps root frames).ite (.pure frames v)
  | .either left right => by
    rw [Term.run, Term.eval]
    exact (left.run_keeps root frames).bind fun v =>
      Keeps.ite (.pure frames v) (right.run_keeps root frames)
  | .conditional whenTrue condition whenFalse => by
    rw [Term.run, Term.eval]
    exact (condition.run_keeps root frames).bind fun v =>
      (whenTrue.run_keeps root frames).ite (whenFalse.run_keeps root frames)
  | .call function args => by
    rw [Term.run, Term.eval]
    exact (runAll_keeps root frames args).bind fun values => .lift frames _
  | .subscript target index => by
    rw [Term.run, Term.eval]
    exact (target.run_keeps root frames).bind fun v =>
      (index.run_keeps root frames).bind fun i => .lift frames _
  | .list elements => by
    rw [Term.run, Term.eval]
    exact (runAll_keeps root frames elements).bind fun values => .pure frames _
  | .dict entries => by
    rw [Term.run, Term.eval]
    exact (runEntries_keeps root frames entries []).bind fun found => .pure frames _
  | .listOver value clauses => by
    rw [Term.run, Term.eval]
    refine (runLoops_changes root frames clauses [] [] fun frame items => ?_).inFrame
    exact (value.run_keeps root (frame :: frames)).bind fun v => .pure _ _
  | .dictOver key value clauses => by
    rw [Term.run, Term.eval]
    refine (runLoops_changes root frames clauses [] [] fun frame entries => ?_).inFrame
    exact (key.run_keeps root (frame :: frames)).bind fun k =>
      (value.run_keeps root (frame :: frames)).bind fun v => .pure _ _

theorem runAll_keeps (root : Node) (frames : List Frame) :
    ∀ terms : List Term, Keeps frames (runAll root terms) (evalAll terms ⟨root, frames⟩)
  | [] => by
    rw [runAll, evalAll]
    exact .pure frames []
  | term :: rest => by
    rw [runAll, evalAll]
    exact (term.run_keeps root frames).bind fun v =>
      (runAll_keeps root frames rest).bind fun values => .pure frames _

theorem runEntries_keeps (root : Node) (frames : List Frame) :
    ∀ (entries : List (Term × Term)) (found : List (String × Value)),
      Keeps frames (runEntries root entries found) (evalEntries entries found ⟨root, frames⟩)
  | [], found => by
    rw [runEntries, evalEntries]
    exact .pure frames found
  | (key, value) :: rest, found => by
    rw [runEntries, evalEntries]
    exact (value.run_keeps root frames).bind fun v =>
      (key.run_keeps root frames).bind fun k => runEntries_keeps root frames rest _

theorem runChain_keeps (root : Node) (frames : List Frame) :
    ∀ (links : List (CompareOp × Term)) (left : Value),
      Keeps frames (runChain root links left) (chainHolds links left ⟨root, frames⟩)
  | [], left => by
    rw [runChain, chainHolds]
    exact .pure frames true
  | (op, term) :: rest, left => by
    rw [runChain, chainHolds]
    exact (term.run_keeps root frames).bind fun right =>
      (Keeps.lift frames (compareValues op left right)).bind fun holds =>
        (runChain_keeps root frames rest right).ite (.pure frames false)

theorem runConditions_keeps (root : Node) (frames : List Frame) :
    ∀ conditions : List Term,
      Keeps frames (runConditions root conditions) (allAccept conditions ⟨root, frames⟩)
  | [] => by
    rw [runConditions, allAccept]
    exact .pure frames true
  | condition :: rest => by
    rw [runConditions, allAccept]
    exact (condition.run_keeps root frames).bind fun v =>
      (runConditions_keeps root frames rest).ite (.pure frames false)

/-- **The loops lead from frame to frame as those of `runClauses`,** if what is done for each
combination keeps the stack. -/
theorem runLoops_changes {α : Type} (root : Node) (outer : List Frame) :
    ∀ (clauses : List Clause) (frame : Frame) (found : α) {emit : α → Run α}
      {next : Scope → α → Eval α},
      (∀ frame found, Keeps (frame :: outer) (emit found) (next ⟨root, frame :: outer⟩ found)) →
        Changes outer frame (runLoops root clauses found emit)
          (runClauses clauses ⟨root, outer⟩ frame found next)
  | [], frame, found, emit, next, h => by
    rw [runLoops, runClauses]
    exact (h frame found).changes
  | .mk targets iterable conditions :: rest, frame, found, emit, next, h => by
    rw [runLoops, runClauses]
    refine (iterable.run_keeps root (frame :: outer)).bind_changes fun v =>
      (Keeps.lift _ (iterate v)).bind_changes fun elements =>
        Changes.foldlM (fun frame found element => ?_) elements frame found
    have hround (frame : Frame) : Changes outer frame
        (do if ← runConditions root conditions then runLoops root rest found emit else return found)
        (do
          if ← allAccept conditions ⟨root, frame :: outer⟩ then
            runClauses rest ⟨root, outer⟩ frame found next
          else return (frame, found)) :=
      (runConditions_keeps root (frame :: outer) conditions).bind_changes fun accepted =>
        (runLoops_changes root outer rest frame found h).ite (.pure outer frame found)
    exact (bindInnermost_changes outer frame targets element).bind_unit hround

end

/-- The value of the expression that a text writes is that of the term it is read as, where there
are no variables. -/
theorem evaluate_eq (root : Node) (text : String) :
    evaluate root text =
      match Term.read text with
      | .ok term => term.eval ⟨root, []⟩
      | .error error => refuse error := by
  rw [evaluate]
  cases Term.read text with
  | error error => rfl
  | ok term =>
    have hrun : (term.run root).run' [] = (term.run root []).map Prod.fst := rfl
    have hkeeps : term.run root [] = (term.eval ⟨root, []⟩).map fun v => (v, []) :=
      term.run_keeps root []
    dsimp only
    rw [hrun, hkeeps]
    cases term.eval ⟨root, []⟩ <;> rfl

end EnergyPlan.Expr
