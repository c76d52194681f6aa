/-
# Runs that return

A run returns a value if it ends with that value whatever was reported before it; what it
reports itself plays no part. A stage whose outcome is a value returns it, so a compilation
whose stages all have an outcome returns what they came to (`returns_compileTree`).

Key definitions: `Pipeline.Returns`.
Key theorems: `Returns.bind`, `returns_runStage`, `ofNode_of_expandModel`, `returns_compileTree`.
-/
import EnergyPlan.Pipeline
import EnergyPlan.Proofs.Timing

namespace EnergyPlan

open Config Fields

namespace Pipeline

variable {α β : Type}

/-- A run ends with a value, whatever was reported before. -/
def Returns (p : Pipeline α) (a : α) : Prop := ∀ log, ∃ log', p.run.run log = (.ok a, log')

theorem returns_pure (a : α) : Returns (pure a) a := fun log => ⟨log, rfl⟩

/-- What a run returns is handed to the next one. -/
theorem Returns.bind {p : Pipeline α} {a : α} {f : α → Pipeline β} {b : β} (h : Returns p a)
    (hf : Returns (f a) b) : Returns (p >>= f) b := by
  intro log
  obtain ⟨log', hlog⟩ := h log
  obtain ⟨log'', hlog'⟩ := hf log'
  refine ⟨log'', ?_⟩
  rw [ExceptT.run_bind, StateT.run_bind, hlog]
  exact hlog'

theorem returns_forM {f : α → Pipeline Unit} {as : List α} (h : ∀ a, Returns (f a) ()) :
    Returns (as.forM f) () := by
  induction as with
  | nil => exact returns_pure ()
  | cons a rest ih => exact (h a).bind ih

theorem returns_progress (verbose : Bool) (line : String) :
    Returns (progress verbose line) () := by
  intro log
  cases verbose with
  | true => exact ⟨_, rfl⟩
  | false => exact ⟨log, rfl⟩

theorem returns_warn (text : String) : Returns (warn text) () := fun _ => ⟨_, rfl⟩

/-- A stage whose outcome is a value returns it. -/
theorem returns_runStage (stage : Stage) (verbose : Bool) (a : α) (lines : α → List String) :
    Returns (runStage stage verbose (.ok a) lines) a := by
  refine (returns_forM fun line => returns_progress verbose line).bind ?_
  exact (returns_progress verbose _).bind (returns_pure a)

end Pipeline

open Pipeline

/-- The time structure of what was expanded was read from the time definition. -/
theorem ofNode_of_expandModel {R : Type} [One R] [Div R] [Scalar R] {root : Node}
    {expanded : Expanded R} (h : expandModel root = .ok expanded) :
    TimeStructure.ofNode ((root.entry? "time_definition").getD .null) = .ok expanded.time := by
  obtain ⟨time, ht, h⟩ := bind_eq_ok h
  obtain ⟨sets, -, h⟩ := bind_eq_ok h
  obtain ⟨tree, -, h⟩ := bind_eq_ok h
  cases h
  exact eq_ok_of_mapError ht

variable {R : Type} [Zero R] [One R] [Add R] [Sub R] [Mul R] [Div R] [Neg R] [BEq R] [LT R]
  [DecidableLT R] [LE R] [DecidableLE R] [Scalar R]

/-- A compilation whose stages all have an outcome returns what they came to. -/
theorem returns_compileTree {env : Environment} {defaults options : Options R}
    {tree root resolved : Node} {expanded : Expanded R} {model : EnergyModel R}
    {sets : IndexSets} {problem : Problem R}
    (ho : readOptions defaults tree = .ok (options, root))
    (hr : (resolve env options.maxPasses root).outcome = .ok resolved)
    (he : expandModel resolved = .ok expanded)
    (hb : buildModel expanded.root expanded.time expanded.sets options.sumTolerance =
      .ok model)
    (hs : deriveSets model = .ok sets)
    (hp : compile model sets options.bigM = .ok problem) :
    Returns (compileTree env defaults tree) ⟨options, model, sets, problem⟩ := by
  unfold compileTree
  rw [ho]
  apply Returns.bind (returns_runStage _ _ _ _)
  dsimp only
  rw [hr]
  apply Returns.bind (returns_runStage _ _ _ _)
  rw [he]
  apply Returns.bind (returns_runStage _ _ _ _)
  rw [hb]
  refine (returns_forM fun line => returns_warn _).bind ?_
  apply Returns.bind (returns_runStage _ _ _ _)
  rw [hs]
  apply Returns.bind (returns_runStage _ _ _ _)
  rw [hp]
  exact Returns.bind (returns_runStage _ _ _ _) (returns_pure _)

end EnergyPlan
