/-
# Comprehensions are nested loops

All clauses of a comprehension share one frame, in which a value that an inner clause gives stays
while an outer one goes on. If no iterable mentions a target of its own or a later clause and no
condition mentions one of a later clause, nothing can read such a value before the clause has given
a new one. The comprehension then means nested loops: each clause extends the environment by its
targets, the elements that the conditions accept go on to the next clause, and the values are
collected in this order.

What carries the proof is that the shared frame and the environment of the loops agree on every name
that no clause still to come binds.

Key definitions: `Lexical`, `nestedLoops`, `Scope.AgreesOutside`.
Key theorems: `runClauses_nestedLoops`, `comprehension_nestedLoops`.
-/
import EnergyPlan.Proofs.Loops.Frames
import EnergyPlan.Proofs.Loops.Mentioned
import EnergyPlan.Proofs.Syntax.Denoting

namespace EnergyPlan.Expr

open Config

/-- No iterable mentions a target of its own or a later clause, and no condition one of a later
clause. -/
def Lexical : List Clause → Prop
  | [] => True
  | .mk targets iterable conditions :: rest =>
    (∀ x ∈ targets ++ boundBy rest, x ∉ iterable.mentioned) ∧
      (∀ x ∈ boundBy rest, x ∉ mentionedInAll conditions) ∧ Lexical rest

/-- What one element that a clause runs over contributes: the targets are bound to it in an extended
environment, and what is next follows there if the conditions accept. -/
def contribution {β : Type} (targets : List String) (conditions : List Term)
    (next : Scope → Eval (List β)) (scope : Scope) (element : Value) : Eval (List β) := do
  let frame ← bindTargets [] targets element
  if ← allAccept conditions (scope.push frame) then next (scope.push frame) else return []

/-- The clauses as nested loops, which collect an item of each innermost environment. -/
def nestedLoops {β : Type} (item : Scope → Eval β) : List Clause → Scope → Eval (List β)
  | [], scope => do return [← item scope]
  | .mk targets iterable conditions :: rest, scope => do
    let elements ← iterate (← iterable.eval scope)
    let rows ← elements.mapM (contribution targets conditions (nestedLoops item rest) scope)
    return rows.flatten

/-- The entry of a dict comprehension: its key and its value. -/
def entryOf (key value : Term) (scope : Scope) : Eval (String × Value) := do
  let k ← key.eval scope
  return (k.text, ← value.eval scope)

variable {α β : Type} {names : List String} {scope inner : Scope} {frame after binding : Frame}

/-! ### Environments that agree -/

/-- Two scopes have the same tree and the same values of all but some variables. -/
structure Scope.AgreesOutside (names : List String) (scope other : Scope) : Prop where
  root : scope.root = other.root
  same : ∀ x, x ∉ names → scope.valueOf? x = other.valueOf? x

namespace Scope.AgreesOutside

theorem on (h : scope.AgreesOutside names inner) {mentioned : List String}
    (hfree : ∀ x ∈ names, x ∉ mentioned) : scope.AgreesOn mentioned inner :=
  ⟨h.root, fun x hx => h.same x fun hmem => hfree x hmem hx⟩

/-- What a loop does to the frame is hidden by the names it binds. -/
theorem rebind (h : (scope.push frame).AgreesOutside names inner)
    (hafter : frame.Rebinds names after) : (scope.push after).AgreesOutside names inner := by
  refine ⟨h.root, fun x hx => ?_⟩
  have hbefore := h.same x hx
  rw [valueOf?_push] at hbefore ⊢
  rcases hafter x with hsame | ⟨hmem, -⟩
  · rw [hsame, hbefore]
  · exact absurd hmem hx

/-- Targets that get the same values in the shared frame and in an extended environment agree from
there on. -/
theorem bind (h : (scope.push frame).AgreesOutside (binding.map Prod.fst ++ names) inner) :
    (scope.push (frame.assignAll binding)).AgreesOutside names
      (inner.push (Frame.assignAll [] binding)) := by
  refine ⟨h.root, fun x hx => ?_⟩
  rw [valueOf?_push, valueOf?_push, lookup_assignAll, lookup_assignAll]
  by_cases hmem : x ∈ binding.map Prod.fst
  · obtain ⟨v, hv⟩ := lookup_binding_of_mem hmem
    rw [hv, Option.some_or, Option.some_or, Option.some_or, Option.some_or]
  · have hbefore := h.same x fun hboth => (List.mem_append.1 hboth).elim hmem hx
    rw [valueOf?_push] at hbefore
    rw [lookup_binding_of_not_mem hmem, Option.none_or, hbefore]
    rfl

end Scope.AgreesOutside

/-! ### The loops -/

/-- A loop that adds what each round finds, and one that collects it. -/
theorem map_foldlM_eq {ε σ γ δ : Type} {step : σ × δ → γ → Except ε (σ × δ)}
    {row : γ → Except ε (List β)} {add : δ → β → δ} {P : σ → Prop}
    (hstep : ∀ p c, P p.1 →
      (step p c).map Prod.snd = (row c).map fun items => items.foldl add p.2)
    (hP : ∀ p c q, P p.1 → step p c = .ok q → P q.1) (cs : List γ) {p : σ × δ} (hp : P p.1) :
    (cs.foldlM step p).map Prod.snd =
      (cs.mapM row).map fun rows => rows.flatten.foldl add p.2 := by
  induction cs generalizing p with
  | nil => rfl
  | cons c cs ih =>
    rw [List.foldlM_cons, List.mapM_cons]
    have hfirst := hstep p c hp
    cases hround : step p c with
    | error e =>
      rw [hround] at hfirst
      cases hrow : row c with
      | error e' =>
        rw [hrow] at hfirst
        cases hfirst
        rfl
      | ok items =>
        rw [hrow] at hfirst
        cases hfirst
    | ok q =>
      rw [hround] at hfirst
      cases hrow : row c with
      | error e' =>
        rw [hrow] at hfirst
        cases hfirst
      | ok items =>
        rw [hrow] at hfirst
        have hq : q.2 = items.foldl add p.2 := Except.ok.inj hfirst
        rw [ok_bind, ok_bind, ih (hP p c q hp hround), hq]
        cases cs.mapM row with
        | error e => rfl
        | ok rows =>
          have hrows : (items :: rows).flatten.foldl add p.2 =
              rows.flatten.foldl add (items.foldl add p.2) := by
            rw [List.flatten_cons, List.foldl_append]
          exact congrArg Except.ok hrows.symm

/-- A round of a loop adds what the element contributes, if the clauses to come do. -/
theorem loopRound_contribution {targets : List String} {conditions : List Term} {rest : List Clause}
    {emit : Scope → α → Eval α} {next : Scope → Eval (List β)} {add : α → β → α}
    (hconditions : ∀ x ∈ boundBy rest, x ∉ mentionedInAll conditions)
    (hnext : ∀ {frame : Frame} {found : α} {inner : Scope},
      (scope.push frame).AgreesOutside (boundBy rest) inner →
        (runClauses rest scope frame found emit).map Prod.snd =
          (next inner).map fun items => items.foldl add found)
    (p : Frame × α) (element : Value)
    (h : (scope.push p.1).AgreesOutside (targets ++ boundBy rest) inner) :
    (loopRound targets conditions rest scope emit p element).map Prod.snd =
      (contribution targets conditions next inner element).map fun items =>
        items.foldl add p.2 := by
  unfold loopRound contribution
  rcases bindTargets_cases targets element with ⟨error, herror⟩ | ⟨binding, rfl, hbound⟩
  · rw [herror, herror]
    rfl
  · have hbind := h.bind
    rw [hbound, hbound, ok_bind, ok_bind, allAccept_congr conditions (hbind.on hconditions)]
    cases allAccept conditions (inner.push (Frame.assignAll [] binding)) with
    | error e => rfl
    | ok accepted =>
      cases accepted with
      | false => rfl
      | true => exact hnext hbind

/-- **The shared frame collects what nested loops collect,** by induction on the clauses, and for
each clause on the elements it runs over. -/
theorem runClauses_nestedLoops {item : Scope → Eval β} (add : α → β → α)
    (hitem : ∀ {scope other : Scope}, scope.AgreesOutside [] other → item scope = item other)
    {clauses : List Clause} (hlexical : Lexical clauses) (found : α) {frame : Frame}
    (h : (scope.push frame).AgreesOutside (boundBy clauses) inner) :
    (runClauses clauses scope frame found fun scope found => return add found (← item scope)).map
        Prod.snd =
      (nestedLoops item clauses inner).map fun items => items.foldl add found := by
  induction clauses generalizing frame found inner with
  | nil =>
    rw [runClauses, nestedLoops, hitem h]
    cases item inner <;> rfl
  | cons clause rest ih =>
    obtain ⟨targets, iterable, conditions⟩ := clause
    obtain ⟨hiterable, hconditions, hrest⟩ := hlexical
    rw [runClauses_cons, nestedLoops, iterable.eval_congr (h.on hiterable)]
    cases iterable.eval inner with
    | error e => rfl
    | ok v =>
      rw [ok_bind, ok_bind]
      cases iterate v with
      | error e => rfl
      | ok elements =>
        rw [ok_bind, ok_bind,
          map_foldlM_eq (P := fun frame => (scope.push frame).AgreesOutside
              (boundBy (.mk targets iterable conditions :: rest)) inner)
            (loopRound_contribution hconditions (ih hrest _))
            (fun p element q hagree hround =>
              hagree.rebind (loopRound_rebinds runClauses_rebinds hround)) elements h]
        cases elements.mapM (contribution targets conditions (nestedLoops item rest) inner) <;> rfl

/-! ### Comprehensions -/

theorem agreesOutside_push (scope : Scope) (names : List String) :
    (scope.push []).AgreesOutside names scope :=
  ⟨rfl, fun _ _ => by rw [valueOf?_push, List.lookup_nil, Option.none_or]⟩

/-- A name has the value that was put there last. -/
theorem lookup_insertEntry (key : String) (value : Value) (entries : List (String × Value))
    (x : String) : (Value.insertEntry key value entries).lookup x =
      if x = key then some value else entries.lookup x := by
  induction entries with
  | nil => rw [Value.insertEntry, lookup_entry]
  | cons entry rest ih =>
    obtain ⟨k, v⟩ := entry
    rw [Value.insertEntry]
    split
    · rw [lookup_entry]
    · split
      · next hkey =>
        rw [lookup_entry, lookup_entry, hkey]
        split <;> rfl
      · next hkey =>
        rw [lookup_entry, lookup_entry, ih]
        by_cases h : x = k
        · rw [if_pos h, if_neg (h ▸ Ne.symm hkey), if_pos h]
        · rw [if_neg h, if_neg h]

theorem lookup_insertAll (entries found : List (String × Value)) (x : String) :
    (insertAll entries found).lookup x = (entries.reverse.lookup x).or (found.lookup x) := by
  induction entries generalizing found with
  | nil => rfl
  | cons entry entries ih =>
    have hcons : insertAll (entry :: entries) found =
        insertAll entries (Value.insertEntry entry.1 entry.2 found) := rfl
    rw [hcons, ih, lookup_insertEntry, List.reverse_cons, List.lookup_append, Option.or_assoc,
      lookup_entry, List.lookup_nil]
    split <;> rfl

theorem entryOf_congr (key value : Term) {other : Scope} (h : scope.AgreesOutside [] other) :
    entryOf key value scope = entryOf key value other := by
  have hnone {mentioned : List String} : scope.AgreesOn mentioned other :=
    h.on fun x hx => absurd hx List.not_mem_nil
  rw [entryOf, entryOf, key.eval_congr hnone, value.eval_congr hnone]

theorem bind_snd_eq {f : α → Value} (outcome : Eval (Frame × α)) :
    (do
      let (_, v) ← outcome
      return f v) = (outcome.map Prod.snd).map f := by
  cases outcome <;> rfl

theorem map_map_eq {γ : Type} {f : β → α} {g : α → γ} (outcome : Eval β) :
    (outcome.map f).map g = outcome.map fun v => g (f v) := by
  cases outcome <;> rfl

section

variable {clauses : List Clause} (h : Lexical clauses) (scope : Scope)
include h

theorem eval_listOver (value : Term) :
    (Term.listOver value clauses).eval scope =
      (nestedLoops value.eval clauses scope).map .list := by
  have hloops := runClauses_nestedLoops (fun (items : List Value) v => v :: items)
    (fun hagree => value.eval_congr (hagree.on fun x hx => absurd hx List.not_mem_nil)) h []
    (agreesOutside_push scope (boundBy clauses))
  rw [Term.eval, bind_snd_eq (f := fun items : List Value => .list items.reverse), hloops,
    map_map_eq]
  refine congrArg (fun f => (nestedLoops value.eval clauses scope).map f) (funext fun items => ?_)
  rw [List.foldl_flip_cons_eq_append', List.append_nil, List.reverse_reverse]

theorem eval_dictOver (key value : Term) :
    (Term.dictOver key value clauses).eval scope =
      (nestedLoops (entryOf key value) clauses scope).map fun entries =>
        .map (insertAll entries []) := by
  have hloops := runClauses_nestedLoops
    (fun (found : List (String × Value)) entry => Value.insertEntry entry.1 entry.2 found)
    (entryOf_congr key value) h [] (agreesOutside_push scope (boundBy clauses))
  have hemit (inner : Scope) (found : List (String × Value)) :
      (do
        let k ← key.eval inner
        return Value.insertEntry k.text (← value.eval inner) found) =
      (do
        let entry ← entryOf key value inner
        return Value.insertEntry entry.1 entry.2 found) := by
    unfold entryOf
    cases key.eval inner with
    | error e => rfl
    | ok k => cases value.eval inner <;> rfl
  rw [Term.eval, bind_snd_eq]
  simp only [hemit]
  rw [hloops, map_map_eq]
  rfl

end

/-- **A comprehension means nested loops, and leaves the stack as it is.** If its clauses look up no
name that one still to come binds, a comprehension on any stack of frames has the items or entries
that nested loops collect from the environment of these frames, or their error; of entries with one
key the last stays. Every term, also a comprehension that binds the same names, has the value that
it has in the environment of the stack, and ends on the stack on which it started. -/
theorem comprehension_nestedLoops {clauses : List Clause} (h : Lexical clauses) (root : Node)
    (frames : List Frame) :
    (∀ value : Term, (Term.listOver value clauses).run root frames =
        (nestedLoops value.eval clauses ⟨root, frames⟩).map fun items => (.list items, frames)) ∧
      (∀ key value : Term, (Term.dictOver key value clauses).run root frames =
        (nestedLoops (entryOf key value) clauses ⟨root, frames⟩).map fun entries =>
          (.map (insertAll entries []), frames)) ∧
      (∀ (entries : List (String × Value)) (key : String),
        (insertAll entries []).lookup key = entries.reverse.lookup key) ∧
      ∀ (term : Term) (stack : List Frame),
        term.run root stack = (term.eval ⟨root, stack⟩).map fun v => (v, stack) := by
  refine ⟨fun value => ?_, fun key value => ?_, fun entries key => ?_, fun term stack => ?_⟩
  · have hkeeps : (Term.listOver value clauses).run root frames = _ := Term.run_keeps root frames _
    rw [hkeeps, eval_listOver h, map_map_eq]
  · have hkeeps : (Term.dictOver key value clauses).run root frames = _ :=
      Term.run_keeps root frames _
    rw [hkeeps, eval_dictOver h, map_map_eq]
  · rw [lookup_insertAll, List.lookup_nil, Option.or_none]
  · exact term.run_keeps root stack

/-- `for x in [x for x in [1, 2]] if x for y in [x, 3]`. -/
def sampleClauses : List Clause :=
  [.mk ["x"]
      (.listOver (.name "x" []) [.mk ["x"] (.list [.literal (.int 1), .literal (.int 2)]) []])
      [.name "x" []],
    .mk ["y"] (.list [.name "x" [], .literal (.int 3)]) []]

/-- The comprehensions in the first iterable and in the value bind `x` again, and of two entries
with one key the second stays; the variable `x` around them has its value afterwards. -/
theorem comprehension_nestedLoops_sample :
    Lexical sampleClauses ∧
      (Term.dictOver (.name "x" []) (.listOver (.name "x" []) [.mk ["x"] (.list [.name "y" []]) []])
          sampleClauses).run .null [[("x", .int 7)]] =
        .ok (.map [("1", .list [.int 3]), ("2", .list [.int 3])], [[("x", .int 7)]]) := by
  have hlexical : Lexical sampleClauses := by
    refine ⟨?_, ?_, ?_, ?_, trivial⟩
    all_goals decide
  refine ⟨hlexical, ?_⟩
  rw [(comprehension_nestedLoops hlexical .null [[("x", .int 7)]]).2.1]
  cbv

end EnergyPlan.Expr
