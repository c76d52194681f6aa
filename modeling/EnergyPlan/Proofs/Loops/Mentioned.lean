/-
# The variables that a term reads

A term mentions the names that it looks up around it; a name that a clause of its own binds is
not looked up around it by what stands behind that clause. The value of a term depends on the
variables that it mentions and on the tree, and on no other variable.

Within a comprehension the frame changes, but its loops give values to the targets of the clauses
only, and take none away. So a name that has once been bound in the frame stays bound, and for such
a name it does not matter where two scopes differ.

Key definitions: `Term.mentioned`, `Scope.AgreesOn`, `boundBy`, `Frame.Rebinds`.
Key theorems: `Term.eval_congr`, `runClauses_rebinds`.
-/
import EnergyPlan.Expr.Eval
import EnergyPlan.Proofs.Outcomes

namespace EnergyPlan.Expr

variable {α : Type} {x : String} {names targets : List String} {frame after last binding : Frame}
  {scope other : Scope}

/-! ### Frames -/

theorem lookup_entry (name : String) (value : Value) (rest : Frame) :
    List.lookup x ((name, value) :: rest) = if x = name then some value else rest.lookup x := by
  rw [List.lookup_cons]
  by_cases h : x = name
  · rw [if_pos h, beq_iff_eq.2 h]
  · rw [if_neg h, beq_eq_false_iff_ne.2 h]

theorem lookup_assign (name : String) (value : Value) (frame : Frame) :
    (frame.assign name value).lookup x = if x = name then some value else frame.lookup x := by
  induction frame with
  | nil => rw [Frame.assign, lookup_entry]
  | cons entry rest ih =>
    obtain ⟨n, v⟩ := entry
    rw [Frame.assign]
    split
    · next hn =>
      rw [lookup_entry, lookup_entry, hn]
      split <;> rfl
    · next hn =>
      rw [lookup_entry, lookup_entry, ih]
      by_cases h : x = n
      · rw [if_pos h, if_neg (h ▸ hn), if_pos h]
      · rw [if_neg h, if_neg h]

/-- Gives several variables their values in turn. -/
def Frame.assignAll (frame binding : Frame) : Frame :=
  binding.foldl (fun frame entry => frame.assign entry.1 entry.2) frame

theorem lookup_assignAll (frame binding : Frame) :
    (frame.assignAll binding).lookup x = (binding.reverse.lookup x).or (frame.lookup x) := by
  induction binding generalizing frame with
  | nil => rfl
  | cons entry binding ih =>
    have hcons : frame.assignAll (entry :: binding) =
        (frame.assign entry.1 entry.2).assignAll binding := rfl
    rw [hcons, ih, lookup_assign, List.reverse_cons, List.lookup_append, Option.or_assoc,
      lookup_entry, List.lookup_nil]
    split <;> rfl

/-- The targets of a clause get their values in turn, the same ones in every frame, unless the
element is refused. -/
theorem bindTargets_cases (targets : List String) (element : Value) :
    (∃ error, ∀ frame, bindTargets frame targets element = .error error) ∨
      ∃ binding : Frame, binding.map Prod.fst = targets ∧
        ∀ frame, bindTargets frame targets element = .ok (frame.assignAll binding) := by
  unfold bindTargets
  split
  · next target => exact Or.inr ⟨[(target, element)], rfl, fun _ => rfl⟩
  · cases element.asList with
    | error error => exact Or.inl ⟨error, fun _ => rfl⟩
    | ok parts =>
      by_cases h : parts.length ≠ targets.length
      · exact Or.inl ⟨_, fun _ => if_pos h⟩
      · refine Or.inr ⟨targets.zip parts, ?_, fun _ => if_neg h⟩
        rw [List.map_fst_zip]
        omega

theorem valueOf?_push (scope : Scope) (frame : Frame) :
    (scope.push frame).valueOf? x = (frame.lookup x).or (scope.valueOf? x) := by
  unfold Scope.valueOf? Scope.push
  rw [List.findSome?_cons]
  cases frame.lookup x <;> rfl

theorem lookup_binding_of_not_mem (h : x ∉ binding.map Prod.fst) :
    binding.reverse.lookup x = none := by
  refine List.lookup_eq_none_iff.2 fun entry hentry => ?_
  rw [bne_iff_ne]
  rintro rfl
  exact h (List.mem_map_of_mem (List.mem_reverse.1 hentry))

theorem lookup_binding_of_mem (h : x ∈ binding.map Prod.fst) :
    ∃ v, binding.reverse.lookup x = some v := by
  refine Option.ne_none_iff_exists'.1 fun hnone => ?_
  obtain ⟨entry, hentry, rfl⟩ := List.mem_map.1 h
  have hne := List.lookup_eq_none_iff.1 hnone entry (List.mem_reverse.2 hentry)
  exact bne_iff_ne.1 hne rfl

/-! ### What the loops do to the frame -/

/-- Values are new for some names only, and none is lost. -/
def Frame.Rebinds (names : List String) (frame after : Frame) : Prop :=
  ∀ x, after.lookup x = frame.lookup x ∨ x ∈ names ∧ ∃ v, after.lookup x = some v

theorem Frame.Rebinds.refl (names : List String) (frame : Frame) : frame.Rebinds names frame :=
  fun _ => Or.inl rfl

theorem Frame.Rebinds.trans (h : frame.Rebinds names after) (h' : after.Rebinds names last) :
    frame.Rebinds names last := by
  intro x
  rcases h' x with hlast | hlast
  · rw [hlast]
    exact h x
  · exact Or.inr hlast

theorem Frame.Rebinds.mono {more : List String} (hsub : names ⊆ more)
    (h : frame.Rebinds names after) : frame.Rebinds more after :=
  fun x => (h x).imp_right fun hx => ⟨hsub hx.1, hx.2⟩

theorem rebinds_assignAll (frame binding : Frame) :
    frame.Rebinds (binding.map Prod.fst) (frame.assignAll binding) := by
  intro x
  rw [lookup_assignAll]
  by_cases h : x ∈ binding.map Prod.fst
  · obtain ⟨v, hv⟩ := lookup_binding_of_mem h
    exact Or.inr ⟨h, v, by rw [hv, Option.some_or]⟩
  · rw [lookup_binding_of_not_mem h, Option.none_or]
    exact Or.inl rfl

/-- The names that clauses bind. -/
def boundBy : List Clause → List String
  | [] => []
  | .mk targets _ _ :: rest => targets ++ boundBy rest

theorem foldlM_preserves {ε β σ : Type} {f : σ → β → Except ε σ} {P : σ → Prop}
    (h : ∀ s b s', P s → f s b = .ok s' → P s') {bs : List β} {s s' : σ} (hs : P s)
    (hrun : bs.foldlM f s = .ok s') : P s' := by
  induction bs generalizing s with
  | nil =>
    cases hrun
    exact hs
  | cons b bs ih =>
    rw [List.foldlM_cons] at hrun
    obtain ⟨mid, hmid, hrun⟩ := bind_eq_ok hrun
    exact ih (h s b mid hs hmid) hrun

/-- What is done for one element that a clause runs over. -/
def loopRound (targets : List String) (conditions : List Term) (rest : List Clause) (scope : Scope)
    (emit : Scope → α → Eval α) (p : Frame × α) (element : Value) : Eval (Frame × α) := do
  let frame ← bindTargets p.1 targets element
  if ← allAccept conditions (scope.push frame) then runClauses rest scope frame p.2 emit
  else return (frame, p.2)

theorem runClauses_cons (iterable : Term) (conditions : List Term) (rest : List Clause)
    (found : α) (emit : Scope → α → Eval α) :
    runClauses (.mk targets iterable conditions :: rest) scope frame found emit =
      iterable.eval (scope.push frame) >>= fun v => iterate v >>= fun elements =>
        elements.foldlM (loopRound targets conditions rest scope emit) (frame, found) := by
  rw [runClauses]
  rfl

section

variable {clauses rest : List Clause} {conditions : List Term} {found : α}
  {emit : Scope → α → Eval α} {element : Value} {p q : Frame × α}

theorem loopRound_rebinds
    (hrest : ∀ {frame : Frame} {found : α} {p}, runClauses rest scope frame found emit = .ok p →
      frame.Rebinds (boundBy rest) p.1)
    (h : loopRound targets conditions rest scope emit p element = .ok q) :
    p.1.Rebinds (targets ++ boundBy rest) q.1 := by
  obtain ⟨next, hnext, h⟩ := bind_eq_ok h
  have htargets : p.1.Rebinds (targets ++ boundBy rest) next := by
    rcases bindTargets_cases targets element with ⟨error, herror⟩ | ⟨binding, hnames, hbound⟩
    · cases (herror p.1).symm.trans hnext
    · cases (hbound p.1).symm.trans hnext
      subst hnames
      exact (rebinds_assignAll p.1 binding).mono (List.subset_append_left _ _)
  obtain ⟨accepted, -, h⟩ := bind_eq_ok h
  split at h
  · exact htargets.trans ((hrest h).mono (List.subset_append_right _ _))
  · cases h
    exact htargets

/-- **The loops give values to the targets of their clauses only,** by induction on the clauses, and
for each clause on the elements it runs over. -/
theorem runClauses_rebinds (h : runClauses clauses scope frame found emit = .ok p) :
    frame.Rebinds (boundBy clauses) p.1 := by
  induction clauses generalizing frame found p with
  | nil =>
    rw [runClauses] at h
    obtain ⟨v, -, hp⟩ := bind_eq_ok h
    cases hp
    exact .refl _ frame
  | cons clause rest ih =>
    obtain ⟨targets, iterable, conditions⟩ := clause
    rw [runClauses_cons] at h
    obtain ⟨v, -, h⟩ := bind_eq_ok h
    obtain ⟨elements, -, h⟩ := bind_eq_ok h
    exact foldlM_preserves (P := fun p : Frame × α => frame.Rebinds _ p.1)
      (fun mid element p hmid hround => hmid.trans (loopRound_rebinds ih hround)) (.refl _ frame) h

end

/-! ### What a term mentions -/

mutual

/-- The names that a term looks up around it. -/
def Term.mentioned : Term → List String
  | .literal _ => []
  | .name head _ => [head]
  | .unary _ operand => operand.mentioned
  | .binary _ left right => left.mentioned ++ right.mentioned
  | .compare first rest => first.mentioned ++ mentionedInLinks rest
  | .both left right => left.mentioned ++ right.mentioned
  | .either left right => left.mentioned ++ right.mentioned
  | .conditional whenTrue condition whenFalse =>
    condition.mentioned ++ (whenTrue.mentioned ++ whenFalse.mentioned)
  | .call _ args => mentionedInAll args
  | .subscript target index => target.mentioned ++ index.mentioned
  | .list elements => mentionedInAll elements
  | .dict entries => mentionedInEntries entries
  | .listOver value clauses => mentionedBehind clauses value.mentioned
  | .dictOver key value clauses => mentionedBehind clauses (key.mentioned ++ value.mentioned)

/-- The names that several terms look up. -/
def mentionedInAll : List Term → List String
  | [] => []
  | term :: rest => term.mentioned ++ mentionedInAll rest

/-- The names that the entries of a dict display look up. -/
def mentionedInEntries : List (Term × Term) → List String
  | [] => []
  | (key, value) :: rest => value.mentioned ++ (key.mentioned ++ mentionedInEntries rest)

/-- The names that the links of a chain of comparisons look up. -/
def mentionedInLinks : List (CompareOp × Term) → List String
  | [] => []
  | (_, term) :: rest => term.mentioned ++ mentionedInLinks rest

/-- The names that clauses, and what is evaluated behind them, look up around them: those of an
iterable, and those of what stands behind it that are not its targets. -/
def mentionedBehind : List Clause → List String → List String
  | [], inner => inner
  | .mk targets iterable conditions :: rest, inner =>
    iterable.mentioned ++
      (mentionedInAll conditions ++ mentionedBehind rest inner).filter (· ∉ targets)

end

/-- Two scopes have the same tree, and the same values of some variables. -/
structure Scope.AgreesOn (names : List String) (scope other : Scope) : Prop where
  root : scope.root = other.root
  same : ∀ x ∈ names, scope.valueOf? x = other.valueOf? x

namespace Scope.AgreesOn

theorem mono {fewer : List String} (h : scope.AgreesOn names other) (hsub : fewer ⊆ names) :
    scope.AgreesOn fewer other :=
  ⟨h.root, fun x hx => h.same x (hsub hx)⟩

theorem left {more : List String} (h : scope.AgreesOn (names ++ more) other) :
    scope.AgreesOn names other :=
  h.mono (List.subset_append_left _ _)

theorem right {more : List String} (h : scope.AgreesOn (more ++ names) other) :
    scope.AgreesOn names other :=
  h.mono (List.subset_append_right _ _)

/-- A name that is bound in a frame is the same around it. -/
theorem push (h : scope.AgreesOn names other) (frame : Frame) :
    (scope.push frame).AgreesOn names (other.push frame) :=
  ⟨h.root, fun x hx => by rw [valueOf?_push, valueOf?_push, h.same x hx]⟩

theorem rebind (h : (scope.push frame).AgreesOn names (other.push frame)) {bound : List String}
    (hafter : frame.Rebinds bound after) :
    (scope.push after).AgreesOn names (other.push after) := by
  refine ⟨h.root, fun x hx => ?_⟩
  have hbefore := h.same x hx
  rw [valueOf?_push, valueOf?_push] at hbefore ⊢
  rcases hafter x with hsame | ⟨-, v, hv⟩
  · rw [hsame, hbefore]
  · rw [hv, Option.some_or, Option.some_or]

/-- Names that have been bound in a frame need not have agreed before. -/
theorem bind (h : (scope.push frame).AgreesOn (names.filter (· ∉ binding.map Prod.fst))
      (other.push frame)) :
    (scope.push (frame.assignAll binding)).AgreesOn names
      (other.push (frame.assignAll binding)) := by
  refine ⟨h.root, fun x hx => ?_⟩
  rw [valueOf?_push, valueOf?_push, lookup_assignAll]
  by_cases hmem : x ∈ binding.map Prod.fst
  · obtain ⟨v, hv⟩ := lookup_binding_of_mem hmem
    rw [hv, Option.some_or, Option.some_or, Option.some_or]
  · have hbefore := h.same x (List.mem_filter.2 ⟨hx, decide_eq_true hmem⟩)
    rw [valueOf?_push, valueOf?_push] at hbefore
    rw [Option.or_assoc, Option.or_assoc, hbefore]

theorem nameValue_eq {head : String} (h : scope.AgreesOn [head] other) (rest : List String) :
    scope.nameValue head rest = other.nameValue head rest := by
  unfold Scope.nameValue
  rw [h.same head (List.mem_singleton.2 rfl), h.root]

end Scope.AgreesOn

/-- Loops whose rounds are equal wherever they may start from. -/
theorem foldlM_eq_of_preserves {ε β σ : Type} {f g : σ → β → Except ε σ} {P : σ → Prop}
    (heq : ∀ s b, P s → f s b = g s b) (h : ∀ s b s', P s → f s b = .ok s' → P s')
    (bs : List β) {s : σ} (hs : P s) : bs.foldlM f s = bs.foldlM g s := by
  induction bs generalizing s with
  | nil => rfl
  | cons b bs ih =>
    rw [List.foldlM_cons, List.foldlM_cons, ← heq s b hs]
    cases hround : f s b with
    | error e => rfl
    | ok s' => exact ih (h s b s' hs hround)

mutual

/-- **The value of a term depends on the variables that it mentions only.** -/
theorem Term.eval_congr {scope other : Scope} :
    ∀ t : Term, scope.AgreesOn t.mentioned other → t.eval scope = t.eval other
  | .literal value, h => by rw [Term.eval, Term.eval]
  | .name head rest, h => by
    rw [Term.mentioned] at h
    rw [Term.eval, Term.eval, h.nameValue_eq]
  | .unary op operand, h => by
    rw [Term.mentioned] at h
    rw [Term.eval, Term.eval, operand.eval_congr h]
  | .binary op left right, h => by
    rw [Term.mentioned] at h
    rw [Term.eval, Term.eval, left.eval_congr h.left, right.eval_congr h.right]
  | .compare first rest, h => by
    rw [Term.mentioned] at h
    rw [Term.eval, Term.eval, first.eval_congr h.left]
    simp only [chainHolds_congr rest h.right]
  | .both left right, h => by
    rw [Term.mentioned] at h
    rw [Term.eval, Term.eval, left.eval_congr h.left, right.eval_congr h.right]
  | .either left right, h => by
    rw [Term.mentioned] at h
    rw [Term.eval, Term.eval, left.eval_congr h.left, right.eval_congr h.right]
  | .conditional whenTrue condition whenFalse, h => by
    rw [Term.mentioned] at h
    rw [Term.eval, Term.eval, condition.eval_congr h.left, whenTrue.eval_congr h.right.left,
      whenFalse.eval_congr h.right.right]
  | .call function args, h => by
    rw [Term.mentioned] at h
    rw [Term.eval, Term.eval, evalAll_congr args h]
  | .subscript target index, h => by
    rw [Term.mentioned] at h
    rw [Term.eval, Term.eval, target.eval_congr h.left, index.eval_congr h.right]
  | .list elements, h => by
    rw [Term.mentioned] at h
    rw [Term.eval, Term.eval, evalAll_congr elements h]
  | .dict entries, h => by
    rw [Term.mentioned] at h
    rw [Term.eval, Term.eval, evalEntries_congr entries [] h]
  | .listOver value clauses, h => by
    rw [Term.mentioned] at h
    rw [Term.eval, Term.eval]
    refine congrArg (· >>= _) (runClauses_congr clauses [] [] (h.push []) fun frame items h => ?_)
    rw [value.eval_congr h]
  | .dictOver key value clauses, h => by
    rw [Term.mentioned] at h
    rw [Term.eval, Term.eval]
    refine congrArg (· >>= _) (runClauses_congr clauses [] [] (h.push []) fun frame found h => ?_)
    rw [key.eval_congr h.left, value.eval_congr h.right]

theorem evalAll_congr {scope other : Scope} :
    ∀ terms : List Term, scope.AgreesOn (mentionedInAll terms) other →
      evalAll terms scope = evalAll terms other
  | [], h => by rw [evalAll, evalAll]
  | term :: rest, h => by
    rw [mentionedInAll] at h
    rw [evalAll, evalAll, term.eval_congr h.left, evalAll_congr rest h.right]

theorem evalEntries_congr {scope other : Scope} :
    ∀ (entries : List (Term × Term)) (found : List (String × Value)),
      scope.AgreesOn (mentionedInEntries entries) other →
        evalEntries entries found scope = evalEntries entries found other
  | [], found, h => by rw [evalEntries, evalEntries]
  | (key, value) :: rest, found, h => by
    rw [mentionedInEntries] at h
    rw [evalEntries, evalEntries, value.eval_congr h.left, key.eval_congr h.right.left]
    simp only [evalEntries_congr rest _ h.right.right]

theorem chainHolds_congr {scope other : Scope} :
    ∀ (links : List (CompareOp × Term)), scope.AgreesOn (mentionedInLinks links) other →
      ∀ left, chainHolds links left scope = chainHolds links left other
  | [], h, left => by rw [chainHolds, chainHolds]
  | (op, term) :: rest, h, left => by
    rw [mentionedInLinks] at h
    rw [chainHolds, chainHolds, term.eval_congr h.left]
    simp only [chainHolds_congr rest h.right]

theorem allAccept_congr {scope other : Scope} :
    ∀ conditions : List Term, scope.AgreesOn (mentionedInAll conditions) other →
      allAccept conditions scope = allAccept conditions other
  | [], h => by rw [allAccept, allAccept]
  | condition :: rest, h => by
    rw [mentionedInAll] at h
    rw [allAccept, allAccept, condition.eval_congr h.left, allAccept_congr rest h.right]

/-- The loops of clauses depend on the variables that they mention only: each round starts from a
frame in which nothing is lost, so that the scopes still agree. -/
theorem runClauses_congr {α : Type} {scope other : Scope} {inner : List String}
    {emit : Scope → α → Eval α} :
    ∀ (clauses : List Clause) (frame : Frame) (found : α),
      (scope.push frame).AgreesOn (mentionedBehind clauses inner) (other.push frame) →
        (∀ frame found, (scope.push frame).AgreesOn inner (other.push frame) →
          emit (scope.push frame) found = emit (other.push frame) found) →
            runClauses clauses scope frame found emit = runClauses clauses other frame found emit
  | [], frame, found, h, hemit => by
    rw [mentionedBehind] at h
    rw [runClauses, runClauses, hemit frame found h]
  | .mk targets iterable conditions :: rest, frame, found, h, hemit => by
    rw [mentionedBehind] at h
    rw [runClauses_cons, runClauses_cons, iterable.eval_congr h.left]
    refine congrArg _ (funext fun v => congrArg _ (funext fun elements => ?_))
    refine foldlM_eq_of_preserves (P := fun p : Frame × α =>
        (scope.push p.1).AgreesOn ((mentionedInAll conditions ++ mentionedBehind rest inner).filter
          (· ∉ targets)) (other.push p.1))
      (fun p element hagree => ?_)
      (fun p element q hagree hround => hagree.rebind (loopRound_rebinds runClauses_rebinds hround))
      elements h.right
    unfold loopRound
    rcases bindTargets_cases targets element with ⟨error, herror⟩ | ⟨binding, rfl, hbound⟩
    · rw [herror]
      rfl
    · rw [hbound, ok_bind, ok_bind, allAccept_congr conditions hagree.bind.left,
        runClauses_congr rest _ p.2 hagree.bind.right hemit]

end

end EnergyPlan.Expr
