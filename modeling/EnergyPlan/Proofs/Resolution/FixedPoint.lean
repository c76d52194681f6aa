/-
# References resolve exactly if they can

If no placeholder depends on itself and no path dangles, resolution ends after at most as
many passes as there are placeholders in the longest chain, and every placeholder then holds
the node that its path finds in the result: after a number of passes, all placeholders are
replaced that start no longer chain. If there is a cycle or a dangling path, resolution
fails, however many passes it is allowed: what was replaced is on no cycle and leads
somewhere.

Key definitions: `Settled`.
Key theorems: `runPasses_settles`, `runPasses_cases`, `resolve_references`.
-/
import EnergyPlan.Proofs.Resolution.Passes

namespace EnergyPlan.Config

open Text

/-- The placeholders that start no chain of more than `k` are replaced. -/
def Settled (root tree : Node) (k : Nat) : Prop :=
  ∀ p path, Refers root p path → Within root k p → Replaced tree p

variable {root tree : Node}

/-! ### Single passes -/

theorem settled_zero : Settled root tree 0 := fun _ _ _ hw => nomatch hw

theorem Settled.ready {k : Nat} (h : Settled root tree k)
    (hl : ∀ p path, Refers root p path → Leads root path) {p : List Step}
    (hw : ∀ path, Refers root p path → Within root (k + 1) p) : Ready root tree p := by
  intro path hp
  refine ⟨hl p path hp, fun p' hdep => ?_⟩
  obtain ⟨_, path', _, hp', _⟩ := id hdep
  exact h p' path' hp' (hw path hp p' hdep)

/-- A pass settles the placeholders that start a chain longer by one. -/
theorem Settled.pass {k : Nat} (h : Settled root tree k)
    (hl : ∀ p path, Refers root p path → Leads root path) {state : PassState}
    (hpass : ∀ p path, Refers root p path → Ready root tree p → Replaced state.tree p) :
    Settled root state.tree (k + 1) :=
  fun p path hp hw => hpass p path hp (h.ready hl fun _ _ => hw)

/-- Nothing is pending once every placeholder is replaced. -/
theorem Progress.not_pending (h : Progress root tree) (ho : OnlyReferences root)
    (hall : ∀ p path, Refers root p path → Replaced tree p) : tree.isPending = false := by
  rw [← Bool.not_eq_true]
  intro hpend
  obtain ⟨p, w, hw, hwaits⟩ := Node.exists_waiting h.distinct hpend
  obtain ⟨path, hp⟩ := ho.refers (h.waits p w hw hwaits) hwaits
  obtain ⟨v, hv, hset⟩ := hall p path hp
  rw [hw] at hv
  cases hv
  exact hwaits.not_settled hset

/-- Once nothing is pending every placeholder is done. -/
theorem Progress.all_done (h : Progress root tree) (hset : tree.isPending = false) {p : List Step}
    {path : List String} (hp : Refers root p path) : ∃ v, Done root tree p path v := by
  rcases h.done p path hp with hsame | hdone
  · obtain ⟨w, hw, hwaits⟩ := hp.waits
    exact absurd (Node.settled_of_get? hset (hsame.trans hw)) hwaits.not_settled
  · exact hdone

/-- A pass that reaches the end of the longest chain leaves nothing to do. -/
theorem finished_of_settled (ho : OnlyReferences root) {depth k : Nat}
    (hd : ∀ p path, Refers root p path → Within root depth p)
    (hl : ∀ p path, Refers root p path → Leads root path) (hk : depth ≤ k + 1)
    (h : Settled root tree k) {state : PassState} (hadv : Progress root state.tree)
    (hpass : ∀ p path, Refers root p path → Ready root tree p → Replaced state.tree p)
    (hblocked : (∀ p, Ready root tree p) → state.blocked = []) :
    (state.blocked.isEmpty && !state.tree.isPending) = true := by
  have hready : ∀ p, Ready root tree p :=
    fun p => h.ready hl fun path hp => (hd p path hp).mono hk
  have hset := hadv.not_pending ho fun p path hp => hpass p path hp (hready p)
  rw [hblocked hready, hset]
  rfl

/-! ### Repeated passes -/

/-- **Passes settle every placeholder** within the length of the longest chain. -/
theorem runPasses_settles (env : Environment) (allowed : Int) (ho : OnlyReferences root)
    {depth : Nat} (hd : ∀ p path, Refers root p path → Within root depth p)
    (hl : ∀ p path, Refers root p path → Leads root path) {left done : Nat}
    {blocked : List String} (h : Progress root tree) (hs : Settled root tree done)
    (hdone : done < max 1 depth) (hleft : max 1 depth ≤ done + left) :
    ∃ result, (runPasses env allowed left done tree blocked).outcome = .ok result ∧
      (runPasses env allowed left done tree blocked).passes ≤ max 1 depth ∧
      Progress root result ∧ result.isPending = false := by
  induction left generalizing done tree blocked with
  | zero => omega
  | succ left ih =>
    obtain ⟨state, hok, hadv, hpass, hblocked⟩ := runPass_ok env ho h
    rw [runPasses, hok]
    dsimp only
    by_cases hfin : (state.blocked.isEmpty && !state.tree.isPending) = true
    · rw [if_pos hfin]
      have hset := (Bool.and_eq_true_iff.1 hfin).2
      rw [Bool.not_eq_true'] at hset
      exact ⟨state.tree, rfl, hdone, hadv.progress, hset⟩
    · rw [if_neg hfin]
      cases hchanged : state.changed with
      | false =>
        -- a pass without a change would have settled chains of every length before it
        have hsame : state.tree = tree := (hadv.unchanged hchanged).2
        have hall : ∀ k, Settled root tree k := by
          intro k
          induction k with
          | zero => exact settled_zero
          | succ k ihk =>
            have hnext := ihk.pass hl hpass
            rwa [hsame] at hnext
        exact absurd (finished_of_settled ho hd hl (Nat.le_succ depth) (hall depth) hadv.progress
          hpass hblocked) hfin
      | true =>
        have hmore : done + 1 < max 1 depth := by
          by_contra hle
          have hk : depth ≤ done + 1 := by omega
          exact hfin (finished_of_settled ho hd hl hk hs hadv.progress hpass hblocked)
        exact ih hadv.progress (hs.pass hl hpass) hmore (by omega)

/-- Passes end with a tree in which nothing is pending, or they fail for the references. -/
theorem runPasses_cases (env : Environment) (allowed : Int) (ho : OnlyReferences root)
    {left done : Nat} {blocked : List String} (h : Progress root tree) :
    (∃ result, (runPasses env allowed left done tree blocked).outcome = .ok result ∧
      Progress root result ∧ result.isPending = false) ∨
    ∃ paths, (runPasses env allowed left done tree blocked).outcome = .error (.stuck paths) ∨
      (runPasses env allowed left done tree blocked).outcome =
        .error (.exhausted allowed paths) := by
  induction left generalizing done tree blocked with
  | zero => exact Or.inr ⟨blocked, Or.inr rfl⟩
  | succ left ih =>
    obtain ⟨state, hok, hadv, _, _⟩ := runPass_ok env ho h
    rw [runPasses, hok]
    dsimp only
    by_cases hfin : (state.blocked.isEmpty && !state.tree.isPending) = true
    · rw [if_pos hfin]
      have hset := (Bool.and_eq_true_iff.1 hfin).2
      rw [Bool.not_eq_true'] at hset
      exact Or.inl ⟨state.tree, rfl, hadv.progress, hset⟩
    · rw [if_neg hfin]
      cases state.changed with
      | false => exact Or.inr ⟨state.blocked, Or.inl rfl⟩
      | true => exact ih hadv.progress

/-- **References resolve to a fixed point, or not at all.** Without a cycle and without a dangling
path, resolution succeeds as soon as it is allowed as many passes as the longest chain has
placeholders, in no more passes than that, and each placeholder holds what its path finds in the
result. With a cycle or a dangling path it fails. -/
theorem resolve_references (env : Environment) (ho : OnlyReferences root) :
    (Acyclic root → (∀ p path, Refers root p path → Leads root path) →
      ∃ depth, Longest root depth ∧ ∀ allowed : Int, max 1 (depth : Int) ≤ allowed →
        ∃ result, (resolve env allowed root).outcome = .ok result ∧
          (resolve env allowed root).passes ≤ max 1 depth ∧
          ∀ p path, Refers root p path →
            ∃ node, result.get? p = some node ∧ result.find path = some node) ∧
    ((¬ Acyclic root ∨ ∃ p path, Refers root p path ∧ ¬ Leads root path) →
      ∀ allowed : Int, 1 ≤ allowed →
        ∃ paths, (resolve env allowed root).outcome = .error (.stuck paths) ∨
          (resolve env allowed root).outcome = .error (.exhausted allowed paths)) := by
  have hstart := Progress.refl ho
  constructor
  · intro ha hl
    obtain ⟨depth, hd⟩ := exists_longest ha
    refine ⟨depth, hd, fun allowed hallowed => ?_⟩
    have hleft : max 1 depth ≤ 0 + allowed.toNat := by omega
    have hdone : 0 < max 1 depth := by omega
    obtain ⟨result, hok, hpasses, hprog, hset⟩ : ∃ result,
        (resolve env allowed root).outcome = .ok result ∧
          (resolve env allowed root).passes ≤ max 1 depth ∧
          Progress root result ∧ result.isPending = false :=
      runPasses_settles env allowed ho (fun _ _ hp => within_of_longest hd hp) hl hstart
        settled_zero hdone hleft
    refine ⟨result, hok, hpasses, fun p path hp => ?_⟩
    obtain ⟨v, hv⟩ := hprog.all_done hset hp
    exact ⟨v, hv.here, hv.found⟩
  · intro hbad allowed _
    have hcases : (∃ result, (resolve env allowed root).outcome = .ok result ∧
          Progress root result ∧ result.isPending = false) ∨
        ∃ paths, (resolve env allowed root).outcome = .error (.stuck paths) ∨
          (resolve env allowed root).outcome = .error (.exhausted allowed paths) :=
      runPasses_cases env allowed ho hstart
    rcases hcases with ⟨result, _, hprog, hset⟩ | hfail
    · -- every placeholder would be replaced, against the cycle or the dangling path
      exfalso
      rcases hbad with hcycle | ⟨p, path, hp, hdangles⟩
      · refine hcycle fun p hpp => ?_
        obtain ⟨q, hdep, _⟩ := Relation.TransGen.head'_iff.1 hpp
        obtain ⟨path, _, hp, _⟩ := id hdep
        obtain ⟨v, hv⟩ := hprog.all_done hset hp
        exact hv.acyclic hpp
      · obtain ⟨v, hv⟩ := hprog.all_done hset hp
        have hby : ByPosition root (path ++ []) := by
          rw [List.append_nil]
          exact ho.positional p path hp
        have hleads := hv.leads [] v hby rfl
        rw [List.append_nil] at hleads
        exact hdangles hleads
    · exact hfail

/-! ### A chain of two placeholders -/

/-- A placeholder for a placeholder for a number, in that order. -/
def sampleChain : Node :=
  .mapping [("a", .plain "$\x7bb\x7d"), ("b", .plain "$\x7bc\x7d"), ("c", .plain "42")]

/-- What stands in it: itself, and below it three scalars. -/
theorem sampleChain_get {p : List Step} {n : Node} (h : sampleChain.get? p = some n) :
    (p = [] ∧ n = sampleChain) ∨ (p = [.key "a"] ∧ n = .plain "$\x7bb\x7d") ∨
      (p = [.key "b"] ∧ n = .plain "$\x7bc\x7d") ∨ (p = [.key "c"] ∧ n = .plain "42") := by
  cases p with
  | nil =>
    cases h
    exact Or.inl ⟨rfl, rfl⟩
  | cons step r =>
    rw [Node.get?] at h
    obtain ⟨child, hc, hr⟩ := Option.bind_eq_some_iff.1 h
    have hend : child.isScalar = true → r = [] ∧ n = child := by
      intro hs
      cases r with
      | nil =>
        cases hr
        exact ⟨rfl, rfl⟩
      | cons s r =>
        rw [Node.get?_eq_none_of_isScalar hs] at hr
        cases hr
    cases step with
    | item i => cases hc
    | key k =>
      have hmem : (k, child) ∈ sampleChain.entries := Node.mem_of_lookup hc
      rw [sampleChain, Node.entries, List.mem_cons, List.mem_cons, List.mem_singleton] at hmem
      rcases hmem with heq | heq | heq
      · cases heq
        obtain ⟨rfl, rfl⟩ := hend rfl
        exact Or.inr (Or.inl ⟨rfl, rfl⟩)
      · cases heq
        obtain ⟨rfl, rfl⟩ := hend rfl
        exact Or.inr (Or.inr (Or.inl ⟨rfl, rfl⟩))
      · cases heq
        obtain ⟨rfl, rfl⟩ := hend rfl
        exact Or.inr (Or.inr (Or.inr ⟨rfl, rfl⟩))

theorem wholly_letter (c : Char) (h : isBrace c = false) :
    Wholly (String.ofList ['$', '\x7b', c, '\x7d']) [c] := by
  refine ⟨String.toList_ofList, List.cons_ne_nil _ _, ?_⟩
  intro d hd
  rw [List.mem_singleton.1 hd]
  exact h

theorem sampleChain_refers {p : List Step} {path : List String} (h : Refers sampleChain p path) :
    (p = [.key "a"] ∧ path = ["b"]) ∨ (p = [.key "b"] ∧ path = ["c"]) := by
  obtain ⟨tag, text, inner, hp, _, hw, rfl⟩ := h
  rcases sampleChain_get hp with ⟨_, heq⟩ | ⟨rfl, heq⟩ | ⟨rfl, heq⟩ | ⟨_, heq⟩
  · cases heq
  · cases heq
    rw [hw.unique (wholly_letter 'b' rfl)]
    exact Or.inl ⟨rfl, by decide +kernel⟩
  · cases heq
    rw [hw.unique (wholly_letter 'c' rfl)]
    exact Or.inr ⟨rfl, by decide +kernel⟩
  · cases heq
    have hfirst := congrArg List.head? hw.1
    cases hfirst

theorem sampleChain_references : OnlyReferences sampleChain where
  distinct := by
    refine .mapping (by decide) ?_
    intro e he
    rw [List.mem_cons, List.mem_cons, List.mem_singleton] at he
    rcases he with rfl | rfl | rfl <;> exact .scalar _ _
  wholly p tag text hp hpend := by
    rcases sampleChain_get hp with ⟨_, heq⟩ | ⟨_, heq⟩ | ⟨_, heq⟩ | ⟨_, heq⟩
    · cases heq
    · cases heq
      exact ⟨['b'], wholly_letter 'b' rfl⟩
    · cases heq
      exact ⟨['c'], wholly_letter 'c' rfl⟩
    · cases heq
      have hno : Node.scalarPending .plain "42" = false := by decide +kernel
      rw [hno] at hpend
      cases hpend
  positional := by
    -- no path meets a sequence
    intro p path _ path' _ pre segment post m _ hm hseq
    obtain ⟨q, hq⟩ := Node.exists_position_of_find hm
    rcases sampleChain_get hq with ⟨_, rfl⟩ | ⟨_, rfl⟩ | ⟨_, rfl⟩ | ⟨_, rfl⟩ <;> cases hseq

/-- Only the first placeholder depends on another one. -/
theorem sampleChain_depends {p p' : List Step} (h : DependsOn sampleChain p p') :
    p = [.key "a"] ∧ p' = [.key "b"] := by
  obtain ⟨path, path', hp, hp', pre, post, q, heq, hq, hor⟩ := h
  have hnil : ∀ {key}, p' = [key] → q = [] → post ≠ [] → False := by
    rintro key rfl rfl hpost
    rcases hor with hbad | ⟨hbad, _⟩
    · cases hbad
    · exact hpost hbad
  have hprefix : q <+: p' := by
    rcases hor with rfl | ⟨_, hpre⟩
    · exact List.prefix_rfl
    · exact hpre
  rcases sampleChain_refers hp with ⟨rfl, rfl⟩ | ⟨rfl, rfl⟩
  · rcases List.append_eq_singleton_iff.1 heq.symm with ⟨rfl, rfl⟩ | ⟨rfl, rfl⟩
    · cases hq
      rcases sampleChain_refers hp' with ⟨hx, _⟩ | ⟨hx, _⟩
      · exact (hnil hx rfl (List.cons_ne_nil _ _)).elim
      · exact (hnil hx rfl (List.cons_ne_nil _ _)).elim
    · cases hq
      rcases sampleChain_refers hp' with ⟨rfl, _⟩ | ⟨rfl, _⟩
      · exact absurd hprefix (by decide)
      · exact ⟨rfl, rfl⟩
  · rcases List.append_eq_singleton_iff.1 heq.symm with ⟨rfl, rfl⟩ | ⟨rfl, rfl⟩
    · cases hq
      rcases sampleChain_refers hp' with ⟨hx, _⟩ | ⟨hx, _⟩
      · exact (hnil hx rfl (List.cons_ne_nil _ _)).elim
      · exact (hnil hx rfl (List.cons_ne_nil _ _)).elim
    · cases hq
      rcases sampleChain_refers hp' with ⟨rfl, _⟩ | ⟨rfl, _⟩
      · exact absurd hprefix (by decide)
      · exact absurd hprefix (by decide)

theorem sampleChain_acyclic : Acyclic sampleChain := by
  intro p h
  obtain ⟨_, hdep, _⟩ := Relation.TransGen.head'_iff.1 h
  obtain ⟨_, _, hdep'⟩ := Relation.TransGen.tail'_iff.1 h
  have hfirst := (sampleChain_depends hdep).1
  have hlast := (sampleChain_depends hdep').2
  rw [hfirst] at hlast
  exact absurd hlast (by decide)

theorem sampleChain_leads {p : List Step} {path : List String}
    (h : Refers sampleChain p path) : Leads sampleChain path := by
  rcases sampleChain_refers h with ⟨_, rfl⟩ | ⟨_, rfl⟩
  · exact ⟨_, Relation.ReflTransGen.refl, rfl⟩
  · exact ⟨_, Relation.ReflTransGen.refl, rfl⟩

/-- The longest chain has both placeholders: the second one depends on nothing. -/
theorem sampleChain_longest {depth : Nat} (h : Longest sampleChain depth) : depth ≤ 2 := by
  obtain ⟨ps, hps, rfl⟩ := h.1
  match ps, hps with
  | [], _ => exact Nat.zero_le 2
  | [_], _ => exact Nat.le_succ 1
  | [_, _], _ => exact Nat.le_refl 2
  | _ :: b :: c :: rest, hps =>
    have hchain := List.isChain_cons_cons.1 hps.1
    have hb := (sampleChain_depends hchain.1).2
    have hb' := (sampleChain_depends (List.isChain_cons_cons.1 hchain.2).1).1
    rw [hb] at hb'
    exact absurd hb' (by decide)

/-- Two passes are enough for it. -/
theorem resolve_references_sample :
    ∃ result, (resolve (fun _ => none) 2 sampleChain).outcome = .ok result ∧
      ∀ p path, Refers sampleChain p path →
        ∃ node, result.get? p = some node ∧ result.find path = some node := by
  obtain ⟨depth, hd, hresolves⟩ := (resolve_references (fun _ => none) sampleChain_references).1
    sampleChain_acyclic fun _ _ => sampleChain_leads
  have hle := sampleChain_longest hd
  obtain ⟨result, hok, _, hholds⟩ := hresolves 2 (by omega)
  exact ⟨result, hok, hholds⟩

end EnergyPlan.Config
