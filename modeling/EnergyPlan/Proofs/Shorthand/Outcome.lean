/-
# Shorthand is only shorthand

Expanding some fields of a configuration before it is compiled changes nothing: the members
that are inferred, the expanded configuration and the outcome of the compilation, be it a
problem or the failure of a stage, are the same. Nothing is pending, so resolution hands the
configuration on; the options are read from the same section, and the configuration without
them is again one whose fields are expanded beforehand.

Key definitions: `Config.Node.without`.
Key theorems: `Foreseen.without`, `runStage_ok_bind`, `compileTree_of_settled`,
`compileTree_foreseen`.
-/
import EnergyPlan.Proofs.Exact
import EnergyPlan.Proofs.Shorthand.Replaced

namespace EnergyPlan

open Config Text Fields

/-! ### A configuration without its options -/

namespace Config.Node

/-- A mapping without a key. -/
def without (node : Node) (key : String) : Node :=
  .mapping (node.entries.filter fun e => e.1 != key)

theorem entry?_without (node : Node) {key k : String} (h : k ≠ key) :
    Node.entry? (node.without key) k = node.entry? k := by
  show (node.entries.filter fun e => e.1 != key).lookup k = node.entries.lookup k
  induction node.entries with
  | nil => rfl
  | cons e rest ih =>
    obtain ⟨j, value⟩ := e
    by_cases hj : j = key
    · subst hj
      rw [List.filter_cons_of_neg (by simp), List.lookup_cons, beq_false_of_ne h]
      exact ih
    · rw [List.filter_cons_of_pos (by simpa using hj), List.lookup_cons, List.lookup_cons, ih]

theorem isPending_without {node : Node} (h : node.isPending = false) (key : String) :
    (node.without key).isPending = false := by
  rw [without, isPending, anyEntryPending_eq_any, List.any_eq_false]
  cases node with
  | mapping entries =>
    rw [isPending, anyEntryPending_eq_any, List.any_eq_false] at h
    exact fun e he => h e (List.mem_of_mem_filter he)
  | _ => exact fun e he => nomatch he

theorem filter_setEntry {key k : String} (h : k ≠ key) (value : Node)
    (entries : List (String × Node)) :
    (setEntry k value entries).filter (fun e => e.1 != key) =
      setEntry k value (entries.filter fun e => e.1 != key) := by
  induction entries with
  | nil => simp [setEntry, h]
  | cons e rest ih =>
    obtain ⟨j, old⟩ := e
    by_cases hj : j = k
    · subst hj
      simp [setEntry, h]
    · by_cases hkey : j = key
      · subst hkey
        simp [setEntry, hj, ih]
      · simp [setEntry, hj, hkey, ih]

/-- A node below another key is replaced before a key is taken out, or after. -/
theorem without_set {node : Node} (hm : node.isMapping = true) {key k : String} (h : k ≠ key)
    (value : Node) (r : List Step) :
    (node.set value (.key k :: r)).without key = (node.without key).set value (.key k :: r) := by
  have hsame : (node.without key).child? (.key k) = node.child? (.key k) := entry?_without node h
  cases hc : node.child? (.key k) with
  | none => rw [set, hc, set.eq_2 _ _ (.key k), hsame, hc]
  | some child =>
    rw [set_cons hc, set_cons (hsame.trans hc)]
    cases node with
    | mapping entries => exact congrArg mapping (filter_setEntry h _ entries)
    | _ => cases hm

end Config.Node

namespace Fields

/-- The sites of a configuration depend on the entries of its lists and fields only. -/
theorem fieldSites_congr {a b : Node}
    (hl : ∀ kind ∈ EntityKind.listed, a.entry? kind.collection = b.entry? kind.collection)
    (hm : ∀ spec ∈ EntityKind.model.indexedFields, a.entry? spec.name = b.entry? spec.name) :
    fieldSites a = fieldSites b := by
  have hown : ownSites .model [] "" a = ownSites .model [] "" b :=
    List.filterMap_congr fun spec hs => by rw [hm spec hs]
  rw [fieldSites, fieldSites, hown]
  refine congrArg (· ++ _) (List.flatMap_congr fun kind hk => ?_)
  rw [listedEntities, listedEntities, hl kind hk]

theorem identifiers_congr {a b : Node}
    (hl : ∀ kind ∈ EntityKind.listed, a.entry? kind.collection = b.entry? kind.collection) :
    identifiers a = identifiers b := by
  simp only [identifiers, listedIds, hl .region (by decide), hl .commodity (by decide),
    hl .impact (by decide), hl .technology (by decide), hl .storage (by decide)]

/-- The options play no part in the sites and the ids. -/
theorem fieldSites_without (root : Node) :
    fieldSites (root.without "compiler") = fieldSites root :=
  fieldSites_congr (fun _ hk => Node.entry?_without root (collection_ne hk).2)
    fun _ hs => Node.entry?_without root (model_name_ne hs).2.2

theorem inferSets_without {R : Type} (root : Node) (time : TimeStructure R) :
    inferSets (root.without "compiler") time = inferSets root time := by
  have hids := identifiers_congr (a := root.without "compiler") (b := root)
    fun _ hk => Node.entry?_without root (collection_ne hk).2
  rw [inferSets, inferSets, fieldSites_without, declareIdentifiers, hids]
  rfl

/-- A site stands below a list or a field at the top, so not in the options. -/
theorem exists_first_step {root : Node} {site : FieldSite} (h : site ∈ fieldSites root) :
    ∃ k r, site.position = .key k :: r ∧ k ≠ "compiler" := by
  obtain ⟨path, kind, entity, ho, hs⟩ := owns_of_mem_fieldSites h
  obtain ⟨spec, hspec, value, _, heq⟩ := mem_ownSites.1 hs
  have hp : site.position = site.owner ++ [.key spec.name] := by rw [heq, FieldSite.position]
  rw [hp]
  cases ho with
  | model ho => exact ⟨spec.name, [], by rw [ho]; rfl, (model_name_ne hspec).2.2⟩
  | listed hk _ ho => exact ⟨_, _, by rw [ho]; rfl, (collection_ne hk).2⟩
  | mode _ _ ho => exact ⟨_, _, by rw [ho]; rfl, (collection_ne (by decide)).2⟩

theorem without_fill {root : Node} {ps : List (List Step × Node)} (hm : root.isMapping = true)
    (h : ∀ a ∈ ps, ∃ k r, a.1 = .key k :: r ∧ k ≠ "compiler") :
    (root.fill ps).without "compiler" = (root.without "compiler").fill ps := by
  induction ps generalizing root with
  | nil => rfl
  | cons a rest ih =>
    obtain ⟨k, r, hp, hk⟩ := h a List.mem_cons_self
    have hm' : (root.set a.2 a.1).isMapping = true := by
      rw [hp, (Node.sameKind_set root a.2 (.key k) r).1]
      exact hm
    rw [Node.fill_cons, Node.fill_cons, ih hm' fun b hb => h b (List.mem_cons_of_mem _ hb), hp,
      Node.without_set hm hk]

/-- Without the options, too, the fields are expanded beforehand. -/
theorem Foreseen.without {R : Type} {time : TimeStructure R} {sets : MemberSets}
    {root root' : Node} {chosen : List FieldSite} (h : Foreseen time sets root chosen root')
    (hm : root.isMapping = true) :
    Foreseen time sets (root.without "compiler") chosen (root'.without "compiler") where
  settled := Node.isPending_without h.settled _
  inferred := (inferSets_without root time).trans h.inferred
  no_wildcard := h.no_wildcard
  declared site hs := h.declared site (fieldSites_without root ▸ hs)
  sites site hs := fieldSites_without root ▸ h.sites site hs
  expanded := by
    rw [foldlM_broadcastSite, h.expandable, h.eq_fill, without_fill hm]
    · rfl
    · intro a ha
      obtain ⟨site, hs, rfl⟩ := List.mem_map.1 ha
      exact exists_first_step (h.sites site hs)

end Fields

/-! ### Stages with the same outcome -/

/-- A stage that has a value reports and hands the value on: what follows depends on no more than
what is reported and what is made of the value. -/
theorem runStage_ok_bind {α β : Type} (stage : Stage) (verbose : Bool) {a b : α}
    {lines lines' : α → List String} {f g : α → Pipeline β} (hl : lines a = lines' b)
    (h : f a = g b) :
    (runStage stage verbose (.ok a) lines >>= f) = runStage stage verbose (.ok b) lines' >>= g := by
  simp only [runStage, bind_assoc, pure_bind, hl, h]

/-- A tree with nothing pending is handed on, unless no pass is allowed. -/
theorem resolve_settled_cases (env : Environment) (allowed : Int) :
    (∀ tree : Node, tree.isPending = false → resolve env allowed tree = ⟨.ok tree, 1⟩) ∨
      ∀ tree : Node, resolve env allowed tree = ⟨.error (.exhausted allowed []), 0⟩ := by
  by_cases h : 1 ≤ allowed
  · exact Or.inl fun tree ht => resolve_of_settled env h ht
  · refine Or.inr fun tree => ?_
    have hzero : allowed.toNat = 0 := by omega
    rw [resolve, hzero]
    rfl

/-- Configurations with the same options section are read alike: reading fails, or there is no
section, or it is taken out. -/
theorem readOptions_cases {R : Type} [Scalar R] (defaults : Options R) {a b : Node}
    (h : a.entry? "compiler" = b.entry? "compiler") :
    (∃ e, readOptions defaults a = .error e ∧ readOptions defaults b = .error e) ∨
      (readOptions defaults a = .ok (defaults, a) ∧ readOptions defaults b = .ok (defaults, b)) ∨
      ∃ options, a.isMapping = true ∧
        readOptions defaults a = .ok (options, a.without "compiler") ∧
        readOptions defaults b = .ok (options, b.without "compiler") := by
  unfold readOptions
  rw [← h]
  cases hc : a.entry? "compiler" with
  | none => exact Or.inr (Or.inl ⟨rfl, rfl⟩)
  | some block =>
    have hm : a.isMapping = true := by
      cases a with
      | mapping entries => rfl
      | _ => cases hc
    dsimp only
    cases sectionOptions defaults block with
    | error e => exact Or.inl ⟨e, rfl, rfl⟩
    | ok options => exact Or.inr (Or.inr ⟨options, hm, rfl, rfl⟩)

/-- The same time structure is read, the same members are inferred, and the fields expand to the
same configuration. -/
theorem Fields.Foreseen.expandModel {R : Type} [One R] [Div R] [Scalar R]
    {time : TimeStructure R} {sets : MemberSets}
    {root root' : Node} {chosen : List FieldSite} (h : Foreseen time sets root chosen root')
    (ht : TimeStructure.ofNode ((root.entry? "time_definition").getD .null) = .ok time) :
    (EnergyPlan.expandModel root' : Except Failure (Expanded R)) =
      EnergyPlan.expandModel root := by
  have ht' : TimeStructure.ofNode ((root'.entry? "time_definition").getD .null) = .ok time :=
    h.alike.time ▸ ht
  rw [EnergyPlan.expandModel, EnergyPlan.expandModel, ht, ht']
  show (Fields.inferSets root' time).mapError Failure.broadcast >>= _ =
    (Fields.inferSets root time).mapError Failure.broadcast >>= _
  rw [h.inferSets, h.inferred]
  show (Fields.broadcastModel sets root').mapError Failure.broadcast >>= _ =
    (Fields.broadcastModel sets root).mapError Failure.broadcast >>= _
  rw [h.broadcastModel]

section

variable {R : Type} [Zero R] [One R] [Add R] [Sub R] [Mul R] [Div R] [Neg R] [BEq R] [LT R]
  [DecidableLT R] [LE R] [DecidableLE R] [Scalar R]

/-- Two configurations with the same options whose rest has nothing pending and expands alike
compile alike. -/
theorem compileTree_of_settled {env : Environment} {defaults options : Options R}
    {a b a' b' : Node} (ha : readOptions defaults a = .ok (options, a'))
    (hb : readOptions defaults b = .ok (options, b')) (hset : a'.isPending = false)
    (hset' : b'.isPending = false)
    (he : (expandModel a' : Except Failure (Expanded R)) = expandModel b') :
    compileTree env defaults a = compileTree env defaults b := by
  unfold compileTree
  rw [ha, hb]
  refine runStage_ok_bind _ _ rfl ?_
  dsimp only
  rcases resolve_settled_cases env options.maxPasses with hok | herror
  · rw [hok a' hset, hok b' hset']
    refine runStage_ok_bind _ _ rfl ?_
    rw [he]
  · rw [herror a', herror b']

/-- **Shorthand is only shorthand.** In a configuration with nothing pending whose keys are all
declared, expanding any of the fields beforehand changes neither the members that are inferred
nor the expanded configuration, and the compilation comes to the same: the same model, index
sets and problem, or the same failure of the same stage. -/
theorem compileTree_foreseen {time : TimeStructure R} {sets : MemberSets} {tree tree' : Node}
    {chosen : List FieldSite} (h : Foreseen time sets tree chosen tree') :
    inferSets tree' time = .ok sets ∧
      broadcastModel sets tree' = broadcastModel sets tree ∧
      (TimeStructure.ofNode ((tree.entry? "time_definition").getD .null) = .ok time →
        ∀ (env : Environment) (defaults : Options R),
          compileTree env defaults tree' = compileTree env defaults tree) := by
  refine ⟨h.inferSets, h.broadcastModel, fun ht env defaults => ?_⟩
  rcases readOptions_cases defaults h.alike.options with
    ⟨e, he, he'⟩ | ⟨ho, ho'⟩ | ⟨options, hm, ho, ho'⟩
  · unfold compileTree
    rw [he, he']
  · exact compileTree_of_settled ho' ho h.settled_after h.settled (h.expandModel ht)
  · have hw := h.without hm
    have ht' : TimeStructure.ofNode
        ((Node.entry? (tree.without "compiler") "time_definition").getD .null) = .ok time := by
      rw [Node.entry?_without tree (by decide), ht]
    exact compileTree_of_settled ho' ho hw.settled_after hw.settled (hw.expandModel ht')

end

/-! ### Costs in shorthand -/

/-- A technology in two regions and years, whose cost is given for one region, one year of it and
all other keys. -/
def sampleShorthand : Node :=
  .mapping [
    ("id", .plain "plan"),
    ("compiler", .mapping [("big_m", .plain "1000")]),
    ("time_definition", .mapping [("years", .sequence [.plain "2020", .plain "2021"])]),
    ("regions", .sequence [
      .mapping [("id", .plain "north")],
      .mapping [("id", .plain "south")]]),
    ("technologies", .sequence [.mapping [
      ("id", .plain "boiler"),
      ("capex", .mapping [
        ("*", .plain "6"),
        ("north", .mapping [("2020", .plain "5"), ("*", .plain "4")])]),
      ("operating_modes", .sequence [.mapping [
        ("id", .plain "burn"),
        ("opex_variable", .mapping [("2021", .plain "2")])]])]])]

/-- With its first field expanded it compiles to what it compiles to as it is. -/
theorem compileTree_foreseen_sample :
    ∃ (time : TimeStructure Rat) (sets : MemberSets) (tree' : Node),
      Foreseen time sets sampleShorthand ((fieldSites sampleShorthand).take 1) tree' ∧
      inferSets tree' time = .ok sets ∧
      ∀ env, compileTree env (.standard : Options Rat) tree' =
        compileTree env .standard sampleShorthand := by
  have haccepts : (TimeStructure.ofNode ((sampleShorthand.entry? "time_definition").getD .null) :
      Except TimeError (TimeStructure Rat)).toOption.any (fun time =>
        (inferSets sampleShorthand time).toOption.any fun sets =>
          ((((fieldSites sampleShorthand).take 1).foldlM (broadcastSite sets)
              sampleShorthand).toOption.any fun _ =>
            Dimension.all.all (fun d => !(sets.members d).contains wildcard) &&
              (fieldSites sampleShorthand).all fun site =>
                decide (KeysIn sets.declared sets site.spec.dimensions site.value))) = true := by
    decide +kernel
  obtain ⟨time, ht, haccepts⟩ := Exact.exists_ok_of_any haccepts
  obtain ⟨sets, hi, haccepts⟩ := Exact.exists_ok_of_any haccepts
  obtain ⟨tree', he, haccepts⟩ := Exact.exists_ok_of_any haccepts
  rw [Bool.and_eq_true, List.all_eq_true, List.all_eq_true] at haccepts
  have hforeseen : Foreseen time sets sampleShorthand
      ((fieldSites sampleShorthand).take 1) tree' := {
    settled := by decide +kernel
    inferred := hi
    no_wildcard := fun d => by
      have hd : d ∈ Dimension.all := by cases d <;> decide
      simpa using haccepts.1 d hd
    declared := fun site hs => of_decide_eq_true (haccepts.2 site hs)
    sites := fun site hs => List.mem_of_mem_take hs
    expanded := he }
  obtain ⟨hsets, _, hsame⟩ := compileTree_foreseen hforeseen
  exact ⟨time, sets, tree', hforeseen, hsets, fun env => hsame ht env .standard⟩

end EnergyPlan
