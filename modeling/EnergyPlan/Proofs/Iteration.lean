/-
# The keys that iterating a map yields

A map keeps its keys as texts. Iterating it types them like plain text, and an element that is
asked for is looked up by its own text again. So what is found is the value at the key respelled: a
key that is no number and no truth value, an integer as it is written and `True` and `False` are
found, but `01`, `1.50` or `true` are not, or give the value of another key.

A comprehension that copies a map by its elements gives the entries whose keys are the respelling of
some key, and refuses if a respelling is no key. What carries this is that a map, having its keys in
order, is determined by the entries it has.

Key definitions: `respelled`, `copyTerm`, `Sorted`.
Key theorems: `Sorted.ext`, `mapM_subscript`, `eval_copyTerm`, `iteration_respells`.
-/
import EnergyPlan.Proofs.Loops.Nested
import EnergyPlan.Proofs.Resolution.Typed

namespace EnergyPlan.Expr

open Config
open Value (ofPlain)

/-- The text of a key after it was typed like plain text. -/
def respelled (key : String) : String := (ofPlain key).text

/-- The term `{k: m[k] for k in m}`, for a map `m`. -/
def copyTerm (m : Term) (k : String) : Term :=
  .dictOver (.name k []) (.subscript m (.name k [])) [.mk [k] m []]

variable {entries found : List (String × Value)} {key : String} {value : Value}

/-! ### Maps with their keys in order -/

/-- The entries of a map, as it keeps them. -/
def Sorted (entries : List (String × Value)) : Prop := entries.Pairwise fun e f => e.1 < f.1

theorem mem_of_lookup (h : entries.lookup key = some value) : (key, value) ∈ entries := by
  obtain ⟨before, after, rfl, -⟩ := List.lookup_eq_some_iff.1 h
  exact List.mem_append_right _ List.mem_cons_self

/-- A map finds exactly what it has. -/
theorem Sorted.mem_iff_lookup (h : Sorted entries) :
    (key, value) ∈ entries ↔ entries.lookup key = some value := by
  refine ⟨fun hmem => ?_, mem_of_lookup⟩
  obtain ⟨before, after, rfl⟩ := List.append_of_mem hmem
  refine List.lookup_eq_some_iff.2 ⟨before, after, rfl, fun e he => ?_⟩
  have hlt := (List.pairwise_append.1 h).2.2 e he _ List.mem_cons_self
  exact bne_iff_ne.2 (Ne.symm (String.ne_of_lt hlt))

theorem Sorted.nodup (h : Sorted entries) : entries.Nodup := by
  refine List.Pairwise.imp ?_ h
  rintro e f hlt rfl
  exact String.lt_irrefl _ hlt

/-- Maps with the same entries are the same. -/
theorem Sorted.ext (h : Sorted entries) (h' : Sorted found)
    (hmem : ∀ key value, (key, value) ∈ entries ↔ (key, value) ∈ found) : entries = found := by
  have hperm : entries.Perm found :=
    (List.perm_ext_iff_of_nodup h.nodup h'.nodup).2 fun e => hmem e.1 e.2
  exact hperm.eq_of_pairwise (fun a b _ _ hab hba => absurd hba (String.lt_asymm hab)) h h'

theorem sorted_insertAll (more : List (String × Value)) (h : Sorted found) :
    Sorted (insertAll more found) := by
  induction more generalizing found with
  | nil => exact h
  | cons e more ih => exact ih (Value.pairwise_insertEntry h)

/-- A map that is built from entries of one map has these entries. -/
theorem mem_insertAll_iff {more : List (String × Value)}
    (h : ∀ e ∈ more, entries.lookup e.1 = some e.2) :
    (key, value) ∈ insertAll more [] ↔ (key, value) ∈ more := by
  have hsorted : Sorted (insertAll more []) := sorted_insertAll more List.Pairwise.nil
  rw [hsorted.mem_iff_lookup, lookup_insertAll, List.lookup_nil, Option.or_none]
  constructor
  · exact fun hlookup => List.mem_reverse.1 (mem_of_lookup hlookup)
  · intro hmem
    obtain ⟨other, hother⟩ := lookup_binding_of_mem (List.mem_map_of_mem hmem)
    have hfound : (key, other) ∈ more := List.mem_reverse.1 (mem_of_lookup hother)
    rw [hother, ← h _ hfound, ← h _ hmem]

/-! ### One element -/

theorem subscript_ofPlain (entries : List (String × Value)) (key : String) :
    subscript (.map entries) (ofPlain key) =
      match entries.lookup (respelled key) with
      | some value => .ok value
      | none => refuse (.keyNotFound (ofPlain key).quotedText) := rfl

theorem isNone_lookup_iff (entries : List (String × Value)) (key : String) :
    (entries.lookup key).isNone = true ↔ key ∉ entries.map (·.1) := by
  rw [Option.isNone_iff_eq_none, List.lookup_eq_none_iff, List.mem_map]
  simp only [bne_iff_ne, not_exists, not_and]
  exact ⟨fun h e he heq => h e he heq.symm, fun h e he heq => h e he heq.symm⟩

/-- What one element of a map adds to the copy of it. -/
theorem contribution_copyTerm {m : Term} {k : String} {scope : Scope} (hk : k ∉ m.mentioned)
    (hm : m.eval scope = .ok (.map entries)) (element : Value) :
    contribution [k] []
        (nestedLoops (entryOf (.name k []) (.subscript m (.name k []))) []) scope element =
      (subscript (.map entries) element).map fun value => [(element.text, value)] := by
  have hagrees : scope.AgreesOn m.mentioned (scope.push [(k, element)]) := by
    refine ⟨rfl, fun x hx => ?_⟩
    have hne : x ≠ k := fun heq => hk (heq ▸ hx)
    rw [valueOf?_push, lookup_entry, if_neg hne, List.lookup_nil, Option.none_or]
  have hinner : m.eval (scope.push [(k, element)]) = .ok (.map entries) := by
    rw [← m.eval_congr hagrees, hm]
  have hname : (Term.name k []).eval (scope.push [(k, element)]) = .ok element := by
    rw [Term.eval, Scope.nameValue, valueOf?_push, lookup_entry, if_pos rfl, Option.some_or]
    rfl
  have hentry : entryOf (.name k []) (.subscript m (.name k [])) (scope.push [(k, element)]) =
      (subscript (.map entries) element).map fun value => (element.text, value) := by
    rw [entryOf, hname, Term.eval, hinner, hname]
    rfl
  have hbind : bindTargets [] [k] element = .ok [(k, element)] := rfl
  rw [contribution, hbind, ok_bind, allAccept, ok_bind, if_pos rfl, nestedLoops, hentry]
  cases subscript (.map entries) element <;> rfl

/-! ### All elements -/

/-- The entries that the keys of a map give, each at its respelling. -/
def respelledEntries (entries : List (String × Value)) (keys : List String) :
    List (String × Value) :=
  keys.filterMap fun key => (entries.lookup (respelled key)).map fun value => (respelled key, value)

theorem mem_respelledEntries {keys : List String} :
    (key, value) ∈ respelledEntries entries keys ↔
      key ∈ keys.map respelled ∧ entries.lookup key = some value := by
  simp only [respelledEntries, List.mem_filterMap, Option.map_eq_some_iff, Prod.mk.injEq,
    List.mem_map]
  constructor
  · rintro ⟨k, hk, v, hv, rfl, rfl⟩
    exact ⟨⟨k, hk, rfl⟩, hv⟩
  · rintro ⟨⟨k, hk, rfl⟩, hv⟩
    exact ⟨k, hk, value, hv, rfl, rfl⟩

/-- **The loop over the keys,** by induction on them: it stops at the first key whose respelling is
not there. -/
theorem mapM_subscript (entries : List (String × Value)) (keys : List String) :
    (do
      let rows ← (keys.map ofPlain).mapM fun element =>
        (subscript (.map entries) element).map fun value => [(element.text, value)]
      return rows.flatten) =
    match keys.find? fun key => (entries.lookup (respelled key)).isNone with
    | some key => refuse (.keyNotFound (ofPlain key).quotedText)
    | none => (.ok (respelledEntries entries keys) : Eval _) := by
  induction keys with
  | nil => rfl
  | cons key keys ih =>
    rw [List.map_cons, List.mapM_cons, subscript_ofPlain, List.find?_cons]
    cases hlookup : entries.lookup (respelled key) with
    | none => rfl
    | some value =>
      have hentries : respelledEntries entries (key :: keys) =
          (respelled key, value) :: respelledEntries entries keys := by
        rw [respelledEntries, List.filterMap_cons, hlookup]
        rfl
      rw [hentries]
      generalize (keys.map ofPlain).mapM (fun element =>
        (subscript (.map entries) element).map fun value => [(element.text, value)]) = rest at *
      generalize keys.find? (fun key => (entries.lookup (respelled key)).isNone) = missing at *
      cases rest with
      | error e =>
        cases missing with
        | none => cases ih
        | some other => exact ih
      | ok rows =>
        cases missing with
        | none =>
          show Except.ok ((respelled key, value) :: rows.flatten) = _
          rw [Except.ok.inj ih]
          rfl
        | some other => cases ih

/-- The keys whose respelling is a key, as a copy of the map keeps them. -/
theorem insertAll_respelledEntries (h : Sorted entries) :
    insertAll (respelledEntries entries (entries.map (·.1))) [] =
      entries.filter fun e => e.1 ∈ entries.map fun f => respelled f.1 := by
  refine Sorted.ext (sorted_insertAll _ List.Pairwise.nil) (List.Pairwise.filter _ h) ?_
  intro key value
  have hown : ∀ e ∈ respelledEntries entries (entries.map (·.1)),
      entries.lookup e.1 = some e.2 := fun e he => (mem_respelledEntries.1 he).2
  rw [mem_insertAll_iff hown, mem_respelledEntries, List.map_map, List.mem_filter,
    h.mem_iff_lookup, decide_eq_true_eq, and_comm]
  rfl

/-- **The copy of a map by its elements.** -/
theorem eval_copyTerm (h : Sorted entries) {m : Term} {k : String} {scope : Scope}
    (hk : k ∉ m.mentioned) (hm : m.eval scope = .ok (.map entries)) :
    (copyTerm m k).eval scope =
      match (entries.map (·.1)).find? fun key => (entries.lookup (respelled key)).isNone with
      | some key => refuse (.keyNotFound (ofPlain key).quotedText)
      | none => .ok (.map (entries.filter fun e => e.1 ∈ entries.map fun f => respelled f.1)) := by
  have hlexical : Lexical [.mk [k] m []] := by
    refine ⟨fun x hx => ?_, fun x hx => absurd hx List.not_mem_nil, trivial⟩
    rw [boundBy, List.append_nil, List.mem_singleton] at hx
    rwa [hx]
  have hiterate : iterate (.map entries) = .ok ((entries.map (·.1)).map ofPlain) := by
    rw [iterate]
    simp only [List.map_map, Function.comp_def]
  rw [copyTerm, eval_dictOver hlexical, nestedLoops, hm, ok_bind, hiterate, ok_bind]
  have hrounds := funext (contribution_copyTerm hk hm)
  rw [hrounds, mapM_subscript]
  generalize (entries.map (·.1)).find? _ = missing
  cases missing with
  | some key => rfl
  | none =>
    exact congrArg (fun copy => (.ok (.map copy) : Eval Value)) (insertAll_respelledEntries h)

/-! ### Keys that are kept -/

theorem respelled_of_string (h : ofPlain key = .string key) : respelled key = key := by
  rw [respelled, h]
  rfl

theorem respelled_toString (n : Int64) : respelled (toString n.toInt) = toString n.toInt := by
  rw [respelled, Value.ofPlain_toString]
  rfl

theorem ofPlain_of_boolean {b : Bool} (hinteger : Decimal.integer key = none)
    (hreal : Decimal.real key = none) (hboolean : Decimal.boolean key = some b) :
    ofPlain key = .bool b := by
  rw [ofPlain, hinteger, hreal, hboolean]

theorem respelled_bool : respelled "True" = "True" ∧ respelled "False" = "False" := by
  have htrue : ofPlain "True" = .bool true :=
    ofPlain_of_boolean (by decide) (by decide +kernel) (by decide +kernel)
  have hfalse : ofPlain "False" = .bool false :=
    ofPlain_of_boolean (by decide) (by decide +kernel) (by decide +kernel)
  rw [respelled, htrue, respelled, hfalse]
  exact ⟨rfl, rfl⟩

theorem isIn_ofPlain (entries : List (String × Value)) (key : String) :
    compareValues .isIn (ofPlain key) (.map entries) =
      .ok (decide (respelled key ∈ entries.map (·.1))) := by
  refine congrArg Except.ok ?_
  rw [Bool.eq_iff_iff, List.any_eq_true, decide_eq_true_eq, List.mem_map]
  simp only [beq_iff_eq]
  rfl

theorem subscript_ofPlain_eq_ok_iff (h : Sorted entries) :
    subscript (.map entries) (ofPlain key) = .ok value ↔ (respelled key, value) ∈ entries := by
  rw [subscript_ofPlain, h.mem_iff_lookup]
  cases entries.lookup (respelled key) with
  | none => exact ⟨fun h => (nomatch h), fun h => (nomatch h)⟩
  | some found => rw [Except.ok.injEq, Option.some.injEq]

/-- A key is found by its element in every map that has it exactly if it is respelled as itself. -/
theorem respelled_eq_iff : respelled key = key ↔
    ∀ (entries : List (String × Value)) (value : Value), Sorted entries →
      (key, value) ∈ entries →
      compareValues .isIn (ofPlain key) (.map entries) = .ok true ∧
        subscript (.map entries) (ofPlain key) = .ok value := by
  constructor
  · intro hkept entries value hsorted hmem
    rw [isIn_ofPlain, subscript_ofPlain_eq_ok_iff hsorted, hkept]
    exact ⟨congrArg Except.ok (decide_eq_true (List.mem_map_of_mem hmem)), hmem⟩
  · intro hall
    have hsorted : Sorted [(key, .none)] := List.pairwise_singleton _ _
    obtain ⟨-, hfound⟩ := hall [(key, .none)] .none hsorted List.mem_cons_self
    rw [subscript_ofPlain_eq_ok_iff hsorted, List.mem_singleton, Prod.mk.injEq] at hfound
    exact hfound.1

/-- **Iterating a map yields its keys respelled.** One element is yielded for each key, the key
typed like plain text. It is in the map exactly if its text is a key, and subscripts the value of
that key. So a key is found in every map that has it exactly if it is respelled as itself, like a
text that is no number and no truth value, an integer as it is written, `True` and `False`. The
comprehension that copies a map evaluates exactly if all respellings are keys, to the entries at
these, so to the map itself if its keys are kept; otherwise it refuses a key whose respelling is
none. -/
theorem iteration_respells (h : Sorted entries) :
    iterate (.map entries) = .ok (entries.map fun e => ofPlain e.1) ∧
      (∀ e ∈ entries,
        compareValues .isIn (ofPlain e.1) (.map entries) =
          .ok (decide (respelled e.1 ∈ entries.map (·.1))) ∧
        ∀ value, subscript (.map entries) (ofPlain e.1) = .ok value ↔
          (respelled e.1, value) ∈ entries) ∧
      (∀ (m : Term) (k : String) (scope : Scope), k ∉ m.mentioned →
        m.eval scope = .ok (.map entries) →
        (∀ v, (copyTerm m k).eval scope = .ok v ↔
          (∀ e ∈ entries, respelled e.1 ∈ entries.map (·.1)) ∧
            v = .map (entries.filter fun e => e.1 ∈ entries.map fun f => respelled f.1)) ∧
        ((∀ e ∈ entries, respelled e.1 = e.1) →
          (copyTerm m k).eval scope = .ok (.map entries)) ∧
        ∀ halt, (copyTerm m k).eval scope = .error halt →
          ∃ e ∈ entries, respelled e.1 ∉ entries.map (·.1) ∧
            halt = .refused (.keyNotFound (ofPlain e.1).quotedText)) ∧
      (∀ key, respelled key = key ↔
        ∀ (others : List (String × Value)) (value : Value), Sorted others →
          (key, value) ∈ others →
          compareValues .isIn (ofPlain key) (.map others) = .ok true ∧
            subscript (.map others) (ofPlain key) = .ok value) ∧
      (∀ key, ofPlain key = .string key → respelled key = key) ∧
      (∀ n : Int64, respelled (toString n.toInt) = toString n.toInt) ∧
      respelled "True" = "True" ∧ respelled "False" = "False" := by
  refine ⟨rfl, fun e _ => ⟨isIn_ofPlain entries e.1, fun value => subscript_ofPlain_eq_ok_iff h⟩,
    fun m k scope hk hm => ?_, fun key => respelled_eq_iff, fun key => respelled_of_string,
    respelled_toString, respelled_bool⟩
  rw [eval_copyTerm h hk hm]
  cases hmissing : (entries.map (·.1)).find? fun key => (entries.lookup (respelled key)).isNone with
  | none =>
    have hall : ∀ e ∈ entries, respelled e.1 ∈ entries.map (·.1) := by
      intro e he
      have hfound := List.find?_eq_none.1 hmissing e.1 (List.mem_map_of_mem he)
      rwa [isNone_lookup_iff, not_not] at hfound
    refine ⟨fun v => ⟨fun h => ⟨hall, (Except.ok.inj h).symm⟩, fun h => ?_⟩, fun hkept => ?_,
      fun halt h => nomatch h⟩
    · exact congrArg Except.ok h.2.symm
    · refine congrArg (fun copy => Except.ok (Value.map copy)) (List.filter_eq_self.2 ?_)
      exact fun e he => decide_eq_true (List.mem_map.2 ⟨e, he, hkept e he⟩)
  | some key =>
    have hnot := List.find?_some hmissing
    rw [isNone_lookup_iff] at hnot
    obtain ⟨e, he, rfl⟩ := List.mem_map.1 (List.mem_of_find?_eq_some hmissing)
    refine ⟨fun v => ⟨fun h => (nomatch h), fun h => absurd (h.1 e he) hnot⟩, fun hkept => ?_,
      fun halt h => ⟨e, he, hnot, (Except.error.inj h).symm⟩⟩
    rw [hkept e he] at hnot
    exact absurd (List.mem_map_of_mem he) hnot

/-- A map with an integer, a truth value and a name as keys. -/
def sampleMap : List (String × Value) :=
  [("-7", .int 1), ("True", .int 2), ("north", .string "7")]

/-- The keys are kept, so they are found and the map is copied. -/
theorem iteration_respells_sample :
    Sorted sampleMap ∧ ofPlain "north" = .string "north" ∧
      subscript (.map sampleMap) (ofPlain "north") = .ok (.string "7") ∧
      (copyTerm (.name "m" []) "k").eval ⟨.null, [[("m", .map sampleMap)]]⟩ =
        .ok (.map sampleMap) := by
  have hsorted : Sorted sampleMap := by
    unfold Sorted sampleMap
    decide
  obtain ⟨-, -, hcopies, hkeys, hstring, hinteger, htrue, -⟩ := iteration_respells hsorted
  have hnorth : ofPlain "north" = .string "north" := by
    have hnumber : Decimal.integer "north" = none := by decide
    have hreal : Decimal.real "north" = none := by decide
    have hboolean : Decimal.boolean "north" = none := by decide
    rw [ofPlain, hnumber, hreal, hboolean]
  have hkept : ∀ e ∈ sampleMap, respelled e.1 = e.1 :=
    List.forall_mem_cons.2 ⟨hinteger (-7), List.forall_mem_cons.2 ⟨htrue,
      List.forall_mem_singleton.2 (hstring "north" hnorth)⟩⟩
  have hfound := (hkeys "north").1 (hstring "north" hnorth) sampleMap (.string "7") hsorted
    (List.mem_cons_of_mem _ (List.mem_cons_of_mem _ List.mem_cons_self))
  have hm : (Term.name "m" []).eval ⟨.null, [[("m", .map sampleMap)]]⟩ =
      .ok (.map sampleMap) := by
    rw [Term.eval]
    rfl
  have hcopy := hcopies (.name "m" []) "k" ⟨.null, [[("m", .map sampleMap)]]⟩ (by decide) hm
  exact ⟨hsorted, hnorth, hfound.2, hcopy.2.1 hkept⟩

/-- `01` is typed as 1, which is no key: the element is not in the map, and the copy fails. -/
theorem not_found_respelled :
    iterate (.map [("01", .string "x")]) = .ok [.int 1] ∧
      compareValues .isIn (.int 1) (.map [("01", .string "x")]) = .ok false ∧
      (copyTerm (.name "m" []) "k").eval
          ⟨.mapping [("m", .mapping [("01", .scalar .string "x")])], []⟩ =
        refuse (.keyNotFound "1") := by
  have hinteger : Decimal.integer "01" = some 1 := by decide
  have htyped : ofPlain "01" = .int 1 := by
    rw [ofPlain, hinteger]
  have hrespelled : respelled "01" = "1" := by
    rw [respelled, htyped]
    decide
  have hm : (Term.name "m" []).eval
      ⟨.mapping [("m", .mapping [("01", .scalar .string "x")])], []⟩ =
      .ok (.map [("01", .string "x")]) := by
    have hfind : Node.find (.mapping [("m", .mapping [("01", .scalar .string "x")])]) ["m"] =
        some (.mapping [("01", .scalar .string "x")]) := by rfl
    have hpending : (Node.mapping [("01", .scalar .string "x")]).isPending = false := by
      decide
    rw [Term.eval, Scope.nameValue]
    show (if _ then _ else lookupPath _ ["m"]) = _
    rw [if_neg (by decide), lookupPath, hfind]
    dsimp only
    rw [hpending, if_neg Bool.false_ne_true]
    rfl
  have hsorted : Sorted [("01", Value.string "x")] := List.pairwise_singleton _ _
  refine ⟨?_, ?_, ?_⟩
  · rw [iterate, List.map_singleton, htyped]
  · rw [← htyped, isIn_ofPlain, hrespelled]
    rfl
  · have hmissing : ["01"].find? (fun key =>
        ([("01", Value.string "x")].lookup (respelled key)).isNone) = some "01" := by
      rw [List.find?_cons, hrespelled]
      rfl
    rw [eval_copyTerm hsorted (by decide) hm, List.map_singleton, hmissing]
    show refuse (.keyNotFound (ofPlain "01").quotedText) = _
    rw [htyped]
    rfl

end EnergyPlan.Expr
