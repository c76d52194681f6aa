/-
# A value comes back from a tree with its type

A tree holds texts, and types them anew whenever it is read. The node of a value is read back as
the value all the same, at every position of lists and maps: a string stands under its tag and is
not typed, and the text of an integer or a truth value is that of no earlier type. A double is
left out, since the text that is written for it may read as another double.

A map has its keys in strict order, and its entries go into the map that is read one behind the
other.

Key definitions: `Value.Ordered`, `Value.RealFree`.
Key theorems: `ordered_ofNode`, `integer_toString`, `toNode_settled_typed`.
-/
import EnergyPlan.Proofs.Resolution.Values
import EnergyPlan.Proofs.Syntax.Operators

namespace EnergyPlan.Expr.Value

open Config Decimal Text

/-- Every map within the value has its keys in strict order, so that no key occurs twice, as
`insertEntry` leaves them. -/
inductive Ordered : Value → Prop
  | none : Ordered .none
  | bool (b : Bool) : Ordered (.bool b)
  | int (n : Int64) : Ordered (.int n)
  | real (x : Float) : Ordered (.real x)
  | string (s : String) : Ordered (.string s)
  | list {items : List Value} (ordered : ∀ v ∈ items, Ordered v) : Ordered (.list items)
  | map {entries : List (String × Value)} (keys : entries.Pairwise fun e f => e.1 < f.1)
      (ordered : ∀ e ∈ entries, Ordered e.2) : Ordered (.map entries)

/-- No double occurs within the value. -/
inductive RealFree : Value → Prop
  | none : RealFree .none
  | bool (b : Bool) : RealFree (.bool b)
  | int (n : Int64) : RealFree (.int n)
  | string (s : String) : RealFree (.string s)
  | list {items : List Value} (free : ∀ v ∈ items, RealFree v) : RealFree (.list items)
  | map {entries : List (String × Value)} (free : ∀ e ∈ entries, RealFree e.2) :
      RealFree (.map entries)

variable {key : String} {value : Value} {entries found : List (String × Value)}

/-! ### Maps are in order -/

theorem mem_insertEntry {e : String × Value} (h : e ∈ insertEntry key value entries) :
    e = (key, value) ∨ e ∈ entries := by
  induction entries with
  | nil => exact Or.inl (List.mem_singleton.1 h)
  | cons first rest ih =>
    rw [insertEntry] at h
    split at h
    · exact List.mem_cons.1 h
    · split at h
      · exact (List.mem_cons.1 h).imp_right (List.mem_cons_of_mem first)
      · rcases List.mem_cons.1 h with rfl | h
        · exact Or.inr List.mem_cons_self
        · exact (ih h).imp_right (List.mem_cons_of_mem first)

theorem pairwise_insertEntry (h : entries.Pairwise fun e f => e.1 < f.1) :
    (insertEntry key value entries).Pairwise fun e f => e.1 < f.1 := by
  induction entries with
  | nil => exact List.pairwise_singleton _ _
  | cons first rest ih =>
    obtain ⟨hfirst, hrest⟩ := List.pairwise_cons.1 h
    rw [insertEntry]
    split
    · next hlt =>
      refine List.pairwise_cons.2 ⟨List.forall_mem_cons.2 ⟨hlt, fun e he => ?_⟩, h⟩
      exact String.lt_trans hlt (hfirst e he)
    · next hle =>
      split
      · next heq => exact List.pairwise_cons.2 ⟨fun e he => heq ▸ hfirst e he, hrest⟩
      · next hne =>
        refine List.pairwise_cons.2 ⟨fun e he => ?_, ih hrest⟩
        rcases mem_insertEntry he with rfl | he
        · by_contra hge
          exact hne (String.le_antisymm (String.not_lt.1 hge) (String.not_lt.1 hle))
        · exact hfirst e he

/-- An entry behind the keys of a map goes to its end. -/
theorem insertEntry_of_lt (h : ∀ e ∈ entries, e.1 < key) :
    insertEntry key value entries = entries ++ [(key, value)] := by
  induction entries with
  | nil => rfl
  | cons first rest ih =>
    obtain ⟨hfirst, hrest⟩ := List.forall_mem_cons.1 h
    have hne : key ≠ first.1 := fun h => String.lt_irrefl _ (h ▸ hfirst)
    rw [insertEntry, if_neg (String.lt_asymm hfirst), if_neg hne, ih hrest, List.cons_append]

theorem Ordered.insertEntry (h : Ordered (.map entries)) (hvalue : value.Ordered) :
    Ordered (.map (insertEntry key value entries)) := by
  cases h with
  | map keys ordered =>
    refine .map (pairwise_insertEntry keys) fun e he => ?_
    rcases mem_insertEntry he with rfl | he
    · exact hvalue
    · exact ordered e he

theorem ordered_ofPlain (s : String) : (ofPlain s).Ordered := by
  unfold ofPlain
  split
  · exact .int _
  · split
    · exact .real _
    · split
      · exact .bool _
      · exact .string _

mutual

/-- **What is read from a tree is in order.** -/
theorem ordered_ofNode : ∀ node : Node, (ofNode node).Ordered
  | .null => .none
  | .scalar tag s => by
    rw [ofNode, ofScalar]
    split
    · exact ordered_ofPlain s
    · exact .string s
  | .sequence items => .list (ordered_ofNodes items)
  | .mapping entries => ordered_ofEntries entries (.map .nil fun _ he => absurd he List.not_mem_nil)

theorem ordered_ofNodes : ∀ nodes : List Node, ∀ v ∈ ofNodes nodes, v.Ordered
  | [], _, hv => absurd hv List.not_mem_nil
  | node :: rest, v, hv => by
    rcases List.mem_cons.1 hv with rfl | hv
    · exact ordered_ofNode node
    · exact ordered_ofNodes rest v hv

theorem ordered_ofEntries : ∀ (nodes : List (String × Node)) {found : List (String × Value)},
    Ordered (.map found) → Ordered (.map (ofEntries nodes found))
  | [], _, h => h
  | (_, node) :: rest, _, h => ordered_ofEntries rest (h.insertEntry (ordered_ofNode node))

end

/-! ### Texts of numbers and truth values -/

/-- The text of an integer of 64 bits is read back as the integer. -/
theorem integer_toString (n : Int64) : integer (toString n.toInt) = some n := by
  have hblank : ∀ c ∈ (toString n.toInt).toList, isBlank c = false := by
    have hdigits := isDigit_of_mem_toDigits n.toInt.natAbs
    rw [toList_toString]
    split
    · exact List.forall_mem_cons.2 ⟨rfl, fun c hc => isBlank_of_isDigit (hdigits c hc)⟩
    · exact fun c hc => isBlank_of_isDigit (hdigits c hc)
  have hbounds : minInt64 ≤ n.toInt ∧ n.toInt ≤ maxInt64 := by
    have hlow := n.le_toInt
    have hhigh := n.toInt_lt
    simp only [minInt64, maxInt64]
    omega
  rw [integer, trimChars_of_not_blank hblank, readInt_toString, Option.bind_some, int64?,
    if_pos hbounds, Int64.ofInt_toInt]

theorem ofPlain_toString (n : Int64) : ofPlain (toString n.toInt) = .int n := by
  rw [ofPlain, integer_toString]

theorem ofPlain_bool (b : Bool) : ofPlain (if b then "true" else "false") = .bool b := by
  cases b <;> rfl

/-! ### Values -/

/-- Items that are read back make up a list that is. -/
theorem ofNodes_toNodes {items : List Value} (h : ∀ v ∈ items, ofNode v.toNode = v) :
    ofNodes (toNodes items) = items := by
  induction items with
  | nil => rfl
  | cons v rest ih =>
    obtain ⟨hv, hrest⟩ := List.forall_mem_cons.1 h
    rw [toNodes, ofNodes, hv, ih hrest]

/-- Entries in order, with values that are read back, go into a map one behind the other. -/
theorem ofEntries_toEntries (h : ∀ e ∈ entries, ofNode e.2.toNode = e.2)
    (hkeys : (found ++ entries).Pairwise fun e f => e.1 < f.1) :
    ofEntries (toEntries entries) found = found ++ entries := by
  induction entries generalizing found with
  | nil => rw [toEntries, ofEntries, List.append_nil]
  | cons e rest ih =>
    obtain ⟨key, v⟩ := e
    obtain ⟨hv, hrest⟩ := List.forall_mem_cons.1 h
    have hlast : ∀ f ∈ found, f.1 < key := fun f hf =>
      (List.pairwise_append.1 hkeys).2.2 f hf (key, v) List.mem_cons_self
    have hsplit : found ++ (key, v) :: rest = found ++ [(key, v)] ++ rest := by
      rw [List.append_assoc, List.singleton_append]
    rw [toEntries, ofEntries, hv, insertEntry_of_lt hlast, ih hrest (hsplit ▸ hkeys), hsplit]

/-- A value without doubles is read back, by induction on the value. -/
theorem ofNode_toNode {v : Value} (hfree : v.RealFree) (hordered : v.Ordered) :
    ofNode v.toNode = v := by
  induction hfree with
  | none => rfl
  | bool b => exact ofPlain_bool b
  | int n => exact ofPlain_toString n
  | string s => rfl
  | list _ ih =>
    cases hordered with
    | list ordered =>
      rw [toNode, ofNode, ofNodes_toNodes fun v hv => ih v hv (ordered v hv)]
  | map _ ih =>
    cases hordered with
    | map keys ordered =>
      rw [toNode, ofNode]
      exact congrArg Value.map (ofEntries_toEntries (fun e he => ih e he (ordered e he)) keys)

/-- **What an expression leaves in a tree is settled and keeps its type.** The node of a value is
not pending, whatever its strings read like; and if the value holds no double, the node is read back
as the value, with the same type at every position. -/
theorem toNode_settled_typed (v : Value) :
    v.toNode.isPending = false ∧ (v.Ordered → v.RealFree → ofNode v.toNode = v) :=
  ⟨isPending_toNode v, fun hordered hfree => ofNode_toNode hfree hordered⟩

/-- Strings that read like other things, and the least and the greatest integer. -/
def sampleValue : Value :=
  .map [("", .list [.string "5", .string "true", .string "[a]", .string "$\x7bx\x7d", .none]),
    ("5", .int (-9223372036854775808)),
    ("a", .map [("true", .bool true), ("x.y", .list [.int 9223372036854775807, .string ""])])]

theorem ordered_sampleValue : sampleValue.Ordered := by
  refine .map (by decide) (List.forall_mem_cons.2 ⟨.list ?_, List.forall_mem_cons.2 ⟨.int _,
    List.forall_mem_singleton.2 (.map (by decide) (List.forall_mem_cons.2 ⟨.bool _,
      List.forall_mem_singleton.2 (.list ?_)⟩))⟩⟩)
  · simp [Ordered.string, Ordered.none]
  · simp [Ordered.string, Ordered.int]

theorem realFree_sampleValue : sampleValue.RealFree := by
  refine .map (List.forall_mem_cons.2 ⟨.list ?_, List.forall_mem_cons.2 ⟨.int _,
    List.forall_mem_singleton.2 (.map (List.forall_mem_cons.2 ⟨.bool _,
      List.forall_mem_singleton.2 (.list ?_)⟩))⟩⟩)
  · simp [RealFree.string, RealFree.none]
  · simp [RealFree.string, RealFree.int]

/-- The texts of the sample are read back as strings, and its numbers as numbers. -/
theorem toNode_settled_typed_sample :
    sampleValue.Ordered ∧ sampleValue.RealFree ∧ sampleValue.toNode.isPending = false ∧
      ofNode sampleValue.toNode = sampleValue :=
  have h := toNode_settled_typed sampleValue
  ⟨ordered_sampleValue, realFree_sampleValue, h.1, h.2 ordered_sampleValue realFree_sampleValue⟩

end EnergyPlan.Expr.Value
