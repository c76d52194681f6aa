/-
# Nodes embedded in expressions

The literal that a node is written as means the node: evaluated with any tree, it gives a value
that is equal to the value of the node itself, the one that its dotted name has. This holds for
null and plain scalars, and through sequences and mappings of any depth, whatever the numbers,
truth values, quotes and backslashes in them, up to two exceptions. A number is written as it
stands, and the expression language has no number that starts with its point. And a key is written
as the scalar it would be, while the value of the node keeps its text: what comes back is the node
with each key as the value of its literal is shown.

Key definitions: `Led`, `shown`, `KeysKept`.
Key theorems: `denotes_renderScalar`, `Led.denotes`, `evaluate_renderLiteral`.
-/
import EnergyPlan.Proofs.Syntax.Denoting

namespace EnergyPlan.Expr

open Config Decimal Text

/-- A text does not write a number that starts with its point. -/
def Leads (s : String) : Prop :=
  (real s).isSome = true → (sign (trimChars s.toList)).2.head? ≠ some '.'

instance (s : String) : Decidable (Leads s) := inferInstanceAs (Decidable (_ → _))

/-- A node of plain scalars none of which is a number that starts with its point. -/
inductive Led : Node → Prop where
  | null : Led .null
  | scalar {s : String} : Leads s → Led (.plain s)
  | sequence {items : List Node} : (∀ item ∈ items, Led item) → Led (.sequence items)
  | mapping {entries : List (String × Node)} : (∀ entry ∈ entries, Leads entry.1) →
      (∀ entry ∈ entries, Led entry.2) → Led (.mapping entries)

/-- The text that a key has after its literal has been evaluated. -/
def shownKey (key : String) : String := (literalValue key).text

mutual

/-- The node with the keys that its literal has. -/
def shown : Node → Node
  | .null => .null
  | .scalar tag s => .scalar tag s
  | .sequence items => .sequence (shownItems items)
  | .mapping entries => .mapping (shownEntries entries)

/-- The elements of a sequence with the keys that their literals have. -/
def shownItems : List Node → List Node
  | [] => []
  | node :: rest => shown node :: shownItems rest

/-- The entries of a mapping with the keys that its literal has. -/
def shownEntries : List (String × Node) → List (String × Node)
  | [] => []
  | (key, node) :: rest => (shownKey key, shown node) :: shownEntries rest

end

/-- Every key of a node is shown as it was written. -/
inductive KeysKept : Node → Prop where
  | null : KeysKept .null
  | scalar {s : String} : KeysKept (.plain s)
  | sequence {items : List Node} : (∀ item ∈ items, KeysKept item) → KeysKept (.sequence items)
  | mapping {entries : List (String × Node)} : (∀ entry ∈ entries, shownKey entry.1 = entry.1) →
      (∀ entry ∈ entries, KeysKept entry.2) → KeysKept (.mapping entries)

variable {s key : String} {v w : Value} {items : List Node} {entries : List (String × Node)}

theorem shownItems_eq_map (items : List Node) : shownItems items = items.map shown := by
  induction items with
  | nil => rfl
  | cons item items ih => rw [shownItems, ih, List.map_cons]

theorem shownEntries_eq_map (entries : List (String × Node)) :
    shownEntries entries = entries.map fun entry => (shownKey entry.1, shown entry.2) := by
  induction entries with
  | nil => rfl
  | cons entry entries ih => rw [shownEntries, ih, List.map_cons]

/-- A node whose keys are kept is shown as it is. -/
theorem KeysKept.shown_eq {node : Node} (h : KeysKept node) : shown node = node := by
  induction h with
  | null => rfl
  | scalar => rfl
  | @sequence items _ ih =>
    rw [shown, shownItems_eq_map, List.map_congr_left ih, List.map_id']
  | @mapping entries hkeys _ ih =>
    have hsame : ∀ entry ∈ entries, (shownKey entry.1, shown entry.2) = entry :=
      fun entry he => Prod.ext (hkeys entry he) (ih entry he)
    rw [shown, shownEntries_eq_map, List.map_congr_left hsame, List.map_id']

/-! ### Scalars -/

/-- **The literal of a plain scalar denotes its value as a literal.** -/
theorem denotes_renderScalar (h : Leads s) :
    Denotes (renderScalar s).toList (literalValue s) := by
  unfold renderScalar
  split
  · next hreal => exact denotes_numeral hreal (h hreal)
  · next hreal =>
    have hinteger : integer s = none := by
      cases hn : integer s with
      | none => rfl
      | some n => exact absurd (real_of_integer hn) hreal
    have hnone : real s = none := Option.not_isSome_iff_eq_none.1 hreal
    rw [literalValue, hinteger, if_neg (by simp), Value.ofPlain, hinteger, hnone]
    dsimp only
    cases boolean s with
    | none => exact denotes_quoted s
    | some b =>
      cases b with
      | true => exact denotes_true
      | false => exact denotes_false

/-! ### Sequences and mappings -/

theorem exists_denotedItems (h : ∀ item ∈ items, ∃ v, Denotes item.renderLiteral.toList v ∧
    v.equals (Value.ofNode (shown item)) = true) :
    ∃ vs, List.Forall₂ Denotes ((Node.renderItems items).map String.toList) vs ∧
      Value.equalItems vs (Value.ofNodes (shownItems items)) = true := by
  induction items with
  | nil => exact ⟨[], .nil, rfl⟩
  | cons item items ih =>
    rw [List.forall_mem_cons] at h
    obtain ⟨v, hdenotes, hequals⟩ := h.1
    obtain ⟨vs, hall, hothers⟩ := ih h.2
    refine ⟨v :: vs, .cons hdenotes hall, ?_⟩
    rw [shownItems, Value.ofNodes, Value.equalItems, hequals, hothers]
    rfl

/-- Equal values put at the same key leave equal maps equal. -/
theorem equalEntries_insertEntry {xs ys : List (String × Value)} (hv : v.equals w = true)
    (h : Value.equalEntries xs ys = true) :
    Value.equalEntries (Value.insertEntry key v xs) (Value.insertEntry key w ys) = true := by
  induction xs generalizing ys with
  | nil =>
    cases ys with
    | nil => simp [Value.insertEntry, Value.equalEntries, hv]
    | cons y ys => simp [Value.equalEntries] at h
  | cons x xs ih =>
    obtain ⟨j, x⟩ := x
    cases ys with
    | nil => simp [Value.equalEntries] at h
    | cons y ys =>
      obtain ⟨k, y⟩ := y
      simp only [Value.equalEntries, Bool.and_eq_true, beq_iff_eq] at h
      -- the keys are the same one by one, so the place of the new one is the same
      obtain ⟨⟨rfl, hxy⟩, hrest⟩ := h
      simp only [Value.insertEntry]
      split
      · simp [Value.equalEntries, hv, hxy, hrest]
      · split
        · simp [Value.equalEntries, hv, hrest]
        · simp [Value.equalEntries, hxy, ih hrest]

theorem entryDenotes_renderScalar {value : List Char} (hkey : Leads key)
    (hvalue : Denotes value v) :
    EntryDenotes ((renderScalar key).toList ++ ':' :: ' ' :: value) (shownKey key, v) :=
  ⟨rfl, denotes_renderScalar hkey, rfl, hvalue⟩

/-- The entries of a mapping denote entries with the keys that are shown, and with values equal to
those of the nodes shown. -/
theorem exists_denotedEntries (hkeys : ∀ entry ∈ entries, Leads entry.1)
    (h : ∀ entry ∈ entries, ∃ v, Denotes entry.2.renderLiteral.toList v ∧
      v.equals (Value.ofNode (shown entry.2)) = true) :
    ∃ es, List.Forall₂ EntryDenotes ((Node.renderEntries entries).map String.toList) es ∧
      ∀ xs ys, Value.equalEntries xs ys = true →
        Value.equalEntries (insertAll es xs) (Value.ofEntries (shownEntries entries) ys) = true := by
  induction entries with
  | nil => exact ⟨[], .nil, fun _ _ hequal => hequal⟩
  | cons entry entries ih =>
    obtain ⟨key, node⟩ := entry
    rw [List.forall_mem_cons] at hkeys h
    obtain ⟨v, hdenotes, hequals⟩ := h.1
    obtain ⟨es, hall, hothers⟩ := ih hkeys.2 h.2
    have hentry : EntryDenotes (renderScalar key ++ ": " ++ node.renderLiteral).toList
        (shownKey key, v) := by
      rw [String.toList_append, String.toList_append, List.append_assoc]
      exact entryDenotes_renderScalar hkeys.1 hdenotes
    refine ⟨(shownKey key, v) :: es, .cons hentry hall, fun xs ys hequal => ?_⟩
    exact hothers _ _ (equalEntries_insertEntry hequals hequal)

/-! ### Nodes -/

/-- **The literal of a node denotes a value that is equal to that of the node shown,** by induction
on the node. -/
theorem Led.denotes {node : Node} (h : Led node) :
    ∃ v, Denotes node.renderLiteral.toList v ∧ v.equals (Value.ofNode (shown node)) = true := by
  induction h with
  | null => exact ⟨_, denotes_none, rfl⟩
  | @scalar s hleads =>
    have hdenotes := denotes_renderScalar hleads
    have hequals := literalValue_equals s
    generalize literalValue s = v at hdenotes hequals
    exact ⟨v, hdenotes, hequals⟩
  | @sequence items _ ih =>
    obtain ⟨vs, hall, hequal⟩ := exists_denotedItems ih
    refine ⟨.list vs, ?_, hequal⟩
    rw [Node.renderLiteral, String.toList_append, String.toList_append, toList_join]
    exact denotes_list hall
  | @mapping entries hkeys _ ih =>
    obtain ⟨es, hall, hequal⟩ := exists_denotedEntries hkeys ih
    refine ⟨.map (insertAll es []), ?_, hequal [] [] rfl⟩
    rw [Node.renderLiteral, String.toList_append, String.toList_append, toList_join]
    exact denotes_map hall

/-- **A node embedded in an expression means what its name means.** The literal of a node of plain
scalars is evaluated with any tree, if no number in it starts with its point. The value is equal
to that of the node with the keys that are shown, and so to the node's own if its keys are kept;
and this is the value of a dotted name at every place of the tree where the node stands. -/
theorem evaluate_renderLiteral {node : Node} (h : Led node) (root : Node) :
    ∃ v, evaluate root node.renderLiteral = .ok v ∧
      v.equals (Value.ofNode (shown node)) = true ∧
      (KeysKept node → v.equals (Value.ofNode node) = true) ∧
      ∀ head rest, root.find (head :: rest) = some node → node.isPending = false →
        Function.ofName? head = none →
          (Term.name head rest).eval ⟨root, []⟩ = .ok (Value.ofNode node) := by
  obtain ⟨v, hdenotes, hequals⟩ := h.denotes
  refine ⟨v, hdenotes.evaluate root, hequals, fun hkept => ?_, ?_⟩
  · rwa [hkept.shown_eq] at hequals
  · intro head rest hfind hpending hhead
    have hlookup : lookupPath root (head :: rest) = .ok (Value.ofNode node) := by
      rw [lookupPath, hfind]
      dsimp only
      rw [hpending, if_neg Bool.false_ne_true]
    have hvalue : Scope.valueOf? ⟨root, []⟩ head = none := rfl
    rw [Term.eval, Scope.nameValue, hvalue, hhead]
    exact hlookup

/-- A node with numbers, truth values, quotes and a backslash, and keys of several kinds. -/
def sampleNode : Node :=
  .mapping [
    ("b's\\", .sequence [.plain " -1.5e3", .plain "+07", .plain "-9223372036854775808", .null]),
    ("-2.5", .mapping [("True", .plain "FALSE "), ("", .sequence []), ("x", .plain "it's")])]

theorem sampleNode_led : Led sampleNode := by
  have hleads : ∀ s ∈ ["b's\\", "-2.5", "True", "", "x", " -1.5e3", "+07",
      "-9223372036854775808", "FALSE ", "it's"], Leads s := by decide +kernel
  simp only [List.forall_mem_cons] at hleads
  obtain ⟨hb, hnumber, htrue, hempty, hx, hreal, hplus, hleast, hfalse, hits, -⟩ := hleads
  refine .mapping ?_ ?_
  · simp only [List.forall_mem_cons]
    exact ⟨hb, hnumber, by simp⟩
  · simp only [List.forall_mem_cons]
    refine ⟨.sequence ?_, .mapping ?_ ?_, by simp⟩
    · simp only [List.forall_mem_cons]
      exact ⟨.scalar hreal, .scalar hplus, .scalar hleast, .null, by simp⟩
    · simp only [List.forall_mem_cons]
      exact ⟨htrue, hempty, hx, by simp⟩
    · simp only [List.forall_mem_cons]
      exact ⟨.scalar hfalse, .sequence (by simp), .scalar hits, by simp⟩

theorem sampleNode_keysKept : KeysKept sampleNode := by
  have hkeys : ∀ key ∈ ["b's\\", "-2.5", "True", "", "x"], shownKey key = key := by decide +kernel
  simp only [List.forall_mem_cons] at hkeys
  obtain ⟨hb, hnumber, htrue, hempty, hx, -⟩ := hkeys
  refine .mapping ?_ ?_
  · simp only [List.forall_mem_cons]
    exact ⟨hb, hnumber, by simp⟩
  · simp only [List.forall_mem_cons]
    refine ⟨.sequence ?_, .mapping ?_ ?_, by simp⟩
    · simp only [List.forall_mem_cons]
      exact ⟨.scalar, .scalar, .scalar, .null, by simp⟩
    · simp only [List.forall_mem_cons]
      exact ⟨htrue, hempty, hx, by simp⟩
    · simp only [List.forall_mem_cons]
      exact ⟨.scalar, .sequence (by simp), .scalar, by simp⟩

theorem evaluate_renderLiteral_sample :
    Led sampleNode ∧ KeysKept sampleNode ∧
      sampleNode.renderLiteral = "\x7b'b\\'s\\\\': [ -1.5e3, +07, -9223372036854775808, None], " ++
        "-2.5: \x7bTrue: False, '': [], 'x': 'it\\'s'\x7d\x7d" ∧
      ∃ v, evaluate (.mapping [("a", sampleNode)]) sampleNode.renderLiteral = .ok v ∧
        v.equals (Value.ofNode sampleNode) = true ∧
          (Term.name "a" []).eval ⟨.mapping [("a", sampleNode)], []⟩ =
            .ok (Value.ofNode sampleNode) := by
  obtain ⟨v, hv, -, hequals, hname⟩ :=
    evaluate_renderLiteral sampleNode_led (.mapping [("a", sampleNode)])
  exact ⟨sampleNode_led, sampleNode_keysKept, by decide +kernel, v, hv,
    hequals sampleNode_keysKept, hname "a" [] (by rfl) (by decide +kernel) (by decide)⟩

/-- A key that is a number is evaluated: `1.50` comes back as `1.5`. And no number of the expression
language starts with its point. -/
theorem not_embedded_number :
    (∃ v, evaluate .null (Node.mapping [("1.50", .plain "7")]).renderLiteral = .ok v ∧
      v.equals (Value.ofNode (.mapping [("1.50", .plain "7")])) = false) ∧
    evaluate .null (Node.sequence [.plain ".5"]).renderLiteral =
      .error (.refused (.badForm (.unexpected ".") 1)) := by
  constructor
  · have hleads : ∀ s ∈ ["1.50", "7"], Leads s := by decide +kernel
    simp only [List.forall_mem_cons] at hleads
    have hentry := entryDenotes_renderScalar hleads.1 (denotes_renderScalar hleads.2.1)
    have hmap := denotes_map (.cons hentry .nil)
    have htext : (Node.mapping [("1.50", .plain "7")]).renderLiteral.toList =
        '\x7b' :: (listed [(renderScalar "1.50").toList ++ ':' :: ' ' :: (renderScalar "7").toList]
          ++ ['\x7d']) := by decide +kernel
    rw [← htext] at hmap
    exact ⟨_, hmap.evaluate .null, by decide +kernel⟩
  · have htext : (Node.sequence [.plain ".5"]).renderLiteral = "[.5]" := by decide +kernel
    rw [htext]
    rfl

end EnergyPlan.Expr
