/-
# The order of integers

Integers and truth values are equal exactly if they are the same integer, but they are ordered as
doubles, so as their nearest integers with 53 significant bits. The comparisons of two integers are
those of the mathematical integers exactly if the two are equal or have different nearest ones. Two
neighbours of `2 ^ 53` or more can share theirs: then they are neither equal nor is one before the
other. No comparison ever says less where it is greater.

`min` and `max` go once through the items and change the best one for an item that is before it.
What carries their proof is that each item passed so far is after the best one, strictly if it was
passed before it.

Key definitions: `Value.whole`, `CompareOp.onIntegers`, `ComparesExactly`, `FirstLeast`.
Key theorems: `compareValues_order`, `comparesExactly_iff`, `extremum_firstLeast`,
`integer_order`.
-/
import EnergyPlan.Expr.Builtin
import EnergyPlan.Proofs.Rounding.Integers

namespace EnergyPlan.Expr

open Decimal

/-- An integer or a truth value. -/
def Value.IsWhole (v : Value) : Prop := v.integer?.isSome = true

/-- The integer that an integer or a truth value stands for. -/
def Value.whole (v : Value) : Int := (v.integer?.getD 0).toInt

/-- What a comparison says of two integers. -/
def CompareOp.onIntegers (op : CompareOp) (m n : Int) : Bool :=
  match op with
  | .equal => m = n
  | .notEqual => m ≠ n
  | .less => m < n
  | .lessEqual => m ≤ n
  | .greater => n < m
  | .greaterEqual => n ≤ m
  | .isIn | .notIn => false

/-- The comparisons that order. -/
def CompareOp.orders : List CompareOp := [.less, .lessEqual, .greater, .greaterEqual]

/-- The comparisons of numbers. -/
def CompareOp.numeric : List CompareOp := .equal :: .notEqual :: orders

theorem CompareOp.mem_orders {op : CompareOp} : op ∈ CompareOp.orders ↔
    op = .less ∨ op = .lessEqual ∨ op = .greater ∨ op = .greaterEqual := by
  simp only [CompareOp.orders, List.mem_cons, List.not_mem_nil, or_false]

variable {a b : Value}

/-! ### Two integers -/

theorem Value.natAbs_whole (v : Value) : v.whole.natAbs ≤ 2 ^ 63 := by
  have hlow := Int64.le_toInt (v.integer?.getD 0)
  have hhigh := Int64.toInt_lt (v.integer?.getD 0)
  unfold Value.whole
  omega

/-- The double of an integer is that of the integer it stands for. -/
theorem Value.IsWhole.number_eq (h : a.IsWhole) : a.number? = some (Float.ofInt a.whole) := by
  cases a with
  | int n => rfl
  | bool b =>
    cases b with
    | false => rfl
    | true => rfl
  | none | real | string | list | map => cases h

theorem Value.IsWhole.equals_eq (ha : a.IsWhole) (hb : b.IsWhole) :
    a.equals b = decide (a.whole = b.whole) := by
  obtain ⟨m, hm⟩ := Option.isSome_iff_exists.1 ha
  obtain ⟨n, hn⟩ := Option.isSome_iff_exists.1 hb
  have hequals : a.equals b = a.sameNumber b := by
    cases a with
    | int | bool => rfl
    | none | real | string | list | map => cases ha
  rw [hequals, Value.sameNumber, hm, hn, Value.whole, Value.whole, hm, hn]
  simp [Int64.toInt_inj, Bool.beq_eq_decide_eq]

/-- What the operators make of less and greater is the order of the integers. -/
theorem orderHolds_eq {op : CompareOp} (hop : op ∈ CompareOp.orders) (m n : Int) :
    orderHolds op (decide (m < n)) (decide (n < m)) = op.onIntegers m n := by
  rw [Bool.eq_iff_iff]
  rcases CompareOp.mem_orders.1 hop with rfl | rfl | rfl | rfl <;>
    simp only [orderHolds, CompareOp.onIntegers, Bool.or_eq_true, Bool.not_eq_true',
      decide_eq_true_eq, decide_eq_false_iff_not] <;> omega

/-- **Integers are ordered as their nearest ones.** -/
theorem compareValues_order (ha : a.IsWhole) (hb : b.IsWhole) {op : CompareOp}
    (hop : op ∈ CompareOp.orders) :
    compareValues op a b = .ok (op.onIntegers (nearestInt a.whole) (nearestInt b.whole)) := by
  have hcompare : compareValues op a b = orderedComparison op a b := by
    rcases CompareOp.mem_orders.1 hop with rfl | rfl | rfl | rfl <;> rfl
  have hrange := a.natAbs_whole
  have hrange' := b.natAbs_whole
  have hless := decide_ofInt_lt (m := a.whole) (n := b.whole) (by omega) (by omega)
  have hgreater := decide_ofInt_lt (m := b.whole) (n := a.whole) (by omega) (by omega)
  rw [hcompare]
  unfold orderedComparison
  rw [ha.number_eq, hb.number_eq]
  dsimp only
  rw [hless, hgreater, orderHolds_eq hop]

theorem compareValues_equal (ha : a.IsWhole) (hb : b.IsWhole) :
    compareValues .equal a b = .ok (decide (a.whole = b.whole)) := by
  rw [compareValues, ha.equals_eq hb]

/-- The comparisons of two integers, all six, are those of the mathematical ones. -/
def ComparesExactly (a b : Value) : Prop :=
  ∀ op ∈ CompareOp.numeric, compareValues op a b = .ok (op.onIntegers a.whole b.whole)

/-- Different doubles are ordered as the integers that are rounded to them. -/
theorem onIntegers_nearestInt {op : CompareOp} (hop : op ∈ CompareOp.orders) {m n : Int}
    (h : m = n ∨ nearestInt m ≠ nearestInt n) :
    op.onIntegers (nearestInt m) (nearestInt n) = op.onIntegers m n := by
  have hless : m ≤ n → nearestInt m ≤ nearestInt n := nearestInt_mono
  have hgreater : n ≤ m → nearestInt n ≤ nearestInt m := nearestInt_mono
  rw [Bool.eq_iff_iff]
  rcases CompareOp.mem_orders.1 hop with rfl | rfl | rfl | rfl <;>
    simp only [CompareOp.onIntegers, decide_eq_true_eq] <;> omega

/-- **Where integers are ordered as such:** exactly where they are the same, or rounded to
different doubles. -/
theorem comparesExactly_iff (ha : a.IsWhole) (hb : b.IsWhole) :
    ComparesExactly a b ↔ a.whole = b.whole ∨ nearestInt a.whole ≠ nearestInt b.whole := by
  constructor
  · intro h
    have hless := (h .less (by decide)).symm.trans (compareValues_order ha hb (by decide))
    have hgreater := (h .greater (by decide)).symm.trans (compareValues_order ha hb (by decide))
    simp only [CompareOp.onIntegers, Except.ok.injEq, decide_eq_decide] at hless hgreater
    omega
  · intro h op hop
    simp only [CompareOp.numeric, List.mem_cons] at hop
    rcases hop with rfl | rfl | hop
    · exact compareValues_equal ha hb
    · rw [compareValues, ha.equals_eq hb, ← decide_not]
      rfl
    · rw [compareValues_order ha hb hop, onIntegers_nearestInt hop h]

/-- Up to `2 ^ 53`, and where they are more than 1024 apart, integers are ordered as such. -/
theorem comparesExactly_of_small_or_far (ha : a.IsWhole) (hb : b.IsWhole)
    (h : a.whole.natAbs ≤ 2 ^ 53 ∧ b.whole.natAbs ≤ 2 ^ 53 ∨
      1024 < (a.whole - b.whole).natAbs) : ComparesExactly a b := by
  refine (comparesExactly_iff ha hb).2 ?_
  rcases h with ⟨hsmall, hsmall'⟩ | hfar
  · rw [nearestInt_of_le hsmall, nearestInt_of_le hsmall']
    exact em _
  · have hnear := nearestInt_near a.natAbs_whole
    have hnear' := nearestInt_near b.natAbs_whole
    omega

/-- Two integers that are not ordered as such are not ordered at all. -/
theorem comparesExactly_or_unordered (ha : a.IsWhole) (hb : b.IsWhole) :
    ComparesExactly a b ∨ ∀ op ∈ [.less, .equal, .greater], compareValues op a b = .ok false := by
  rw [comparesExactly_iff ha hb]
  by_cases h : a.whole = b.whole ∨ nearestInt a.whole ≠ nearestInt b.whole
  · exact .inl h
  · rw [not_or, not_not] at h
    obtain ⟨hne, hsame⟩ := h
    refine .inr fun op hop => ?_
    simp only [List.mem_cons, List.not_mem_nil, or_false] at hop
    rcases hop with rfl | rfl | rfl
    · rw [compareValues_order ha hb (by decide), hsame, CompareOp.onIntegers]
      exact congrArg Except.ok (decide_eq_false (Int.lt_irrefl _))
    · rw [compareValues_equal ha hb, decide_eq_false hne]
    · rw [compareValues_order ha hb (by decide), hsame, CompareOp.onIntegers]
      exact congrArg Except.ok (decide_eq_false (Int.lt_irrefl _))

/-- An integer with no greater double is greater by 1024 at most, and not at all where the two are
ordered as such. -/
theorem whole_le_of_nearestInt_le (ha : a.IsWhole) (hb : b.IsWhole)
    (h : nearestInt a.whole ≤ nearestInt b.whole) :
    a.whole ≤ b.whole + 1024 ∧ (ComparesExactly a b → a.whole ≤ b.whole) := by
  have hnear := nearestInt_near a.natAbs_whole
  have hnear' := nearestInt_near b.natAbs_whole
  refine ⟨by omega, fun hexact => ?_⟩
  rcases (comparesExactly_iff ha hb).1 hexact with heq | hne
  · exact heq.le
  · by_contra hlt
    have hmono : nearestInt b.whole ≤ nearestInt a.whole := nearestInt_mono (by omega)
    omega

/-! ### The best of a list -/

/-- The first of the items whose key is the least. -/
def FirstLeast (key : Value → Int) (items : List Value) (best : Value) : Prop :=
  ∃ before after, items = before ++ best :: after ∧
    (∀ v ∈ before, key best < key v) ∧ ∀ v ∈ after, key best ≤ key v

theorem FirstLeast.mem {key : Value → Int} {items : List Value} {best : Value}
    (h : FirstLeast key items best) : best ∈ items := by
  obtain ⟨before, after, rfl, -, -⟩ := h
  exact List.mem_append_right _ List.mem_cons_self

theorem FirstLeast.le {key : Value → Int} {items : List Value} {best : Value}
    (h : FirstLeast key items best) : ∀ v ∈ items, key best ≤ key v := by
  obtain ⟨before, after, rfl, hbefore, hafter⟩ := h
  intro v hv
  rcases List.mem_append.1 hv with hv | hv
  · exact (hbefore v hv).le
  · rcases List.mem_cons.1 hv with rfl | hv
    · exact Int.le_refl _
    · exact hafter v hv

section

variable {key : Value → Int} {op : CompareOp} {items : List Value}

/-- One step: the best of the items so far, or the next one if it is before that. -/
theorem FirstLeast.next {passed : List Value} {best item : Value}
    (h : FirstLeast key passed best) :
    FirstLeast key (passed ++ [item]) (if key item < key best then item else best) := by
  split
  · next hless =>
    refine ⟨passed, [], rfl, fun v hv => ?_, List.forall_mem_nil _⟩
    exact Int.lt_of_lt_of_le hless (h.le v hv)
  · next hge =>
    obtain ⟨before, after, rfl, hbefore, hafter⟩ := h
    refine ⟨before, after ++ [item], by simp, hbefore, fun v hv => ?_⟩
    rcases List.mem_append.1 hv with hv | hv
    · exact hafter v hv
    · rw [List.mem_singleton.1 hv]
      exact Int.not_lt.1 hge

/-- The loop of an extremum, by induction on the items that are left: the best of those that are
passed ends as the best of all. -/
theorem foldlM_firstLeast {passed left : List Value} {best : Value}
    (hop : ∀ v ∈ items, ∀ w ∈ items, compareValues op v w = .ok (decide (key v < key w)))
    (hsplit : items = passed ++ left) (h : FirstLeast key passed best) :
    ∃ last, left.foldlM (fun best item => do
        return if ← compareValues op item best then item else best) best = (.ok last : Eval Value) ∧
      FirstLeast key items last := by
  induction left generalizing passed best with
  | nil =>
    rw [hsplit, List.append_nil]
    exact ⟨best, rfl, h⟩
  | cons item left ih =>
    have hitem : item ∈ items := by
      rw [hsplit]
      exact List.mem_append_right _ List.mem_cons_self
    have hbest : best ∈ items := by
      rw [hsplit]
      exact List.mem_append_left _ h.mem
    have hnext : items = passed ++ [item] ++ left := by
      rw [hsplit, List.append_assoc]
      rfl
    obtain ⟨last, hlast, hfirst⟩ := ih hnext h.next
    refine ⟨last, ?_, hfirst⟩
    rw [List.foldlM_cons, hop item hitem best hbest]
    simpa [bind, Except.bind, pure, Except.pure] using hlast

/-- **An extremum is the first best item** if the comparison goes by a key. -/
theorem extremum_firstLeast (f : Function) (hne : items ≠ [])
    (hop : ∀ v ∈ items, ∀ w ∈ items, compareValues op v w = .ok (decide (key v < key w))) :
    ∃ best, extremum f op items = .ok best ∧ FirstLeast key items best := by
  obtain ⟨first, rest, rfl⟩ := List.exists_cons_of_ne_nil hne
  have hfirst : FirstLeast key [first] first :=
    ⟨[], [], rfl, List.forall_mem_nil _, List.forall_mem_nil _⟩
  exact foldlM_firstLeast hop rfl hfirst

/-- The items of an extremum are those of its one list or its arguments. -/
theorem callExtremum_eq (f : Function) {args : List Value}
    (h : args = [.list items] ∨ args = items ∧ 2 ≤ items.length) :
    callExtremum f op args = extremum f op items := by
  rcases h with rfl | ⟨rfl, hlen⟩
  · rfl
  · match args, hlen with
    | _ :: _ :: _, _ => rfl

end

/-! ### All integers -/

/-- **Integers are equal as such, but ordered as doubles.** All six comparisons of two integers,
truth values included, are those of the mathematical integers exactly if the two are the same or
their nearest doubles differ; so up to `2 ^ 53`, and where they are more than 1024 apart.
Everywhere else none of less, equal and greater holds. The least and the greatest of any integers
are the first of them with the least and the greatest nearest double: no item is less or greater
by more than 1024, and none at all if all comparisons among the items are exact. -/
theorem integer_order {items args : List Value} (ha : a.IsWhole) (hb : b.IsWhole)
    (hne : items ≠ []) (hwhole : ∀ v ∈ items, v.IsWhole)
    (hargs : args = [.list items] ∨ args = items ∧ 2 ≤ items.length) :
    compareValues .equal a b = .ok (decide (a.whole = b.whole)) ∧
      (∀ op ∈ CompareOp.orders, compareValues op a b =
        .ok (op.onIntegers (nearestInt a.whole) (nearestInt b.whole))) ∧
      (ComparesExactly a b ↔ a.whole = b.whole ∨ nearestInt a.whole ≠ nearestInt b.whole) ∧
      (a.whole.natAbs ≤ 2 ^ 53 ∧ b.whole.natAbs ≤ 2 ^ 53 ∨
        1024 < (a.whole - b.whole).natAbs → ComparesExactly a b) ∧
      (ComparesExactly a b ∨ ∀ op ∈ [.less, .equal, .greater], compareValues op a b = .ok false) ∧
      ∃ least greatest, callFunction .min args = .ok least ∧
        callFunction .max args = .ok greatest ∧
        FirstLeast (fun v => nearestInt v.whole) items least ∧
        FirstLeast (fun v => -nearestInt v.whole) items greatest ∧
        (∀ v ∈ items, least.whole ≤ v.whole + 1024 ∧ v.whole ≤ greatest.whole + 1024) ∧
        ((∀ v ∈ items, ∀ w ∈ items, ComparesExactly v w) →
          ∀ v ∈ items, least.whole ≤ v.whole ∧ v.whole ≤ greatest.whole) := by
  refine ⟨compareValues_equal ha hb, fun op => compareValues_order ha hb, comparesExactly_iff ha hb,
    comparesExactly_of_small_or_far ha hb, comparesExactly_or_unordered ha hb, ?_⟩
  have hless : ∀ v ∈ items, ∀ w ∈ items, compareValues .less v w =
      .ok (decide (nearestInt v.whole < nearestInt w.whole)) := fun v hv w hw =>
    compareValues_order (hwhole v hv) (hwhole w hw) (by decide)
  have hgreater : ∀ v ∈ items, ∀ w ∈ items, compareValues .greater v w =
      .ok (decide (-nearestInt v.whole < -nearestInt w.whole)) := fun v hv w hw => by
    rw [compareValues_order (hwhole v hv) (hwhole w hw) (by decide),
      decide_eq_decide.2 neg_lt_neg_iff]
    rfl
  obtain ⟨least, hmin, hleast⟩ := extremum_firstLeast .min hne hless
  obtain ⟨greatest, hmax, hgreatest⟩ := extremum_firstLeast .max hne hgreater
  have hlow : ∀ v ∈ items, nearestInt least.whole ≤ nearestInt v.whole := hleast.le
  have hhigh : ∀ v ∈ items, nearestInt v.whole ≤ nearestInt greatest.whole := fun v hv =>
    neg_le_neg_iff.1 (hgreatest.le v hv)
  have hminWhole := hwhole least hleast.mem
  have hmaxWhole := hwhole greatest hgreatest.mem
  refine ⟨least, greatest, (callExtremum_eq .min hargs).trans hmin,
    (callExtremum_eq .max hargs).trans hmax, hleast, hgreatest, fun v hv => ?_,
    fun h v hv => ?_⟩
  · exact ⟨(whole_le_of_nearestInt_le hminWhole (hwhole v hv) (hlow v hv)).1,
      (whole_le_of_nearestInt_le (hwhole v hv) hmaxWhole (hhigh v hv)).1⟩
  · exact ⟨(whole_le_of_nearestInt_le hminWhole (hwhole v hv) (hlow v hv)).2
        (h least hleast.mem v hv),
      (whole_le_of_nearestInt_le (hwhole v hv) hmaxWhole (hhigh v hv)).2
        (h v hv greatest hgreatest.mem)⟩

/-- A truth value and an integer beyond `2 ^ 53`, far apart: they are ordered as such, and so are
the least and the greatest of them. -/
theorem integer_order_far :
    (Value.bool true).IsWhole ∧ (Value.int 9007199254740993).IsWhole ∧
      ComparesExactly (.bool true) (.int 9007199254740993) ∧
      ∃ least greatest,
        callFunction .min [.list [.int 9007199254740993, .bool true]] = .ok least ∧
        callFunction .max [.list [.int 9007199254740993, .bool true]] = .ok greatest ∧
        least.whole ≤ 1 ∧ 9007199254740993 ≤ greatest.whole := by
  have hexact {a b : Value} (ha : a.IsWhole) (hb : b.IsWhole)
      (h : a.whole = b.whole ∨ nearestInt a.whole ≠ nearestInt b.whole) : ComparesExactly a b :=
    (comparesExactly_iff ha hb).2 h
  have hall : ∀ v ∈ [Value.int 9007199254740993, .bool true],
      ∀ w ∈ [Value.int 9007199254740993, .bool true], ComparesExactly v w := by
    simp only [List.forall_mem_cons, List.not_mem_nil, false_imp_iff, implies_true, and_true]
    exact ⟨⟨hexact rfl rfl (by decide), hexact rfl rfl (by decide)⟩,
      hexact rfl rfl (by decide), hexact rfl rfl (by decide)⟩
  have hwhole : ∀ v ∈ [Value.int 9007199254740993, .bool true], v.IsWhole :=
    List.forall_mem_cons.2 ⟨rfl, List.forall_mem_singleton.2 rfl⟩
  obtain ⟨-, -, -, hfar, -, least, greatest, hmin, hmax, -, -, -, hbest⟩ :=
    integer_order (a := .bool true) (b := .int 9007199254740993) rfl rfl (List.cons_ne_nil _ _)
      hwhole (.inl rfl)
  exact ⟨rfl, rfl, hfar (.inr (by decide)), least, greatest, hmin, hmax,
    (hbest hall _ (List.mem_cons_of_mem _ List.mem_cons_self)).1,
    (hbest hall _ List.mem_cons_self).2⟩

/-- **Neighbours beyond `2 ^ 53` are not ordered:** none of less, equal and greater holds, and the
greatest of the two is the lesser one. -/
theorem not_ordered_neighbours :
    (∀ op ∈ [.less, .equal, .greater],
        compareValues op (.int 9007199254740992) (.int 9007199254740993) = .ok false) ∧
      callFunction .max [.list [.int 9007199254740992, .int 9007199254740993]] =
        .ok (.int 9007199254740992) := by
  refine ⟨fun op hop => ?_, rfl⟩
  simp only [List.mem_cons, List.not_mem_nil, or_false] at hop
  rcases hop with rfl | rfl | rfl <;> rfl

end EnergyPlan.Expr
