/-
# Routes that hold both ways

Where a trade asks for its routes to hold both ways, each field over routes holds what is given,
and under the reverse of each key that is given the same value unless the reverse is given too.
Defaults come after that, so they stand only where neither direction is given. Without it, a field
holds what is given and its default. An open route is then open the other way as well, unless the
configuration closes that way.

Key definitions: `Config.Node.PairsRoutes`, `Reader.Holds`, `Reader.HoldsRoutes`,
`Trade.routeFields`.
Key theorems: `find?_mirrorRoutes`, `holdsRoutes_parseRouteField`, `bothWays_parseTrade_iff`,
`active_reverse`, `parseTrade_mirrors`.
-/
import EnergyPlan.Proofs.Reading

namespace EnergyPlan

open Config Fields Text

/-! ### Routes -/

@[simp] theorem reverseRoute_reverseRoute (key : Key) :
    reverseRoute (reverseRoute key) = key := by
  match key with
  | [] | [_] | _ :: _ :: _ => rfl

theorem reverseRoute_eq_iff {key k : Key} : reverseRoute key = k ↔ key = reverseRoute k := by
  constructor
  · rintro rfl
    exact (reverseRoute_reverseRoute key).symm
  · rintro rfl
    exact reverseRoute_reverseRoute k

section

variable {α : Type}

/-- The entry under a key holds what is found there. -/
theorem find?_entries (t : Tensor α) (key : Key) :
    (t.entries.find? fun e => e.1 == key).map (·.2) = t.find? key := by
  cases hfound : t.entries.find? fun e => e.1 == key with
  | none =>
    symm
    rw [Option.map_none, Option.eq_none_iff_forall_ne_some]
    intro value hvalue
    exact List.find?_eq_none.1 hfound _ (Tensor.mem_entries_iff.2 hvalue) (beq_self_eq_true key)
  | some entry =>
    have hkey : entry.1 = key :=
      beq_iff_eq.1 (List.find?_some (p := fun e : Key × α => e.1 == key) hfound)
    rw [Option.map_some, ← hkey]
    exact (Tensor.mem_entries_iff.1 (List.mem_of_find?_eq_some hfound)).symm

/-- Mirroring entries puts under a key the value of the first entry under the reverse key, where
there is none. -/
theorem find?_foldl_mirror (entries : List (Key × α)) (t : Tensor α) (key : Key) :
    (entries.foldl (fun mirrored (k, value) => mirrored.insertNew (reverseRoute k) value) t).find?
      key = (t.find? key).or ((entries.find? fun e => e.1 == reverseRoute key).map (·.2)) := by
  induction entries generalizing t with
  | nil => exact (Option.or_none).symm
  | cons entry rest ih =>
    obtain ⟨k, value⟩ := entry
    rw [List.foldl_cons, ih, find?_insertNew, List.find?_cons]
    by_cases hk : k = reverseRoute key
    · rw [if_pos (reverseRoute_eq_iff.2 hk), beq_iff_eq.2 hk]
      cases t.find? key <;> rfl
    · rw [if_neg (mt reverseRoute_eq_iff.1 hk), beq_false_of_ne hk]

/-- With its routes mirrored, a field holds the value of the reverse route where it held none. -/
theorem find?_mirrorRoutes (t : Tensor α) (key : Key) :
    (mirrorRoutes t).find? key = (t.find? key).or (t.find? (reverseRoute key)) := by
  rw [mirrorRoutes, find?_foldl_mirror, find?_entries]

end

/-! ### What a field over routes holds -/

/-- A trade asks for its routes to hold both ways. -/
def Config.Node.PairsRoutes (node : Node) : Prop :=
  ∃ value written, node.given? "construct_region_pairs" = some value ∧
    value.text? = some written ∧ Decimal.boolean written = some true

section

variable (R : Type) [Zero R] [One R] [LT R] [Scalar R]

/-- A field over routes holds a value at a key before it is filled: the value that is given there,
or the value that is given for the reverse route, if the trade asks for that and no value is given
at the key. -/
def Fields.Reader.Holds (reader : Reader) (spec : FieldSpec) (key : Key)
    (value : spec.kind.Carrier R) : Prop :=
  reader.Gives R spec key value ∨ reader.entity.PairsRoutes ∧
    (∀ other, ¬ reader.Gives R spec key other) ∧ reader.Gives R spec (reverseRoute key) value

/-- A tensor is what a field over routes holds, and where it holds nothing its default. -/
def Fields.Reader.HoldsRoutes (reader : Reader) (spec : FieldSpec)
    (filled : Tensor (spec.kind.Carrier R)) : Prop :=
  ∃ held : Tensor (spec.kind.Carrier R),
    (∀ key value, held.find? key = some value ↔ reader.Holds R spec key value) ∧
      ∀ key value, filled.find? key = some value ↔ held.find? key = some value ∨
        held.find? key = none ∧ reader.Defaults R spec key value

end

section

variable {R : Type}

/-- The field of the routes that are open. -/
def FieldSpec.tradeRoutes : FieldSpec :=
  .needed "trade_routes" [.region, .linkedRegion, .year] .flag

/-- The fields over routes with what a trade holds in them. -/
def Trade.routeFields (trade : Trade R) :
    List (Σ spec : FieldSpec, Tensor (spec.kind.Carrier R)) :=
  let yearly := [Dimension.region, .linkedRegion, .year]
  let constant := [Dimension.region, .linkedRegion]
  [⟨.tradeRoutes, trade.routes⟩,
    ⟨.filled "trade_loss" yearly .fraction "0.00001", trade.loss⟩,
    ⟨.filled "residual_capacity" yearly .nonNegative "0", trade.residualCapacity⟩,
    ⟨.filled "capex" yearly .nonNegative "0.00001", trade.capex⟩,
    ⟨.filled "operating_life" yearly .integer "1", trade.operatingLife⟩,
    ⟨.free "capacity_additional_max" yearly .nonNegative, trade.additionalMax⟩,
    ⟨.free "cost_of_capital" constant .fraction, trade.costOfCapital⟩,
    ⟨.filled "capacity_activity_unit_ratio" constant .nonNegative "1",
      trade.capacityActivityRatio⟩]

/-- These are all indexed fields of a trade. -/
theorem Trade.specs_routeFields (trade : Trade R) :
    trade.routeFields.map (·.1) = EntityKind.trade.indexedFields := rfl

variable [Zero R] [One R] [LT R] [DecidableLT R] [Scalar R]

/-- A field over routes is read to what it holds, and filled. -/
theorem holdsRoutes_parseRouteField {reader : Reader} {spec : FieldSpec} {bothWays : Bool}
    (hs : spec ∈ reader.kind.indexedFields) (hb : bothWays = true ↔ reader.entity.PairsRoutes) :
    reader.HoldsRoutes R spec
      (parseRouteField reader bothWays (spec.kind.conversion R) spec.name).value := by
  refine ⟨if bothWays then mirrorRoutes (reader.tensor (spec.kind.conversion R) spec.name).value
    else (reader.tensor (spec.kind.conversion R) spec.name).value, fun key value => ?_,
    fun key value => find?_fill_defaults_iff hs⟩
  rw [Reader.Holds, ← hb]
  simp only [← find?_tensor_eq_some_iff hs]
  cases bothWays with
  | false => simp
  | true =>
    rw [if_pos rfl, find?_mirrorRoutes, Option.or_eq_some_iff, and_iff_right rfl,
      Option.eq_none_iff_forall_ne_some]

/-! ### Trades -/

/-- What a single value is read as: its text, or the default if it is not given. -/
theorem value_text (reader : Reader) (name : String) : (reader.text name).value =
    match reader.entity.given? name with
    | none => (reader.spec name).standard.getD ""
    | some value => value.text?.getD "" := by
  unfold Reader.text
  cases reader.entity.given? name with
  | none => rfl
  | some value =>
    dsimp only
    cases value.text? <;> rfl

theorem value_flag (reader : Reader) (name : String) : (reader.flag name).value =
    (Decimal.boolean (reader.text name).value).getD false := by
  rw [Reader.flag, Noted.value_bind]
  cases Decimal.boolean (reader.text name).value <;> rfl

/-- The flag of a trade is set exactly if the configuration sets it. -/
theorem value_flag_iff {node : Node} {path : String} {sets : MemberSets} :
    (Reader.flag ⟨node, .trade, path, sets⟩ "construct_region_pairs").value = true ↔
      node.PairsRoutes := by
  have hstandard : Decimal.boolean "false" = some false := by decide +kernel
  have hblank : Decimal.boolean "" = none := by decide +kernel
  have hspec : (Reader.spec ⟨node, .trade, path, sets⟩ "construct_region_pairs").standard =
    some "false" := rfl
  rw [value_flag, value_text, hspec, Node.PairsRoutes]
  cases node.given? "construct_region_pairs" with
  | none => simp [hstandard]
  | some value =>
    cases h : value.text? with
    | none => simp [h, hblank]
    | some written => cases hw : Decimal.boolean written <;> simp [h, hw]

variable {sets : MemberSets} {entries : List (String × Node)} {path : String}

/-- Routes hold both ways exactly if the configuration says so. -/
theorem bothWays_parseTrade_iff :
    (parseTrade (R := R) sets (.mapping entries) path).value.bothWays = true ↔
      (Node.mapping entries).PairsRoutes := by
  have hmapping : (Node.mapping entries).isMapping = true := rfl
  rw [parseTrade, value_parseMapping, if_pos hmapping]
  simp only [Noted.value_bind, Noted.value_pure]
  exact value_flag_iff

/-- What a trade holds in its fields over routes. -/
theorem holdsRoutes_parseTrade :
    ∀ field ∈ (parseTrade (R := R) sets (.mapping entries) path).value.routeFields,
      Reader.HoldsRoutes R ⟨.mapping entries, .trade, path, sets⟩ field.1 field.2 := by
  have hmapping : (Node.mapping entries).isMapping = true := rfl
  have hread (spec : FieldSpec) (hs : spec ∈ EntityKind.trade.indexedFields) :
      Reader.HoldsRoutes R ⟨.mapping entries, .trade, path, sets⟩ spec
        (parseRouteField ⟨.mapping entries, .trade, path, sets⟩
          (Reader.flag ⟨.mapping entries, .trade, path, sets⟩ "construct_region_pairs").value
          (spec.kind.conversion R) spec.name).value :=
    holdsRoutes_parseRouteField hs value_flag_iff
  rw [parseTrade, value_parseMapping, if_pos hmapping]
  simp only [Trade.routeFields, List.forall_mem_cons, Noted.value_bind, Noted.value_pure]
  refine ⟨?_, ?_, ?_, ?_, ?_, ?_, ?_, ?_, List.forall_mem_nil _⟩
  all_goals exact hread _ (by decide +kernel)

omit [DecidableLT R] in
/-- Routes have no default, so those that are open are held to be. -/
theorem find?_routes_iff {reader : Reader} {routes : Tensor Bool}
    (h : reader.HoldsRoutes R .tradeRoutes routes) {key : Key} {isOpen : Bool} :
    routes.find? key = some isOpen ↔ reader.Holds R .tradeRoutes key isOpen := by
  obtain ⟨held, hheld, hfilled⟩ := h
  refine ((hfilled key isOpen).trans (or_iff_left ?_)).trans (hheld key isOpen)
  rintro ⟨-, ⟨written, hstandard, -⟩, -⟩
  cases hstandard

omit [DecidableLT R] in
/-- Where routes hold both ways, a route is open the other way as well unless that is given to be
closed. -/
theorem active_reverse {reader : Reader} {trade : Trade R}
    (h : ∀ field ∈ trade.routeFields, reader.HoldsRoutes R field.1 field.2)
    (hpairs : reader.entity.PairsRoutes) {origin destination year : String}
    (hactive : (trade.isActive origin destination year).value = true) :
    (trade.isActive destination origin year).value = true ∨
      reader.Gives R .tradeRoutes [destination, origin, year] false := by
  have hroutes : reader.HoldsRoutes R .tradeRoutes trade.routes := h _ List.mem_cons_self
  rw [isActive_iff, Trade.Open, find?_routes_iff hroutes] at hactive
  rw [isActive_iff, Trade.Open, find?_routes_iff hroutes, and_iff_right hactive.1.symm]
  rcases hactive.2 with hgiven | ⟨-, -, hreverse⟩
  · by_cases hother : ∃ other, reader.Gives R .tradeRoutes [destination, origin, year] other
    · obtain ⟨other, hother⟩ := hother
      match other, hother with
      | true, hother => exact .inl (.inl hother)
      | false, hother => exact .inr hother
    · exact .inl (.inr ⟨hpairs, not_exists.1 hother, hgiven⟩)
  · exact .inl (.inl hreverse)

/-- **Mirroring makes trades symmetric and leaves what is given.** In a trade that is read from a
mapping, each field over routes holds what is given, and what is given for the reverse route where
the trade asks for that and nothing is given; only then defaults are filled, over the declared
members. So where routes hold both ways, a route that is open is open the other way, unless that is
given to be closed. -/
theorem parseTrade_mirrors (sets : MemberSets) (entries : List (String × Node)) (path : String) :
    let reader : Reader := ⟨.mapping entries, .trade, path, sets⟩
    let trade := (parseTrade (R := R) sets (.mapping entries) path).value
    trade.routeFields.map (·.1) = EntityKind.trade.indexedFields ∧
      (∀ field ∈ trade.routeFields, reader.HoldsRoutes R field.1 field.2) ∧
      (trade.bothWays = true ↔ reader.entity.PairsRoutes) ∧
      (reader.entity.PairsRoutes → ∀ origin destination year,
        (trade.isActive origin destination year).value = true →
          (trade.isActive destination origin year).value = true ∨
            reader.Gives R .tradeRoutes [destination, origin, year] false) := by
  intro reader trade
  have hholds : ∀ field ∈ trade.routeFields, reader.HoldsRoutes R field.1 field.2 :=
    holdsRoutes_parseTrade
  refine ⟨trade.specs_routeFields, hholds, bothWays_parseTrade_iff, ?_⟩
  intro hpairs origin destination year hactive
  exact active_reverse hholds hpairs hactive

end

/-- A line to the south is open to the north as well, except in the year in which that is closed. -/
example :
    let trade := (parseTrade (R := Rat) .empty (.mapping [("construct_region_pairs", .plain "true"),
      ("trade_routes", .mapping
        [("north", .mapping [("south",
          .mapping [("2020", .plain "true"), ("2030", .plain "true")])]),
        ("south", .mapping [("north", .mapping [("2030", .plain "false")])])])]) "trade.line").value
    (trade.isActive "south" "north" "2020").value = true ∧
      (trade.isActive "south" "north" "2030").value = false := by
  decide +kernel

end EnergyPlan
