/-
# Dotted names and paths

A path names a node in two ways: for a placeholder it is cut at its points, as an expression it is
read as a dotted name. Both lead to the same node, whatever the tree, unless a position before the
last segment stands right before its point. Then a number takes the point in, the segments that are
read are not those of the path, and in some tree the node at the path is missed.

Key definitions: `IsPath`, `NamesNode`, `pieces`, `spine`.
Key theorems: `IsPath.read`, `IsPath.exists_of_read`, `IsPath.not_namesNode`, `namesNode_iff`.
-/
import EnergyPlan.Proofs.Loops.Frames
import EnergyPlan.Proofs.Syntax.Pieces
import EnergyPlan.Proofs.Syntax.Recovery

namespace EnergyPlan.Expr

open Config Text

/-- A path: its segments are a name that expressions can look up, and names and positions. -/
structure IsPath (text head : String) (rest : List String) : Prop where
  split : splitDots text = head :: rest
  name : IsVariable head
  free : Function.ofName? head = none
  segments : ∀ s ∈ rest, isIdentifier s.toList = true ∨ isPosition s.toList = true

/-- The expression that a text writes has the value of the node at the path that it writes, or is
unresolved as long as no such node is there and resolved. -/
structure NamesNode (root : Node) (text : String) : Prop where
  found : ∀ node, root.find (splitDots text) = some node → node.isPending = false →
    evaluate root text = .ok (Value.ofNode node)
  pending : ∀ node, root.find (splitDots text) = some node → node.isPending = true →
    evaluate root text = .error (.unresolved (.pending (childPaths "" (splitDots text))))
  missing : root.find (splitDots text) = none →
    evaluate root text = .error (.unresolved (.unknown (childPaths "" (splitDots text))))

/-- The pieces of a text between its points, with their blanks. -/
def pieces (text : String) : List (List Char) := cutAt (· = '.') text.toList

/-! ### The node that a name leads to -/

theorem eq_of_segment?_single {key s : String} {node child : Node}
    (h : (Node.mapping [(key, node)]).segment? s = some child) : s = key ∧ node = child := by
  simp only [Node.segment?, Node.entry?, Node.entries, List.lookup_cons, List.lookup_nil] at h
  split at h
  · next hkey =>
    cases h
    exact ⟨eq_of_beq hkey, rfl⟩
  · cases h

/-- A tree with one node at the end of a path and nothing beside the path. -/
def spine (path : List String) : Node :=
  path.foldr (fun key node => .mapping [(key, node)]) (.plain "")

theorem find_spine (path : List String) : (spine path).find path = some (.plain "") := by
  induction path with
  | nil => rfl
  | cons key path ih =>
    have hchild : (spine (key :: path)).segment? key = some (spine path) := by
      simp [spine, Node.segment?, Node.entry?, Node.entries]
    rw [Node.find, hchild]
    exact ih

/-- What is found in such a tree is found along the path. -/
theorem mem_of_find_spine {path other : List String} {node : Node}
    (h : (spine path).find other = some node) : ∀ s ∈ other, s ∈ path := by
  induction path generalizing other with
  | nil =>
    cases other with
    | nil => exact fun _ hs => absurd hs List.not_mem_nil
    | cons s other => cases h
  | cons key path ih =>
    cases other with
    | nil => exact fun _ hs => absurd hs List.not_mem_nil
    | cons s other =>
      obtain ⟨child, hchild, hfind⟩ := Option.bind_eq_some_iff.1 h
      obtain ⟨rfl, rfl⟩ := eq_of_segment?_single hchild
      exact List.forall_mem_cons.2
        ⟨List.mem_cons_self, fun t ht => List.mem_cons_of_mem _ (ih hfind t ht)⟩

section

variable {text head : String} {rest : List String} {root : Node}

/-- The pieces of a path are its head, which is a name, and its further segments. -/
theorem IsPath.exists_pieces (h : IsPath text head rest) :
    ∃ first more, pieces text = first :: more ∧ text.toList = joined (first :: more) ∧
      (∀ p ∈ first :: more, IsPiece p) ∧ takesPoint first = false ∧
      pieceLexeme first = .name head ∧ (more.map pieceLexeme).map Lexeme.text = rest := by
  obtain ⟨hsplit, hname, -, hsegments⟩ := h
  obtain ⟨first, more, hpieces, rfl, rfl⟩ := List.map_eq_cons_iff.1 hsplit
  have hfirst : isIdentifier (trimChars first) = true := by
    simpa only [String.toList_ofList] using hname.1
  have hmore : ∀ p ∈ more, IsPiece p := by
    intro p hp
    have hsegment := hsegments _ (List.mem_map_of_mem hp)
    rwa [String.toList_ofList] at hsegment
  refine ⟨first, more, hpieces, ?_, List.forall_mem_cons.2 ⟨.inl hfirst, hmore⟩,
    takesPoint_of_isIdentifier hfirst, ?_, ?_⟩
  · rw [← hpieces, joined_cutAt]
  · rw [pieceLexeme, isPosition_of_isIdentifier hfirst]
    rfl
  · rw [List.map_map]
    exact List.map_congr_left fun p _ => text_piece p

/-- A path whose positions take no point is read as the name of its segments. -/
theorem IsPath.read (h : IsPath text head rest)
    (hkept : ∀ piece ∈ (pieces text).dropLast, takesPoint piece = false) :
    Term.read text = .ok (.name head rest) := by
  obtain ⟨first, more, hpieces, htext, hall, -, hfirst, hrest⟩ := h.exists_pieces
  rw [List.forall_mem_cons] at hall
  have hscans := scans_pieces hall.1 hall.2 (hpieces ▸ hkept)
  rw [← htext, hfirst] at hscans
  obtain ⟨ts, htokens, hts⟩ := tokenize_scans hscans
  have hitems : ∀ l ∈ more.map pieceLexeme, l.IsSegment :=
    List.forall_mem_map.2 fun p _ => isSegment_piece p
  have hreads := (reads_path h.name hitems).readBack (plain_name h.name.2)
  rw [hrest] at hreads
  rw [Term.read, htokens, ok_bind, hreads.parseAll hts]

/-- A path with a position that takes a point is read, if at all, as a name with that point in one
of its segments. -/
theorem IsPath.exists_of_read (h : IsPath text head rest)
    (htaken : ∃ piece ∈ (pieces text).dropLast, takesPoint piece = true) {t : Term}
    (hread : Term.read text = .ok t) :
    ∃ segments, t = .name head segments ∧ ∃ s ∈ segments, '.' ∈ s.toList := by
  obtain ⟨first, more, hpieces, htext, hall, hfirst, hhead, -⟩ := h.exists_pieces
  rw [hpieces] at htaken
  obtain ⟨piece, hpiece, htakes⟩ := htaken
  cases more with
  | nil => cases hpiece
  | cons next more =>
    rw [List.dropLast_cons_cons, List.mem_cons] at hpiece
    have hpiece : piece ∈ (next :: more).dropLast := hpiece.resolve_left fun he => by
      rw [he, hfirst] at htakes
      cases htakes
    rw [List.forall_mem_cons] at hall
    obtain ⟨l, items, after, hscans, hspaced, hitems, x, hx, hpoint⟩ :=
      scans_taken hall.2 ⟨piece, hpiece, htakes⟩
    have hscans : Scans _ (first ++ '.' :: joined (next :: more)) :=
      scans_piece hall.1 (fun c hc => by cases hc; rfl) (.inl hfirst) (scans_point hscans)
    rw [← joined_cons_cons, ← htext, hhead] at hscans
    obtain ⟨ts, htokens, hts⟩ := tokenize_scans hscans
    rw [Term.read, htokens, ok_bind] at hread
    obtain ⟨position, tail, rfl, htail⟩ := exists_cons_of_lexemes hts
    have hrow : Spaced (.name head :: tail.map Token.lexeme) := by
      rw [htail]
      exact hspaced.segment trivial
    refine ⟨_, parseAll_spaced h.name hrow hread, x.text, ?_, hpoint⟩
    obtain ⟨front, back, rfl, hfront, -⟩ :=
      List.map_eq_append_iff.1
        (show tail.map Token.lexeme = pointed (l :: items) ++ after from htail)
    rw [segments_pointed hitems hfront]
    exact List.mem_append_left _ (List.mem_map_of_mem hx)

theorem IsPath.point_notMem (h : IsPath text head rest) :
    ∀ s ∈ splitDots text, '.' ∉ s.toList := by
  have hpoint : continuesName '.' = false := by decide
  rw [h.split, List.forall_mem_cons]
  refine ⟨fun hmem => ?_, fun s hs hmem => ?_⟩
  · rw [continuesName_of_isIdentifier h.name.1 _ hmem] at hpoint
    cases hpoint
  · rcases h.segments s hs with hsegment | hsegment
    · rw [continuesName_of_isIdentifier hsegment _ hmem] at hpoint
      cases hpoint
    · exact absurd ((isPosition_iff.1 hsegment).2 _ hmem) (by decide)

theorem evaluate_of_read (hfree : Function.ofName? head = none)
    (hread : Term.read text = .ok (.name head rest)) :
    evaluate root text = lookupPath root (head :: rest) := by
  have hname : (Scope.mk root []).nameValue head rest = lookupPath root (head :: rest) := by
    rw [Scope.nameValue, hfree]
    rfl
  rw [evaluate_eq, hread, ← hname]
  dsimp only
  rw [Term.eval]

/-- A path with a position that takes a point does not lead to the node at the path, where only
that node is there. -/
theorem IsPath.not_namesNode (h : IsPath text head rest)
    (htaken : ∃ piece ∈ (pieces text).dropLast, takesPoint piece = true) :
    ¬ NamesNode (spine (splitDots text)) text := by
  intro hnames
  have hvalue := hnames.found _ (find_spine _) rfl
  cases hread : Term.read text with
  | error error =>
    rw [evaluate_eq, hread] at hvalue
    cases hvalue
  | ok t =>
    obtain ⟨segments, rfl, s, hs, hpoint⟩ := h.exists_of_read htaken hread
    rw [evaluate_of_read h.free hread, lookupPath] at hvalue
    cases hfind : (spine (splitDots text)).find (head :: segments) with
    | none =>
      rw [hfind] at hvalue
      cases hvalue
    | some node =>
      have hmem := mem_of_find_spine hfind s (List.mem_cons_of_mem head hs)
      exact h.point_notMem s hmem hpoint

theorem namesNode_of_lookup (h : evaluate root text = lookupPath root (splitDots text)) :
    NamesNode root text := by
  rw [lookupPath] at h
  constructor
  · intro node hfind hresolved
    simpa [hfind, hresolved] using h
  · intro node hfind hpending
    simpa [hfind, hpending] using h
  · intro hfind
    simpa [hfind] using h

/-- **A dotted name leads to the node at the path that it writes,** in every tree, exactly if no
position but the last takes the point behind it. -/
theorem namesNode_iff (h : IsPath text head rest) :
    (∀ root, NamesNode root text) ↔
      ∀ piece ∈ (pieces text).dropLast, takesPoint piece = false := by
  constructor
  · intro hnames piece hpiece
    refine Bool.eq_false_iff.2 fun htakes => ?_
    exact h.not_namesNode ⟨piece, hpiece, htakes⟩ (hnames _)
  · intro hkept root
    refine namesNode_of_lookup ?_
    rw [h.split]
    exact evaluate_of_read h.free (h.read hkept)

end

/-- Regions in a row, of which the first is the north. -/
def sampleRegions : Node :=
  .mapping [("regions", .sequence [.mapping [("id", .plain "north")]])]

theorem isPath_regions {text : String} (h : splitDots text = ["regions", "0", "id"]) :
    IsPath text "regions" ["0", "id"] :=
  ⟨h, by decide, by decide, by decide⟩

/-- A blank keeps the point from the position. -/
theorem namesNode_regions :
    IsPath "regions.0 .id" "regions" ["0", "id"] ∧ ∀ root, NamesNode root "regions.0 .id" :=
  have hpath := isPath_regions (by decide +kernel)
  ⟨hpath, (namesNode_iff hpath).2 (by decide +kernel)⟩

/-- The form for which an expression is refused, and where. -/
def refusedForm? : Eval Value → Option (SyntaxProblem × Nat)
  | .error (.refused (.badForm problem offset)) => some (problem, offset)
  | _ => none

/-- Without the blank the position takes the point, and no operator comes before the next word. Of
two positions in a row, the first makes one segment with the second. -/
theorem not_namesNode_position :
    (IsPath "regions.0.id" "regions" ["0", "id"] ∧
      sampleRegions.find (splitDots "regions.0.id") = some (.plain "north") ∧
      refusedForm? (evaluate sampleRegions "regions.0.id") = some (.unexpected "id", 10) ∧
      ¬ NamesNode sampleRegions "regions.0.id") ∧
    (IsPath "grid.1.2" "grid" ["1", "2"] ∧
      ¬ NamesNode (spine ["grid", "1", "2"]) "grid.1.2") := by
  have hsplit : splitDots "grid.1.2" = ["grid", "1", "2"] := by decide +kernel
  have hgrid : IsPath "grid.1.2" "grid" ["1", "2"] := ⟨hsplit, by decide, by decide, by decide⟩
  have hfind : sampleRegions.find (splitDots "regions.0.id") = some (.plain "north") := by rfl
  have hrefused : refusedForm? (evaluate sampleRegions "regions.0.id") =
      some (.unexpected "id", 10) := by decide +kernel
  refine ⟨⟨isPath_regions (by decide +kernel), hfind, hrefused, fun hnames => ?_⟩, hgrid, ?_⟩
  · rw [hnames.found _ hfind (by decide +kernel)] at hrefused
    cases hrefused
  · rw [← hsplit]
    exact hgrid.not_namesNode ⟨['1'], by decide +kernel, by decide⟩

end EnergyPlan.Expr
