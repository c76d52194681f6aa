/-
# Configuration text is a sequence of bytes

Every text in a configuration (a scalar, a key, an expression) is a sequence of
bytes. A `String` holds one character per byte, the character whose code is the
byte, so lengths and positions count bytes and the order of strings is the order
of their bytes. Only ASCII characters are blank, digits or letters.

Trimming (`trim`) removes blanks at both ends, a dotted path is cut at its dots
(`splitDots`), and `occursIn` looks for one text in another. Paths shown to a
reader are extended by `childPath`.

Two ways to keep a list free of duplicates: `appendNew` keeps the order of first
appearance, `insertSorted` the order of the texts.

Key definitions: `isBlank`, `trim`, `splitDots`, `childPath`, `occursIn`,
`appendNew`, `insertSorted`.
Key theorems: `occursIn_iff`, `mem_appendNew`, `mem_foldl_appendNew`, `nodup_appendNew`,
`mem_sortedDistinct`.
-/
namespace EnergyPlan.Text

/-- The blank characters: space, tab, line feed, vertical tab, form feed, carriage return. -/
def isBlank (c : Char) : Bool :=
  c = ' ' || ('\t' ≤ c && c ≤ '\r')

/-- The text without the blanks at its end. -/
def trimEndChars (cs : List Char) : List Char :=
  (cs.reverse.dropWhile isBlank).reverse

/-- The text without the blanks at its two ends. -/
def trimChars (cs : List Char) : List Char :=
  trimEndChars (cs.dropWhile isBlank)

/-- The text without the blanks at its two ends. -/
def trim (s : String) : String :=
  String.ofList (trimChars s.toList)

/-- The pieces of a text between the characters that `cut` picks; there is always one piece. -/
def cutAt (cut : Char → Bool) : List Char → List (List Char)
  | [] => [[]]
  | c :: cs =>
    if cut c then [] :: cutAt cut cs
    else
      match cutAt cut cs with
      | [] => [[c]]
      | piece :: rest => (c :: piece) :: rest

/-- The segments of a dotted path, each without blanks at its ends. -/
def splitDots (path : String) : List String :=
  (cutAt (· = '.') path.toList).map fun piece => String.ofList (trimChars piece)

/-- The display path of a child: the child alone below an empty parent. -/
def childPath (parent child : String) : String :=
  if parent.isEmpty then child else parent ++ "." ++ child

/-- The display path reached from `parent` by several children in turn. -/
def childPaths (parent : String) (children : List String) : String :=
  children.foldl childPath parent

/-- Whether `needle` stands somewhere in the text. -/
def occursIn (needle : List Char) : List Char → Bool
  | [] => needle.isEmpty
  | c :: cs => needle.isPrefixOf (c :: cs) || occursIn needle cs

/-- Whether `needle` stands somewhere in the text. -/
def contains (s needle : String) : Bool :=
  occursIn needle.toList s.toList

/-- The text in lower case; only ASCII letters have two cases. -/
def lower (s : String) : String :=
  String.ofList (s.toList.map Char.toLower)

/-- Several texts with `separator` between neighbours. -/
def join (separator : String) (parts : List String) : String :=
  separator.intercalate parts

/-- Adds a text at the end of a list, unless the list holds it already. -/
def appendNew (seen : List String) (s : String) : List String :=
  if s ∈ seen then seen else seen ++ [s]

/-- Puts a text at its place in a strictly sorted list, unless it is there already. -/
def insertSorted (s : String) : List String → List String
  | [] => [s]
  | t :: rest =>
    if s < t then s :: t :: rest
    else if s = t then t :: rest
    else t :: insertSorted s rest

/-- The distinct texts of a list in byte order. -/
def sortedDistinct (texts : List String) : List String :=
  texts.foldl (fun sorted s => insertSorted s sorted) []

/-! ### What the scanning functions do -/

theorem cutAt_ne_nil (cut : Char → Bool) (cs : List Char) : cutAt cut cs ≠ [] := by
  cases cs with
  | nil => simp [cutAt]
  | cons c cs =>
    unfold cutAt
    split
    · simp
    · split <;> simp

theorem occursIn_iff (needle : List Char) (cs : List Char) :
    occursIn needle cs = true ↔ needle <:+: cs := by
  induction cs with
  | nil => simp [occursIn]
  | cons c cs ih => simp [occursIn, ih, List.infix_cons_iff]

theorem mem_appendNew {s t : String} {seen : List String} :
    t ∈ appendNew seen s ↔ t ∈ seen ∨ t = s := by
  unfold appendNew
  split
  · next h =>
    constructor
    · exact Or.inl
    · rintro (h' | rfl)
      · exact h'
      · exact h
  · simp

/-- Appending texts that are new adds them all. -/
theorem mem_foldl_appendNew {t : String} {texts seen : List String} :
    t ∈ texts.foldl appendNew seen ↔ t ∈ texts ∨ t ∈ seen := by
  induction texts generalizing seen with
  | nil => simp
  | cons s rest ih =>
    rw [List.foldl_cons, ih, mem_appendNew, List.mem_cons, or_comm (a := t ∈ seen), ← or_assoc,
      or_comm (a := t ∈ rest)]

theorem nodup_appendNew {s : String} {seen : List String} (h : seen.Nodup) :
    (appendNew seen s).Nodup := by
  unfold appendNew
  split
  · exact h
  · next hs =>
    rw [List.nodup_append]
    refine ⟨h, by simp, ?_⟩
    rintro a ha b hb rfl
    rw [List.mem_singleton] at hb
    exact hs (hb ▸ ha)

theorem mem_insertSorted {s t : String} {sorted : List String} :
    t ∈ insertSorted s sorted ↔ t = s ∨ t ∈ sorted := by
  induction sorted with
  | nil => simp [insertSorted]
  | cons u rest ih =>
    unfold insertSorted
    split
    · simp
    · split
      · next h => subst h; simp
      · simp only [List.mem_cons, ih]
        exact or_left_comm

theorem mem_sortedDistinct {t : String} {texts : List String} :
    t ∈ sortedDistinct texts ↔ t ∈ texts := by
  suffices h : ∀ sorted : List String,
      t ∈ texts.foldl (fun sorted s => insertSorted s sorted) sorted ↔ t ∈ sorted ∨ t ∈ texts by
    simpa [sortedDistinct] using h []
  induction texts with
  | nil => simp
  | cons s rest ih =>
    intro sorted
    rw [List.foldl_cons, ih, mem_insertSorted, List.mem_cons]
    constructor
    · rintro ((h | h) | h) <;> simp [h]
    · rintro (h | h | h) <;> simp [h]

end EnergyPlan.Text
