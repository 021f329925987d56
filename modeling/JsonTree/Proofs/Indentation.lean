import JsonTree.Proofs.Places
import JsonTree.Proofs.StrictText

/-!
The layout of a text is that of its parts. A newline is written for a line to begin and for nothing
else, so to write a node deeper is to put spaces after the newlines of its text, and a container is
made of the texts that its children have as roots.
-/
namespace JsonTree.Value

/-- Spaces for more levels after every newline. -/
def shifted (levels : Nat) (text : List Char) : List Char :=
  text.flatMap fun c => if c = '\n' then margin levels else [c]

def indented (levels : Nat) (text : String) : String := .ofList (shifted levels text.toList)

/-- No number that is kept as text breaks a line. -/
def Unbroken (v : Value) : Prop := ∀ t ∈ v.literals, '\n' ∉ t.toList

instance : DecidablePred Unbroken :=
  fun v => inferInstanceAs (Decidable (∀ t ∈ v.literals, '\n' ∉ t.toList))

/-! ### Shifting -/

theorem shifted_append (levels : Nat) (t u : List Char) :
    shifted levels (t ++ u) = shifted levels t ++ shifted levels u :=
  List.flatMap_append

theorem shifted_cons (levels : Nat) {c : Char} (h : c ≠ '\n') (t : List Char) :
    shifted levels (c :: t) = c :: shifted levels t := by
  rw [shifted, List.flatMap_cons, if_neg h]
  rfl

theorem shifted_of_not_mem {levels : Nat} {t : List Char} (h : '\n' ∉ t) :
    shifted levels t = t := by
  induction t with
  | nil => rfl
  | cons c rest ih =>
    rw [List.mem_cons, not_or] at h
    rw [shifted_cons levels (Ne.symm h.1), ih h.2]

theorem shifted_margin (levels depth : Nat) :
    shifted levels (margin depth) = margin (depth + levels) := by
  have spaces : '\n' ∉ List.replicate (2 * depth) ' ' := by simp
  rw [margin, shifted, List.flatMap_cons, if_pos rfl]
  change margin levels ++ shifted levels _ = _
  rw [shifted_of_not_mem spaces, margin, List.cons_append, List.replicate_append_replicate, margin,
    ← Nat.mul_add, Nat.add_comm]

theorem shifted_joined (levels : Nat) (texts : List (List Char)) :
    shifted levels (joined texts) = joined (texts.map (shifted levels)) := by
  cases texts with
  | nil => rfl
  | cons t rest =>
    have comma : ∀ t, shifted levels (',' :: t) = ',' :: shifted levels t :=
      shifted_cons levels (by decide)
    have others : shifted levels (rest.flatMap (',' :: ·)) =
        rest.flatMap fun t => shifted levels (',' :: t) := List.flatMap_assoc
    rw [joined, shifted_append, others, List.map_cons, joined, List.flatMap_map]
    simp only [comma]

/-- A container written deeper has its children written deeper. -/
theorem shifted_bracketed {first last : Char} (opens : first ≠ '\n') (closes : last ≠ '\n')
    (levels depth : Nat) (children : List (List Char)) :
    shifted levels (bracketed first last depth children) =
      bracketed first last (depth + levels) (children.map (shifted levels)) := by
  have line : ∀ t, shifted levels (margin (depth + 1) ++ t) =
      margin (depth + levels + 1) ++ shifted levels t := by
    intro t
    rw [shifted_append, shifted_margin, Nat.add_right_comm]
  unfold bracketed
  rw [List.isEmpty_map]
  split
  · exact shifted_of_not_mem (by simp [opens.symm, closes.symm])
  · rw [List.cons_append, List.cons_append, shifted_cons levels opens, shifted_append,
      shifted_append, shifted_joined, shifted_margin, shifted_cons levels closes, List.map_map,
      List.map_map]
    simp only [Function.comp_def, line]
    rfl

/-! ### Lines -/

theorem newline_not_mem_encode (s : List Char) : '\n' ∉ Quoted.encode s := by
  intro h
  rw [Quoted.encode, List.mem_append, List.mem_cons, List.mem_flatMap] at h
  obtain (first | ⟨c, _, inner⟩) | last := h
  · contradiction
  · exact absurd (Quoted.le_of_mem_encodeChar inner) (by decide)
  · contradiction

theorem newline_not_mem_digits {t : List Char} (digits : ∀ c ∈ t, c.isDigit) : '\n' ∉ t :=
  fun h => absurd (digits _ h) (by decide)

theorem newline_not_mem_number {t : List Char} (h : Strict.Number t) : '\n' ∉ t := by
  obtain ⟨sign, whole, fraction, exponent⟩ := h
  simp only [List.mem_append, not_or]
  refine ⟨⟨⟨?_, ?_⟩, ?_⟩, ?_⟩
  · cases sign <;> simp
  · cases whole with
    | zero => simp
    | lead first _ others =>
      exact newline_not_mem_digits (List.forall_mem_cons.2 ⟨first, others⟩)
  · cases fraction with
    | absent => simp
    | digits digits => simp [newline_not_mem_digits digits.all]
  · cases exponent with
    | absent => simp
    | digits letter sign digits =>
      rcases letter with rfl | rfl <;> rcases sign with rfl | rfl | rfl <;>
        simp [newline_not_mem_digits digits.all]

theorem newline_not_mem_float (x : Float) : '\n' ∉ FloatText.text x := by
  by_cases finite : x.isFinite
  · exact newline_not_mem_number (FloatText.pointed_text finite).number
  · rw [FloatText.text_of_not_finite finite]
    simp

theorem newline_not_mem_bool (b : Bool) : '\n' ∉ (boolText b).toList := by
  cases b <;> decide

theorem unbroken_array {items : List Value} :
    (array items).Unbroken ↔ ∀ v ∈ items, v.Unbroken := by
  rw [Unbroken, literals_array, List.forall_mem_flatMap]
  rfl

theorem unbroken_object {members : List (String × Value)} :
    (object members).Unbroken ↔ ∀ m ∈ members, m.2.Unbroken := by
  rw [Unbroken, literals_object, List.forall_mem_flatMap]
  rfl

theorem Unbroken.node? {v n : Value} {place : List Nat} (h : v.Unbroken)
    (found : v.node? place = some n) : n.Unbroken := by
  induction place generalizing v with
  | nil => exact Option.some.inj found ▸ h
  | cons i place ih =>
    obtain ⟨child, member, inner⟩ := node?_cons_eq_some_iff.1 found
    refine ih ?_ inner
    have below := List.mem_of_getElem? member
    cases v with
    | array items => exact unbroken_array.1 h child below
    | object members =>
      obtain ⟨m, hm, rfl⟩ := List.mem_map.1 below
      exact unbroken_object.1 h m hm
    | _ => contradiction

theorem shifted_memberText (levels depth : Nat) (m : String × Value) :
    shifted levels (memberText depth m) =
      Quoted.encode m.1.toList ++ ':' :: ' ' :: shifted levels (m.2.text depth) := by
  rw [memberText, shifted_append, shifted_of_not_mem (newline_not_mem_encode _),
    shifted_cons levels (by decide), shifted_cons levels (by decide)]

/-- To write a node deeper is to shift its text. -/
theorem text_add {v : Value} (unbroken : v.Unbroken) (depth levels : Nat) :
    v.text (depth + levels) = shifted levels (v.text depth) := by
  induction v using Value.induct generalizing depth with
  | string s => exact (shifted_of_not_mem (newline_not_mem_encode _)).symm
  | int n => exact (shifted_of_not_mem (newline_not_mem_number (Strict.number_text _))).symm
  | float x => exact (shifted_of_not_mem (newline_not_mem_float x)).symm
  | literal t => exact (shifted_of_not_mem (unbroken t List.mem_cons_self)).symm
  | bool b => exact (shifted_of_not_mem (newline_not_mem_bool b)).symm
  | null => rfl
  | array items ih =>
    have deeper : ∀ v ∈ items,
        v.text (depth + levels + 1) = shifted levels (v.text (depth + 1)) := by
      intro v hv
      rw [Nat.add_right_comm]
      exact ih v hv (unbroken_array.1 unbroken v hv) (depth + 1)
    rw [text_array, text_array, shifted_bracketed (by decide) (by decide), List.map_map,
      List.map_congr_left deeper]
    rfl
  | object members ih =>
    have deeper : ∀ m ∈ members, memberText (depth + levels + 1) m =
        shifted levels (memberText (depth + 1) m) := by
      intro m hm
      rw [shifted_memberText, memberText, Nat.add_right_comm,
        ih m hm (unbroken_object.1 unbroken m hm) (depth + 1)]
    rw [text_object, text_object, shifted_bracketed (by decide) (by decide), List.map_map,
      List.map_congr_left deeper]
    rfl

/-! ### Containers -/

theorem joined_lines (t : List Char) (rest : List (List Char)) :
    joined ((t :: rest).map ('\n' :: ·)) = '\n' :: [',', '\n'].intercalate (t :: rest) := by
  induction rest generalizing t with
  | nil => simp [joined]
  | cons u rest ih =>
    have later := ih u
    rw [List.intercalate_cons_cons, List.append_assoc, List.cons_append, List.cons_append,
      List.nil_append, ← later]
    simp [joined]

section

variable {α : Type} {as : List α} {f : α → List Char} {line : α → String}

/-- A container at the root has a line for each child, with two spaces before it. -/
theorem bracketed_lines (first last : Char) (some_child : as ≠ [])
    (lines : ∀ a ∈ as, (line a).toList = [' ', ' '] ++ f a) :
    bracketed first last 0 (as.map f) =
      first :: '\n' :: (",\n".intercalate (as.map line)).toList ++ ['\n', last] := by
  have begun : ∀ a ∈ as,
      ((margin 1 ++ ·) ∘ f) a = (('\n' :: ·) ∘ String.toList ∘ line) a := by
    intro a ha
    simp only [Function.comp_apply, lines a ha]
    rfl
  obtain ⟨a, rest, rfl⟩ := List.exists_cons_of_ne_nil some_child
  have inside : joined (((a :: rest).map f).map (margin 1 ++ ·)) =
      '\n' :: (",\n".intercalate ((a :: rest).map line)).toList := by
    rw [List.map_map, List.map_congr_left begun, ← List.map_map, ← List.map_map, List.map_cons,
      List.map_cons, joined_lines, String.toList_intercalate]
    rfl
  rw [bracketed, if_neg (by simp), inside]
  simp [margin]

end

theorem toList_indented (levels : Nat) (text : String) :
    (indented levels text).toList = shifted levels text.toList :=
  String.toList_ofList

theorem write_eq {v : Value} (unbroken : v.Unbroken) (depth : Nat) (out : String) :
    v.write depth out = out ++ indented depth v.toJson := by
  apply String.ext
  rw [toList_write, String.toList_append, toList_indented, toList_toJson, ← text_add unbroken,
    Nat.zero_add]

theorem toJson_array {items : List Value} (some_item : items ≠ [])
    (unbroken : (array items).Unbroken) :
    (array items).toJson =
      "[\n" ++ ",\n".intercalate (items.map fun n => "  " ++ indented 1 n.toJson) ++ "\n]" := by
  have lines : ∀ v ∈ items, ("  " ++ indented 1 v.toJson).toList = [' ', ' '] ++ v.text 1 := by
    intro v hv
    rw [String.toList_append, toList_indented, toList_toJson,
      ← text_add (unbroken_array.1 unbroken v hv)]
    rfl
  apply String.ext
  rw [toList_toJson, text_array, bracketed_lines '[' ']' some_item lines]
  simp

theorem toJson_object {members : List (String × Value)} (some_member : members ≠ [])
    (unbroken : (object members).Unbroken) :
    (object members).toJson =
      "\x7b\n" ++ ",\n".intercalate (members.map fun m =>
        "  " ++ quoted m.1 ++ ": " ++ indented 1 m.2.toJson) ++ "\n\x7d" := by
  have lines : ∀ m ∈ members, ("  " ++ quoted m.1 ++ ": " ++ indented 1 m.2.toJson).toList =
      [' ', ' '] ++ memberText 1 m := by
    intro m hm
    simp only [String.toList_append, toList_quoted, toList_indented, toList_toJson, memberText,
      ← text_add (unbroken_object.1 unbroken m hm)]
    simp
  apply String.ext
  rw [toList_toJson, text_object, bracketed_lines '\x7b' '\x7d' some_member lines]
  simp

/-! ### Places -/

theorem joined_around (xs ys : List (List Char)) :
    ∃ before after, ∀ t, joined (xs ++ t :: ys) = before ++ t ++ after := by
  cases xs with
  | nil => exact ⟨[], ys.flatMap (',' :: ·), fun t => rfl⟩
  | cons x xs =>
    refine ⟨x ++ xs.flatMap (',' :: ·) ++ [','], ys.flatMap (',' :: ·), fun t => ?_⟩
    simp [joined]

/-- What is written around a child does not depend on it. -/
theorem bracketed_around (first last : Char) (depth : Nat) (xs ys : List (List Char)) :
    ∃ before after, ∀ t, bracketed first last depth (xs ++ t :: ys) = before ++ t ++ after := by
  obtain ⟨before, after, around⟩ := joined_around (xs.map (margin (depth + 1) ++ ·))
    (ys.map (margin (depth + 1) ++ ·))
  refine ⟨first :: before ++ margin (depth + 1), after ++ margin depth ++ [last], fun t => ?_⟩
  rw [bracketed, if_neg (by simp), List.map_append, List.map_cons, around]
  simp

theorem modify_split {α : Type} {as : List α} {i : Nat} {a : α} (h : as[i]? = some a) :
    ∃ xs ys, as = xs ++ a :: ys ∧ ∀ f, as.modify i f = xs ++ f a :: ys := by
  obtain ⟨inside, rfl⟩ := List.getElem?_eq_some_iff.1 h
  refine ⟨as.take i, as.drop (i + 1), ?_, fun f => List.modify_eq_take_cons_drop inside⟩
  rw [← List.drop_eq_getElem_cons inside, List.take_append_drop]

/-- The text around a child is there whatever happens within the child. -/
theorem text_child {v child : Value} {i : Nat} (h : v.children[i]? = some child) (depth : Nat) :
    ∃ before after, v.text depth = before ++ child.text (depth + 1) ++ after ∧
      ∀ place m, (v.replace (i :: place) m).text depth =
        before ++ (child.replace place m).text (depth + 1) ++ after := by
  cases v with
  | array items =>
    obtain ⟨xs, ys, rfl, modified⟩ := modify_split (show items[i]? = some child from h)
    obtain ⟨before, after, around⟩ := bracketed_around '[' ']' depth (xs.map (text (depth + 1)))
      (ys.map (text (depth + 1)))
    refine ⟨before, after, ?_, fun place m => ?_⟩
    · rw [text_array, List.map_append, List.map_cons, around]
    · rw [replace, modified, text_array, List.map_append, List.map_cons, around]
  | object members =>
    have member : (members.map (·.2))[i]? = some child := h
    rw [List.getElem?_map, Option.map_eq_some_iff] at member
    obtain ⟨⟨key, _⟩, member, rfl⟩ := member
    obtain ⟨xs, ys, rfl, modified⟩ := modify_split member
    obtain ⟨before, after, around⟩ := bracketed_around '\x7b' '\x7d' depth
      (xs.map (memberText (depth + 1))) (ys.map (memberText (depth + 1)))
    refine ⟨before ++ Quoted.encode key.toList ++ [':', ' '], after, ?_, fun place m => ?_⟩
    · rw [text_object, List.map_append, List.map_cons, around]
      simp [memberText]
    · rw [replace, modified, text_object, List.map_append, List.map_cons, around]
      simp [memberText]
  | _ => contradiction

/-- A node stands in the text of the tree as it is written at its depth, and so does another one in
its place. -/
theorem text_replace {v n : Value} {place : List Nat} (found : v.node? place = some n)
    (depth : Nat) :
    ∃ before after, v.text depth = before ++ n.text (depth + place.length) ++ after ∧
      ∀ m, (v.replace place m).text depth = before ++ m.text (depth + place.length) ++ after := by
  induction place generalizing v depth with
  | nil =>
    cases found
    exact ⟨[], [], by simp, fun m => by simp [replace]⟩
  | cons i place ih =>
    obtain ⟨child, member, inner⟩ := node?_cons_eq_some_iff.1 found
    obtain ⟨front, back, here, around⟩ := text_child member depth
    obtain ⟨before, after, within, replaced⟩ := ih inner (depth + 1)
    have deeper : depth + (i :: place).length = depth + 1 + place.length := by
      rw [List.length_cons, Nat.add_right_comm, Nat.add_assoc]
    refine ⟨front ++ before, after ++ back, ?_, fun m => ?_⟩
    · rw [here, within, deeper]
      simp
    · rw [around, replaced, deeper]
      simp

/-- The text of a container in a tree is made of those of its children, each beginning a line and
moved in by two spaces. The tree has the text of each node as it is at the root, moved in by its
depth, and what stands around it does not change with the node. -/
theorem toJson_compositional {v n : Value} {place : List Nat} (unbroken : v.Unbroken)
    (nested : v.node? place = some n) :
    (∀ items, items ≠ [] → n = array items → n.toJson =
      "[\n" ++ ",\n".intercalate (items.map fun c => "  " ++ indented 1 c.toJson) ++ "\n]") ∧
    (∀ members, members ≠ [] → n = object members → n.toJson =
      "\x7b\n" ++ ",\n".intercalate (members.map fun m =>
        "  " ++ quoted m.1 ++ ": " ++ indented 1 m.2.toJson) ++ "\n\x7d") ∧
    (∀ depth out, n.write depth out = out ++ indented depth n.toJson) ∧
    ∃ before after, v.toJson = before ++ indented place.length n.toJson ++ after ∧
      ∀ m, m.Unbroken →
        (v.replace place m).toJson = before ++ indented place.length m.toJson ++ after := by
  have inner := unbroken.node? nested
  obtain ⟨before, after, here, there⟩ := text_replace nested 0
  have shifts : ∀ {m : Value}, m.Unbroken →
      m.text (0 + place.length) = (indented place.length m.toJson).toList := by
    intro m hm
    rw [toList_indented, toList_toJson, text_add hm]
  refine ⟨?_, ?_, write_eq inner, .ofList before, .ofList after, ?_, fun m hm => ?_⟩
  · rintro items some_item rfl
    exact toJson_array some_item inner
  · rintro members some_member rfl
    exact toJson_object some_member inner
  · apply String.ext
    rw [toList_toJson, here, shifts inner]
    simp
  · apply String.ext
    rw [toList_toJson, there, shifts hm]
    simp

/-- Newlines in keys and strings break no line. -/
theorem toJson_compositional_newlines :
    (object [("a\n", array [literal "1e400", string "x\ny"])]).Unbroken ∧
      (object [("a\n", array [literal "1e400", string "x\ny"])]).node? [0] =
        some (array [literal "1e400", string "x\ny"]) ∧
      ∃ before after, (object [("a\n", array [literal "1e400", string "x\ny"])]).toJson =
        before ++ "[\n    1e400,\n    \"x\\ny\"\n  ]" ++ after := by
  have unbroken : (object [("a\n", array [literal "1e400", string "x\ny"])]).Unbroken := by decide
  have nested : (object [("a\n", array [literal "1e400", string "x\ny"])]).node? [0] =
      some (array [literal "1e400", string "x\ny"]) := rfl
  obtain ⟨_, _, _, before, after, whole, _⟩ := toJson_compositional unbroken nested
  exact ⟨unbroken, nested, before, after, whole⟩

end JsonTree.Value
