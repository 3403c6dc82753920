import Mathlib

/-! # Properties (`utils/properties`, `utils/utils`)

The configuration of every program: a map from names to values, filled from property files. A file has a property on
each line, `name=value` with any space around the two; a line that starts with `#` is a comment, and a line without
`=` is passed over. A value may be a list, its elements separated by a comma.

What is written to a file in this form is read back (`property_file_is_read_back`). A list is read back unless its
last element is empty, because `getline` finds nothing after the last comma. -/

namespace LazyLog.Utils.Properties

/-! ### Texts -/

/-- `std::isspace`. -/
def isspace (ch : Char) : Bool := ch = ' ' || ('\t' ≤ ch && ch ≤ '\r')

/-- `Trim`. -/
def trim (str : List Char) : List Char := (str.dropWhile isspace).rdropWhile isspace

/-- What `std::getline` extracts, what it leaves, and whether it came to the end before the delimiter. -/
def getline (delim : Char) : List Char → List Char × List Char × Bool
  | [] => ([], [], true)
  | ch :: input =>
    if ch = delim then ([], input, false)
    else (ch :: (getline delim input).1, (getline delim input).2)

variable {delim : Char} {input line rest : List Char}

theorem getline_of_notMem (h : delim ∉ input) : getline delim input = (input, [], true) := by
  induction input with
  | nil => rfl
  | cons ch input ih =>
    rw [getline, if_neg (Ne.symm (List.ne_of_not_mem_cons h)), ih (List.not_mem_of_not_mem_cons h)]

theorem getline_append (h : delim ∉ line) : getline delim (line ++ delim :: rest) = (line, rest, false) := by
  induction line with
  | nil => rw [List.nil_append, getline, if_pos rfl]
  | cons ch line ih =>
    rw [List.cons_append, getline, if_neg (Ne.symm (List.ne_of_not_mem_cons h)),
      ih (List.not_mem_of_not_mem_cons h)]

/-- The two cases of `getline`. -/
theorem delim_cases (delim : Char) (input : List Char) :
    delim ∉ input ∨ ∃ line rest, input = line ++ delim :: rest ∧ delim ∉ line := by
  by_cases h : delim ∈ input
  · obtain ⟨line, rest, heq, hline⟩ := List.eq_append_cons_of_mem h
    exact Or.inr ⟨line, rest, heq, hline⟩
  · exact Or.inl h

theorem getline_length (h : ¬ (getline delim input).2.2 = true) :
    (getline delim input).2.1.length < input.length := by
  rcases delim_cases delim input with hno | ⟨line, rest, rfl, hline⟩
  · rw [getline_of_notMem hno] at h
    exact absurd rfl h
  · rw [getline_append hline]
    simp only [List.length_append, List.length_cons]
    omega

/-- `SeparateValue`. -/
def separateValue (value : List Char) (delim : Char) : List (List Char) :=
  if value = [] then []
  else if (getline delim value).2.2 then [(getline delim value).1]
  else (getline delim value).1 :: separateValue (getline delim value).2.1 delim
termination_by value.length
decreasing_by exact getline_length ‹_›

/-! ### The map -/

/-- `properties_`. -/
abbrev Props := List Char → Option (List Char)

/-- `GetProperty`. -/
def getProperty (props : Props) (key defaultValue : List Char) : List Char := (props key).getD defaultValue

/-- `SetProperty`. -/
def setProperty (props : Props) (key value : List Char) : Props := Function.update props key (some value)

/-- The text before the first `=` and the text behind it, both trimmed. -/
def keyValue (line : List Char) : Option (List Char × List Char) :=
  if (getline '=' line).2.2 then none else some (trim (getline '=' line).1, trim (getline '=' line).2.1)

/-- What a line of a property file assigns. -/
def lineAssignment (line : List Char) : Option (List Char × List Char) :=
  if line.head? = some '#' then none else keyValue line

/-- The map with the assignments made, one after the other. -/
def setAll (props : Props) (assignments : List (List Char × List Char)) : Props :=
  assignments.foldl (fun props kv => setProperty props kv.1 kv.2) props

/-- The loop of `Load`. -/
def loadLoop (props : Props) (input : List Char) : Props :=
  let props := setAll props (lineAssignment (getline '\n' input).1).toList
  if (getline '\n' input).2.2 then props else loadLoop props (getline '\n' input).2.1
termination_by input.length
decreasing_by exact getline_length ‹_›

/-- `Load`, of a file with the text `input` if it is open. -/
def load (props : Props) (input : Option (List Char)) : Except (List Char) Props :=
  match input with
  | none => .error "File not open!".toList
  | some text => .ok (loadLoop props text)

theorem setAll_append (props : Props) (as as' : List (List Char × List Char)) :
    setAll props (as ++ as') = setAll (setAll props as) as' := List.foldl_append

/-- The last value that is assigned to a name. -/
def lastValue (key : List Char) (assignments : List (List Char × List Char)) : Option (List Char) :=
  (assignments.reverse.find? fun kv => kv.1 = key).map Prod.snd

/-- **The last assignment wins.** -/
theorem setAll_apply (props : Props) (as : List (List Char × List Char)) (key : List Char) :
    setAll props as key = (lastValue key as).or (props key) := by
  induction as using List.reverseRecOn with
  | nil => rfl
  | append_singleton as kv ih =>
    have hlast : setAll props (as ++ [kv]) = setProperty (setAll props as) kv.1 kv.2 := by
      rw [setAll_append]
      rfl
    unfold lastValue at ih ⊢
    rw [hlast, List.reverse_append, List.reverse_singleton, List.singleton_append, List.find?_cons]
    unfold setProperty
    by_cases hkey : kv.1 = key
    · rw [hkey, Function.update_self]
      simp
    · rw [Function.update_of_ne (Ne.symm hkey), ih]
      simp [hkey]

/-! ### Lines -/

theorem splitOn_of_notMem (h : delim ∉ input) : input.splitOn delim = [input] := by
  rw [List.splitOn_eq_splitOnP]
  refine List.splitOnP_eq_singleton fun ch hch => ?_
  rw [beq_eq_false_iff_ne]
  rintro rfl
  exact h hch

theorem splitOn_append (h : delim ∉ line) :
    (line ++ delim :: rest).splitOn delim = line :: rest.splitOn delim := by
  have hline := splitOn_of_notMem h
  rw [List.splitOn_eq_splitOnP] at hline ⊢
  rw [List.splitOnP_append_cons line rest (p := fun x => x == delim) (beq_self_eq_true delim), hline,
    List.splitOn_eq_splitOnP, List.singleton_append]

/-- **`Load` goes through the lines.** -/
theorem loadLoop_eq (props : Props) (input : List Char) :
    loadLoop props input = setAll props ((input.splitOn '\n').filterMap lineAssignment) := by
  induction hn : input.length using Nat.strong_induction_on generalizing props input with
  | _ n ih =>
    have hone : ∀ line lines, (line :: lines).filterMap lineAssignment =
        (lineAssignment line).toList ++ lines.filterMap lineAssignment := by
      intro line lines
      cases h : lineAssignment line <;> simp [h]
    rw [loadLoop]
    rcases delim_cases '\n' input with hno | ⟨line, rest, rfl, hline⟩
    · rw [splitOn_of_notMem hno, hone]
      simp only [getline_of_notMem hno, if_true, List.filterMap_nil, List.append_nil]
    · rw [splitOn_append hline, hone, setAll_append]
      simp only [getline_append hline, Bool.false_eq_true, if_false]
      exact ih rest.length (by rw [← hn, List.length_append, List.length_cons]; omega) _ rest rfl

/-- **`SeparateValue` gives the parts between the delimiters**, but an empty one at the end. -/
theorem separateValue_eq (value : List Char) (delim : Char) :
    separateValue value delim =
      if (value.splitOn delim).getLast? = some [] then (value.splitOn delim).dropLast else value.splitOn delim := by
  induction hn : value.length using Nat.strong_induction_on generalizing value with
  | _ n ih =>
    rw [separateValue]
    rcases delim_cases delim value with hno | ⟨line, rest, rfl, hline⟩
    · rw [splitOn_of_notMem hno, getline_of_notMem hno]
      by_cases hnil : value = []
      · simp [hnil]
      · simp [hnil]
    · have hrest := ih rest.length (by rw [← hn, List.length_append, List.length_cons]; omega) rest rfl
      obtain ⟨part, parts, hparts⟩ := List.exists_cons_of_ne_nil (List.splitOn_ne_nil delim rest)
      rw [splitOn_append hline, getline_append hline, if_neg (by simp)]
      simp only [Bool.false_eq_true, if_false]
      rw [hrest, hparts, List.getLast?_cons_cons, List.dropLast_cons_of_ne_nil (List.cons_ne_nil _ _)]
      split_ifs <;> rfl

/-! ### Writing -/

/-- There is no space at its ends. -/
structure Trimmed (str : List Char) : Prop where
  head : ∀ ch ∈ str.head?, isspace ch = false
  last : ∀ ch ∈ str.getLast?, isspace ch = false

/-- **Trimming takes the space around a text away**, and no more. -/
theorem trim_pad {str pad pad' : List Char} (h : Trimmed str) (hpad : ∀ ch ∈ pad, isspace ch = true)
    (hpad' : ∀ ch ∈ pad', isspace ch = true) : trim (pad ++ (str ++ pad')) = str := by
  unfold trim List.rdropWhile
  rw [List.dropWhile_append_of_pos hpad]
  cases hstr : str with
  | nil =>
    rw [List.nil_append, List.dropWhile_eq_nil_iff.mpr hpad', List.reverse_nil, List.dropWhile_nil, List.reverse_nil]
  | cons ch rest =>
    have hfirst : isspace ch = false := h.head ch (by rw [hstr]; rfl)
    rw [List.cons_append, List.dropWhile_cons_of_neg (by rw [hfirst]; exact Bool.false_ne_true), ← List.cons_append,
      ← hstr, List.reverse_append, List.dropWhile_append_of_pos (by simpa using hpad')]
    have hne : str.reverse ≠ [] := by
      rw [hstr]
      simp
    obtain ⟨last, init, hrev⟩ := List.exists_cons_of_ne_nil hne
    have hlast : isspace last = false := by
      refine h.last last ?_
      rw [← List.head?_reverse, hrev]
      rfl
    rw [hrev, List.dropWhile_cons_of_neg (by rw [hlast]; exact Bool.false_ne_true), ← hrev, List.reverse_reverse]

/-- A line of a property file as it is meant: a property with space around its name and its value, a comment, or
something without `=`. -/
inductive Item
  | entry (pad₁ key pad₂ pad₃ value pad₄ : List Char)
  | comment (text : List Char)
  | other (text : List Char)

def Item.render : Item → List Char
  | .entry pad₁ key pad₂ pad₃ value pad₄ => pad₁ ++ (key ++ pad₂) ++ '=' :: (pad₃ ++ (value ++ pad₄))
  | .comment text => '#' :: text
  | .other text => text

def Item.assignment : Item → Option (List Char × List Char)
  | .entry _ key _ _ value _ => some (key, value)
  | .comment _ | .other _ => none

/-- The line says what is meant. -/
def Item.Ok : Item → Prop
  | .entry pad₁ key pad₂ pad₃ value pad₄ =>
    (∀ pad ∈ [pad₁, pad₂, pad₃, pad₄], ∀ ch ∈ pad, isspace ch = true ∧ ch ≠ '\n') ∧ Trimmed key ∧ Trimmed value ∧
      '\n' ∉ key ∧ '\n' ∉ value ∧ '=' ∉ key ∧ key.head? ≠ some '#'
  | .comment text => '\n' ∉ text
  | .other text => '\n' ∉ text ∧ '=' ∉ text

/-- The text of the file. -/
def fileText (items : List Item) : List Char := ['\n'].intercalate (items.map Item.render)

theorem Item.Ok.render_notMem {item : Item} (h : item.Ok) : '\n' ∉ item.render := by
  cases item with
  | entry pad₁ key pad₂ pad₃ value pad₄ =>
    obtain ⟨hpads, -, -, hkey, hvalue, -⟩ := h
    have hpad : ∀ pad ∈ [pad₁, pad₂, pad₃, pad₄], '\n' ∉ pad := fun pad hp hmem => (hpads pad hp _ hmem).2 rfl
    simp only [List.mem_cons, List.not_mem_nil, or_false, forall_eq_or_imp, forall_eq] at hpad
    obtain ⟨h₁, h₂, h₃, h₄⟩ := hpad
    simp [Item.render, h₁, h₂, h₃, h₄, hkey, hvalue]
  | comment text =>
    have htext : '\n' ∉ text := h
    simp [Item.render, htext]
  | other text => exact h.1

/-- **A line is read as it is meant.** -/
theorem Item.Ok.lineAssignment_render {item : Item} (h : item.Ok) : lineAssignment item.render = item.assignment := by
  unfold lineAssignment
  cases item with
  | entry pad₁ key pad₂ pad₃ value pad₄ =>
    obtain ⟨hpads, hkey, hvalue, -, -, heq, hhash⟩ := h
    have hspace : ∀ pad ∈ [pad₁, pad₂, pad₃, pad₄], ∀ ch ∈ pad, isspace ch = true :=
      fun pad hp ch hch => (hpads pad hp ch hch).1
    simp only [List.mem_cons, List.not_mem_nil, or_false, forall_eq_or_imp, forall_eq] at hspace
    obtain ⟨h₁, h₂, h₃, h₄⟩ := hspace
    have hno : ∀ pad : List Char, (∀ ch ∈ pad, isspace ch = true) → '=' ∉ pad :=
      fun pad hp hmem => absurd (hp _ hmem) (by decide)
    -- the line does not start with `#`
    have hhead : (Item.render (.entry pad₁ key pad₂ pad₃ value pad₄)).head? ≠ some '#' := by
      intro hline
      rcases pad₁ with _ | ⟨ch, pad₁⟩
      · rcases key with _ | ⟨ch, key⟩
        · rcases pad₂ with _ | ⟨ch, pad₂⟩
          · exact absurd (Option.some.inj hline) (by decide)
          · obtain rfl : ch = '#' := Option.some.inj hline
            exact absurd (h₂ _ (List.mem_cons_self ..)) (by decide)
        · exact hhash hline
      · obtain rfl : ch = '#' := Option.some.inj hline
        exact absurd (h₁ _ (List.mem_cons_self ..)) (by decide)
    have hleft : '=' ∉ pad₁ ++ (key ++ pad₂) := by simp [hno pad₁ h₁, hno pad₂ h₂, heq]
    rw [if_neg hhead]
    unfold keyValue Item.render
    rw [getline_append hleft]
    simp only [Bool.false_eq_true, if_false, trim_pad hkey h₁ h₂, trim_pad hvalue h₃ h₄, Item.assignment]
  | comment text => exact if_pos rfl
  | other text =>
    unfold keyValue Item.render
    rw [getline_of_notMem h.2]
    simp [Item.assignment]

/-- **What is written to a property file is read back**: its properties are set in their order, whatever comments and
space there are. A list is got back from its property exactly if its last element is not empty. -/
theorem property_file_is_read_back (props : Props) {items : List Item} (hok : ∀ item ∈ items, item.Ok) :
    load props (some (fileText items)) = .ok (setAll props (items.filterMap Item.assignment)) ∧
      ∀ key defaultValue tokens, (∀ token ∈ tokens, ',' ∉ token) →
        lastValue key (items.filterMap Item.assignment) = some ([','].intercalate tokens) →
        (separateValue (getProperty (setAll props (items.filterMap Item.assignment)) key defaultValue) ',' = tokens ↔
          tokens.getLast? ≠ some []) := by
  constructor
  · have hlines : (fileText items).splitOn '\n' = items.map Item.render ∨ items = [] := by
      rcases eq_or_ne items [] with hnil | hne
      · exact Or.inr hnil
      · refine Or.inl (List.splitOn_intercalate '\n' ?_ (by simpa using hne))
        rintro line hline
        obtain ⟨item, hitem, rfl⟩ := List.mem_map.mp hline
        exact (hok item hitem).render_notMem
    unfold load
    simp only
    rw [loadLoop_eq]
    rcases hlines with hlines | rfl
    · rw [hlines, List.filterMap_map]
      congr 2
      exact List.filterMap_congr fun item hitem => (hok item hitem).lineAssignment_render
    · rfl
  · intro key defaultValue tokens htokens hlast
    unfold getProperty
    rw [setAll_apply, hlast, Option.some_or, Option.getD_some, separateValue_eq]
    rcases eq_or_ne tokens [] with rfl | hne
    · simp
    · rw [List.splitOn_intercalate ',' htokens hne]
      split_ifs with hend
      · refine iff_of_false (fun heq => ?_) (not_not.mpr hend)
        have hlen := congrArg List.length heq
        have hpos := List.length_pos_iff.mpr hne
        rw [List.length_dropLast] at hlen
        omega
      · exact iff_of_true rfl hend

/-- A comment, and the servers of the sequencing layer. -/
def uriFile : List Item :=
  [.comment " servers".toList, .entry [] "dur_log.server_uri".toList [' '] [' '] "a:1,b:1".toList ['\r']]

theorem uriFile_ok : ∀ item ∈ uriFile, item.Ok := by
  intro item hitem
  rcases List.mem_cons.mp hitem with rfl | hitem
  · exact show '\n' ∉ " servers".toList by decide
  · obtain rfl := List.mem_singleton.mp hitem
    refine ⟨?_, ⟨?_, ?_⟩, ⟨?_, ?_⟩, ?_, ?_, ?_, ?_⟩
    all_goals simp [isspace]

theorem property_file_is_read_back_uri :
    load (fun _ => none) (some "# servers\ndur_log.server_uri = a:1,b:1\r".toList) =
        .ok (setAll (fun _ => none) (uriFile.filterMap Item.assignment)) ∧
      separateValue (getProperty (setAll (fun _ => none) (uriFile.filterMap Item.assignment))
        "dur_log.server_uri".toList []) ',' = ["a:1".toList, "b:1".toList] := by
  obtain ⟨hload, hlist⟩ := property_file_is_read_back (fun _ => none) uriFile_ok
  refine ⟨hload, (hlist _ _ _ ?_ rfl).mpr ?_⟩
  · decide
  · decide

end LazyLog.Utils.Properties
