import AddressLedger.Proofs.Json.Numbers

/-!
# Values read back

A value that is written and followed by anything that cannot go on with it is read as its tree, and
what follows it is left.
-/
namespace AddressLedger.Json
open Number Text

variable {cs rest after : List Char} {units : List Nat}

theorem hexUnit?_hexDigit {m : Nat} (h : m < 0x20) :
    hexUnit? '0' '0' (hexDigit (m / 16)) (hexDigit (m % 16)) = some m := by
  have hall : ∀ m : Fin 0x20,
      hexUnit? '0' '0' (hexDigit (m.val / 16)) (hexDigit (m.val % 16)) = some m.val := by decide
  exact hall ⟨m, h⟩

theorem scanUnits_escaped {letter c : Char} (hletter : escaped? letter = some c)
    (h : scanUnits cs = some (units, after)) :
    scanUnits ('\\' :: letter :: cs) = some (c.toNat :: units, after) := by
  have hnotu : letter ≠ 'u' := by
    rintro rfl
    cases hletter
  rw [scanUnits.eq_4 _ _ fun _ _ _ _ _ hu _ => hnotu hu, hletter, h]
  rfl

theorem scanUnits_plain {c : Char} (hquote : c ≠ '"') (hbackslash : c ≠ '\\')
    (hcontrol : ¬ c.toNat < 0x20) (h : scanUnits cs = some (units, after)) :
    scanUnits (c :: cs) = some (c.toNat :: units, after) := by
  have hallowed : ¬ (c.toNat < 0x20 ∨ c = '\\') := by simp [hcontrol, hbackslash]
  rw [scanUnits.eq_5 _ _ hquote (fun _ _ _ _ _ hc _ => hbackslash hc) fun _ _ hc _ => hbackslash hc,
    if_neg hallowed, h]
  rfl

/-- A character is read from the form in which it is written. -/
theorem scanUnits_escapeChar (c : Char) (h : scanUnits cs = some (units, after)) :
    scanUnits (escapeChar c ++ cs) = some (c.toNat :: units, after) := by
  rw [escapeChar]
  iterate 7
    split
    · subst_vars
      exact scanUnits_escaped rfl h
  split
  · rename_i hcontrol
    simp only [List.cons_append, List.nil_append]
    rw [scanUnits, hexUnit?_hexDigit hcontrol, h]
    rfl
  · rename_i hquote hbackslash _ _ _ _ _ hcontrol
    exact scanUnits_plain hquote hbackslash hcontrol h

theorem scanUnits_flatMap (cs rest : List Char) :
    scanUnits (cs.flatMap escapeChar ++ '"' :: rest) = some (cs.map Char.toNat, rest) := by
  induction cs with
  | nil => rfl
  | cons c cs ih =>
    rw [List.flatMap_cons, List.append_assoc, List.map_cons]
    exact scanUnits_escapeChar c ih

/-- Characters are code points of their own and no surrogates. -/
theorem joinUnits_map_toNat (cs : List Char) : joinUnits (cs.map Char.toNat) = some cs := by
  induction cs with
  | nil => rfl
  | cons c cs ih =>
    have hvalid : c.toNat < 0xD800 ∨ 0xDFFF < c.toNat ∧ c.toNat < 0x110000 := c.valid
    have hhigh : ¬ (0xD800 ≤ c.toNat ∧ c.toNat < 0xDC00) := by omega
    have hlow : ¬ (0xDC00 ≤ c.toNat ∧ c.toNat < 0xE000) := by omega
    rw [List.map_cons, joinUnits.eq_def]
    simp only [if_neg hhigh, if_neg hlow, ih, Char.ofNat_toNat, Option.map_some]

theorem scanText_flatMap (s : String) (rest : List Char) :
    scanText (s.toList.flatMap escapeChar ++ '"' :: rest) = some (some s, rest) := by
  simp only [scanText, scanUnits_flatMap, Option.map_some, joinUnits_map_toNat,
    String.ofList_toList]

mutual

/-- The tree of the text of a value. -/
def tree : Json → Raw
  | .null => .null
  | .bool b => .bool b
  | .integer n => .number (Numeral.ofInt n)
  | .float x => (scanNumber (renderFloat x)).elim .null fun scanned => .number scanned.1
  | .text s => .text (some s)
  | .array items => .array (treeItems items) true
  | .object members => .object (treeMembers members) true

def treeItems : List Json → List Raw
  | [] => []
  | item :: items => tree item :: treeItems items

def treeMembers : List (String × Json) → List (Option String × Raw)
  | [] => []
  | (name, value) :: members => (some name, tree value) :: treeMembers members

end

theorem treeItems_eq_map (items : List Json) : treeItems items = items.map tree := by
  induction items with
  | nil => rw [treeItems, List.map_nil]
  | cons item items ih => rw [treeItems, ih, List.map_cons]

theorem treeMembers_eq_map (members : List (String × Json)) :
    treeMembers members = members.map fun member => (some member.1, member.2.tree) := by
  induction members with
  | nil => rw [treeMembers, List.map_nil]
  | cons member members ih => rw [treeMembers, ih, List.map_cons]

/-- The text of a list of items and of the closing bracket, without what stands before them. -/
def renderSequence : List Json → List Char
  | [] => []
  | item :: items => render item ++ renderItems items

def renderRecord : List (String × Json) → List Char
  | [] => []
  | (name, value) :: members =>
    renderText name ++ ':' :: (render value ++ renderMembers members)

theorem render_array_cons (item : Json) (items : List Json) :
    render (.array (item :: items)) = '[' :: renderSequence (item :: items) := by
  rw [render, renderSequence]

theorem render_object_cons (member : String × Json) (members : List (String × Json)) :
    render (.object (member :: members)) = '\x7b' :: renderRecord (member :: members) := by
  rw [render, renderRecord]

theorem renderItems_cons (item : Json) (items : List Json) :
    renderItems (item :: items) = ',' :: renderSequence (item :: items) := by
  rw [renderItems, renderSequence]

theorem renderMembers_cons (member : String × Json) (members : List (String × Json)) :
    renderMembers (member :: members) = ',' :: renderRecord (member :: members) := by
  rw [renderMembers, renderRecord]

def startsNumber (c : Char) : Bool := c == '-' || c.isDigit

theorem startsNumber_of_scanNumber {m : Numeral} (h : scanNumber cs = some (m, after)) :
    ∃ c tail, cs = c :: tail ∧ startsNumber c = true := by
  rw [scanNumber_eq, scanMagnitude] at h
  split at h
  · rename_i hwhole
    cases cs with
    | nil => cases hwhole
    | cons c tail =>
      refine ⟨c, tail, rfl, ?_⟩
      by_cases hminus : c = '-'
      · simp [startsNumber, hminus]
      · rw [splitMinus_of_ne (by simpa using hminus)] at hwhole
        by_contra hstart
        have hdigit : c.isDigit = false := by simpa [startsNumber, hminus] using hstart
        simp [spanDigits, hdigit, isWholePart] at hwhole
  · cases h

/-- A text that starts with no blank and closes no array. -/
def StartsValue (cs : List Char) : Prop := ∃ c ∈ cs.head?, isJsonBlank c = false ∧ c ≠ ']'

theorem StartsValue.append (h : StartsValue cs) (rest : List Char) : StartsValue (cs ++ rest) := by
  obtain ⟨c, hc, hvalue⟩ := h
  refine ⟨c, ?_, hvalue⟩
  rw [List.head?_append, hc]
  rfl

theorem StartsValue.of_scanNumber {m : Numeral} (h : scanNumber cs = some (m, after)) :
    StartsValue cs := by
  obtain ⟨c, tail, rfl, hc⟩ := startsNumber_of_scanNumber h
  refine ⟨c, rfl, ?_, ne_of_test hc (by decide)⟩
  simp [isJsonBlank, ne_of_test hc (show startsNumber ' ' = false by decide),
    ne_of_test hc (show startsNumber '\t' = false by decide),
    ne_of_test hc (show startsNumber '\n' = false by decide),
    ne_of_test hc (show startsNumber '\r' = false by decide)]

theorem StartsValue.skipBlank_eq (h : StartsValue cs) : skipBlank cs = cs := by
  obtain ⟨c, hc, hblank, -⟩ := h
  obtain ⟨tail, rfl⟩ := List.head?_eq_some_iff.1 hc
  simp [skipBlank, hblank]

theorem renderFloat_of_not_finite {x : Float} (h : isFinite x = false) :
    renderFloat x = ['n', 'u', 'l', 'l'] := by
  have hnone : binary? x = none := if_neg (of_decide_eq_false h)
  rw [renderFloat, hnone]

theorem scanNumber_null : scanNumber ['n', 'u', 'l', 'l'] = none := by decide

theorem startsValue_render (j : Json) : StartsValue j.render := by
  cases j with
  | null => exact ⟨'n', rfl, by decide⟩
  | bool b => cases b with
    | true => exact ⟨'t', rfl, by decide⟩
    | false => exact ⟨'f', rfl, by decide⟩
  | integer n =>
    rw [render]
    exact .of_scanNumber (scanNumber_renderInt n)
  | float x =>
    rw [render]
    cases hfinite : isFinite x with
    | false =>
      rw [renderFloat_of_not_finite hfinite]
      exact ⟨'n', rfl, by decide⟩
    | true =>
      obtain ⟨m, hscan, -⟩ := exists_scanNumber_renderFloat hfinite
      exact .of_scanNumber hscan
  | text s =>
    rw [render]
    exact ⟨'"', rfl, by decide⟩
  | array items => cases items <;> exact ⟨'[', rfl, by decide⟩
  | object members => cases members <;> exact ⟨'\x7b', rfl, by decide⟩

theorem readValue_number {m : Numeral} (k : Nat) (h : scanNumber cs = some (m, after)) :
    readValue (k + 1) cs = (.number m, some after) := by
  have hskip := (StartsValue.of_scanNumber h).skipBlank_eq
  obtain ⟨c, tail, rfl, hc⟩ := startsNumber_of_scanNumber h
  rw [readValue, hskip]
  split
  all_goals first
    | exact absurd (List.cons.inj ‹_›).1 (ne_of_test hc (by decide))
    | rw [h]

theorem renderText_append (s : String) (rest : List Char) :
    renderText s ++ rest = '"' :: (s.toList.flatMap escapeChar ++ '"' :: rest) := by
  simp [renderText]

theorem readValue_text (k : Nat) (s : String) (rest : List Char) :
    readValue (k + 1) (renderText s ++ rest) = (.text (some s), some rest) := by
  rw [renderText_append, readValue]
  simp [skipBlank, isJsonBlank, scanText_flatMap]

theorem readValue_array (k : Nat) (h : StartsValue cs) :
    readValue (k + 1) ('[' :: cs) =
      (.array (readItems k cs).1 (readItems k cs).2.isSome, (readItems k cs).2) := by
  have hopen : skipBlank ('[' :: cs) = '[' :: cs := rfl
  have hskip := h.skipBlank_eq
  obtain ⟨c, hc, -, hclose⟩ := h
  obtain ⟨tail, rfl⟩ := List.head?_eq_some_iff.1 hc
  rw [readValue, hopen]
  simp only [hskip]
  split
  · exact absurd (List.cons.inj ‹_›).1 hclose
  · rfl

theorem readValue_object (k : Nat) (s : String) (rest : List Char) :
    readValue (k + 1) ('\x7b' :: (renderText s ++ rest)) =
      (.object (readMembers k (renderText s ++ rest)).1
        (readMembers k (renderText s ++ rest)).2.isSome,
        (readMembers k (renderText s ++ rest)).2) := by
  rw [renderText_append, readValue]
  rfl

variable {value : Raw}

theorem readItems_more {k : Nat} (h : readValue k cs = (value, some (',' :: rest))) :
    readItems (k + 1) cs = (value :: (readItems k rest).1, (readItems k rest).2) := by
  rw [readItems, h]
  rfl

theorem readItems_last {k : Nat} (h : readValue k cs = (value, some (']' :: rest))) :
    readItems (k + 1) cs = ([value], some rest) := by
  rw [readItems, h]
  rfl

theorem readMembers_more {k : Nat} (name : String)
    (h : readValue k cs = (value, some (',' :: rest))) :
    readMembers (k + 1) (renderText name ++ ':' :: cs) =
      ((some name, value) :: (readMembers k rest).1, (readMembers k rest).2) := by
  rw [renderText_append, readMembers]
  simp [skipBlank, isJsonBlank, scanText_flatMap, h]

theorem readMembers_last {k : Nat} (name : String)
    (h : readValue k cs = (value, some ('\x7d' :: rest))) :
    readMembers (k + 1) (renderText name ++ ':' :: cs) = ([(some name, value)], some rest) := by
  rw [renderText_append, readMembers]
  simp [skipBlank, isJsonBlank, scanText_flatMap, h]

theorem endsNumber_cons {c : Char} (h : c = ',' ∨ c = ']' ∨ c = '\x7d') (cs : List Char) :
    EndsNumber (c :: cs) := by
  intro d hd
  obtain rfl : c = d := by simpa using hd
  rcases h with rfl | rfl | rfl <;> decide

theorem length_render_pos (j : Json) : 0 < j.render.length := by
  obtain ⟨c, hc, -⟩ := startsValue_render j
  exact List.length_pos_of_mem (List.mem_of_mem_head? hc)

mutual

/-- A value is read from its text, with as many levels as the text has characters. -/
theorem readValue_render : ∀ (j : Json) (k : Nat) (rest : List Char), j.render.length ≤ k →
    EndsNumber rest → readValue k (j.render ++ rest) = (j.tree, some rest)
  | j, 0, rest, hk, _ => absurd (length_render_pos j) (by omega)
  | .null, k + 1, rest, _, _ => by simp [render, tree, readValue, skipBlank, isJsonBlank]
  | .bool true, k + 1, rest, _, _ => by simp [render, tree, readValue, skipBlank, isJsonBlank]
  | .bool false, k + 1, rest, _, _ => by simp [render, tree, readValue, skipBlank, isJsonBlank]
  | .integer n, k + 1, rest, _, hrest => by
    rw [render, tree]
    exact readValue_number k (scanNumber_append hrest (scanNumber_renderInt n))
  | .float x, k + 1, rest, _, hrest => by
    rw [render, tree]
    cases hfinite : isFinite x with
    | false =>
      rw [renderFloat_of_not_finite hfinite, scanNumber_null]
      simp [readValue, skipBlank, isJsonBlank]
    | true =>
      obtain ⟨m, hscan, -⟩ := exists_scanNumber_renderFloat hfinite
      rw [hscan]
      exact readValue_number k (scanNumber_append hrest hscan)
  | .text s, k + 1, rest, _, _ => by
    rw [render, tree]
    exact readValue_text k s rest
  | .array [], k + 1, rest, _, _ => by
    simp [render, tree, treeItems, readValue, skipBlank, isJsonBlank]
  | .array (item :: items), k + 1, rest, hk, _ => by
    rw [render_array_cons, List.length_cons] at hk
    have hstart : StartsValue (renderSequence (item :: items) ++ rest) := by
      rw [renderSequence]
      exact ((startsValue_render item).append _).append _
    rw [render_array_cons, List.cons_append, readValue_array k hstart,
      readItems_render (item :: items) k rest (by simp) (by omega), tree]
    rfl
  | .object [], k + 1, rest, _, _ => by
    simp [render, tree, treeMembers, readValue, skipBlank, isJsonBlank]
  | .object (member :: members), k + 1, rest, hk, _ => by
    rw [render_object_cons, List.length_cons] at hk
    have hmembers := readMembers_render (member :: members) k rest (by simp) (by omega)
    rw [renderRecord, List.append_assoc] at hmembers
    rw [render_object_cons, renderRecord, List.cons_append, List.append_assoc, readValue_object,
      hmembers, tree]
    rfl

theorem readItems_render : ∀ (items : List Json) (k : Nat) (rest : List Char), items ≠ [] →
    (renderSequence items).length ≤ k →
      readItems k (renderSequence items ++ rest) = (treeItems items, some rest)
  | [], _, _, hne, _ => absurd rfl hne
  | [item], k, rest, _, hk => by
    have hpos := length_render_pos item
    rw [renderSequence, renderItems, List.length_append, List.length_singleton] at hk
    obtain ⟨k, rfl⟩ := Nat.exists_eq_add_of_le' (show 1 ≤ k by omega)
    have hvalue := readValue_render item k (']' :: rest) (by omega) (endsNumber_cons (by simp) _)
    rw [renderSequence, renderItems, List.append_assoc]
    exact readItems_last hvalue
  | item :: next :: items, k, rest, _, hk => by
    -- The item takes up a character, so one level less does for the items after it.
    have hpos := length_render_pos item
    rw [renderSequence, renderItems_cons, List.length_append, List.length_cons] at hk
    obtain ⟨k, rfl⟩ := Nat.exists_eq_add_of_le' (show 1 ≤ k by omega)
    have hvalue := readValue_render item k (',' :: (renderSequence (next :: items) ++ rest))
      (by omega) (endsNumber_cons (by simp) _)
    rw [renderSequence, renderItems_cons, List.append_assoc, List.cons_append,
      readItems_more hvalue, readItems_render (next :: items) k rest (by simp) (by omega)]
    rfl

theorem readMembers_render : ∀ (members : List (String × Json)) (k : Nat) (rest : List Char),
    members ≠ [] → (renderRecord members).length ≤ k →
      readMembers k (renderRecord members ++ rest) = (treeMembers members, some rest)
  | [], _, _, hne, _ => absurd rfl hne
  | [(name, value)], k, rest, _, hk => by
    have hpos := length_render_pos value
    rw [renderRecord, renderMembers, List.length_append, List.length_cons, List.length_append,
      List.length_singleton] at hk
    obtain ⟨k, rfl⟩ := Nat.exists_eq_add_of_le' (show 1 ≤ k by omega)
    have hvalue := readValue_render value k ('\x7d' :: rest) (by omega)
      (endsNumber_cons (by simp) _)
    rw [renderRecord, renderMembers, List.append_assoc, List.cons_append, List.append_assoc]
    exact readMembers_last name hvalue
  | (name, value) :: next :: members, k, rest, _, hk => by
    have hpos := length_render_pos value
    rw [renderRecord, renderMembers_cons, List.length_append, List.length_cons,
      List.length_append, List.length_cons] at hk
    obtain ⟨k, rfl⟩ := Nat.exists_eq_add_of_le' (show 1 ≤ k by omega)
    have hvalue := readValue_render value k (',' :: (renderRecord (next :: members) ++ rest))
      (by omega) (endsNumber_cons (by simp) _)
    rw [renderRecord, renderMembers_cons, List.append_assoc, List.cons_append,
      List.append_assoc, List.cons_append, readMembers_more name hvalue,
      readMembers_render (next :: members) k rest (by simp) (by omega)]
    rfl

end

/-- The text of a value is read as its tree. -/
theorem readTree?_encode (j : Json) : readTree? j.encode = some j.tree := by
  have hread := readValue_render j (2 * j.render.length + 2) [] (by omega) (by simp [EndsNumber])
  rw [List.append_nil] at hread
  simp [readTree?, readTree, encode, hread, skipBlank]

end AddressLedger.Json
