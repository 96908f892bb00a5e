import AddressLedger.Proofs.Json.Agreement
import AddressLedger.Proofs.Json.Records
import Mathlib.Data.List.Nodup

/-!
# Revised objects

Two trees decode alike if what differs between them does not matter where they stand. The members of
an object may come in another order, a field that may be missing may be dropped if it is `null`, and
a member may have another value that decodes alike. A tree is read in order up to its first fault,
so such trees may be refused for different reasons, but only both of them.
-/
namespace AddressLedger.Json
open Raw

variable {α : Type}

mutual

/-- Whether no object of a tree has two members with one name. -/
def Raw.isDistinct : Raw → Bool
  | .array items _ => itemsDistinct items
  | .object members _ => decide (members.filterMap Prod.fst).Nodup && membersDistinct members
  | _ => true

def itemsDistinct : List Raw → Bool
  | [] => true
  | item :: items => item.isDistinct && itemsDistinct items

def membersDistinct : List (Option String × Raw) → Bool
  | [] => true
  | (_, value) :: members => value.isDistinct && membersDistinct members

end

theorem itemsDistinct_eq_all (items : List Raw) : itemsDistinct items = items.all isDistinct := by
  induction items with
  | nil => rfl
  | cons item items ih => rw [itemsDistinct, ih, List.all_cons]

theorem membersDistinct_eq_all (members : List (Option String × Raw)) :
    membersDistinct members = members.all fun member => member.2.isDistinct := by
  induction members with
  | nil => rfl
  | cons member members ih => rw [membersDistinct, ih, List.all_cons]

theorem isDistinct_array {items : List Raw} {closed : Bool} :
    (Raw.array items closed).isDistinct = true ↔ ∀ item ∈ items, item.isDistinct = true := by
  rw [isDistinct, itemsDistinct_eq_all, List.all_eq_true]

theorem isDistinct_object {members : List (Option String × Raw)} {closed : Bool} :
    (Raw.object members closed).isDistinct = true ↔
      (members.filterMap Prod.fst).Nodup ∧ ∀ member ∈ members, member.2.isDistinct = true := by
  rw [isDistinct, membersDistinct_eq_all, Bool.and_eq_true, decide_eq_true_eq, List.all_eq_true]

def fieldsOf (members : List (Option String × Raw)) : List (String × Raw) :=
  members.filterMap fun member => member.1.map (·, member.2)

theorem toMembers_object_eq (members : List (Option String × Raw)) :
    (Raw.object members true).toMembers =
      if members.all (·.1.isSome) then .ok (fieldsOf members) else malformed := by
  rw [toMembers]
  induction members with
  | nil => rfl
  | cons member members ih =>
    rw [List.mapM_cons, ih]
    obtain ⟨_ | name, value⟩ := member
    · rfl
    · by_cases hall : members.all (·.1.isSome) = true
      · simp [hall, fieldsOf]
        rfl
      · simp [hall, malformed]
        rfl

/-- One change of the members of an object: a field that may be missing is dropped if it is `null`,
the members are put in another order, or a member has another value. -/
inductive Change (known : List String) (same : String → Raw → Raw → Prop) :
    List (String × Raw) → List (String × Raw) → Prop
  | dropped {name : String} (h : name ∈ known) (before after : List (String × Raw)) :
      Change known same (before ++ (name, .null) :: after) (before ++ after)
  | permuted {fields fields' : List (String × Raw)} (h : fields.Perm fields') :
      Change known same fields fields'
  | changed {name : String} {r r' : Raw} (h : same name r r') (before after : List (String × Raw)) :
      Change known same (before ++ (name, r) :: after) (before ++ (name, r') :: after)

structure Revised (known : List String) (same : String → Raw → Raw → Prop)
    (fields fields' : List (String × Raw)) : Prop where
  change : Change known same fields fields'
  distinct : (fields.map Prod.fst).Nodup

variable {known names : List String} {same : String → Raw → Raw → Prop}
  {fields fields' : List (String × Raw)} {name : String} {decode : Raw → Decoded α} {default : α}
  {r r' : Raw}

theorem Revised.distinct' (h : Revised known same fields fields') :
    (fields'.map Prod.fst).Nodup := by
  have hdistinct := h.distinct
  cases h.change with
  | dropped hname before after =>
    exact hdistinct.sublist (((List.sublist_cons_self _ after).append_left before).map Prod.fst)
  | permuted h => exact (h.map Prod.fst).nodup_iff.mp hdistinct
  | changed h before after => simpa using hdistinct

theorem find?_eq_some_iff_mem (hdistinct : (fields.map Prod.fst).Nodup) {entry : String × Raw} :
    (fields.find? fun entry => entry.1 == name) = some entry ↔ entry ∈ fields ∧ entry.1 = name := by
  constructor
  · intro h
    exact ⟨List.mem_of_find?_eq_some h, by simpa using List.find?_some h⟩
  · rintro ⟨hmem, rfl⟩
    cases hfound : fields.find? fun other => other.1 == entry.1 with
    | none => exact absurd (beq_self_eq_true entry.1) (List.find?_eq_none.mp hfound entry hmem)
    | some other =>
      have hsame : other.1 = entry.1 := by simpa using List.find?_some hfound
      rw [List.inj_on_of_nodup_map hdistinct (List.mem_of_find?_eq_some hfound) hmem hsame]

theorem map_fst_fieldsOf (members : List (Option String × Raw)) :
    (fieldsOf members).map Prod.fst = members.filterMap Prod.fst := by
  induction members with
  | nil => rfl
  | cons member members ih =>
    obtain ⟨_ | name, value⟩ := member
    · exact ih
    · exact congrArg (name :: ·) ih

variable {before after members members' : List (Option String × Raw)}

/-- Members that all have names, or do not, are read alike if a change leads from the ones to the
others. -/
theorem agree_toMembers (hnamed : members.all (·.1.isSome) = members'.all (·.1.isSome))
    (hdistinct : (members.filterMap Prod.fst).Nodup)
    (hchange : members.all (·.1.isSome) = true →
      Change known same (fieldsOf members) (fieldsOf members')) :
    Agree (Revised known same) (Raw.object members true).toMembers
      (Raw.object members' true).toMembers := by
  rw [toMembers_object_eq, toMembers_object_eq, ← hnamed]
  split
  · rename_i hall
    exact .ok ⟨hchange hall, map_fst_fieldsOf members ▸ hdistinct⟩
  · exact .error _ _

theorem agree_toMembers_dropped (h : name ∈ known)
    (hdistinct : ((before ++ (some name, Raw.null) :: after).filterMap Prod.fst).Nodup) :
    Agree (Revised known same) (Raw.object (before ++ (some name, .null) :: after) true).toMembers
      (Raw.object (before ++ after) true).toMembers := by
  refine agree_toMembers (by simp) hdistinct fun _ => ?_
  rw [fieldsOf, fieldsOf, List.filterMap_append, List.filterMap_append]
  exact .dropped h _ _

theorem agree_toMembers_permuted (h : members.Perm members')
    (hdistinct : (members.filterMap Prod.fst).Nodup) :
    Agree (Revised known same) (Raw.object members true).toMembers
      (Raw.object members' true).toMembers :=
  agree_toMembers h.all_eq hdistinct fun _ => .permuted (h.filterMap _)

theorem agree_toMembers_changed {name : Option String} (h : ∀ key ∈ name, same key r r')
    (hdistinct : ((before ++ (name, r) :: after).filterMap Prod.fst).Nodup) :
    Agree (Revised known same) (Raw.object (before ++ (name, r) :: after) true).toMembers
      (Raw.object (before ++ (name, r') :: after) true).toMembers := by
  refine agree_toMembers (by simp) hdistinct fun hall => ?_
  cases name with
  | none => simp at hall
  | some key =>
    rw [fieldsOf, fieldsOf, List.filterMap_append, List.filterMap_append]
    exact .changed (h key rfl) _ _

theorem field_perm (h : fields.Perm fields') (hdistinct : (fields.map Prod.fst).Nodup) :
    field fields name decode default = field fields' name decode default := by
  have hfind : (fields.find? fun entry => entry.1 == name) =
      fields'.find? fun entry => entry.1 == name := by
    apply Option.ext
    intro entry
    rw [find?_eq_some_iff_mem hdistinct,
      find?_eq_some_iff_mem ((h.map Prod.fst).nodup_iff.mp hdistinct), h.mem_iff]
  rw [field, hfind, ← field]

theorem field_cons (key : String) (value : Raw) (fields : List (String × Raw)) :
    field ((key, value) :: fields) name decode default =
      if key = name then decode value else field fields name decode default := by
  rw [field, List.find?_cons]
  by_cases h : key = name
  · simp [h]
  · rw [beq_false_of_ne h, if_neg h, field]

theorem field_missing (h : name ∉ fields.map Prod.fst) :
    field fields name decode default = .ok default := by
  have hnone : (fields.find? fun entry => entry.1 == name) = none := by
    rw [List.find?_eq_none]
    intro entry hentry hsame
    exact h (List.mem_map.mpr ⟨entry, hentry, by simpa using hsame⟩)
  rw [field, hnone]

/-- A field that may be missing or `null` does not tell of a change. -/
theorem Revised.field (h : Revised known same fields fields') (hnull : decode .null = .ok default)
    (hsame : ∀ r r', same name r r' → Agree Eq (decode r) (decode r')) :
    Agree Eq (field fields name decode default) (Raw.field fields' name decode default) := by
  have hdistinct := h.distinct
  cases h.change with
  | @dropped key hkey before after =>
    have hmiddle : (key :: (before.map Prod.fst ++ after.map Prod.fst)).Nodup :=
      List.nodup_middle.mp (by simpa using hdistinct)
    rw [field_perm List.perm_middle hdistinct, field_cons]
    split
    · rename_i hname
      have hgone : key ∉ (before ++ after).map Prod.fst := by
        simpa using (List.nodup_cons.mp hmiddle).1
      rw [← hname, field_missing hgone, hnull]
      exact Agree.refl _
    · exact Agree.refl _
  | permuted hperm =>
    rw [field_perm hperm hdistinct]
    exact Agree.refl _
  | @changed key value value' hvalue before after =>
    rw [field_perm List.perm_middle hdistinct, field_perm List.perm_middle h.distinct', field_cons,
      field_cons]
    split
    · rename_i hname
      exact hsame _ _ (hname ▸ hvalue)
    · exact Agree.refl _

/-- What a field that may be `null` decodes to from values that are not. -/
theorem agree_toOption (hr : r ≠ .null) (hr' : r' ≠ .null) (h : Agree Eq (decode r) (decode r')) :
    Agree Eq (toOption decode r) (toOption decode r') := by
  rw [toOption_of_ne_null hr, toOption_of_ne_null hr']
  exact h.map some

theorem repeats_eq_false (h : (fields.map Prod.fst).Nodup) (names : List String) :
    repeats names fields = false := by
  rw [repeats, List.any_eq_false]
  intro name _ hseveral
  have hcount := List.nodup_iff_count_le_one.mp h name
  rw [List.count, List.countP_map, List.countP_eq_length_filter] at hcount
  exact absurd (of_decide_eq_true hseveral) (Nat.not_lt.mpr hcount)

theorem agree_toRecord (h : Agree (Revised known same) r.toMembers r'.toMembers)
    (names : List String) :
    Agree (Revised known same) (r.toRecord names) (r'.toRecord names) := by
  rw [toRecord, toRecord]
  refine h.bind fun fields fields' hrevised => ?_
  rw [repeats_eq_false hrevised.distinct, repeats_eq_false hrevised.distinct']
  exact .ok hrevised

/-- A record that is written as an array, with another item. -/
theorem agree_toFields_array (hnames : names.Nodup) (required : Nat) (before after : List Raw)
    (h : ∀ name, names[before.length]? = some name → same name r r') :
    Agree (Revised known same) ((Raw.array (before ++ r :: after) true).toFields names required)
      ((Raw.array (before ++ r' :: after) true).toFields names required) := by
  have hlength : ∀ x : Raw, (before ++ x :: after).length = before.length + after.length + 1 := by
    intro x
    simp
    omega
  rw [toFields, toFields, hlength, hlength]
  split
  · exact .error _ _
  · split
    · exact .error _ _
    · rename_i hfits _
      have hlt : before.length < names.length := by omega
      have hzip : ∀ x : Raw, names.zip (before ++ x :: after) =
          (names.take before.length).zip before ++
            (names[before.length], x) :: (names.drop (before.length + 1)).zip after := by
        intro x
        conv_lhs => rw [← List.take_append_drop before.length names]
        rw [List.zip_append (by rw [List.length_take]; omega), List.drop_eq_getElem_cons hlt,
          List.zip_cons_cons]
      have hdistinct : ((names.zip (before ++ r :: after)).map Prod.fst).Nodup := by
        rw [List.zip_eq_zip_take_min, List.map_fst_zip (by simp)]
        exact hnames.sublist (List.take_sublist _ _)
      rw [hzip] at hdistinct
      rw [hzip, hzip]
      exact .ok ⟨.changed (h _ (List.getElem?_eq_getElem hlt)) _ _, hdistinct⟩

def Raw.isContainer : Raw → Bool
  | .array _ _ => true
  | .object _ _ => true
  | _ => false

theorem ne_null_of_isContainer (h : r.isContainer = true) : r ≠ .null := by
  rintro rfl
  cases h

def RefusesContainers (decode : Raw → Decoded α) : Prop :=
  ∀ r, r.isContainer = true → decode r = mismatched

theorem refusesContainers (harray : ∀ items closed, decode (.array items closed) = mismatched)
    (hobject : ∀ members closed, decode (.object members closed) = mismatched) :
    RefusesContainers decode := by
  intro r h
  cases r with
  | array items closed => exact harray items closed
  | object members closed => exact hobject members closed
  | _ => cases h

theorem toText_refusesContainers : RefusesContainers toText :=
  refusesContainers (fun _ _ => rfl) fun _ _ => rfl

theorem toBool_refusesContainers : RefusesContainers Raw.toBool :=
  refusesContainers (fun _ _ => rfl) fun _ _ => rfl

theorem toFloat_refusesContainers : RefusesContainers Raw.toFloat :=
  refusesContainers (fun _ _ => rfl) fun _ _ => rfl

theorem toInt64_refusesContainers : RefusesContainers Raw.toInt64 :=
  refusesContainers (fun _ _ => rfl) fun _ _ => rfl

theorem RefusesContainers.agree (hdecode : RefusesContainers decode) (h : r.isContainer = true)
    (h' : r'.isContainer = true) : Agree Eq (decode r) (decode r') := by
  rw [hdecode r h, hdecode r' h']
  exact .error _ _

variable {decodeEntry : String → Raw → Decoded α}

theorem agree_entries (h : Agree (Revised [] same) r.toMembers r'.toMembers)
    (hsame : ∀ name r r', same name r r' → Agree Eq (decodeEntry name r) (decodeEntry name r')) :
    Agree SameTable (r.toMembers >>= fun fields => fields.mapM (entryOf decodeEntry))
      (r'.toMembers >>= fun fields => fields.mapM (entryOf decodeEntry)) := by
  refine h.bind fun fields fields' hrevised => ?_
  have hdistinct := hrevised.distinct
  cases hrevised.change with
  | dropped hname => exact absurd hname List.not_mem_nil
  | permuted hperm => exact agree_entries_perm hperm hdistinct
  | changed hvalue before after =>
    exact agree_entries_changed (hsame _ _ _ hvalue) before after

theorem agree_toTable (h : Agree (Revised [] same) r.toMembers r'.toMembers)
    (hsame : ∀ name r r', same name r r' → Agree Eq (decodeEntry name r) (decodeEntry name r')) :
    Agree Eq (toTable decodeEntry r) (toTable decodeEntry r') := by
  have htable : ∀ r : Raw, toTable decodeEntry r =
      (r.toMembers >>= fun fields => fields.mapM (entryOf decodeEntry)) >>=
        fun entries => .ok (Keyed.ofList entries) := by
    intro r
    rw [bind_assoc]
    rfl
  rw [htable, htable]
  exact (agree_entries h hsame).bind fun entries entries' htable => .ok htable

theorem itemsToJson_eq_mapM (depth : Nat) (items : List Raw) :
    itemsToJson depth items = items.mapM (Raw.toJson depth) := by
  induction items with
  | nil => rfl
  | cons item items ih =>
    rw [itemsToJson, ih, List.mapM_cons]

/-- The members of a free-form object are read as its entries, if not in the same order. -/
theorem agree_membersToJson (depth : Nat) (members : List (Option String × Raw)) :
    Agree Eq (membersToJson depth members) ((Raw.object members true).toMembers >>=
      fun fields => fields.mapM (entryOf fun _ => Raw.toJson depth)) := by
  induction members with
  | nil => exact .ok rfl
  | cons member members ih =>
    rw [toMembers_object_eq] at ih ⊢
    obtain ⟨_ | name, value⟩ := member
    · exact .error _ _
    · rw [membersToJson]
      by_cases hall : members.all (·.1.isSome) = true
      · rw [if_pos hall] at ih
        rw [List.all_cons, Option.isSome_some, Bool.true_and, if_pos hall]
        change Agree Eq _ (((name, value) :: fieldsOf members).mapM _)
        rw [List.mapM_cons, entryOf, bind_assoc]
        exact (Agree.refl _).next fun j => ih.next fun values => .refl _
      · -- here the value is read before the name that is missing is met, and may be refused first
        rw [if_neg hall] at ih
        rw [List.all_cons, Option.isSome_some, Bool.true_and, if_neg hall]
        cases hvalues : membersToJson depth members with
        | ok values =>
          rw [hvalues] at ih
          cases ih
        | error f =>
          cases value.toJson depth with
          | ok value => exact .error _ _
          | error f => exact .error _ _

theorem agree_toJson_object {members members' : List (Option String × Raw)}
    (h : Agree (Revised [] same) (Raw.object members true).toMembers
      (Raw.object members' true).toMembers)
    (hsame : ∀ name r r', same name r r' → ∀ depth, Agree Eq (r.toJson depth) (r'.toJson depth))
    (depth : Nat) :
    Agree Eq ((Raw.object members true).toJson depth)
      ((Raw.object members' true).toJson depth) := by
  let decodeEntry : String → Raw → Decoded Json := fun _ => Raw.toJson (depth + 1)
  have hentries := agree_entries h fun name r r' hvalue =>
    show Agree Eq (decodeEntry name r) (decodeEntry name r') from hsame name r r' hvalue (depth + 1)
  have hmembers : Agree SameTable (membersToJson (depth + 1) members) _ :=
    (agree_membersToJson (depth + 1) members).trans (fun _ _ _ same htable => by rwa [same])
      hentries
  have hvalues : Agree SameTable _ (membersToJson (depth + 1) members') :=
    hmembers.trans (fun _ _ _ htable same => by rwa [← same])
      (agree_membersToJson (depth + 1) members').symm
  rw [Raw.toJson, Raw.toJson]
  split
  · exact .error _ _
  · exact hvalues.bind fun values values' htable => .ok (congrArg Json.object htable)

theorem agree_toJson_array (h : ∀ depth, Agree Eq (r.toJson depth) (r'.toJson depth))
    (before after : List Raw) (depth : Nat) :
    Agree Eq ((Raw.array (before ++ r :: after) true).toJson depth)
      ((Raw.array (before ++ r' :: after) true).toJson depth) := by
  rw [Raw.toJson, Raw.toJson, itemsToJson_eq_mapM, itemsToJson_eq_mapM]
  split
  · exact .error _ _
  · exact (agree_mapM_changed _ (h (depth + 1)) before after).next fun _ => .refl _

theorem agree_toList_array (h : Agree Eq (decode r) (decode r')) (before after : List Raw) :
    Agree Eq (toList decode (Raw.array (before ++ r :: after) true))
      (toList decode (Raw.array (before ++ r' :: after) true)) :=
  (agree_mapM_changed decode h before after).next fun _ => .refl _

end AddressLedger.Json
