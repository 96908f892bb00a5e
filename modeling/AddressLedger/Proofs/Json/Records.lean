import AddressLedger.Proofs.Json.Decoding

/-!
# Records read back

The fields of a record that was written as an object are found in its tree under their names, and
the members that are no fields do not get in their way.
-/
namespace AddressLedger.Json
open Number Raw

variable {α : Type} {decode : Raw → Decoded α} {fields : List (String × Raw)} {name : String}
  {default a : α} {depth : Nat} {j : Json} {r : Raw}

theorem ok_bind {β : Type} (a : α) (f : α → Decoded β) : (Except.ok a : Decoded α) >>= f = f a :=
  rfl

theorem refuse_ne_ok (r : Raw) (a : α) : r.refuse ≠ .ok a := by
  intro h
  cases r with
  | number n => cases (value?_of_decode h).2
  | text s => cases s <;> cases h
  | _ => cases h

theorem isFinite_of_toFloat {x : Float} (h : r.toFloat = .ok x) : isFinite x = true := by
  rw [toFloat.eq_def] at h
  split at h
  · exact isFinite_of_float? (value?_of_decode h).2
  · exact absurd h (refuse_ne_ok _ x)

theorem ne_null_of_value? {n : Numeral} (h : n.value? = some j) : j ≠ .null := by
  rintro rfl
  rw [Numeral.value?] at h
  split at h
  · cases h
  · rcases Option.map_eq_some_iff.1 h with ⟨x, -, hx⟩
    cases hx

theorem ne_null_of_toJson (hr : r ≠ .null) (h : r.toJson depth = .ok j) : j ≠ .null := by
  cases r with
  | null => exact absurd rfl hr
  | bool b =>
    obtain rfl := Except.ok.inj h
    simp
  | number n =>
    rw [Raw.toJson] at h
    exact ne_null_of_value? (value?_of_decode h).2
  | text s =>
    cases s with
    | none => cases h
    | some s =>
      obtain rfl := Except.ok.inj h
      simp
  | array items closed =>
    rw [Raw.toJson] at h
    split at h
    · cases h
    · rcases bind_eq_ok h with ⟨values, -, h⟩
      split at h
      · obtain rfl := Except.ok.inj h
        simp
      · cases h
  | object members closed =>
    rw [Raw.toJson] at h
    split at h
    · cases h
    · rcases bind_eq_ok h with ⟨values, -, h⟩
      split at h
      · obtain rfl := Except.ok.inj h
        simp
      · cases h
  | fault => cases h

theorem toOption_of_ne_null (h : r ≠ .null) : toOption decode r = some <$> decode r := by
  rw [toOption.eq_def]
  split
  · exact absurd rfl h
  · rfl

theorem of_map_ok {β : Type} {x : Decoded α} {f : α → β} {b : β} (h : f <$> x = .ok b) :
    ∃ a, x = .ok a ∧ f a = b := by
  cases x with
  | error fault => cases h
  | ok a => exact ⟨a, rfl, Except.ok.inj h⟩

theorem of_toOption {x : Option α} (h : toOption decode r = .ok x) :
    ∀ a ∈ x, r ≠ .null ∧ decode r = .ok a := by
  intro a ha
  by_cases hr : r = .null
  · subst hr
    obtain rfl := Except.ok.inj h
    cases ha
  · rw [toOption_of_ne_null hr] at h
    rcases of_map_ok h with ⟨b, hb, rfl⟩
    obtain rfl := Option.some.inj ha
    exact ⟨hr, hb⟩

theorem of_field (h : field fields name decode default = .ok a) :
    a = default ∨ ∃ r, decode r = .ok a := by
  rw [field] at h
  split at h
  · exact .inr ⟨_, h⟩
  · exact .inl (Except.ok.inj h).symm

theorem of_fieldOr (h : fieldOr fields name decode default = .ok a) :
    a = default ∨ ∃ r, decode r = .ok a := by
  rcases of_field h with rfl | ⟨r, hr⟩
  · exact .inl rfl
  · rcases of_map_ok hr with ⟨x, hx, rfl⟩
    cases x with
    | none => exact .inl rfl
    | some b => exact .inr ⟨r, (of_toOption hx b rfl).2⟩

theorem of_field? {x : Option α} (h : field? fields name decode = .ok x) :
    ∀ a ∈ x, ∃ r, r ≠ .null ∧ decode r = .ok a := by
  intro a ha
  rcases of_field h with rfl | ⟨r, hr⟩
  · cases ha
  · exact ⟨r, of_toOption hr a ha⟩

theorem of_toList {as : List α} (h : toList decode r = .ok as) :
    ∀ a ∈ as, ∃ r, decode r = .ok a := by
  rw [toList.eq_def] at h
  split at h
  · rcases bind_eq_ok h with ⟨values, hvalues, h⟩
    split at h
    · obtain rfl : values = as := Except.ok.inj h
      intro a ha
      rcases exists_of_mapM hvalues a ha with ⟨r, -, hr⟩
      exact ⟨r, hr⟩
    · cases h
  · exact absurd h (refuse_ne_ok _ as)

/-- A value that is not `null` and from whose tree something is decoded. -/
def ReadsAs (decode : Raw → Decoded α) (j : Json) (a : α) : Prop :=
  j.tree ≠ .null ∧ decode j.tree = .ok a

theorem toOption_ofOption {f : α → Json} {x : Option α}
    (h : ∀ a ∈ x, ReadsAs decode (f a) a) : toOption decode (ofOption f x).tree = .ok x := by
  cases x with
  | none => rfl
  | some a =>
    rcases h a rfl with ⟨hnull, ha⟩
    rw [ofOption, toOption_of_ne_null hnull, ha]
    rfl

theorem readsAs_text (s : String) : ReadsAs toText (.text s) s := by
  rw [ReadsAs, tree]
  exact ⟨by simp, rfl⟩

theorem readsAs_bool (b : Bool) : ReadsAs toBool (.bool b) b := by
  rw [ReadsAs, tree]
  exact ⟨by simp, rfl⟩

theorem readsAs_float {x : Float} (h : isFinite x = true) : ReadsAs toFloat (ofFloat x) x := by
  rcases exists_tree_float h with ⟨n, htree, hfloat, hvalue⟩
  rw [ReadsAs, ofFloat, if_pos h, htree, toFloat, hfloat]
  exact ⟨by simp, decode_of_value? hvalue x⟩

theorem readsAs_array {f : α → Json} {as : List α} (h : ∀ a ∈ as, decode (f a).tree = .ok a) :
    ReadsAs (toList decode) (.array (as.map f)) as := by
  have hitems : ((as.map f).map tree).mapM decode = .ok as := by
    rw [List.map_map]
    exact mapM_map_eq_ok h
  rw [ReadsAs, tree, treeItems_eq_map, toList, hitems]
  exact ⟨by simp, rfl⟩

theorem tree_object_ne_null (members : List (String × Json)) :
    (Json.object members).tree ≠ .null := by
  rw [tree]
  simp

theorem readsAs_json (h : j ≠ .null) (hfits : j.Fits depth) : ReadsAs (Raw.toJson depth) j j := by
  refine ⟨?_, toJson_tree hfits⟩
  cases hfits with
  | null => exact absurd rfl h
  | float hfinite =>
    rcases exists_tree_float hfinite with ⟨n, htree, -⟩
    rw [htree]
    simp
  | _ =>
    rw [tree]
    simp

def memberTrees (members : List (String × Json)) : List (String × Raw) :=
  members.map fun member => (member.1, member.2.tree)

theorem toMembers_object (members : List (String × Json)) :
    (Json.object members).tree.toMembers = .ok (memberTrees members) := by
  rw [tree, treeMembers_eq_map, toMembers, memberTrees]
  induction members with
  | nil => rfl
  | cons member members ih =>
    rw [List.map_cons, List.mapM_cons, ih]
    rfl

theorem map_fst_memberTrees (members : List (String × Json)) :
    (memberTrees members).map Prod.fst = members.map Prod.fst := by
  simp [memberTrees]

/-- The members of an object whose fields come once, beside others that are no fields. -/
theorem toRecord_object {names : List String} {known extra : List (String × Json)}
    (hknown : (known.map Prod.fst).Nodup) (hextra : ∀ member ∈ extra, member.1 ∉ names) :
    (Json.object (known ++ extra)).tree.toRecord names = .ok (memberTrees (known ++ extra)) := by
  have honce : repeats names (memberTrees (known ++ extra)) = false := by
    rw [repeats, List.any_eq_false]
    intro name hname
    have hcount : ((memberTrees (known ++ extra)).filter fun member => member.1 == name).length =
        ((known ++ extra).map Prod.fst).count name := by
      rw [← map_fst_memberTrees, List.count, List.countP_map, List.countP_eq_length_filter]
      rfl
    have hnone : (extra.map Prod.fst).count name = 0 := by
      rw [List.count_eq_zero, List.mem_map]
      rintro ⟨member, hmember, rfl⟩
      exact hextra member hmember hname
    have hfew := List.nodup_iff_count_le_one.1 hknown name
    rw [hcount, List.map_append, List.count_append, hnone]
    simpa using hfew
  rw [toRecord, toMembers_object, ok_bind, honce]
  rfl

theorem find?_memberTrees (name : String) (members : List (String × Json)) :
    (memberTrees members).find? (fun entry => entry.1 == name) =
      (Keyed.get? name members).map fun j => (name, j.tree) := by
  induction members with
  | nil => rfl
  | cons member members ih =>
    rw [memberTrees] at ih
    rw [memberTrees, List.map_cons, List.find?_cons, Keyed.get?, ih]
    by_cases h : member.1 = name
    · simp [h]
    · simp [h, beq_false_of_ne h]

theorem field_memberTrees (members : List (String × Json)) :
    field (memberTrees members) name decode default =
      (Keyed.get? name members).elim (.ok default) fun j => decode j.tree := by
  rw [field, find?_memberTrees]
  cases Keyed.get? name members <;> rfl

variable {members : List (String × Json)} {f : α → Json} {x : Option α}

/-- A field that is written in any case, as `null` if it has no value. -/
theorem field?_written (hget : Keyed.get? name members = some (ofOption f x))
    (h : ∀ a ∈ x, ReadsAs decode (f a) a) :
    field? (memberTrees members) name decode = .ok x := by
  rw [field?, field_memberTrees, hget]
  exact toOption_ofOption h

/-- A field that is written only if it has a value. -/
theorem field?_optional (hget : Keyed.get? name members = x.map f)
    (h : ∀ a ∈ x, ReadsAs decode (f a) a) :
    field? (memberTrees members) name decode = .ok x := by
  rw [field?, field_memberTrees, hget]
  cases x with
  | none => rfl
  | some a =>
    have hdecode := toOption_ofOption h
    exact hdecode

theorem fieldOr_written (hget : Keyed.get? name members = some j)
    (h : ReadsAs decode j a) :
    fieldOr (memberTrees members) name decode default = .ok a := by
  rw [fieldOr, field_memberTrees, hget, Option.elim_some, toOption_of_ne_null h.1, h.2]
  rfl

theorem get?_append (name : String) (members others : List (String × Json)) :
    Keyed.get? name (members ++ others) =
      (Keyed.get? name members).or (Keyed.get? name others) := by
  induction members with
  | nil => rfl
  | cons member members ih =>
    rw [List.cons_append, Keyed.get?, Keyed.get?, ih]
    split <;> rfl

theorem get?_of_mem (hnodup : (members.map Prod.fst).Nodup) (others : List (String × Json))
    (name : String) (j : Json) (h : (name, j) ∈ members) :
    Keyed.get? name (members ++ others) = some j := by
  induction members with
  | nil => cases h
  | cons member members ih =>
    rcases List.nodup_cons.1 hnodup with ⟨hfirst, hrest⟩
    rw [List.cons_append, Keyed.get?]
    rcases List.mem_cons.1 h with rfl | h
    · exact if_pos rfl
    · have hname : member.1 ≠ name := by
        rintro rfl
        exact hfirst (List.mem_map.2 ⟨_, h, rfl⟩)
      rw [if_neg hname, ih hrest h]

theorem get?_optionalMember (name key : String) (value : Option Json) :
    Keyed.get? key (optionalMember name value) = if name = key then value else none := by
  cases value <;> simp [optionalMember, Keyed.get?]

theorem get?_eq_none {members : List (String × Json)} (h : ∀ member ∈ members, member.1 ≠ name) :
    Keyed.get? name members = none := by
  induction members with
  | nil => rfl
  | cons member members ih =>
    rw [Keyed.get?, if_neg (h member List.mem_cons_self),
      ih fun other hother => h other (List.mem_cons_of_mem _ hother)]

end AddressLedger.Json
