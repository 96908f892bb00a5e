import AddressLedger.Json.Decode
import AddressLedger.Proofs.Json.Reading

/-!
# Decoded values

What decodes fits the place where it stood: its whole numbers fit 64 bits, its doubles are finite,
the names of its members ascend, and no more containers are open in it than may be. A value that
fits is decoded from its own tree as itself.
-/
namespace AddressLedger

namespace Keyed

variable {α : Type} {table entries : List (String × α)}

def IsAscending (entries : List (String × α)) : Prop := entries.Pairwise fun a b => a.1 < b.1

theorem isAscending_put (h : IsAscending table) (key : String) (value : α) :
    IsAscending (put key value table) := by
  induction table with
  | nil => exact List.pairwise_singleton _ _
  | cons entry rest ih =>
    rcases List.pairwise_cons.1 h with ⟨hentry, hrest⟩
    rw [put]
    split
    · rename_i hlt
      refine List.pairwise_cons.2 ⟨?_, h⟩
      intro other hother
      rcases List.mem_cons.1 hother with rfl | hother
      · exact hlt
      · exact lt_trans hlt (hentry other hother)
    · split
      · rename_i heq
        refine List.pairwise_cons.2 ⟨?_, hrest⟩
        intro other hother
        rw [heq]
        exact hentry other hother
      · rename_i hnlt hne
        refine List.pairwise_cons.2 ⟨?_, ih hrest⟩
        intro other hother
        rcases mem_put hother with rfl | hother
        · exact lt_of_le_of_ne (not_lt.1 hnlt) (Ne.symm hne)
        · exact hentry other hother

theorem isAscending_ofList (entries : List (String × α)) : IsAscending (ofList entries) := by
  have hfold : ∀ table : List (String × α), IsAscending table →
      IsAscending (entries.foldl (fun table entry => put entry.1 entry.2 table) table) := by
    induction entries with
    | nil => exact fun table h => h
    | cons entry entries ih => exact fun table h => ih _ (isAscending_put h _ _)
  exact hfold [] List.Pairwise.nil

theorem put_of_lt {key : String} (h : ∀ entry ∈ table, entry.1 < key) (value : α) :
    put key value table = table ++ [(key, value)] := by
  induction table with
  | nil => rfl
  | cons entry rest ih =>
    have hlt := h entry List.mem_cons_self
    rw [put, if_neg (lt_asymm hlt), if_neg (ne_of_gt hlt),
      ih fun other hother => h other (List.mem_cons_of_mem _ hother), List.cons_append]

/-- Entries that ascend already stay as they are. -/
theorem IsAscending.ofList_eq (h : IsAscending entries) : ofList entries = entries := by
  have hfold : ∀ table : List (String × α), IsAscending (table ++ entries) →
      entries.foldl (fun table entry => put entry.1 entry.2 table) table = table ++ entries := by
    clear h
    induction entries with
    | nil => simp
    | cons entry entries ih =>
      intro table htable
      have hlt : ∀ other ∈ table, other.1 < entry.1 := fun other hother =>
        (List.pairwise_append.1 htable).2.2 other hother entry List.mem_cons_self
      rw [List.foldl_cons, put_of_lt hlt, ih, List.append_assoc, List.singleton_append]
      rw [List.append_assoc]
      exact htable
  exact hfold [] h

end Keyed

namespace Json
open Number

variable {α β : Type} {depth : Nat} {j : Json} {r : Raw}

theorem bind_eq_ok {x : Decoded α} {f : α → Decoded β} {b : β} (h : x >>= f = .ok b) :
    ∃ a, x = .ok a ∧ f a = .ok b := by
  cases x with
  | error fault => cases h
  | ok a => exact ⟨a, rfl, h⟩

theorem exists_of_mapM {decode : α → Decoded β} {as : List α} {bs : List β}
    (h : as.mapM decode = .ok bs) : ∀ b ∈ bs, ∃ a ∈ as, decode a = .ok b := by
  induction as generalizing bs with
  | nil =>
    obtain rfl : [] = bs := Except.ok.inj h
    simp
  | cons a as ih =>
    rw [List.mapM_cons] at h
    rcases bind_eq_ok h with ⟨b, hb, h⟩
    rcases bind_eq_ok h with ⟨others, hothers, h⟩
    obtain rfl : b :: others = bs := Except.ok.inj h
    intro c hc
    rcases List.mem_cons.1 hc with rfl | hc
    · exact ⟨a, List.mem_cons_self, hb⟩
    · rcases ih hothers c hc with ⟨d, hd, hdecode⟩
      exact ⟨d, List.mem_cons_of_mem _ hd, hdecode⟩

theorem mapM_map_eq_ok {decode : α → Decoded β} {f : β → α} {bs : List β}
    (h : ∀ b ∈ bs, decode (f b) = .ok b) : (bs.map f).mapM decode = .ok bs := by
  induction bs with
  | nil => rfl
  | cons b bs ih =>
    rw [List.map_cons, List.mapM_cons, h b List.mem_cons_self,
      ih fun c hc => h c (List.mem_cons_of_mem _ hc)]
    rfl

/-- A value that may stand where `depth` containers are open. -/
inductive Fits : Nat → Json → Prop
  | null {depth : Nat} : Fits depth .null
  | bool {depth : Nat} (b : Bool) : Fits depth (.bool b)
  | integer {depth : Nat} {n : Int} (h : IsWord n) : Fits depth (.integer n)
  | float {depth : Nat} {x : Float} (h : isFinite x = true) : Fits depth (.float x)
  | text {depth : Nat} (s : String) : Fits depth (.text s)
  | array {depth : Nat} {items : List Json} (hdepth : depth < maxNesting)
      (hitems : ∀ item ∈ items, Fits (depth + 1) item) : Fits depth (.array items)
  | object {depth : Nat} {members : List (String × Json)} (hdepth : depth < maxNesting)
      (hascending : Keyed.IsAscending members)
      (hmembers : ∀ member ∈ members, Fits (depth + 1) member.2) : Fits depth (.object members)

theorem Fits.of_le (h : j.Fits depth) {d : Nat} (hd : d ≤ depth) : j.Fits d := by
  induction h generalizing d with
  | null => exact .null
  | bool b => exact .bool b
  | integer h => exact .integer h
  | float h => exact .float h
  | text s => exact .text s
  | array hdepth _ ih =>
    exact .array (hd.trans_lt hdepth) fun item hitem => ih item hitem (by omega)
  | object hdepth hascending _ ih =>
    exact .object (hd.trans_lt hdepth) hascending fun member hmember => ih member hmember (by omega)

theorem value?_of_decode {a : Option α} {n : Numeral} {b : α} (h : n.decode a = .ok b) :
    (∃ value, n.value? = some value) ∧ a = some b := by
  rw [Numeral.decode.eq_def] at h
  split at h
  · cases h
  · rename_i value _ hvalue
    exact ⟨⟨value, hvalue⟩, congrArg some (Except.ok.inj h)⟩
  · cases h

theorem isFinite_of_float? {n : Numeral} {x : Float} (h : n.float? = some x) :
    isFinite x = true := by
  rw [Numeral.float?] at h
  split at h
  · rename_i hfinite
    rwa [← Option.some.inj h]
  · cases h

theorem fits_of_value? {n : Numeral} (h : n.value? = some j) : j.Fits depth := by
  rw [Numeral.value?] at h
  split at h
  · rename_i i hi
    obtain rfl := Option.some.inj h
    exact .integer (isWord_of_integer? hi)
  · rcases Option.map_eq_some_iff.1 h with ⟨x, hx, rfl⟩
    exact .float (isFinite_of_float? hx)

mutual

/-- A free-form value fits where it was decoded. -/
theorem fits_of_toJson : ∀ (r : Raw) (depth : Nat) {j : Json}, r.toJson depth = .ok j →
    j.Fits depth
  | .null, depth, j, h => by
    obtain rfl := Except.ok.inj h
    exact .null
  | .bool b, depth, j, h => by
    obtain rfl := Except.ok.inj h
    exact .bool b
  | .number n, depth, j, h => by
    rw [Raw.toJson] at h
    exact fits_of_value? (value?_of_decode h).2
  | .text (some s), depth, j, h => by
    obtain rfl := Except.ok.inj h
    exact .text s
  | .text none, depth, j, h => by cases h
  | .array items closed, depth, j, h => by
    rw [Raw.toJson] at h
    split at h
    · cases h
    · rename_i hdepth
      rcases bind_eq_ok h with ⟨values, hvalues, h⟩
      split at h
      · obtain rfl : Json.array values = j := Except.ok.inj h
        exact .array (not_le.1 hdepth) (fits_of_itemsToJson items (depth + 1) hvalues)
      · cases h
  | .object members closed, depth, j, h => by
    rw [Raw.toJson] at h
    split at h
    · cases h
    · rename_i hdepth
      rcases bind_eq_ok h with ⟨values, hvalues, h⟩
      split at h
      · obtain rfl : Json.object (Keyed.ofList values) = j := Except.ok.inj h
        exact .object (not_le.1 hdepth) (Keyed.isAscending_ofList values) fun member hmember =>
          fits_of_membersToJson members (depth + 1) hvalues member (Keyed.mem_ofList hmember)
      · cases h
  | .fault, depth, j, h => by cases h

theorem fits_of_itemsToJson : ∀ (items : List Raw) (depth : Nat) {values : List Json},
    Raw.itemsToJson depth items = .ok values → ∀ value ∈ values, value.Fits depth
  | [], depth, values, h => by
    obtain rfl : [] = values := Except.ok.inj h
    simp
  | item :: items, depth, values, h => by
    rw [Raw.itemsToJson] at h
    rcases bind_eq_ok h with ⟨first, hfirst, h⟩
    rcases bind_eq_ok h with ⟨others, hothers, h⟩
    obtain rfl : first :: others = values := Except.ok.inj h
    intro value hvalue
    rcases List.mem_cons.1 hvalue with rfl | hvalue
    · exact fits_of_toJson item depth hfirst
    · exact fits_of_itemsToJson items depth hothers value hvalue

theorem fits_of_membersToJson : ∀ (members : List (Option String × Raw)) (depth : Nat)
    {values : List (String × Json)}, Raw.membersToJson depth members = .ok values →
      ∀ value ∈ values, value.2.Fits depth
  | [], depth, values, h => by
    obtain rfl : [] = values := Except.ok.inj h
    simp
  | (none, _) :: _, depth, values, h => by cases h
  | (some name, member) :: members, depth, values, h => by
    rw [Raw.membersToJson] at h
    rcases bind_eq_ok h with ⟨first, hfirst, h⟩
    rcases bind_eq_ok h with ⟨others, hothers, h⟩
    obtain rfl : (name, first) :: others = values := Except.ok.inj h
    intro value hvalue
    rcases List.mem_cons.1 hvalue with rfl | hvalue
    · exact fits_of_toJson member depth hfirst
    · exact fits_of_membersToJson members depth hothers value hvalue

end

theorem itemsToJson_map {items : List Json}
    (h : ∀ item ∈ items, item.tree.toJson depth = .ok item) :
    Raw.itemsToJson depth (items.map tree) = .ok items := by
  induction items with
  | nil => rfl
  | cons item items ih =>
    rw [List.map_cons, Raw.itemsToJson, h item List.mem_cons_self,
      ih fun other hother => h other (List.mem_cons_of_mem _ hother)]
    rfl

theorem membersToJson_map {members : List (String × Json)}
    (h : ∀ member ∈ members, member.2.tree.toJson depth = .ok member.2) :
    Raw.membersToJson depth (members.map fun member => (some member.1, member.2.tree)) =
      .ok members := by
  induction members with
  | nil => rfl
  | cons member members ih =>
    rw [List.map_cons, Raw.membersToJson, h member List.mem_cons_self,
      ih fun other hother => h other (List.mem_cons_of_mem _ hother)]
    rfl

/-- The numeral in the tree of a whole number. -/
theorem value?_ofInt {n : Int} (h : IsWord n) : (Numeral.ofInt n).value? = some (.integer n) := by
  rw [Numeral.value?, integer?_ofInt h]

/-- The numeral in the tree of a double. -/
theorem exists_tree_float {x : Float} (h : isFinite x = true) :
    ∃ n, (Json.float x).tree = .number n ∧ n.float? = some x ∧ n.value? = some (.float x) := by
  rcases exists_scanNumber_renderFloat h with ⟨n, hscan, hwhole, hvalue⟩
  have hinteger : n.integer? = none := by
    rw [Numeral.integer?, hwhole]
    rfl
  have hfloat : n.float? = some x := by
    rw [Numeral.float?, hvalue]
    exact if_pos h
  refine ⟨n, ?_, hfloat, ?_⟩
  · rw [tree, hscan]
    rfl
  · rw [Numeral.value?, hinteger, hfloat]
    rfl

theorem decode_of_value? {n : Numeral} {value : Json} (hvalue : n.value? = some value) (a : α) :
    n.decode (some a) = .ok a := by
  rw [Numeral.decode.eq_def, hvalue]

/-- A value that fits is decoded from its tree as itself. -/
theorem toJson_tree (h : j.Fits depth) : j.tree.toJson depth = .ok j := by
  induction h with
  | null => rfl
  | bool b => rfl
  | integer h =>
    have hvalue := value?_ofInt h
    rw [tree, Raw.toJson, hvalue, decode_of_value? hvalue]
  | float h =>
    rcases exists_tree_float h with ⟨n, htree, -, hvalue⟩
    rw [htree, Raw.toJson, hvalue, decode_of_value? hvalue]
  | text s => rfl
  | array hdepth _ ih =>
    rw [tree, treeItems_eq_map, Raw.toJson, if_neg (not_le.2 hdepth), itemsToJson_map ih]
    rfl
  | object hdepth hascending _ ih =>
    rw [tree, treeMembers_eq_map, Raw.toJson, if_neg (not_le.2 hdepth), membersToJson_map ih]
    change Except.ok (object _) = _
    rw [hascending.ofList_eq]

end Json

end AddressLedger
