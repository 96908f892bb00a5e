import AddressLedger.Feed.Page
import AddressLedger.Proofs.Json.Records

/-!
# Items read back

An item that was decoded from a page is decoded as itself from the text in which it is stored: its
doubles are finite, and the members that it keeps without interpreting them ascend by name, have no
name of a field and fit the page, hence also the item alone.
-/
namespace AddressLedger.Feed
open Json Json.Raw Number

variable {depth d : Nat} {r : Raw} {j : Json} {names : List String} {extra : Extra}

/-- Members that were kept in an object with `depth` containers open in front of its members. -/
structure Extra.WellFormed (names : List String) (depth : Nat) (extra : Extra) : Prop where
  ascending : Keyed.IsAscending extra
  unknown : ∀ member ∈ extra, member.1 ∉ names
  fits : ∀ member ∈ extra, member.2.Fits depth

theorem Extra.WellFormed.of_le (h : extra.WellFormed names depth) (hd : d ≤ depth) :
    extra.WellFormed names d :=
  ⟨h.ascending, h.unknown, fun member hmember => (h.fits member hmember).of_le hd⟩

theorem extraOf_wellFormed {members : List (String × Raw)}
    (h : extraOf names depth members = .ok extra) : extra.WellFormed names depth := by
  rcases bind_eq_ok h with ⟨entries, hentries, h⟩
  obtain rfl : Keyed.ofList entries = extra := Except.ok.inj h
  have hentry : ∀ entry ∈ Keyed.ofList entries, entry.1 ∉ names ∧ entry.2.Fits depth := by
    intro entry hmem
    rcases exists_of_mapM hentries entry (Keyed.mem_ofList hmem) with ⟨member, hmember, hdecode⟩
    rcases bind_eq_ok hdecode with ⟨value, hvalue, hpair⟩
    obtain rfl : (member.1, value) = entry := Except.ok.inj hpair
    have hunknown := (List.mem_filter.1 hmember).2
    exact ⟨by simpa using hunknown, fits_of_toJson member.2 depth hvalue⟩
  exact ⟨Keyed.isAscending_ofList entries, fun entry hmem => (hentry entry hmem).1,
    fun entry hmem => (hentry entry hmem).2⟩

/-- The kept members are found again beside members that are all fields. -/
theorem extraOf_memberTrees {known : List (String × Json)}
    (hknown : ∀ member ∈ known, member.1 ∈ names) (h : extra.WellFormed names depth) :
    extraOf names depth (memberTrees (known ++ extra)) = .ok extra := by
  have hfilter : (memberTrees (known ++ extra)).filter (fun member => !names.contains member.1) =
      memberTrees extra := by
    rw [memberTrees, List.map_append, List.filter_append, List.filter_eq_nil_iff.2,
      List.filter_eq_self.2, List.nil_append, memberTrees]
    · intro member hmember
      rcases List.mem_map.1 hmember with ⟨given, hgiven, rfl⟩
      simpa using h.unknown given hgiven
    · intro member hmember
      rcases List.mem_map.1 hmember with ⟨given, hgiven, rfl⟩
      simpa using hknown given hgiven
  have hmapM : (memberTrees extra).mapM (fun member => do
      let value ← member.2.toJson depth
      return (member.1, value)) = .ok extra := by
    apply mapM_map_eq_ok
    intro member hmember
    rw [toJson_tree (h.fits member hmember)]
    rfl
  rw [extraOf, hfilter, hmapM, ok_bind, h.ascending.ofList_eq]
  rfl

structure Leg.WellFormed (l : Leg) : Prop where
  amount : isFinite l.amount = true

structure TxInfo.WellFormed (depth : Nat) (t : TxInfo) : Prop where
  usdGasFee : ∀ x ∈ t.usdGasFee, isFinite x = true
  ethGasFee : ∀ x ∈ t.ethGasFee, isFinite x = true
  extra : t.extra.WellFormed TxInfo.fieldNames (depth + 1)

/-- A decoded item, with `depth` containers open around it. -/
structure Item.WellFormed (depth : Nat) (i : Item) : Prop where
  timeAt : ∀ x ∈ i.timeAt, isFinite x = true
  sends : ∀ l ∈ i.sends, l.WellFormed
  receives : ∀ l ∈ i.receives, l.WellFormed
  tokenApprove : ∀ j ∈ i.tokenApprove, j ≠ .null ∧ j.Fits (depth + 1)
  tx : i.tx.WellFormed (depth + 1)
  extra : i.extra.WellFormed Item.fieldNames (depth + 1)

theorem TxInfo.WellFormed.of_le {t : TxInfo} (h : t.WellFormed depth) (hd : d ≤ depth) :
    t.WellFormed d :=
  ⟨h.usdGasFee, h.ethGasFee, h.extra.of_le (by omega)⟩

theorem Item.WellFormed.of_le {i : Item} (h : i.WellFormed depth) (hd : d ≤ depth) :
    i.WellFormed d :=
  ⟨h.timeAt, h.sends, h.receives,
    fun j hj => ⟨(h.tokenApprove j hj).1, (h.tokenApprove j hj).2.of_le (by omega)⟩,
    h.tx.of_le (by omega), h.extra.of_le (by omega)⟩

theorem isFinite_of_field? {fields : List (String × Raw)} {name : String} {x : Option Float}
    (h : field? fields name toFloat = .ok x) : ∀ y ∈ x, isFinite y = true := by
  intro y hy
  rcases of_field? h y hy with ⟨r, -, hr⟩
  exact isFinite_of_toFloat hr

theorem Leg.wellFormed_of_decode {l : Leg} (h : Leg.decode r = .ok l) : l.WellFormed := by
  rcases bind_eq_ok h with ⟨fields, -, h⟩
  rcases bind_eq_ok h with ⟨tokenId, -, h⟩
  rcases bind_eq_ok h with ⟨amount, hamount, h⟩
  rcases bind_eq_ok h with ⟨fromAddr, -, h⟩
  rcases bind_eq_ok h with ⟨toAddr, -, h⟩
  obtain rfl := Except.ok.inj h
  constructor
  have hzero : isFinite 0 = true := by decide +kernel
  rcases of_fieldOr hamount with rfl | ⟨r, hr⟩
  · exact hzero
  · exact isFinite_of_toFloat hr

theorem legs_wellFormed {fields : List (String × Raw)} {name : String} {legs : List Leg}
    (h : fieldOr fields name (Raw.toList Leg.decode) [] = .ok legs) :
    ∀ l ∈ legs, l.WellFormed := by
  rcases of_fieldOr h with rfl | ⟨r, hr⟩
  · simp
  · intro l hl
    rcases of_toList hr l hl with ⟨r, hleg⟩
    exact Leg.wellFormed_of_decode hleg

theorem TxInfo.wellFormed_of_decode {t : TxInfo} (h : TxInfo.decode depth r = .ok t) :
    t.WellFormed depth := by
  rcases bind_eq_ok h with ⟨members, -, h⟩
  rcases bind_eq_ok h with ⟨fromAddr, -, h⟩
  rcases bind_eq_ok h with ⟨toAddr, -, h⟩
  rcases bind_eq_ok h with ⟨name, -, h⟩
  rcases bind_eq_ok h with ⟨usdGasFee, husd, h⟩
  rcases bind_eq_ok h with ⟨ethGasFee, heth, h⟩
  rcases bind_eq_ok h with ⟨extra, hextra, h⟩
  obtain rfl := Except.ok.inj h
  exact ⟨isFinite_of_field? husd, isFinite_of_field? heth, extraOf_wellFormed hextra⟩

theorem TxInfo.empty_wellFormed : TxInfo.empty.WellFormed depth :=
  ⟨by simp [TxInfo.empty], by simp [TxInfo.empty],
    ⟨List.Pairwise.nil, by simp [TxInfo.empty], by simp [TxInfo.empty]⟩⟩

/-- Whatever decodes is well-formed. -/
theorem Item.wellFormed_of_decode {i : Item} (h : Item.decode depth r = .ok i) :
    i.WellFormed depth := by
  rcases bind_eq_ok h with ⟨members, -, h⟩
  rcases bind_eq_ok h with ⟨id, -, h⟩
  rcases bind_eq_ok h with ⟨chain, -, h⟩
  rcases bind_eq_ok h with ⟨cateId, -, h⟩
  rcases bind_eq_ok h with ⟨timeAt, htime, h⟩
  rcases bind_eq_ok h with ⟨isScam, -, h⟩
  rcases bind_eq_ok h with ⟨otherAddr, -, h⟩
  rcases bind_eq_ok h with ⟨projectId, -, h⟩
  rcases bind_eq_ok h with ⟨sends, hsends, h⟩
  rcases bind_eq_ok h with ⟨receives, hreceives, h⟩
  rcases bind_eq_ok h with ⟨tokenApprove, happrove, h⟩
  rcases bind_eq_ok h with ⟨tx, htx, h⟩
  rcases bind_eq_ok h with ⟨extra, hextra, h⟩
  obtain rfl := Except.ok.inj h
  refine ⟨isFinite_of_field? htime, legs_wellFormed hsends, legs_wellFormed hreceives, ?_, ?_,
    extraOf_wellFormed hextra⟩
  · intro j hj
    rcases of_field? happrove j hj with ⟨r, hr, hdecode⟩
    exact ⟨ne_null_of_toJson hr hdecode, fits_of_toJson r (depth + 1) hdecode⟩
  · rcases of_fieldOr htx with rfl | ⟨r, hr⟩
    · exact TxInfo.empty_wellFormed
    · exact TxInfo.wellFormed_of_decode hr

def Leg.members (l : Leg) : List (String × Json) :=
  [("amount", .ofFloat l.amount)] ++ optionalMember "from_addr" (l.fromAddr.map .text) ++
    optionalMember "to_addr" (l.toAddr.map .text) ++ [("token_id", .ofOption .text l.tokenId)]

def TxInfo.members (t : TxInfo) : List (String × Json) :=
  [("from_addr", .ofOption .text t.fromAddr), ("to_addr", .ofOption .text t.toAddr),
    ("name", .ofOption .text t.name), ("usd_gas_fee", .ofOption .ofFloat t.usdGasFee),
    ("eth_gas_fee", .ofOption .ofFloat t.ethGasFee)]

def Item.members (i : Item) : List (String × Json) :=
  [("id", .ofOption .text i.id), ("chain", .ofOption .text i.chain),
    ("cate_id", .ofOption .text i.cateId), ("time_at", .ofOption .ofFloat i.timeAt),
    ("is_scam", .bool i.isScam), ("other_addr", .ofOption .text i.otherAddr),
    ("project_id", .ofOption .text i.projectId),
    ("sends", .array (i.sends.map Leg.toJson)),
    ("receives", .array (i.receives.map Leg.toJson))] ++
    optionalMember "token_approve" i.tokenApprove ++ [("tx", i.tx.toJson)]

theorem readsAs_text? (x : Option String) : ∀ s ∈ x, ReadsAs toText (.text s) s :=
  fun s _ => readsAs_text s

theorem readsAs_float? {x : Option Float} (h : ∀ y ∈ x, isFinite y = true) :
    ∀ y ∈ x, ReadsAs toFloat (ofFloat y) y :=
  fun y hy => readsAs_float (h y hy)

theorem Leg.decode_toJson {l : Leg} (h : l.WellFormed) : Leg.decode l.toJson.tree = .ok l := by
  have hnodup : (l.members.map Prod.fst).Nodup := by
    cases hfrom : l.fromAddr <;> cases hto : l.toAddr <;>
      simp [Leg.members, hfrom, hto, optionalMember]
  have hmembers : l.toJson = .object (l.members ++ []) := by
    rw [List.append_nil]
    rfl
  have hextra : ∀ member ∈ ([] : Extra), member.1 ∉ fieldNames := by simp
  have hrecord : l.toJson.tree.toFields fieldNames 0 = .ok (memberTrees (l.members ++ [])) := by
    rw [hmembers]
    exact toRecord_object hnodup hextra
  have hget := get?_of_mem hnodup []
  have htoken := hget "token_id" (ofOption .text l.tokenId) (by simp [Leg.members])
  have hamount := hget "amount" (ofFloat l.amount) (by simp [Leg.members])
  have hfrom : Keyed.get? "from_addr" (l.members ++ []) = l.fromAddr.map .text := by
    simp [Leg.members, get?_append, get?_optionalMember, Keyed.get?]
  have hto : Keyed.get? "to_addr" (l.members ++ []) = l.toAddr.map .text := by
    simp [Leg.members, get?_append, get?_optionalMember, Keyed.get?]
  rw [Leg.decode, hrecord, ok_bind, field?_written htoken (readsAs_text? _), ok_bind,
    fieldOr_written hamount (readsAs_float h.amount), ok_bind,
    field?_optional hfrom (readsAs_text? _), ok_bind,
    field?_optional hto (readsAs_text? _), ok_bind]
  rfl

theorem readsAs_legs {legs : List Leg} (h : ∀ l ∈ legs, l.WellFormed) :
    ReadsAs (Raw.toList Leg.decode) (.array (legs.map Leg.toJson)) legs :=
  readsAs_array fun l hl => Leg.decode_toJson (h l hl)

theorem TxInfo.decode_toJson {t : TxInfo} (h : t.WellFormed depth) :
    TxInfo.decode depth t.toJson.tree = .ok t := by
  have hnodup : (t.members.map Prod.fst).Nodup := by simp [TxInfo.members]
  have hrecord : t.toJson.tree.toRecord fieldNames = .ok (memberTrees (t.members ++ t.extra)) :=
    toRecord_object hnodup h.extra.unknown
  have hknown : ∀ member ∈ t.members, member.1 ∈ fieldNames := by
    simp [TxInfo.members, fieldNames]
  have hget := get?_of_mem hnodup t.extra
  have hfrom := hget "from_addr" (ofOption .text t.fromAddr) (by simp [TxInfo.members])
  have hto := hget "to_addr" (ofOption .text t.toAddr) (by simp [TxInfo.members])
  have hname := hget "name" (ofOption .text t.name) (by simp [TxInfo.members])
  have husd := hget "usd_gas_fee" (ofOption ofFloat t.usdGasFee) (by simp [TxInfo.members])
  have heth := hget "eth_gas_fee" (ofOption ofFloat t.ethGasFee) (by simp [TxInfo.members])
  rw [TxInfo.decode, hrecord, ok_bind, field?_written hfrom (readsAs_text? _), ok_bind,
    field?_written hto (readsAs_text? _), ok_bind, field?_written hname (readsAs_text? _), ok_bind,
    field?_written husd (readsAs_float? h.usdGasFee), ok_bind,
    field?_written heth (readsAs_float? h.ethGasFee), ok_bind, extraOf_memberTrees hknown h.extra]
  rfl

theorem Item.nodup_members (i : Item) : (i.members.map Prod.fst).Nodup := by
  cases happrove : i.tokenApprove <;> simp [Item.members, happrove, optionalMember]

theorem Item.mem_fieldNames_of_mem_members (i : Item) :
    ∀ member ∈ i.members, member.1 ∈ fieldNames := by
  cases happrove : i.tokenApprove <;> simp [Item.members, happrove, optionalMember, fieldNames]

/-- The approval is found if there is one; none of the members without meaning is taken for it. -/
theorem Item.get?_tokenApprove {i : Item} (h : i.WellFormed depth) :
    Keyed.get? "token_approve" (i.members ++ i.extra) = i.tokenApprove.map fun j => j := by
  have hextra : Keyed.get? "token_approve" i.extra = none := by
    apply get?_eq_none
    intro member hmember heq
    exact h.extra.unknown member hmember (by simp [heq, fieldNames])
  simp [Item.members, get?_append, get?_optionalMember, Keyed.get?, hextra]

theorem Item.decode_toJson {i : Item} (h : i.WellFormed depth) :
    Item.decode depth i.toJson.tree = .ok i := by
  have hrecord : i.toJson.tree.toRecord fieldNames = .ok (memberTrees (i.members ++ i.extra)) :=
    toRecord_object i.nodup_members h.extra.unknown
  have hget := get?_of_mem i.nodup_members i.extra
  have hid := hget "id" (ofOption .text i.id) (by simp [Item.members])
  have hchain := hget "chain" (ofOption .text i.chain) (by simp [Item.members])
  have hcate := hget "cate_id" (ofOption .text i.cateId) (by simp [Item.members])
  have htime := hget "time_at" (ofOption ofFloat i.timeAt) (by simp [Item.members])
  have hscam := hget "is_scam" (.bool i.isScam) (by simp [Item.members])
  have hother := hget "other_addr" (ofOption .text i.otherAddr) (by simp [Item.members])
  have hproject := hget "project_id" (ofOption .text i.projectId) (by simp [Item.members])
  have hsends := hget "sends" (.array (i.sends.map Leg.toJson)) (by simp [Item.members])
  have hreceives := hget "receives" (.array (i.receives.map Leg.toJson)) (by simp [Item.members])
  have htx := hget "tx" i.tx.toJson (by simp [Item.members])
  have happrove : ∀ j ∈ i.tokenApprove, ReadsAs (Raw.toJson (depth + 1)) j j :=
    fun j hj => readsAs_json (h.tokenApprove j hj).1 (h.tokenApprove j hj).2
  have htxReads : ReadsAs (TxInfo.decode (depth + 1)) i.tx.toJson i.tx :=
    ⟨tree_object_ne_null _, TxInfo.decode_toJson h.tx⟩
  rw [Item.decode, hrecord, ok_bind, field?_written hid (readsAs_text? _), ok_bind,
    field?_written hchain (readsAs_text? _), ok_bind,
    field?_written hcate (readsAs_text? _), ok_bind,
    field?_written htime (readsAs_float? h.timeAt), ok_bind,
    fieldOr_written hscam (readsAs_bool _), ok_bind,
    field?_written hother (readsAs_text? _), ok_bind,
    field?_written hproject (readsAs_text? _), ok_bind,
    fieldOr_written hsends (readsAs_legs h.sends), ok_bind,
    fieldOr_written hreceives (readsAs_legs h.receives), ok_bind,
    field?_optional (Item.get?_tokenApprove h) happrove, ok_bind,
    fieldOr_written htx htxReads, ok_bind,
    extraOf_memberTrees i.mem_fieldNames_of_mem_members h.extra]
  rfl

/-- An item that was decoded anywhere reads back from the text in which it is stored. -/
theorem Item.ofText_encode {i : Item} (h : Item.decode depth r = .ok i) :
    Item.ofText i.encode = .ok i := by
  have halone := (Item.wellFormed_of_decode h).of_le (Nat.zero_le depth)
  rw [Item.ofText, Item.encode, readTree?_encode]
  exact Item.decode_toJson halone

theorem Page.exists_decode_of_mem {body : String} {page : Page} {i : Item}
    (h : Page.ofText body = .ok page) (hi : i ∈ page.items) :
    ∃ r, Item.decode Page.itemDepth r = .ok i := by
  rw [Page.ofText] at h
  split at h
  · rcases bind_eq_ok h with ⟨fields, -, h⟩
    rcases bind_eq_ok h with ⟨items, hitems, h⟩
    rcases bind_eq_ok h with ⟨projects, -, h⟩
    rcases bind_eq_ok h with ⟨tokens, -, h⟩
    rcases bind_eq_ok h with ⟨exchanges, -, h⟩
    obtain rfl := Except.ok.inj h
    rcases of_fieldOr hitems with rfl | ⟨r, hr⟩
    · cases hi
    · exact of_toList hr i hi
  · cases h

end AddressLedger.Feed
