import AddressLedger.Feed.Page
import AddressLedger.Proofs.Json.Revision
import Mathlib.Logic.Relation

/-!
# Pages that say the same

A field of a page, of an item, of a leg, of a transaction or of a dictionary entry may be missing or
`null`, to the same effect, and the members of an object have no order. So a page may be rewritten,
field by field and object by object, and is read as before. What is kept without being interpreted
is rewritten only by order: there a `null` is kept.
-/
namespace AddressLedger.Feed
open Json Json.Raw

/-- What a part of a page is read as. -/
inductive Role
  | page | items | item | legs | leg | tx
  | projects | project | tokens | token | exchanges | exchange
  | free
  deriving DecidableEq

namespace Role

def fields : Role → List String
  | .page => Page.fieldNames
  | .item => Item.fieldNames
  | .leg => Leg.fieldNames
  | .tx => TxInfo.fieldNames
  | .project => Page.projectFields
  | .token => Page.tokenFields
  | .exchange => Page.exchangeFields
  | _ => []

/-- What a member of an object is read as; free-form, if it holds neither records nor tables. -/
def member : Role → Option String → Role
  | .page, some "history_list" => .items
  | .page, some "project_dict" => .projects
  | .page, some "token_dict" => .tokens
  | .page, some "cex_dict" => .exchanges
  | .item, some "sends" => .legs
  | .item, some "receives" => .legs
  | .item, some "tx" => .tx
  | .projects, some _ => .project
  | .tokens, some _ => .token
  | .exchanges, some _ => .exchange
  | _, _ => .free

/-- What an item of an array is read as; that of a record is the field with its number. -/
def element (role : Role) (i : Nat) : Role :=
  match role with
  | .items => .item
  | .legs => .leg
  | role => role.member role.fields[i]?

end Role

/-- One change of a part of a page: a field that is `null` is dropped, the members of an object are
put in another order, or one of the two is done to a member of an object or an item of an array. -/
inductive Edit : Role → Raw → Raw → Prop
  | drop {role : Role} {name : String} (h : name ∈ role.fields)
      (before after : List (Option String × Raw)) :
      Edit role (.object (before ++ (some name, .null) :: after) true)
        (.object (before ++ after) true)
  | permute {role : Role} {members members' : List (Option String × Raw)}
      (h : members.Perm members') : Edit role (.object members true) (.object members' true)
  | member {role : Role} {name : Option String} {r r' : Raw}
      (before after : List (Option String × Raw)) (h : Edit (role.member name) r r') :
      Edit role (.object (before ++ (name, r) :: after) true)
        (.object (before ++ (name, r') :: after) true)
  | element {role : Role} {r r' : Raw} (before after : List Raw)
      (h : Edit (role.element before.length) r r') :
      Edit role (.array (before ++ r :: after) true) (.array (before ++ r' :: after) true)

namespace Role

/-- Whether trees are read alike in a role. -/
def Agrees : Role → Raw → Raw → Prop
  | .page, r, r' => Agree Eq (Page.decode r) (Page.decode r')
  | .items, r, r' =>
    ∀ depth, Agree Eq (toList (Item.decode depth) r) (toList (Item.decode depth) r')
  | .item, r, r' => ∀ depth, Agree Eq (Item.decode depth r) (Item.decode depth r')
  | .legs, r, r' => Agree Eq (toList Leg.decode r) (toList Leg.decode r')
  | .leg, r, r' => Agree Eq (Leg.decode r) (Leg.decode r')
  | .tx, r, r' => ∀ depth, Agree Eq (TxInfo.decode depth r) (TxInfo.decode depth r')
  | .projects, r, r' => Agree Eq (toTable Page.decodeProject r) (toTable Page.decodeProject r')
  | .project, r, r' => ∀ key, Agree Eq (Page.decodeProject key r) (Page.decodeProject key r')
  | .tokens, r, r' => Agree Eq (toTable Page.decodeToken r) (toTable Page.decodeToken r')
  | .token, r, r' => ∀ key, Agree Eq (Page.decodeToken key r) (Page.decodeToken key r')
  | .exchanges, r, r' => Agree Eq (toTable Page.decodeExchange r) (toTable Page.decodeExchange r')
  | .exchange, r, r' => ∀ key, Agree Eq (Page.decodeExchange key r) (Page.decodeExchange key r')
  | .free, r, r' => ∀ depth, Agree Eq (r.toJson depth) (r'.toJson depth)

/-- Containers that are read alike in a role; no scalar is read from either of them. -/
structure Unchanged (role : Role) (r r' : Raw) : Prop where
  container : r.isContainer = true
  container' : r'.isContainer = true
  agrees : role.Agrees r r'

abbrev Revised (role : Role) : List (String × Raw) → List (String × Raw) → Prop :=
  Json.Revised role.fields fun name => (role.member (some name)).Unchanged

end Role

theorem Role.Unchanged.agree_toOption {role : Role} {r r' : Raw} {α : Type}
    {decode : Raw → Decoded α} (h : role.Unchanged r r')
    (hdecode : Agree Eq (decode r) (decode r')) :
    Agree Eq (Raw.toOption decode r) (Raw.toOption decode r') :=
  Json.agree_toOption (ne_null_of_isContainer h.container) (ne_null_of_isContainer h.container')
    hdecode

namespace Role.Revised

variable {role : Role} {fields fields' : List (String × Raw)} {α : Type}
  {decode : Raw → Decoded α} {default : α}

theorem scalar (h : role.Revised fields fields') (hdecode : RefusesContainers decode)
    (name : String) : Agree Eq (field? fields name decode) (field? fields' name decode) :=
  h.field rfl fun _ _ hsame =>
    hsame.agree_toOption (hdecode.agree hsame.container hsame.container')

theorem scalarOr (h : role.Revised fields fields') (hdecode : RefusesContainers decode)
    (name : String) (default : α) :
    Agree Eq (fieldOr fields name decode default) (fieldOr fields' name decode default) :=
  h.field rfl fun _ _ hsame =>
    (hsame.agree_toOption (hdecode.agree hsame.container hsame.container')).map _

theorem nested (h : role.Revised fields fields') (name : String) (part : Role)
    (hpart : role.member (some name) = part)
    (hdecode : ∀ r r', part.Agrees r r' → Agree Eq (decode r) (decode r')) :
    Agree Eq (field? fields name decode) (field? fields' name decode) :=
  h.field rfl fun r r' hsame => hsame.agree_toOption (hdecode r r' (hpart ▸ hsame.agrees))

theorem nestedOr (h : role.Revised fields fields') (name : String) (part : Role)
    (hpart : role.member (some name) = part)
    (hdecode : ∀ r r', part.Agrees r r' → Agree Eq (decode r) (decode r')) :
    Agree Eq (fieldOr fields name decode default) (fieldOr fields' name decode default) :=
  h.field rfl fun r r' hsame => (hsame.agree_toOption (hdecode r r' (hpart ▸ hsame.agrees))).map _

/-- What is kept without being interpreted is changed by order only, or in its values. -/
theorem extra (h : role.Revised fields fields')
    (hfree : ∀ name, name ∉ role.fields → role.member (some name) = .free) (depth : Nat) :
    Agree Eq (extraOf role.fields depth fields) (extraOf role.fields depth fields') := by
  have hdistinct : ((fields.filter fun member => !role.fields.contains member.1).map
      Prod.fst).Nodup := h.distinct.sublist (List.filter_sublist.map Prod.fst)
  have hentries : Agree SameTable
      ((fields.filter fun member => !role.fields.contains member.1).mapM
        (entryOf fun _ => Raw.toJson depth))
      ((fields'.filter fun member => !role.fields.contains member.1).mapM
        (entryOf fun _ => Raw.toJson depth)) := by
    cases h.change with
    | dropped hname before after =>
      rw [List.filter_append, List.filter_append, List.filter_cons_of_neg (by simpa using hname)]
      exact (Agree.refl _).mono fun _ _ same => congrArg Keyed.ofList same
    | permuted hperm => exact agree_entries_perm (hperm.filter _) hdistinct
    | @changed name _ _ hsame before after =>
      rw [List.filter_append, List.filter_append]
      by_cases hname : name ∈ role.fields
      · rw [List.filter_cons_of_neg (by simpa using hname),
          List.filter_cons_of_neg (by simpa using hname)]
        exact (Agree.refl _).mono fun _ _ same => congrArg Keyed.ofList same
      · rw [List.filter_cons_of_pos (by simpa using hname),
          List.filter_cons_of_pos (by simpa using hname)]
        have hagrees := hsame.agrees
        rw [hfree name hname] at hagrees
        exact agree_entries_changed (hagrees depth) _ _
  exact hentries.bind fun entries entries' htable => .ok htable

end Role.Revised

variable {r r' : Raw}

theorem agree_leg (h : Agree Role.leg.Revised (r.toFields Leg.fieldNames 0)
    (r'.toFields Leg.fieldNames 0)) : Agree Eq (Leg.decode r) (Leg.decode r') := by
  refine h.bind fun fields fields' hrevised => ?_
  refine (hrevised.scalar toText_refusesContainers _).next fun tokenId => ?_
  refine (hrevised.scalarOr toFloat_refusesContainers _ _).next fun amount => ?_
  refine (hrevised.scalar toText_refusesContainers _).next fun fromAddr => ?_
  refine (hrevised.scalar toText_refusesContainers _).next fun toAddr => ?_
  exact .refl _

theorem agree_project (key : String)
    (h : Agree Role.project.Revised (r.toFields Page.projectFields Page.projectFields.length)
      (r'.toFields Page.projectFields Page.projectFields.length)) :
    Agree Eq (Page.decodeProject key r) (Page.decodeProject key r') := by
  refine h.bind fun fields fields' hrevised => ?_
  have text := hrevised.scalar toText_refusesContainers
  exact (text _).next fun id => (text _).next fun chain => (text _).next fun logoUrl =>
    (text _).next fun name => (text _).next fun siteUrl => .refl _

theorem agree_token (key : String)
    (h : Agree Role.token.Revised (r.toFields Page.tokenFields Page.tokenFields.length)
      (r'.toFields Page.tokenFields Page.tokenFields.length)) :
    Agree Eq (Page.decodeToken key r) (Page.decodeToken key r') := by
  refine h.bind fun fields fields' hrevised => ?_
  have text := hrevised.scalar toText_refusesContainers
  have flag := hrevised.scalar toBool_refusesContainers
  have number := hrevised.scalar toFloat_refusesContainers
  have whole := hrevised.scalar toInt64_refusesContainers
  refine (text _).next fun id => (text _).next fun chain => (text _).next fun name => ?_
  refine (text _).next fun symbol => (text _).next fun displaySymbol => ?_
  refine (text _).next fun optimizedSymbol => (whole _).next fun decimals => ?_
  refine (text _).next fun logoUrl => (text _).next fun protocolId => ?_
  refine (number _).next fun price => (number _).next fun priceChange => ?_
  refine (flag _).next fun isVerified => (flag _).next fun isCore => ?_
  refine (flag _).next fun isWallet => (flag _).next fun isScam => ?_
  refine (flag _).next fun isSuspicious => (number _).next fun creditScore => ?_
  exact (number _).next fun totalSupply => (number _).next fun timeAt => .refl _

theorem agree_exchange (key : String)
    (h : Agree Role.exchange.Revised (r.toFields Page.exchangeFields Page.exchangeFields.length)
      (r'.toFields Page.exchangeFields Page.exchangeFields.length)) :
    Agree Eq (Page.decodeExchange key r) (Page.decodeExchange key r') := by
  refine h.bind fun fields fields' hrevised => ?_
  have text := hrevised.scalar toText_refusesContainers
  have flag := hrevised.scalar toBool_refusesContainers
  refine (text _).next fun id => (text _).next fun name => (text _).next fun logoUrl => ?_
  refine (flag _).next fun isDeposit => (flag _).next fun isCollect => ?_
  refine (flag _).next fun isGasTopUp => (flag _).next fun isVault => ?_
  exact (flag _).next fun isWithdraw => .refl _

theorem agree_tx (depth : Nat) (h : Agree Role.tx.Revised r.toMembers r'.toMembers) :
    Agree Eq (TxInfo.decode depth r) (TxInfo.decode depth r') := by
  refine (agree_toRecord h _).bind fun fields fields' (hrevised : Role.tx.Revised _ _) => ?_
  have text := hrevised.scalar toText_refusesContainers
  have number := hrevised.scalar toFloat_refusesContainers
  refine (text _).next fun fromAddr => (text _).next fun toAddr => (text _).next fun name => ?_
  refine (number _).next fun usdGasFee => (number _).next fun ethGasFee => ?_
  exact (hrevised.extra (fun name hname => rfl) _).next fun extra => .refl _

theorem member_item_free {name : String} (h : name ∉ Item.fieldNames) :
    Role.item.member (some name) = .free := by
  rw [Role.member.eq_def]
  split <;> simp_all [Item.fieldNames]

theorem agree_item (depth : Nat) (h : Agree Role.item.Revised r.toMembers r'.toMembers) :
    Agree Eq (Item.decode depth r) (Item.decode depth r') := by
  refine (agree_toRecord h _).bind fun fields fields' (hrevised : Role.item.Revised _ _) => ?_
  have text := hrevised.scalar toText_refusesContainers
  refine (text _).next fun id => (text _).next fun chain => (text _).next fun cateId => ?_
  refine (hrevised.scalar toFloat_refusesContainers _).next fun timeAt => ?_
  refine (hrevised.scalarOr toBool_refusesContainers _ _).next fun isScam => ?_
  refine (text _).next fun otherAddr => (text _).next fun projectId => ?_
  refine (hrevised.nestedOr "sends" .legs rfl fun _ _ h => h).next fun sends => ?_
  refine (hrevised.nestedOr "receives" .legs rfl fun _ _ h => h).next fun receives => ?_
  refine (hrevised.nested "token_approve" .free rfl fun _ _ h => h _).next fun tokenApprove => ?_
  refine (hrevised.nestedOr "tx" .tx rfl fun _ _ h => h _).next fun tx => ?_
  exact (hrevised.extra (fun name => member_item_free) _).next fun extra => .refl _

theorem agree_page (h : Agree Role.page.Revised (r.toFields Page.fieldNames 0)
    (r'.toFields Page.fieldNames 0)) : Agree Eq (Page.decode r) (Page.decode r') := by
  refine h.bind fun fields fields' hrevised => ?_
  refine (hrevised.nestedOr "history_list" .items rfl fun _ _ h => h _).next fun items => ?_
  refine (hrevised.nestedOr "project_dict" .projects rfl fun _ _ h => h).next fun projects => ?_
  refine (hrevised.nestedOr "token_dict" .tokens rfl fun _ _ h => h).next fun tokens => ?_
  exact (hrevised.nestedOr "cex_dict" .exchanges rfl fun _ _ h => h).next fun exchanges => .refl _

/-- An object whose members are changed is read alike in every role. -/
theorem agrees_of_members {role : Role} {members members' : List (Option String × Raw)}
    (h : Agree role.Revised (Raw.object members true).toMembers
      (Raw.object members' true).toMembers) :
    role.Agrees (.object members true) (.object members' true) := by
  cases role with
  | page => exact agree_page (agree_toRecord h _)
  | items => exact fun depth => .error _ _
  | item => exact fun depth => agree_item depth h
  | legs => exact .error _ _
  | leg => exact agree_leg (agree_toRecord h _)
  | tx => exact fun depth => agree_tx depth h
  | projects => exact agree_toTable h fun key _ _ hproject => hproject.agrees key
  | project => exact fun key => agree_project key (agree_toRecord h _)
  | tokens => exact agree_toTable h fun key _ _ htoken => htoken.agrees key
  | token => exact fun key => agree_token key (agree_toRecord h _)
  | exchanges => exact agree_toTable h fun key _ _ hexchange => hexchange.agrees key
  | exchange => exact fun key => agree_exchange key (agree_toRecord h _)
  | free => exact agree_toJson_object h fun _ _ _ hfree => hfree.agrees

theorem agree_toFields_element {role : Role} {before : List Raw} (after : List Raw)
    (helement : role.element before.length = role.member role.fields[before.length]?)
    (hfields : role.fields.Nodup) (required : Nat)
    (h : (role.element before.length).Unchanged r r') :
    Agree role.Revised ((Raw.array (before ++ r :: after) true).toFields role.fields required)
      ((Raw.array (before ++ r' :: after) true).toFields role.fields required) :=
  agree_toFields_array hfields required before after fun name hname => by
    rwa [helement, hname] at h

/-- An array with another item is read alike in every role. -/
theorem agrees_of_element {role : Role} (before after : List Raw)
    (h : (role.element before.length).Unchanged r r') :
    role.Agrees (.array (before ++ r :: after) true) (.array (before ++ r' :: after) true) := by
  cases role with
  | page => exact agree_page (agree_toFields_element after rfl (by decide) 0 h)
  | items => exact fun depth => agree_toList_array (h.agrees depth) before after
  | item => exact fun depth => .error _ _
  | legs => exact agree_toList_array h.agrees before after
  | leg => exact agree_leg (agree_toFields_element after rfl (by decide) 0 h)
  | tx => exact fun depth => .error _ _
  | projects => exact .error _ _
  | project => exact fun key => agree_project key (agree_toFields_element after rfl (by decide) _ h)
  | tokens => exact .error _ _
  | token => exact fun key => agree_token key (agree_toFields_element after rfl (by decide) _ h)
  | exchanges => exact .error _ _
  | exchange =>
    exact fun key => agree_exchange key (agree_toFields_element after rfl (by decide) _ h)
  | free => exact agree_toJson_array h.agrees before after

theorem Edit.isDistinct {role : Role} (h : Edit role r r') (hdistinct : r.isDistinct = true) :
    r'.isDistinct = true := by
  induction h with
  | @drop _ name _ before after =>
    obtain ⟨hnames, hmembers⟩ := isDistinct_object.mp hdistinct
    have hfewer : (before ++ after).Sublist (before ++ (some name, Raw.null) :: after) :=
      (List.sublist_cons_self _ after).append_left before
    exact isDistinct_object.mpr ⟨hnames.sublist (hfewer.filterMap _), fun member hmember =>
      hmembers member (hfewer.mem hmember)⟩
  | permute hperm =>
    obtain ⟨hnames, hmembers⟩ := isDistinct_object.mp hdistinct
    exact isDistinct_object.mpr ⟨(hperm.filterMap _).nodup_iff.mp hnames, fun member hmember =>
      hmembers member (hperm.mem_iff.mpr hmember)⟩
  | @member _ name r r' before after _ ih =>
    obtain ⟨hnames, hmembers⟩ := isDistinct_object.mp hdistinct
    simp only [List.forall_mem_append, List.forall_mem_cons] at hmembers
    rw [List.filterMap_append] at hnames
    refine isDistinct_object.mpr ⟨by rw [List.filterMap_append]; exact hnames, ?_⟩
    simp only [List.forall_mem_append, List.forall_mem_cons]
    exact ⟨hmembers.1, ih hmembers.2.1, hmembers.2.2⟩
  | element before after _ ih =>
    have hitems := isDistinct_array.mp hdistinct
    simp only [List.forall_mem_append, List.forall_mem_cons] at hitems
    refine isDistinct_array.mpr ?_
    simp only [List.forall_mem_append, List.forall_mem_cons]
    exact ⟨hitems.1, ih hitems.2.1, hitems.2.2⟩

/-- What is edited is read as before. -/
theorem Edit.unchanged {role : Role} (h : Edit role r r') (hdistinct : r.isDistinct = true) :
    role.Unchanged r r' := by
  -- By induction on the place of the change: what stands around it is read alike in its role.
  induction h with
  | drop hname before after =>
    exact ⟨rfl, rfl, agrees_of_members
      (agree_toMembers_dropped hname (isDistinct_object.mp hdistinct).1)⟩
  | permute hperm =>
    exact ⟨rfl, rfl, agrees_of_members
      (agree_toMembers_permuted hperm (isDistinct_object.mp hdistinct).1)⟩
  | @member role name r r' before after h ih =>
    obtain ⟨hnames, hmembers⟩ := isDistinct_object.mp hdistinct
    have hvalue := ih (hmembers (name, r) (by simp))
    exact ⟨rfl, rfl, agrees_of_members
      (agree_toMembers_changed (fun key hkey => hkey ▸ hvalue) hnames)⟩
  | @element role r r' before after h ih =>
    have hitem := ih (isDistinct_array.mp hdistinct r (by simp))
    exact ⟨rfl, rfl, agrees_of_element before after hitem⟩

/-- However often a page without repeated names is edited, it is read as the same page, or as none
if it was none. -/
theorem edits_leave_page {body body' : String} {tree tree' : Raw}
    (hbody : Json.readTree? body = some tree) (hbody' : Json.readTree? body' = some tree')
    (hdistinct : tree.isDistinct = true) (hedits : Relation.ReflTransGen (Edit .page) tree tree') :
    (Page.ofText body').toOption = (Page.ofText body).toOption := by
  rw [Page.ofText, Page.ofText, hbody, hbody']
  clear hbody hbody'
  dsimp only
  have hboth : tree'.isDistinct = true ∧
      (Page.decode tree').toOption = (Page.decode tree).toOption := by
    induction hedits with
    | refl => exact ⟨hdistinct, rfl⟩
    | tail _ hedit ih =>
      have hagrees : Agree Eq _ _ := (hedit.unchanged ih.1).agrees
      exact ⟨hedit.isDistinct ih.1, hagrees.toOption_eq.symm.trans ih.2⟩
  exact hboth.2

/-- A page with fields that are `null`, and a member that is kept. -/
def fullBody : String :=
  "\x7b\"history_list\":[\x7b\"id\":\"1\",\"tx\":null,\"note\":\x7b\"b\":true,\"a\":null\x7d," ++
    "\"sends\":[\x7b\"token_id\":\"t\",\"amount\":null\x7d]\x7d],\"token_dict\":null\x7d"

def bareBody : String :=
  "\x7b\"history_list\":[\x7b\"note\":\x7b\"a\":null,\"b\":true\x7d,\"id\":\"1\"," ++
    "\"sends\":[\x7b\"token_id\":\"t\"\x7d]\x7d]\x7d"

def pageTree (item others : List (Option String × Raw)) : Raw :=
  .object ((some "history_list", .array [.object item true] true) :: others) true

def idMember : Option String × Raw := (some "id", .text "1")

def noteMember (members : List (Option String × Raw)) : Option String × Raw :=
  (some "note", .object members true)

def sendsMember (leg : List (Option String × Raw)) : Option String × Raw :=
  (some "sends", .array [.object leg true] true)

def aMember : Option String × Raw := (some "a", .null)

def bMember : Option String × Raw := (some "b", .bool true)

def tokenMember : Option String × Raw := (some "token_id", .text "t")

def fullTree : Raw :=
  pageTree [idMember, (some "tx", .null), noteMember [bMember, aMember],
    sendsMember [tokenMember, (some "amount", .null)]] [(some "token_dict", .null)]

def bareTree : Raw :=
  pageTree [noteMember [aMember, bMember], idMember, sendsMember [tokenMember]] []

theorem edits_fullTree : Relation.ReflTransGen (Edit .page) fullTree bareTree := by
  have hitem : ∀ {item item' others}, Edit .item (.object item true) (.object item' true) →
      Edit .page (pageTree item others) (pageTree item' others) :=
    fun h => .member [] _ (.element [] [] h)
  refine .head (.drop (by decide) [_] []) ?_
  refine .head (hitem (.drop (by decide) [idMember] _)) ?_
  refine .head (hitem (.member [_, _] [] (.element [] [] (.drop (by decide) [tokenMember] [])))) ?_
  refine .head (hitem (.member [_] [_] (.permute (.swap aMember bMember [])))) ?_
  exact .single (hitem (.permute (.swap _ _ _)))

theorem readTree_fullBody : Json.readTree? fullBody = some fullTree := by cbv

theorem readTree_bareBody : Json.readTree? bareBody = some bareTree := by cbv

/-- Three fields are dropped, and two objects put in another order. -/
theorem edits_leave_fullBody :
    Json.readTree? fullBody = some fullTree ∧ Json.readTree? bareBody = some bareTree ∧
    fullTree.isDistinct = true ∧ Relation.ReflTransGen (Edit .page) fullTree bareTree ∧
    (Page.ofText bareBody).toOption = (Page.ofText fullBody).toOption ∧
    (Page.ofText fullBody).toOption.map (fun p => p.items.map fun i => (i.id, i.sends.length)) =
      some [(some "1", 1)] := by
  have hdistinct : fullTree.isDistinct = true := by decide +kernel
  refine ⟨readTree_fullBody, readTree_bareBody, hdistinct, edits_fullTree, ?_, by decide +kernel⟩
  exact edits_leave_page readTree_fullBody readTree_bareBody hdistinct edits_fullTree

end AddressLedger.Feed
