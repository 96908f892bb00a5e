import AddressLedger.Proofs.Catalog.Writes
import Mathlib.Data.List.Perm.Basic

/-!
# The order of a page's entries

The dictionaries of a page have no order of their own, and two of their entries may be records with
one key: an entry's own id comes before the key under which it stands, and the addresses of
exchanges are told apart in lower case only. Writes under different keys may be made in any order.
Of the writes under one key the last one stays. So the order of the entries does not matter exactly
if entries with one key hold the same.
-/
namespace AddressLedger.Store.Table

variable {α : Type} {keyOf : α → String} {a b : α}

theorem put_of_lt (h : keyOf a < keyOf b) (rows : List α) :
    put keyOf a (b :: rows) = a :: b :: rows := by
  rw [put, if_pos h]

theorem put_of_gt (h : keyOf b < keyOf a) (rows : List α) :
    put keyOf a (b :: rows) = b :: put keyOf a rows := by
  rw [put, if_neg (String.lt_asymm h), if_neg fun same => String.lt_irrefl _ (same ▸ h)]

theorem put_comm_of_lt (h : keyOf a < keyOf b) (rows : List α) :
    put keyOf a (put keyOf b rows) = put keyOf b (put keyOf a rows) := by
  induction rows with
  | nil => rw [put, put, put_of_lt h, put_of_gt h, put]
  | cons first rest ih => grind [put, put_of_lt, put_of_gt, String.lt_trans, String.lt_asymm]

/-- Rows with different keys may be written in any order. -/
theorem put_comm (h : keyOf a ≠ keyOf b) (rows : List α) :
    put keyOf a (put keyOf b rows) = put keyOf b (put keyOf a rows) := by
  by_cases hlt : keyOf a < keyOf b
  · exact put_comm_of_lt hlt rows
  · exact (put_comm_of_lt (Std.lt_of_le_of_ne hlt h.symm) rows).symm

end AddressLedger.Store.Table

namespace AddressLedger.Store
open Catalog

variable {r r' : Record}

theorem ofRecord_storedRecord (r : Record) : Key.ofRecord (storedRecord r) = Key.ofRecord r := by
  cases r with
  | counterparty e => simp [Key.ofRecord, Key.of, storedRecord, storedExchange, Record.kind,
      Record.id]
  | _ => rfl

theorem ofRecord_ne_of_kind (h : r.kind ≠ r'.kind) :
    Key.ofRecord r ≠ Key.ofRecord r' := by
  intro same
  cases r <;> cases r' <;> simp_all [Key.ofRecord, Key.of, Record.kind]

theorem putRecord_congr (s : Store) (h : storedRecord r = storedRecord r') :
    s.putRecord r = s.putRecord r' := by
  cases r <;> cases r' <;> simp_all [storedRecord, putRecord]

/-- Records with different keys may be written in any order. -/
theorem putRecord_comm (s : Store) (h : Key.ofRecord r ≠ Key.ofRecord r') :
    (s.putRecord r).putRecord r' = (s.putRecord r').putRecord r := by
  cases r <;> cases r' <;> try rfl
  all_goals
    simp only [putRecord, Store.mk.injEq, true_and, and_true]
    refine Table.put_comm (fun same => h ?_) _
    simpa [Key.ofRecord, Key.of, Record.kind, Record.id, storedToken, storedExchange]
      using same.symm

end AddressLedger.Store

namespace AddressLedger.Feed.Page
open Catalog Store

/-- Whether pages hold the same entries in their dictionaries, each in an order of its own. -/
structure SameEntries (p p' : Page) : Prop where
  projects : p'.projects.Perm p.projects
  tokens : p'.tokens.Perm p.tokens
  exchanges : p'.exchanges.Perm p.exchanges

/-- Whether entries with one key hold the same, as far as a table keeps it. -/
def IsConsistent (p : Page) : Prop :=
  ∀ r ∈ p.records, ∀ r' ∈ p.records, Key.ofRecord r = Key.ofRecord r' →
    storedRecord r = storedRecord r'

def last? (p : Page) (key : Key) : Option Record := lastUnder? key p.records

variable {p p' : Page} {r : Record}

theorem SameEntries.records (h : p.SameEntries p') : p'.records.Perm p.records :=
  ((h.projects.map _).append (h.tokens.map _)).append (h.exchanges.map _)

theorem last?_of_eq (before after : List Record) (h : p.records = before ++ r :: after)
    (hafter : ∀ r' ∈ after, Key.ofRecord r' ≠ Key.ofRecord r) :
    p.last? (Key.ofRecord r) = some r := by
  have hnone : lastUnder? (Key.ofRecord r) after = none := by simpa [lastUnder?] using hafter
  rw [lastUnder?] at hnone
  simp [last?, lastUnder?, h, List.find?_append, hnone]

theorem exists_perm_ending {α : Type} {entry : α} {entries : List α} (h : entry ∈ entries) :
    ∃ others, (others ++ [entry]).Perm entries := by
  obtain ⟨before, after, rfl⟩ := List.append_of_mem h
  refine ⟨before ++ after, ?_⟩
  simpa using (List.perm_append_singleton entry after).append_left before

/-- Every entry is the last one with its key in some order. -/
theorem exists_last (hr : r ∈ p.records) :
    ∃ p', p.SameEntries p' ∧ p'.last? (Key.ofRecord r) = some r := by
  simp only [records, List.mem_append, List.mem_map] at hr
  -- The entry goes to the end of its own dictionary; those after it are of other kinds.
  rcases hr with (⟨entry, hentry, rfl⟩ | ⟨entry, hentry, rfl⟩) | ⟨entry, hentry, rfl⟩
  · obtain ⟨others, horder⟩ := exists_perm_ending hentry
    refine ⟨{ p with projects := others ++ [entry] }, ⟨horder, .refl _, .refl _⟩, ?_⟩
    refine last?_of_eq (others.map (.project ·.2))
      (p.tokens.map (.token ·.2) ++ p.exchanges.map (.counterparty ·.2)) (by simp [records]) ?_
    simp only [List.mem_append, List.mem_map]
    rintro _ (⟨_, -, rfl⟩ | ⟨_, -, rfl⟩) <;> exact ofRecord_ne_of_kind (by simp [Record.kind])
  · obtain ⟨others, horder⟩ := exists_perm_ending hentry
    refine ⟨{ p with tokens := others ++ [entry] }, ⟨.refl _, horder, .refl _⟩, ?_⟩
    refine last?_of_eq (p.projects.map (.project ·.2) ++ others.map (.token ·.2))
      (p.exchanges.map (.counterparty ·.2)) (by simp [records]) ?_
    simp only [List.mem_map]
    rintro _ ⟨_, -, rfl⟩
    exact ofRecord_ne_of_kind (by simp [Record.kind])
  · obtain ⟨others, horder⟩ := exists_perm_ending hentry
    refine ⟨{ p with exchanges := others ++ [entry] }, ⟨.refl _, .refl _, horder⟩, ?_⟩
    exact last?_of_eq
      (p.projects.map (.project ·.2) ++ p.tokens.map (.token ·.2) ++
        others.map (.counterparty ·.2)) [] (by simp [records]) (by simp)

end AddressLedger.Feed.Page

namespace AddressLedger.Catalog
open Feed Service Store

variable {φ : Type} {source : PageSource φ} {r r' : Record}

theorem upserted_comm (s : Shared φ) (h : Key.ofRecord r ≠ Key.ofRecord r') :
    upserted (upserted s r) r' = upserted (upserted s r') r := by
  simp only [upserted, Shared.forget, putRecord_comm s.store h, List.filter_filter, Bool.and_comm]

theorem upserted_congr (s : Shared φ) (h : storedRecord r = storedRecord r') :
    upserted s r = upserted s r' := by
  have hkey : Key.ofRecord r = Key.ofRecord r' := by
    rw [← ofRecord_storedRecord r, h, ofRecord_storedRecord]
  rw [upserted, upserted, putRecord_congr s.store h, hkey]

/-- Entries that do not contradict each other are written in any order. -/
theorem foldl_upserted_of_perm {p : Page} (h : p.IsConsistent) {records : List Record}
    (horder : records.Perm p.records) (s : Shared φ) :
    records.foldl upserted s = p.records.foldl upserted s := by
  refine horder.foldl_eq' (fun r hr r' hr' s => ?_) s
  by_cases hkey : Key.ofRecord r = Key.ofRecord r'
  · have hstored := h r (horder.mem_iff.1 hr) r' (horder.mem_iff.1 hr') hkey
    rw [upserted_congr s hstored, upserted_congr _ hstored]
  · exact upserted_comm s hkey

/-- A closed store refuses the first write, if there is any. -/
theorem exec_upsertAll_closed (records : List Record) {s : Shared φ}
    (hs : s.store.isOpen = false) : s.exec source (upsertAll records).run =
      (if records = [] then .ok () else .error .unavailable, s) := by
  cases records with
  | nil => rfl
  | cons record records =>
    rw [upsertAll, upsert, Shared.exec_run_bind, Shared.exec_run_bind, Shared.exec_run_ask,
      Shared.exec_call, Shared.perform, Store.writeRecord]
    simp [Store.whenOpen, hs]

theorem record?_upsertPage (source : PageSource φ) (p : Page) {s : Shared φ}
    (hs : s.store.isOpen = true) (key : Key) :
    (s.exec source (upsertPage p).run).2.store.record? key =
      ((p.last? key).map storedRecord).or (s.store.record? key) := by
  rw [exec_upsertPage p hs, foldl_upserted_store, record?_foldl_putRecord, Page.last?]

theorem exec_upsertPage_of_sameEntries (source : PageSource φ) {p p' : Page}
    (hconsistent : p.IsConsistent) (hsame : p.SameEntries p') (s : Shared φ) :
    s.exec source (upsertPage p').run = s.exec source (upsertPage p).run := by
  have horder := hsame.records
  cases hs : s.store.isOpen with
  | true =>
    rw [exec_upsertPage p' hs, exec_upsertPage p hs, foldl_upserted_of_perm hconsistent horder,
      horder.length_eq]
  | false =>
    have hnil : p'.records = [] ↔ p.records = [] := by
      rw [← List.length_eq_zero_iff, horder.length_eq, List.length_eq_zero_iff]
    simp only [upsertPage, Shared.exec_run_bind, exec_upsertAll_closed _ hs, hnil,
      horder.length_eq]

/-- The order in which the entries of a page are written does not matter, to the answer and to all
that calls share, if entries with one key hold the same. In any order an open store keeps of the
entries with one key the last; so the order matters to its rows if two of them hold different
things. -/
theorem order_of_entries_is_immaterial_iff (p : Page) :
    (p.IsConsistent → ∀ p', p.SameEntries p' → ∀ {φ : Type} (source : PageSource φ)
      (s : Shared φ), s.exec source (upsertPage p').run = s.exec source (upsertPage p).run) ∧
    ∀ {φ : Type} (source : PageSource φ) (s : Shared φ), s.store.isOpen = true →
      (∀ p', p.SameEntries p' → ∀ key,
        (s.exec source (upsertPage p').run).2.store.record? key =
          ((p'.last? key).map storedRecord).or (s.store.record? key)) ∧
      ((∀ p', p.SameEntries p' → ∀ key,
        (s.exec source (upsertPage p').run).2.store.record? key =
          (s.exec source (upsertPage p).run).2.store.record? key) → p.IsConsistent) := by
  refine ⟨fun hconsistent p' hsame φ source s => ?_, fun source s hs => ⟨fun p' _ key => ?_, ?_⟩⟩
  · exact exec_upsertPage_of_sameEntries source hconsistent hsame s
  · exact record?_upsertPage source p' hs key
  · intro himmaterial r hr r' hr' hkey
    have hrow : ∀ r ∈ p.records,
        (s.exec source (upsertPage p).run).2.store.record? (Key.ofRecord r) =
          some (storedRecord r) := by
      intro r hr
      obtain ⟨p', hsame, hlast⟩ := Page.exists_last hr
      rw [← himmaterial p' hsame, record?_upsertPage source p' hs, hlast]
      rfl
    have hsame := hrow r hr
    rw [hkey, hrow r' hr'] at hsame
    exact (Option.some.inj hsame).symm

def oldProject : Project := ⟨"uniswap", none, some "Old", none, none⟩

def newProject : Project := ⟨"uniswap", none, some "New", none, none⟩

/-- A page that knows one project under two keys, by one name. -/
def agreeingPage : Page := ⟨[], [("a", newProject), ("b", newProject)], [], []⟩

/-- The page over a store with an old name of its project. -/
theorem agreeingPage_in_any_order :
    agreeingPage.IsConsistent ∧
    agreeingPage.SameEntries { agreeingPage with projects := agreeingPage.projects.reverse } ∧
    let s : Shared Unit := ⟨Store.empty.putRecord (.project oldProject), [], 0, [], false, ()⟩
    s.store.isOpen = true ∧
    s.exec noPages
        (upsertPage { agreeingPage with projects := agreeingPage.projects.reverse }).run =
      s.exec noPages (upsertPage agreeingPage).run ∧
    (s.exec noPages (upsertPage agreeingPage).run).2.store.record? ⟨.project, "uniswap"⟩ =
      some (.project newProject) := by
  have hconsistent : agreeingPage.IsConsistent := by
    intro r hr r' hr' _
    simp only [agreeingPage, Page.records, List.map_cons, List.map_nil, List.append_nil,
      List.mem_cons, List.not_mem_nil, or_false, or_self] at hr hr'
    rw [hr, hr']
  have hsame : agreeingPage.SameEntries
      { agreeingPage with projects := agreeingPage.projects.reverse } :=
    ⟨List.reverse_perm _, .refl _, .refl _⟩
  obtain ⟨hequal, hrows⟩ := order_of_entries_is_immaterial_iff agreeingPage
  exact ⟨hconsistent, hsame, rfl, hequal hconsistent _ hsame _ _,
    (hrows noPages _ rfl).1 agreeingPage ⟨.refl _, .refl _, .refl _⟩ _⟩

/-- The body of a page that knows one project under two keys, by two names. -/
def disagreeingBody : String :=
  "\x7b\"project_dict\":\x7b\"a\":\x7b\"id\":\"uniswap\",\"name\":\"Old\"\x7d," ++
    "\"b\":\x7b\"id\":\"uniswap\",\"name\":\"New\"\x7d\x7d\x7d"

theorem ofText_disagreeingBody : ∃ p, Page.ofText disagreeingBody = .ok p ∧
    p.projects = [("a", oldProject), ("b", newProject)] ∧ p.tokens = [] ∧ p.exchanges = [] := by
  have hread : (Page.ofText disagreeingBody).toOption.map
      (fun p => (p.projects, p.tokens.isEmpty, p.exchanges.isEmpty)) =
        some ([("a", oldProject), ("b", newProject)], true, true) := by
    decide +kernel
  cases hbody : Page.ofText disagreeingBody with
  | error e => simp [hbody, Except.toOption] at hread
  | ok p => exact ⟨p, rfl, by simpa [hbody, Except.toOption] using hread⟩

/-- The last name stays, whichever it is. -/
theorem two_orders_leave_two_names : ∃ p p', Page.ofText disagreeingBody = .ok p ∧
    p.SameEntries p' ∧
    let s : Shared Unit := ⟨Store.empty, [], 0, [], false, ()⟩
    (s.exec noPages (upsertPage p).run).2.store.record? ⟨.project, "uniswap"⟩ =
      some (.project newProject) ∧
    (s.exec noPages (upsertPage p').run).2.store.record? ⟨.project, "uniswap"⟩ =
      some (.project oldProject) ∧
    (s.exec noPages (upsertPage p').run).2.store.projects ≠
      (s.exec noPages (upsertPage p).run).2.store.projects := by
  obtain ⟨⟨items, projects, tokens, exchanges⟩, hbody, rfl, rfl, rfl⟩ := ofText_disagreeingBody
  refine ⟨_, ⟨items, [("b", newProject), ("a", oldProject)], [], []⟩, hbody,
    ⟨.swap _ _ _, .refl _, .refl _⟩, rfl, rfl, ?_⟩
  intro hsame
  have hnames : ["Old"] = ["New"] := congrArg (List.filterMap Project.name) hsame
  simp at hnames

end AddressLedger.Catalog
