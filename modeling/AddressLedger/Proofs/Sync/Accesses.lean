import AddressLedger.Proofs.Service.Monitor
import AddressLedger.Proofs.Sync.Effect

/-!
# The accesses of a run

A run asks for a page, writes its reference data, looks for the events of its items and inserts some
of these, and then goes on to the next page. So whatever keeps up with one page keeps up with a run.
-/
namespace AddressLedger.Sync
open Catalog Feed Service Store

variable {μ : Type} {m : Monitor μ} {owner : String} {mode : Mode} {items : List Item} {x y : μ}

def AreOf (owner : String) (items : List Item) (es : List Event) : Prop :=
  ∀ e ∈ es, ∃ i ∈ items, Event.ofItem? owner i = some e

/-- What a run does with a page before it inserts events. -/
def Studies (owner : String) (items : List Item) : Access → Prop
  | .hasEvent key => ∃ i ∈ items, ∃ e, Event.ofItem? owner i = some e ∧ e.key = key
  | a => WritesCatalog a

/-- A property of a monitor's state and of the number of new events that lasts from page to page. -/
structure Lasts (m : Monitor μ) (owner : String) (good : Nat → μ → Prop) : Prop where
  request : ∀ {count x}, good count x → ∀ cursor, m.admits x (.fetchPage owner cursor) ∧
    ∀ answer, good count (m.next x ⟨.fetchPage owner cursor, answer⟩)
  study : ∀ {count x}, good count x → ∀ cursor page a, Studies owner page.items a →
    let y := m.next x ⟨.fetchPage owner cursor, .ok page⟩
    m.admits y a ∧ ∀ answer, m.next y ⟨a, answer⟩ = y
  insertion : ∀ {count x}, good count x → ∀ cursor page es, AreOf owner page.items es →
    let y := m.next x ⟨.fetchPage owner cursor, .ok page⟩
    m.admits y (.insertEvents es) ∧
      ∀ answer : Except StoreError Nat,
        good (count + answer.toOption.getD 0) (m.next y ⟨.insertEvents es, answer⟩)

def HasFound (owner : String) (items : List Item) (x : μ) (result : Except StoreError Scan)
    (y : μ) : Prop :=
  y = x ∧ ∀ found, result = .ok found → AreOf owner items found.batch

theorem HasFound.of_error (failure : StoreError) : HasFound owner items x (.error failure) x :=
  ⟨rfl, fun _ h => nomatch h⟩

theorem HasFound.of_nil {found : Scan} (h : found.batch = []) :
    HasFound owner items x (.ok found) x := by
  refine ⟨rfl, fun found' hfound' e he => ?_⟩
  obtain rfl := Except.ok.inj hfound'
  rw [h] at he
  cases he

theorem HasFound.cons {result : Except StoreError Scan} (h : HasFound owner items x result y)
    (item : Item) : HasFound owner (item :: items) x result y := by
  rcases h with ⟨hsame, hfound⟩
  refine ⟨hsame, fun found heq e he => ?_⟩
  rcases hfound found heq e he with ⟨i, hi, hevent⟩
  exact ⟨i, List.mem_cons_of_mem _ hi, hevent⟩

theorem scan_follows (h : ∀ a, Studies owner items a →
      m.admits x a ∧ ∀ answer, m.next x ⟨a, answer⟩ = x) :
    (scan owner mode items).run.Follows m (HasFound owner items x) x := by
  induction items with
  | nil => exact .of_nil rfl
  | cons item items ih =>
    have hrest : (scan owner mode items).run.Follows m (HasFound owner (item :: items) x) x := by
      refine (ih fun a ha => h a ?_).mono fun result y h => h.cons item
      cases a with
      | hasEvent key =>
        rcases ha with ⟨i, hi, hevent⟩
        exact ⟨i, List.mem_cons_of_mem _ hi, hevent⟩
      | _ => exact ha
    rw [scan.eq_def]
    cases hevent : Event.ofItem? owner item with
    | none => simpa only [hevent] using hrest
    | some event =>
      simp only [hevent]
      apply Procedure.Follows.run_bind
      obtain ⟨hadmits, hsame⟩ := h (.hasEvent event.key)
        ⟨item, List.mem_cons_self, event, hevent, rfl⟩
      refine ⟨hadmits, fun answer => ?_⟩
      rw [hsame]
      cases answer with
      | error failure => exact .of_error failure
      | ok stored =>
        cases stored with
        | true =>
          cases mode with
          | catchUp => exact .of_nil rfl
          | fillGaps => exact hrest
        | false =>
          apply Procedure.Follows.run_bind
          apply hrest.mono
          rintro result y ⟨rfl, hfound⟩
          cases result with
          | error failure => exact .of_error failure
          | ok rest =>
            refine ⟨rfl, fun found h e he => ?_⟩
            obtain rfl := Except.ok.inj h
            rcases List.mem_cons.1 he with rfl | he
            · exact ⟨item, List.mem_cons_self, hevent⟩
            · exact hfound rest rfl e he

variable {good : Nat → μ → Prop} {count : Nat}

theorem processItems_follows (h : ∀ a, Studies owner items a →
      m.admits x a ∧ ∀ answer, m.next x ⟨a, answer⟩ = x)
    (hgood : good count x) (hinsert : ∀ es, AreOf owner items es → m.admits x (.insertEvents es) ∧
      ∀ answer : Except StoreError Nat,
        good (count + answer.toOption.getD 0) (m.next x ⟨.insertEvents es, answer⟩)) :
    (processItems owner mode items).run.Follows m (fun result y => match result with
      | .ok (new, _) => good (count + new) y
      | .error _ => good count y) x := by
  apply Procedure.Follows.run_bind
  apply (scan_follows h).mono
  rintro result y ⟨rfl, hfound⟩
  cases result with
  | error failure => exact hgood
  | ok found =>
    apply Procedure.Follows.run_bind
    rw [insertBatch]
    split
    · exact hgood
    · obtain ⟨hadmits, hnext⟩ := hinsert found.batch (hfound found rfl)
      refine ⟨hadmits, fun answer => ?_⟩
      cases answer with
      | error failure => exact hnext (.error failure)
      | ok new => exact hnext (.ok new)

/-- What lasts from page to page lasts to the end of a run. -/
theorem Lasts.pageFrom (h : Lasts m owner good) (mode : Mode) (cursor : Option Int64)
    (count : Nat) (hgood : good count x) :
    (pageFrom owner mode cursor count).Follows m (fun outcome y => good outcome.count y) x := by
  induction cursor, count using pageFrom.induct generalizing x with
  | case1 cursor count ih =>
    rw [Sync.pageFrom]
    apply Procedure.Follows.bind
    obtain ⟨hadmits, hnext⟩ := h.request hgood cursor
    refine ⟨hadmits, fun answer => ?_⟩
    cases answer with
    | error failure => exact hnext (.error failure)
    | ok page =>
      have hpage := hnext (.ok page)
      have hstudy := h.study hgood cursor page
      have hinsert := h.insertion hgood cursor page
      generalize m.next x ⟨.fetchPage owner cursor, .ok page⟩ = y at hpage hstudy hinsert ⊢
      have hlearn : ∀ a, WritesCatalog a → Studies owner page.items a := by
        intro a ha
        cases a with
        | hasEvent key => exact ha.elim
        | _ => exact ha
      apply Procedure.Follows.bind
      apply ((learn_within page).follows fun a ha => hstudy a (hlearn a ha)).mono
      rintro result y rfl
      cases result with
      | error failure => exact hpage
      | ok _ =>
        cases page.items.getLast? with
        | none => exact hpage
        | some oldest =>
          apply Procedure.Follows.bind
          apply (processItems_follows hstudy hpage hinsert).mono
          intro result z hz
          cases result with
          | error failure => exact hz
          | ok processed =>
            rcases processed with ⟨new, caughtUp⟩
            cases caughtUp with
            | true => exact hz
            | false =>
              cases oldest.timestamp with
              | none => exact hz
              | some next =>
                by_cases hbefore : isBefore next cursor = true
                · simp only [hbefore, dite_true]
                  exact ih new next hbefore hz
                · simp only [hbefore]
                  exact hz

def PagesFor (owner : String) : Access → Prop
  | .fetchPage address _ => address = owner
  | .hasEvent key => key.address = Text.lower owner
  | .insertEvents es => ∀ e ∈ es, e.address = Text.lower owner
  | a => WritesCatalog a

theorem pagesFor_of_studies {a : Access} (h : Studies owner items a) : PagesFor owner a := by
  cases a with
  | hasEvent key =>
    rcases h with ⟨i, -, e, hevent, rfl⟩
    exact Event.address_of_ofItem? hevent
  | fetchPage address cursor => exact h.elim
  | insertEvents es => exact h.elim
  | _ => exact h

theorem pagesFor_of_areOf {es : List Event} (h : AreOf owner items es) :
    PagesFor owner (.insertEvents es) := by
  intro e he
  rcases h e he with ⟨i, -, hevent⟩
  exact Event.address_of_ofItem? hevent

/-- A monitor that lets all accesses of an owner pass and is not moved by them. -/
theorem Lasts.of_pagesFor {good : μ → Prop} (h : ∀ x, good x → ∀ a, PagesFor owner a →
    m.admits x a ∧ ∀ answer, m.next x ⟨a, answer⟩ = x) : Lasts m owner fun _ => good where
  request {count x} hgood cursor := by
    obtain ⟨hadmits, hnext⟩ := h x hgood (.fetchPage owner cursor) rfl
    exact ⟨hadmits, fun answer => by rwa [hnext]⟩
  study {count x} hgood cursor page a ha := by
    obtain ⟨-, hnext⟩ := h x hgood (.fetchPage owner cursor) rfl
    rw [hnext]
    exact h x hgood a (pagesFor_of_studies ha)
  insertion {count x} hgood cursor page es hes := by
    obtain ⟨-, hnext⟩ := h x hgood (.fetchPage owner cursor) rfl
    obtain ⟨hadmits, hinsert⟩ := h x hgood (.insertEvents es) (pagesFor_of_areOf hes)
    rw [hnext]
    exact ⟨hadmits, fun answer => by rwa [hinsert]⟩

theorem pageFrom_within (owner : String) (mode : Mode) (cursor : Option Int64) (count : Nat) :
    (pageFrom owner mode cursor count).Within (PagesFor owner) := by
  have hlasts : Lasts (steady (PagesFor owner)) owner fun _ _ => True :=
    .of_pagesFor fun _ _ a ha => ⟨ha, fun _ => rfl⟩
  exact (hlasts.pageFrom mode cursor count (x := ()) trivial).within fun _ _ h => h

/-- A run takes the lock of its address in normal form, pages, and gives the lock back. -/
theorem syncAddress_follows {address : String} (h : Lasts m (normalizeAddress address) good)
    {x : μ} (hlock : m.admits x (.lock (normalizeAddress address)))
    (hgood : good 0 (m.next x ⟨.lock (normalizeAddress address), ()⟩))
    {post : SyncResult → μ → Prop} (hunlock : ∀ (r : SyncResult) (y : μ), good r.count y →
      m.admits y (.unlock (normalizeAddress address)) ∧
        post r (m.next y ⟨.unlock (normalizeAddress address), ()⟩)) (mode : Mode) :
    (syncAddress address mode).Follows m post x := by
  rw [syncAddress]
  apply Procedure.Follows.bind
  refine ⟨hlock, fun answer => ?_⟩
  apply Procedure.Follows.bind
  apply (h.pageFrom mode none 0 hgood).mono
  intro outcome y hy
  obtain ⟨hadmits, hpost⟩ := hunlock ⟨normalizeAddress address, outcome.count, outcome.failure⟩ y hy
  exact ⟨hadmits, fun _ => hpost⟩

end AddressLedger.Sync
