import AddressLedger.Proofs.Catalog.Phase
import AddressLedger.Proofs.Catalog.Resolution
import AddressLedger.Proofs.Catalog.Writes
import Mathlib

/-!
# The cache cannot be seen

Calls of one catalog, one after the other, over a store that nothing else writes. Each call leaves
a cache that holds stored records only, and writes to the store what it is to write and nothing
else. So a lookup at any time gives, for each id, the record that was written last under its key,
or the one from the beginning if there was no such write.
-/
namespace AddressLedger.Catalog
open Feed Service Store

variable {φ α : Type} {source : PageSource φ} {st : Store} {g : Nat} {s : Shared φ} {key : Key}

/-- Whether a table keeps a number as it is: there is none, or one that is neither not-a-number nor
the negative zero. -/
def IsKept (x : Option Float) : Prop := ∀ y, x = some y → y.isNaN = false ∧ y ≠ -0

theorem storedNumber_of_isKept {x : Option Float} (h : IsKept x) : storedNumber x = x := by
  cases x with
  | none => rfl
  | some y =>
    obtain ⟨hnumber, hsign⟩ := h y rfl
    simp only [storedNumber, hnumber, Bool.false_eq_true, if_false]
    split
    · rename_i hzero
      obtain ⟨-, -, rfl | ⟨rfl, -⟩ | ⟨rfl, -⟩⟩ := Float.beq_iff_ne_nan_and_eq.1 hzero
      · rfl
      · rfl
      · exact absurd rfl hsign
    · rfl

def Record.HasKeptNumbers : Record → Prop
  | .token t => IsKept t.price ∧ IsKept t.priceChange ∧ IsKept t.creditScore ∧
      IsKept t.totalSupply ∧ IsKept t.timeAt
  | _ => True

/-- A record with the id of its key: an address is written in lower case. -/
def Record.withKeyId : Record → Record
  | .counterparty e => .counterparty { e with address := Text.lower e.address }
  | r => r

theorem storedRecord_of_hasKeptNumbers {r : Record} (h : r.HasKeptNumbers) :
    storedRecord r = r.withKeyId := by
  cases r with
  | token t =>
    obtain ⟨hprice, hchange, hscore, hsupply, htime⟩ := h
    simp only [storedRecord, storedToken, Record.withKeyId, storedNumber_of_isKept, *]
  | _ => rfl

/-- What may happen to a catalog that is used by one caller at a time. -/
inductive CatalogUse
  | call (c : CatalogCall)
  | resolveTokens (ids : List String)
  | resolveProjects (ids : List String)
  | resolveExchanges (addresses : List String)
  /-- The cache loses the record of a key by itself. -/
  | expire (key : Key)

namespace CatalogUse

def exec (source : PageSource φ) (s : Shared φ) : CatalogUse → Shared φ
  | call c => (s.exec source c.procedure.run).2
  | resolveTokens ids => (s.exec source (Catalog.resolveTokens ids).run).2
  | resolveProjects ids => (s.exec source (Catalog.resolveProjects ids).run).2
  | resolveExchanges addresses => (s.exec source (Catalog.resolveExchanges addresses).run).2
  | expire key => s.forget key

def written : CatalogUse → List Record
  | call (.upsert record) => [record]
  | call (.upsertPage p) => p.records
  | _ => []

end CatalogUse

theorem IsOver.forget (h : IsOver st g s) (key : Key) : IsOver st g (s.forget key) := by
  refine ⟨h.store, h.generation, fun asked r hr => ?_⟩
  rw [Shared.cached?_forget] at hr
  split at hr
  · cases hr
  · exact h.current asked r hr

theorem IsOver.upserted (h : IsOver st g s) (record : Record) :
    IsOver (st.putRecord record) (g + 1) (upserted s record) := by
  obtain ⟨rfl, rfl, hcurrent⟩ := h
  refine ⟨rfl, rfl, fun asked r hr => ?_⟩
  rw [Catalog.upserted, Shared.cached?_forget] at hr
  split at hr
  · cases hr
  · rename_i hne
    rw [record?_putRecord_of_ne (Ne.symm hne)]
    exact hcurrent asked r hr

theorem IsOver.foldl_upserted (records : List Record) (h : IsOver st g s) :
    IsOver (records.foldl putRecord st) (g + records.length)
      (records.foldl Catalog.upserted s) := by
  induction records generalizing st g s with
  | nil => exact h
  | cons record records ih =>
    rw [List.length_cons, Nat.add_comm records.length, ← Nat.add_assoc]
    exact ih (h.upserted record)

theorem reads_forget (key : Key) : Reads source st g (.call (.forget key)) fun _ => True :=
  fun _ hs => ⟨hs.forget key, trivial⟩

theorem reads_forgetAllOf (kind : Kind) (ids : List String) :
    Reads source st g (forgetAllOf kind ids) fun _ => True := by
  induction ids with
  | nil => exact Reads.done trivial
  | cons id ids ih => exact (reads_forget _).bind fun _ _ => ih

theorem reads_refresh (hopen : st.isOpen = true) (kind : Kind) (ids : List String) :
    Reads source st g (refresh kind ids).run fun result => ∃ found, result = .ok found ∧
      Holds st kind (ids.map fun id => (Key.of kind id).id) found := by
  apply Reads.run_bind_ok (Reads.run_lift (reads_forgetAllOf kind ids))
  intro _ _
  exact reads_resolve hopen kind ids

theorem reads_found {x : StoreProcedure Resolved} {post : Except StoreError Resolved → Prop}
    (hx : Reads source st g x.run post) :
    Reads source st g (do return .found (← x) : StoreProcedure CatalogAnswer).run
      fun _ => True :=
  hx.run_bind (fun _ _ => Reads.done trivial) fun _ _ => trivial

/-- A use leaves stored records only in the cache, and writes what it is to write. -/
theorem CatalogUse.exec_isOver (use : CatalogUse) (hopen : st.isOpen = true)
    (h : IsOver st g s) : ∃ g', IsOver (use.written.foldl putRecord st) g' (use.exec source s) := by
  have hopen' : s.store.isOpen = true := by rw [h.store, hopen]
  cases use with
  | call c =>
    cases c with
    | upsert record =>
      refine ⟨g + 1, ?_⟩
      rw [exec, CatalogCall.procedure, Shared.exec_run_bind, exec_upsert record hopen']
      exact h.upserted record
    | upsertPage p =>
      refine ⟨g + p.records.length, ?_⟩
      rw [exec, CatalogCall.procedure, Shared.exec_run_bind, exec_upsertPage p hopen']
      exact h.foldl_upserted p.records
    | resolve kind ids => exact ⟨g, (reads_found (reads_resolve hopen kind ids) s h).1⟩
    | refresh kind ids => exact ⟨g, (reads_found (reads_refresh hopen kind ids) s h).1⟩
    | invalidateAll =>
      obtain ⟨rfl, rfl, -⟩ := h
      exact ⟨s.generation + 1, rfl, rfl, fun key r hr => by cases hr⟩
  | resolveTokens ids => exact ⟨g, (reads_resolveTokens hopen ids s h).1⟩
  | resolveProjects ids => exact ⟨g, (reads_resolveProjects hopen ids s h).1⟩
  | resolveExchanges addresses => exact ⟨g, (reads_resolveExchanges hopen addresses s h).1⟩
  | expire key => exact ⟨g, h.forget key⟩

def afterUses (source : PageSource φ) (s : Shared φ) (uses : List CatalogUse) : Shared φ :=
  uses.foldl (CatalogUse.exec source) { s with cache := [] }

theorem afterUses_isOver (source : PageSource φ) (s : Shared φ) (hopen : s.store.isOpen = true)
    (uses : List CatalogUse) :
    ∃ g, IsOver ((uses.flatMap CatalogUse.written).foldl putRecord s.store) g
      (afterUses source s uses) := by
  induction uses using List.reverseRecOn with
  | nil => exact ⟨s.generation, rfl, rfl, fun key r hr => by cases hr⟩
  | append_singleton uses use ih =>
    obtain ⟨g, h⟩ := ih
    rw [afterUses, List.foldl_concat, List.flatMap_append, List.foldl_append,
      List.flatMap_singleton]
    exact use.exec_isOver (by rw [foldl_putRecord_isOpen, hopen]) h

/-- What is to be found under a key after some uses: the record that was written last, as the store
keeps it, or else the one from the beginning. -/
def lastRecord? (st : Store) (uses : List CatalogUse) (key : Key) : Option Record :=
  ((lastUnder? key (uses.flatMap CatalogUse.written)).map storedRecord).or (st.record? key)

/-- Whether a lookup succeeds and gives the values of some keys, and nothing for other keys. -/
def Gives (keys : List String) (value : String → Option α)
    (result : Except StoreError (List (String × α))) : Prop :=
  ∃ found, result = .ok found ∧
    ∀ id, Keyed.get? id found = if id ∈ keys then value id else none

/-- Whatever a catalog was used for before, a lookup gives the record that was written last under
the key of each id, with all fields as they were written, but for the letters of an address. -/
theorem lookup_gives_last_written (source : PageSource φ) (s : Shared φ)
    (hopen : s.store.isOpen = true) (uses : List CatalogUse) (kind : Kind) (ids : List String) :
    let now := afterUses source s uses
    let last := lastRecord? s.store uses
    Gives (ids.map fun id => (Key.of kind id).id) (fun id => last ⟨kind, id⟩)
        (now.exec source (resolve kind ids).run).1 ∧
      Gives (ids.map fun id => (Key.of kind id).id) (fun id => last ⟨kind, id⟩)
        (now.exec source (refresh kind ids).run).1 ∧
      Gives ids (fun id => (last ⟨.token, id⟩).bind Record.token?)
        (now.exec source (resolveTokens ids).run).1 ∧
      Gives ids (fun id => (last ⟨.project, id⟩).bind Record.project?)
        (now.exec source (resolveProjects ids).run).1 ∧
      Gives (ids.map Text.lower) (fun id => (last ⟨.counterparty, id⟩).bind Record.counterparty?)
        (now.exec source (resolveExchanges ids).run).1 ∧
      ∀ key r, lastUnder? key (uses.flatMap CatalogUse.written) = some r → r.HasKeptNumbers →
        last key = some r.withKeyId := by
  intro now last
  obtain ⟨g, hover⟩ := afterUses_isOver source s hopen uses
  have hopen' : ((uses.flatMap CatalogUse.written).foldl putRecord s.store).isOpen = true := by
    rw [foldl_putRecord_isOpen, hopen]
  have hlast : ∀ key, ((uses.flatMap CatalogUse.written).foldl putRecord s.store).record? key =
      last key := record?_foldl_putRecord _ _
  refine ⟨?_, ?_, ?_, ?_, ?_, fun key r hr hnumbers => ?_⟩
  · obtain ⟨found, hfound, hholds⟩ := (reads_resolve hopen' kind ids now hover).2
    exact ⟨found, hfound, fun id => by rw [hholds.value id, hlast]⟩
  · obtain ⟨found, hfound, hholds⟩ := (reads_refresh hopen' kind ids now hover).2
    exact ⟨found, hfound, fun id => by rw [hholds.value id, hlast]⟩
  · obtain ⟨found, hfound, hvalue⟩ := (reads_resolveTokens hopen' ids now hover).2
    exact ⟨found, hfound, fun id => by rw [hvalue id, hlast]⟩
  · obtain ⟨found, hfound, hvalue⟩ := (reads_resolveProjects hopen' ids now hover).2
    exact ⟨found, hfound, fun id => by rw [hvalue id, hlast]⟩
  · obtain ⟨found, hfound, hvalue⟩ := (reads_resolveExchanges hopen' ids now hover).2
    exact ⟨found, hfound, fun id => by rw [hvalue id, hlast]⟩
  · change ((lastUnder? key _).map storedRecord).or _ = _
    rw [hr, Option.map_some, storedRecord_of_hasKeptNumbers hnumbers]
    rfl

def exchangeNamed (address name : String) : Record :=
  .counterparty ⟨address, none, some name, none, none, none, none, none, none⟩

def exchangeCatalog : Shared Unit :=
  ⟨Store.empty.putRecord (exchangeNamed "0xab" "old"), [], 0, [], false, ()⟩

/-- Looks the address up, so that it is cached, and renames it. -/
def lookupAndRename : List CatalogUse :=
  [.call (.resolve .counterparty ["0xAB"]), .call (.upsert (exchangeNamed "0xAB" "new"))]

theorem lookup_after_renaming :
    exchangeCatalog.store.isOpen = true ∧
      ∃ found, ((afterUses noPages exchangeCatalog lookupAndRename).exec noPages
          (resolve .counterparty ["0xaB"]).run).1 = .ok found ∧
        Keyed.get? "0xab" found = some (exchangeNamed "0xab" "new") := by
  have hasked : (Key.of .counterparty "0xaB").id = "0xab" := by decide +kernel
  have hwritten : Text.lower "0xAB" = "0xab" := by decide +kernel
  have hkey : Key.ofRecord (exchangeNamed "0xAB" "new") = ⟨.counterparty, "0xab"⟩ :=
    congrArg (Key.mk .counterparty) hwritten
  have hunder : lastUnder? ⟨.counterparty, "0xab"⟩ (lookupAndRename.flatMap CatalogUse.written) =
      some (exchangeNamed "0xAB" "new") := by
    change [exchangeNamed "0xAB" "new"].find? _ = _
    rw [List.find?_cons_of_pos (by simpa using hkey)]
  have hlast : lastRecord? exchangeCatalog.store lookupAndRename ⟨.counterparty, "0xab"⟩ =
      some (exchangeNamed "0xab" "new") := by
    rw [lastRecord?, hunder]
    change some (Record.counterparty (storedExchange _)) = _
    rw [storedExchange, hwritten]
    rfl
  obtain ⟨found, hfound, hvalue⟩ := (lookup_gives_last_written noPages exchangeCatalog rfl
    lookupAndRename .counterparty ["0xaB"]).1
  refine ⟨rfl, found, hfound, (hvalue "0xab").trans ?_⟩
  rw [List.map_singleton, hasked, if_pos (List.mem_singleton_self _)]
  exact hlast

end AddressLedger.Catalog
