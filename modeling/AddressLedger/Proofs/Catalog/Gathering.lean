import AddressLedger.Proofs.Catalog.Phase
import AddressLedger.Proofs.Catalog.Writes
import AddressLedger.Proofs.Store.Records
import Mathlib.Data.List.Induction

/-!
# What a lookup gathers

A lookup asks the cache for each of its keys once, reads the rest from the store, caches what it has
read, and gives back what it has gathered, the later of two records with one key. This is kept
beside the phases, which tell what a call owes to the cache.
-/
namespace AddressLedger

/-- The value that stands last under a key. -/
def Keyed.last? {κ α : Type} [DecidableEq κ] (key : κ) (entries : List (κ × α)) : Option α :=
  (entries.reverse.find? fun entry => entry.1 = key).map Prod.snd

namespace Keyed

variable {κ α : Type} [DecidableEq κ] {key : κ} {entries more : List (κ × α)} {value : α}

theorem last?_concat (entries : List (κ × α)) (entry : κ × α) :
    last? key (entries ++ [entry]) = if entry.1 = key then some entry.2 else last? key entries := by
  rw [last?, List.reverse_concat, List.find?_cons]
  by_cases h : entry.1 = key
  · simp [h]
  · simp [h, last?]

theorem mem_of_last? (h : last? key entries = some value) : (key, value) ∈ entries := by
  obtain ⟨entry, hfound, rfl⟩ := Option.map_eq_some_iff.1 h
  obtain rfl : entry.1 = key := by simpa using List.find?_some hfound
  exact List.mem_reverse.1 (List.mem_of_find?_eq_some hfound)

theorem last?_eq_none_iff : last? key entries = none ↔ key ∉ entries.map Prod.fst := by
  rw [last?, Option.map_eq_none_iff, List.find?_eq_none]
  simp only [List.mem_reverse, decide_eq_true_eq, List.mem_map, not_exists, not_and]

theorem last?_append :
    last? key (entries ++ more) = (last? key more).or (last? key entries) := by
  rw [last?, List.reverse_append, List.find?_append, Option.map_or]
  rfl

theorem last?_map_key {κ' : Type} [DecidableEq κ'] {f : κ → κ'} (hf : Function.Injective f)
    (key : κ) (entries : List (κ × α)) :
    last? (f key) (entries.map fun entry => (f entry.1, entry.2)) = last? key entries := by
  induction entries using List.reverseRecOn with
  | nil => rfl
  | append_singleton entries entry ih =>
    rw [List.map_append, List.map_singleton, last?_concat, last?_concat, ih]
    exact if_congr hf.eq_iff rfl rfl

/-- In a table of entries the last one with a key is found. -/
theorem get?_ofList_eq_last? (key : String) (entries : List (String × α)) :
    get? key (ofList entries) = last? key entries := by
  induction entries using List.reverseRecOn with
  | nil => rfl
  | append_singleton entries entry ih =>
    rw [last?_concat, ofList, List.foldl_append, List.foldl_cons, List.foldl_nil, get?_put]
    exact if_congr Iff.rfl rfl ih

end Keyed

theorem nodup_eraseDups {α : Type} [DecidableEq α] (xs : List α) : xs.eraseDups.Nodup := by
  induction xs using List.reverseRecOn with
  | nil => exact List.nodup_nil
  | append_singleton xs x ih =>
    rw [List.eraseDups_append]
    by_cases h : x ∈ xs
    · simpa [List.removeAll, h] using ih
    · have hnew : ∀ y ∈ xs, y ≠ x := fun y hy e => h (e ▸ hy)
      simpa [List.removeAll, h, List.nodup_append] using ⟨ih, by simp [List.eraseDups_cons], hnew⟩

namespace Catalog
open Feed Service Store

structure Gathering where
  /-- The keys of the records that it is to give back. -/
  wanted : List Key
  /-- The keys that it has asked the cache for. -/
  looked : List Key
  /-- The keys that it has asked the store for. -/
  asked : List Key
  /-- The records that it was given, the latest at the end. -/
  entries : List (Key × Record)
  /-- The keys of the records that it has read and not cached yet. -/
  unkept : List Key

namespace Gathering

variable {x : Gathering}

def start (wanted : List Key) : Gathering := ⟨wanted, [], [], [], []⟩

def next (x : Gathering) : Made → Gathering
  | ⟨.cached key, answer⟩ =>
    { x with looked := key :: x.looked,
             entries := x.entries ++ (answer.map fun r => (key, r)).toList }
  | ⟨.readRecords kind ids, .ok records⟩ =>
    { x with asked := x.asked ++ ids.map (Key.of kind), entries := x.entries ++ keyed kind records,
             unkept := x.unkept ++ records.map fun r => Key.of kind r.id }
  | ⟨.keep key _, _⟩ => { x with unkept := x.unkept.filter (· ≠ key) }
  | _ => x

/-- No key is looked up in the cache twice, none is read before, only what was read is cached, and
all of it before the generation is looked at again. -/
def admits (x : Gathering) : Access → Prop
  | .cached key => key ∉ x.looked
  | .readRecords kind ids => ∀ id ∈ ids, Key.of kind id ∈ x.looked
  | .keep key record => (key, record) ∈ x.entries
  | .generation => x.unkept = []
  | _ => True

/-- Whether records are what a call is to give back after all that it has gathered. -/
structure Gives (x : Gathering) (found : Resolved) : Prop where
  kept : x.unkept = []
  value : ∀ key ∈ x.wanted, Keyed.get? key.id found = Keyed.last? key x.entries
  complete : ∀ key ∈ x.wanted, key ∈ x.entries.map Prod.fst ∨ key ∈ x.asked

end Gathering

/-- What calls gather, as a monitor. -/
def gathering : Monitor Gathering := ⟨Gathering.next, Gathering.admits⟩

def CatalogCall.wanted : CatalogCall → List Key
  | .resolve kind ids => ids.map (Key.of kind)
  | .refresh kind ids => ids.map (Key.of kind)
  | _ => []

variable {kind : Kind} {x : Gathering}

theorem gathers_of_writesCatalog {a : Access} (ha : WritesCatalog a) :
    gathering.admits x a ∧ ∀ answer, gathering.next x ⟨a, answer⟩ = x := by
  cases a with
  | writeRecord record => exact ⟨trivial, fun _ => rfl⟩
  | bumpGeneration => exact ⟨trivial, fun _ => rfl⟩
  | forget key => exact ⟨trivial, fun _ => rfl⟩
  | _ => exact ha.elim

theorem upsert_gathers (record : Record) (x : Gathering) :
    (upsert record).run.Follows gathering (fun _ y => y = x) x :=
  (upsert_within record).follows fun _ => gathers_of_writesCatalog

theorem upsertPage_gathers (p : Page) (x : Gathering) :
    (upsertPage p).run.Follows gathering (fun _ y => y = x) x :=
  (upsertPage_within p).follows fun _ => gathers_of_writesCatalog

theorem invalidateAll_gathers (x : Gathering) :
    invalidateAll.Follows gathering (fun _ y => y = x) x :=
  ⟨trivial, fun _ => ⟨trivial, fun _ => rfl⟩⟩

theorem consult_gathers (kind : Kind) {ids : List String} (hids : ids.Nodup) {x : Gathering}
    (hnew : ∀ id ∈ ids, ⟨kind, id⟩ ∉ x.looked) :
    (consult kind ids).Follows gathering (fun found y =>
      y = { x with looked := (ids.map (Key.mk kind)).reverse ++ x.looked,
                   entries := x.entries ++ found.1.map fun entry => (⟨kind, entry.1⟩, entry.2) } ∧
        ∀ id, id ∈ ids ↔ id ∈ found.1.map Prod.fst ∨ id ∈ found.2) x := by
  induction ids generalizing x with
  | nil => exact ⟨by simp, by simp⟩
  | cons id ids ih =>
    obtain ⟨hid, hids⟩ := List.nodup_cons.1 hids
    have hrest : ∀ more, ∀ id' ∈ ids,
        (⟨kind, id'⟩ : Key) ∉ ({ x with looked := ⟨kind, id⟩ :: x.looked, entries := more } :
          Gathering).looked := by
      intro more id' hid' hmem
      obtain heq | hmem := List.mem_cons.1 hmem
      · exact hid ((Key.mk.inj heq).2 ▸ hid')
      · exact hnew id' (.tail _ hid') hmem
    refine ⟨hnew id (.head _), fun answer => ?_⟩
    cases answer with
    | some record =>
      refine Procedure.Follows.bind (p := consult kind ids) ((ih hids (hrest _)).mono ?_)
      rintro found y ⟨rfl, hfound⟩
      refine ⟨by simp, fun asked => ?_⟩
      rw [List.mem_cons, hfound asked, List.map_cons, List.mem_cons, or_assoc]
    | none =>
      refine Procedure.Follows.bind (p := consult kind ids) ((ih hids (hrest _)).mono ?_)
      rintro found y ⟨rfl, hfound⟩
      refine ⟨by simp, fun asked => ?_⟩
      rw [List.mem_cons, hfound asked, List.mem_cons, or_left_comm]

theorem readAll_gathers (kind : Kind) (pieces : List (List String)) {x : Gathering}
    (h : ∀ id ∈ pieces.flatten, Key.of kind id ∈ x.looked) :
    (readAll kind pieces).run.Follows gathering (fun result y => match result with
      | .ok records =>
        y = { x with asked := x.asked ++ pieces.flatten.map (Key.of kind),
                     entries := x.entries ++ keyed kind records,
                     unkept := x.unkept ++ records.map fun r => Key.of kind r.id }
      | .error _ => True) x := by
  induction pieces generalizing x with
  | nil => simp [readAll, Procedure.Follows, keyed]
  | cons ids rest ih =>
    rw [List.flatten_cons, List.forall_mem_append] at h
    refine Procedure.Follows.run_bind ⟨h.1, fun answer => ?_⟩
    cases answer with
    | error e => trivial
    | ok records =>
      apply Procedure.Follows.run_bind
      apply (ih (x := gathering.next x ⟨.readRecords kind ids, .ok records⟩) h.2).mono
      intro result y hy
      cases result with
      | error e => trivial
      | ok more =>
        apply hy.trans
        simp [keyed, gathering, Gathering.next]

theorem keepAll_gathers (kind : Kind) (records : List Record) {x : Gathering}
    (h : keyed kind records ⊆ x.entries) :
    (keepAll kind records).Follows gathering
      (fun _ y => y = { x with
        unkept := x.unkept.filter (· ∉ records.map fun r => Key.of kind r.id) }) x := by
  induction records generalizing x with
  | nil =>
    have hall : x.unkept.filter (· ∉ ([] : List Record).map fun r => Key.of kind r.id) = x.unkept :=
      List.filter_eq_self.2 (by simp)
    rw [hall]
    rfl
  | cons record records ih =>
    rw [keyed, List.map_cons, List.cons_subset] at h
    refine ⟨h.1, fun _ => (ih (x := gathering.next x ⟨.keep _ record, ()⟩) h.2).mono ?_⟩
    rintro _ y rfl
    simp [gathering, Gathering.next, List.filter_filter, Bool.and_comm]

theorem forgetAllOf_gathers (kind : Kind) (ids : List String) (x : Gathering) :
    (forgetAllOf kind ids).Follows gathering (fun _ y => y = x) x := by
  induction ids with
  | nil => rfl
  | cons id ids ih => exact ⟨trivial, fun _ => ih⟩

theorem settle_gathers (kind : Kind) (p : Pending) {x : Gathering}
    (hloaded : keyed kind p.loaded ⊆ x.entries)
    (hunkept : x.unkept = p.loaded.map fun r => Key.of kind r.id) :
    (settle kind p).Follows gathering
      (fun found y => y = { x with unkept := [] } ∧
        found = Keyed.ofList (p.hits ++ p.loaded.map fun r => ((Key.of kind r.id).id, r))) x := by
  apply Procedure.Follows.bind
  apply (keepAll_gathers kind p.loaded hloaded).mono
  rintro _ y rfl
  have hnone : x.unkept.filter (· ∉ p.loaded.map fun r => Key.of kind r.id) = [] := by
    rw [hunkept, List.filter_eq_nil_iff]
    simp
  refine Procedure.Follows.bind ⟨hnone, fun found => ?_⟩
  simp only [Procedure.Follows, hnone]
  by_cases hsame : found = p.generation
  · simp only [hsame, ne_eq, not_true_eq_false, if_false]
    exact ⟨rfl, rfl⟩
  · simp only [hsame, ne_eq, not_false_eq_true, if_true]
    apply Procedure.Follows.bind
    apply (forgetAllOf_gathers kind _ _).mono
    rintro _ y rfl
    exact ⟨rfl, rfl⟩

/-- What a lookup gives back of what it has gathered. -/
theorem gives_ofList {ids : List String} {hits : Resolved} {loaded : List Record}
    {looked asked : List Key}
    (h : ∀ id ∈ ids, (Key.of kind id).id ∈ hits.map Prod.fst ∨ Key.of kind id ∈ asked) :
    Gathering.Gives ⟨ids.map (Key.of kind), looked, asked,
        hits.map (fun entry => (⟨kind, entry.1⟩, entry.2)) ++ keyed kind loaded, []⟩
      (Keyed.ofList (hits ++ loaded.map fun r => ((Key.of kind r.id).id, r))) := by
  have hentries : hits.map (fun entry => ((⟨kind, entry.1⟩ : Key), entry.2)) ++ keyed kind loaded =
      (hits ++ loaded.map fun r => ((Key.of kind r.id).id, r)).map
        fun entry => (⟨kind, entry.1⟩, entry.2) := by
    rw [List.map_append, List.map_map, keyed]
    congr 2
    funext r
    rw [Function.comp_apply, ← of_eq]
  refine ⟨rfl, fun key hkey => ?_, fun key hkey => ?_⟩
  · obtain ⟨id, -, rfl⟩ := List.mem_map.1 hkey
    rw [Keyed.get?_ofList_eq_last?, hentries, of_eq,
      Keyed.last?_map_key fun a b h => (Key.mk.inj h).2]
  · obtain ⟨id, hid, rfl⟩ := List.mem_map.1 hkey
    refine (h id hid).imp_left fun hmem => ?_
    rw [List.map_append, List.mem_append, List.map_map]
    obtain ⟨entry, hentry, heq⟩ := List.mem_map.1 hmem
    refine .inl (List.mem_map.2 ⟨entry, hentry, ?_⟩)
    rw [Function.comp_apply, heq, ← of_eq]

theorem gives_hits {ids : List String} {hits : Resolved} {looked : List Key}
    (h : ∀ id ∈ ids, (Key.of kind id).id ∈ hits.map Prod.fst) :
    Gathering.Gives ⟨ids.map (Key.of kind), looked, [],
        hits.map (fun entry => (⟨kind, entry.1⟩, entry.2)), []⟩ (Keyed.ofList hits) := by
  have hgives : Gathering.Gives ⟨ids.map (Key.of kind), looked, [],
      hits.map (fun entry => (⟨kind, entry.1⟩, entry.2)) ++ keyed kind [], []⟩
      (Keyed.ofList (hits ++ ([] : List Record).map fun r => ((Key.of kind r.id).id, r))) :=
    gives_ofList fun id hid => .inl (h id hid)
  simpa [keyed] using hgives

theorem resolve_gathers (kind : Kind) (ids : List String) :
    (resolve kind ids).run.Follows gathering (fun result y => ∀ found, result = .ok found →
      y.Gives found) (.start (ids.map (Key.of kind))) := by
  have hkeys : ∀ id ∈ ids, (Key.of kind id).id ∈
      (ids.map fun id => (Key.of kind id).id).eraseDups := fun id hid =>
    List.mem_eraseDups.2 (List.mem_map_of_mem hid)
  have hkept : ∀ id ∈ (ids.map fun id => (Key.of kind id).id).eraseDups,
      Key.of kind id = ⟨kind, id⟩ := by
    intro id hid
    obtain ⟨asked, -, rfl⟩ := List.mem_map.1 (List.mem_eraseDups.1 hid)
    rw [of_id_of, ← of_eq]
  apply Procedure.Follows.run_bind
  apply Procedure.Follows.run_bind
  apply Procedure.Follows.run_lift
  apply (consult_gathers kind (nodup_eraseDups _) fun _ _ => List.not_mem_nil).mono
  rintro ⟨hits, misses⟩ y ⟨rfl, hfound⟩
  by_cases hnone : misses.isEmpty = true
  · simp only [hnone, if_true]
    rintro found hresult
    obtain rfl : Keyed.ofList hits = found := Except.ok.inj hresult
    have hgiven : ∀ id ∈ ids, (Key.of kind id).id ∈ hits.map Prod.fst := by
      intro id hid
      have hmem := (hfound _).1 (hkeys id hid)
      rw [List.isEmpty_iff.1 hnone] at hmem
      exact hmem.resolve_right List.not_mem_nil
    exact gives_hits hgiven
  · simp only [hnone]
    refine Procedure.Follows.run_bind (Procedure.Follows.run_lift ⟨rfl, fun begun => ?_⟩)
    apply Procedure.Follows.run_bind
    refine (readAll_gathers kind (chunked misses) fun id hid => ?_).mono fun result y hy => ?_
    · rw [flatten_chunked] at hid
      have hmem := (hfound id).2 (.inr hid)
      rw [hkept id hmem]
      exact List.mem_append_left _ (List.mem_reverse.2 (List.mem_map_of_mem hmem))
    · cases result with
      | error e => exact fun found hgiven => nomatch hgiven
      | ok loaded =>
        rw [flatten_chunked] at hy
        subst hy
        apply Procedure.Follows.run_lift
        refine (settle_gathers kind ⟨hits, loaded, begun⟩
          (fun _ h => List.mem_append_right _ h) rfl).mono ?_
        rintro _ y ⟨rfl, rfl⟩ found hgiven
        obtain rfl := Except.ok.inj hgiven
        apply gives_ofList
        intro id hid
        refine ((hfound _).1 (hkeys id hid)).imp_right fun hmiss => ?_
        exact List.mem_map.2 ⟨_, hmiss, of_id_of kind id⟩

theorem refresh_gathers (kind : Kind) (ids : List String) :
    (refresh kind ids).run.Follows gathering (fun result y => ∀ found, result = .ok found →
      y.Gives found) (.start (ids.map (Key.of kind))) := by
  apply Procedure.Follows.run_bind
  apply Procedure.Follows.run_lift
  apply (forgetAllOf_gathers kind ids _).mono
  rintro _ y rfl
  exact resolve_gathers kind ids

/-- A call gives back what it has gathered. -/
theorem CatalogCall.procedure_gathers (call : CatalogCall) :
    call.procedure.run.Follows gathering (fun result y => ∀ found, result = .ok (.found found) →
      y.Gives found) (.start call.wanted) := by
  cases call with
  | upsert record =>
    apply Procedure.Follows.run_bind
    apply (upsert_gathers record _).mono
    intro result y hy
    cases result <;> exact fun found hgiven => nomatch hgiven
  | upsertPage p =>
    apply Procedure.Follows.run_bind
    apply (upsertPage_gathers p _).mono
    intro result y hy
    cases result <;> exact fun found hgiven => nomatch hgiven
  | resolve kind ids =>
    apply Procedure.Follows.run_bind
    apply (resolve_gathers kind ids).mono
    intro result y hy
    cases result with
    | ok records => exact fun found hgiven => hy found (by cases hgiven; rfl)
    | error e => exact fun found hgiven => nomatch hgiven
  | refresh kind ids =>
    apply Procedure.Follows.run_bind
    apply (refresh_gathers kind ids).mono
    intro result y hy
    cases result with
    | ok records => exact fun found hgiven => hy found (by cases hgiven; rfl)
    | error e => exact fun found hgiven => nomatch hgiven
  | invalidateAll =>
    apply Procedure.Follows.run_bind
    apply Procedure.Follows.run_lift
    apply (invalidateAll_gathers _).mono
    exact fun _ _ _ found hgiven => nomatch hgiven

end Catalog

end AddressLedger
