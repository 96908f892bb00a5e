import AddressLedger.Catalog.Lookup
import AddressLedger.Proofs.Service.Monitor

/-!
# Phases of a catalog call

How far a call has come with what it owes to the cache. A writer goes from its write to the store to
the generation and then to the cache. A lookup remembers the generation that it began with, what it
has read since and what it has cached; if the generation has moved on, it drops all it has cached.
-/
namespace AddressLedger.Catalog
open Feed Service Store

inductive CatalogCall
  | upsert (record : Record)
  | upsertPage (p : Page)
  | resolve (kind : Kind) (ids : List String)
  | refresh (kind : Kind) (ids : List String)
  | invalidateAll

inductive CatalogAnswer
  | finished
  | written (count : Nat)
  | found (records : Resolved)

def CatalogCall.procedure : CatalogCall → StoreProcedure CatalogAnswer
  | .upsert record => do
    Catalog.upsert record
    return .finished
  | .upsertPage p => return .written (← Catalog.upsertPage p)
  | .resolve kind ids => return .found (← Catalog.resolve kind ids)
  | .refresh kind ids => return .found (← Catalog.refresh kind ids)
  | .invalidateAll => do
    .lift Catalog.invalidateAll
    return .finished

inductive Phase
  | idle
  /-- A record was stored under the key. -/
  | written (key : Key)
  /-- The generation counts this write, and the key is still to be dropped. -/
  | counted (key : Key)
  /-- A lookup has read the generation, then some records, and has cached those under some keys. -/
  | looking (generation : Nat) (loaded : List (Key × Record)) (kept : List Key)
  /-- A lookup has found another generation and is to drop the keys. -/
  | dropping (keys : List Key)

namespace Phase

def next : Phase → Made → Phase
  | idle, ⟨.writeRecord record, .ok _⟩ => written (Key.ofRecord record)
  | idle, ⟨.generation, generation⟩ => looking generation [] []
  | written key, ⟨.bumpGeneration, _⟩ => counted key
  | looking generation loaded kept, ⟨.readRecords kind _, .ok records⟩ =>
    looking generation (loaded ++ records.map fun r => (Key.of kind r.id, r)) kept
  | looking generation loaded kept, ⟨.keep key _, _⟩ => looking generation loaded (key :: kept)
  | looking generation _ kept, ⟨.generation, found⟩ =>
    if found = generation then idle else dropping kept
  | dropping keys, ⟨.forget key, _⟩ => dropping (keys.filter (· ≠ key))
  | _, _ => idle

/-- The accesses that a call makes in each phase. -/
def admits : Phase → Access → Prop
  | idle, .writeRecord _ | idle, .bumpGeneration | idle, .forget _ | idle, .forgetAll
  | idle, .cached _ | idle, .generation => True
  | written _, .bumpGeneration => True
  | counted key, .forget forgotten => forgotten = key
  | looking _ _ kept, .readRecords _ _ => kept = []
  | looking _ loaded _, .keep key record => (key, record) ∈ loaded
  | looking _ _ _, .generation => True
  | dropping _, .forget _ => True
  | _, _ => False

/-- Whether a call is to drop a key, in view of the present generation. -/
def Owes (generation : Nat) (key : Key) : Phase → Prop
  | idle => False
  | written owed => owed = key
  | counted owed => owed = key
  | looking begun _ kept => begun < generation ∧ key ∈ kept
  | dropping keys => key ∈ keys

/-- Whether a call is to drop a key that it may have cached itself. -/
def Drops (generation : Nat) (key : Key) : Phase → Prop
  | looking begun _ kept => begun < generation ∧ key ∈ kept
  | dropping keys => key ∈ keys
  | _ => False

theorem Drops.owes {x : Phase} {generation : Nat} {key : Key} (h : x.Drops generation key) :
    x.Owes generation key := by
  cases x with
  | looking begun loaded kept => exact h
  | dropping keys => exact h
  | _ => exact h.elim

def IsQuiet : Phase → Prop
  | idle => True
  | dropping keys => keys = []
  | _ => False

theorem IsQuiet.not_owes {x : Phase} (h : x.IsQuiet) (generation : Nat) (key : Key) :
    ¬ x.Owes generation key := by
  cases x with
  | idle => exact id
  | dropping keys =>
    rw [show keys = [] from h]
    exact List.not_mem_nil
  | _ => exact h.elim

end Phase

def phases : Monitor Phase := ⟨Phase.next, Phase.admits⟩

theorem upsert_follows (record : Record) :
    (upsert record).run.Follows phases (fun _ x => x = .idle) .idle := by
  refine Procedure.Follows.run_bind ⟨trivial, fun answer => ?_⟩
  cases answer with
  | error e => rfl
  | ok u =>
    refine Procedure.Follows.run_bind ⟨trivial, fun _ => ?_⟩
    exact ⟨rfl, fun _ => rfl⟩

theorem upsertAll_follows (records : List Record) :
    (upsertAll records).run.Follows phases (fun _ x => x = .idle) .idle := by
  induction records with
  | nil => rfl
  | cons record records ih =>
    apply Procedure.Follows.run_bind
    apply (upsert_follows record).mono
    intro result x hx
    subst hx
    cases result with
    | ok u => exact ih
    | error e => rfl

theorem invalidateAll_follows : invalidateAll.Follows phases (fun _ x => x = .idle) .idle :=
  ⟨trivial, fun _ => ⟨trivial, fun _ => rfl⟩⟩

/-- Records with the keys under which a lookup caches them. -/
def keyed (kind : Kind) (records : List Record) : List (Key × Record) :=
  records.map fun r => (Key.of kind r.id, r)

theorem consult_follows (kind : Kind) (ids : List String) :
    (consult kind ids).Follows phases (fun _ x => x = .idle) .idle := by
  induction ids with
  | nil => rfl
  | cons id ids ih =>
    refine ⟨trivial, fun answer => ?_⟩
    cases answer with
    | some record => exact Procedure.Follows.bind (p := consult kind ids) (ih.mono fun _ _ hx => hx)
    | none => exact Procedure.Follows.bind (p := consult kind ids) (ih.mono fun _ _ hx => hx)

/-- Reading what is not cached takes a lookup no further than to remember what it has read. -/
theorem readAll_follows (kind : Kind) (pieces : List (List String)) (generation : Nat)
    (loaded : List (Key × Record)) :
    (readAll kind pieces).run.Follows phases (fun result x => match result with
      | .ok records => x = .looking generation (loaded ++ keyed kind records) []
      | .error _ => x = .idle) (.looking generation loaded []) := by
  induction pieces generalizing loaded with
  | nil => exact congrArg (Phase.looking generation · []) (List.append_nil loaded).symm
  | cons ids rest ih =>
    refine Procedure.Follows.run_bind ⟨rfl, fun answer => ?_⟩
    cases answer with
    | error e => rfl
    | ok records =>
      apply Procedure.Follows.run_bind
      apply (ih _).mono
      intro result x hx
      cases result with
      | error e => exact hx
      | ok more =>
        apply hx.trans
        rw [keyed, keyed, List.map_append, List.append_assoc]

theorem keepAll_follows (kind : Kind) (records : List Record) (generation : Nat)
    {loaded : List (Key × Record)} (h : keyed kind records ⊆ loaded) (kept : List Key) :
    (keepAll kind records).Follows phases
      (fun _ x => x = .looking generation loaded
        ((records.map fun r => Key.of kind r.id).reverse ++ kept))
      (.looking generation loaded kept) := by
  induction records generalizing kept with
  | nil => rfl
  | cons record records ih =>
    rw [keyed, List.map_cons, List.cons_subset] at h
    refine ⟨h.1, fun _ => ?_⟩
    refine (ih h.2 (Key.of kind record.id :: kept)).mono fun _ x hx => hx.trans ?_
    rw [List.map_cons, List.reverse_cons, List.append_assoc]
    rfl

theorem forgetAllOf_follows (kind : Kind) (ids : List String) {keys : List Key}
    (h : keys ⊆ ids.map (Key.of kind)) :
    (forgetAllOf kind ids).Follows phases (fun _ x => x.IsQuiet) (.dropping keys) := by
  induction ids generalizing keys with
  | nil => exact List.subset_nil.mp h
  | cons id ids ih =>
    refine ⟨trivial, fun _ => ih fun key hkey => ?_⟩
    have hne : key ≠ Key.of kind id := by simpa using (List.mem_filter.mp hkey).2
    exact ((List.mem_cons.mp (h (List.mem_filter.mp hkey).1)).resolve_left hne)

theorem forgetAllOf_follows_idle (kind : Kind) (ids : List String) :
    (forgetAllOf kind ids).Follows phases (fun _ x => x = .idle) .idle := by
  induction ids with
  | nil => rfl
  | cons id ids ih => exact ⟨trivial, fun _ => ih⟩

theorem settle_follows (kind : Kind) (p : Pending) :
    (settle kind p).Follows phases (fun _ x => x.IsQuiet)
      (.looking p.generation (keyed kind p.loaded) []) := by
  apply Procedure.Follows.bind
  apply (keepAll_follows kind p.loaded p.generation (List.Subset.refl _) []).mono
  intro _ x hx
  subst hx
  refine Procedure.Follows.bind ⟨trivial, fun found => ?_⟩
  simp only [Procedure.Follows, List.append_nil, phases, Phase.next]
  by_cases hsame : found = p.generation
  · simp only [hsame, ne_eq, not_true_eq_false, if_true, if_false]
    exact trivial
  · simp only [hsame, ne_eq, not_false_eq_true, if_true, if_false]
    refine Procedure.Follows.bind ((forgetAllOf_follows kind (p.loaded.map Record.id) ?_).mono
      fun _ x hx => hx)
    intro key hkey
    rw [List.map_map]
    exact List.mem_reverse.mp hkey

theorem load_follows (kind : Kind) (ids : List String) :
    (load kind ids).run.Follows phases (fun result x => match result with
      | .ok (.inr p) => x = .looking p.generation (keyed kind p.loaded) []
      | _ => x = .idle) .idle := by
  apply Procedure.Follows.run_bind
  apply Procedure.Follows.run_lift
  apply (consult_follows kind _).mono
  intro found x hx
  subst hx
  rcases found with ⟨hits, misses⟩
  by_cases hnone : misses.isEmpty = true
  · simp only [hnone, if_true]
    rfl
  · simp only [hnone]
    refine Procedure.Follows.run_bind (Procedure.Follows.run_lift ⟨trivial, fun begun => ?_⟩)
    apply Procedure.Follows.run_bind
    apply (readAll_follows kind _ begun []).mono
    intro result x hx
    cases result with
    | error e => exact hx
    | ok records => exact hx

theorem resolve_follows (kind : Kind) (ids : List String) :
    (resolve kind ids).run.Follows phases (fun _ x => x.IsQuiet) .idle := by
  apply Procedure.Follows.run_bind
  apply (load_follows kind ids).mono
  intro result x hx
  cases result with
  | error e =>
    obtain rfl : x = .idle := hx
    trivial
  | ok found =>
    cases found with
    | inl hits =>
      obtain rfl : x = .idle := hx
      trivial
    | inr p =>
      obtain rfl : x = .looking p.generation (keyed kind p.loaded) [] := hx
      exact Procedure.Follows.run_lift ((settle_follows kind p).mono fun _ x hx => hx)

theorem refresh_follows (kind : Kind) (ids : List String) :
    (refresh kind ids).run.Follows phases (fun _ x => x.IsQuiet) .idle := by
  apply Procedure.Follows.run_bind
  apply Procedure.Follows.run_lift
  apply (forgetAllOf_follows_idle kind ids).mono
  intro _ x hx
  subst hx
  exact resolve_follows kind ids

/-- Every call of a catalog keeps to the phases and ends owing nothing. -/
theorem CatalogCall.procedure_follows (call : CatalogCall) :
    call.procedure.run.Follows phases (fun _ x => x.IsQuiet) .idle := by
  cases call with
  | upsert record =>
    apply Procedure.Follows.run_bind
    apply (upsert_follows record).mono
    intro result x hx
    subst hx
    cases result <;> trivial
  | upsertPage p =>
    apply Procedure.Follows.run_bind
    apply Procedure.Follows.run_bind
    apply (upsertAll_follows p.records).mono
    intro result x hx
    subst hx
    cases result <;> trivial
  | resolve kind ids =>
    apply Procedure.Follows.run_bind
    apply (resolve_follows kind ids).mono
    intro result x hx
    cases result <;> exact hx
  | refresh kind ids =>
    apply Procedure.Follows.run_bind
    apply (refresh_follows kind ids).mono
    intro result x hx
    cases result <;> exact hx
  | invalidateAll =>
    apply Procedure.Follows.run_bind
    apply Procedure.Follows.run_lift
    apply invalidateAll_follows.mono
    intro _ x hx
    subst hx
    trivial

end AddressLedger.Catalog
