import AddressLedger.Proofs.Catalog.Overlay
import AddressLedger.Proofs.Catalog.Phase

/-!
# Keys of cached records

A lookup caches each record that it has read under the record's own key. So a cached record has the
kind and the id of its key, however calls come between one another.
-/
namespace AddressLedger.Catalog
open Service Store

variable {φ α : Type} {source : PageSource φ} {s s' : Shared φ} {x : Phase} {a : Access}
  {told : Prop}

def HasKey (key : Key) (r : Record) : Prop := r.kind = key.kind ∧ r.id = key.id

/-- Whether an answer gives records that have the keys under which a lookup caches them. -/
def GivesOwnKeys : Made → Prop
  | ⟨.readRecords kind _, .ok records⟩ => ∀ r ∈ records, HasKey (Key.of kind r.id) r
  | _ => True

def KeepsOwnKey : Access → Prop
  | .keep key r => HasKey key r
  | _ => True

/-- A call that has been given records with their own keys caches records under their own keys. -/
def caching : Monitor Prop :=
  ⟨fun told e => told ∧ GivesOwnKeys e, fun told a => told → KeepsOwnKey a⟩

def Phase.IsKeyed : Phase → Prop
  | looking _ loaded _ => ∀ key r, (key, r) ∈ loaded → HasKey key r
  | _ => True

theorem Phase.IsKeyed.next (h : x.IsKeyed) {e : Made} (he : GivesOwnKeys e) :
    (x.next e).IsKeyed := by
  rcases e with ⟨a, answer⟩
  cases x with
  | looking begun loaded kept =>
    cases a with
    | readRecords kind ids =>
      cases answer with
      | error failure => trivial
      | ok records =>
        intro key r hmem
        rcases List.mem_append.mp hmem with hmem | hmem
        · exact h key r hmem
        · obtain ⟨read, hread, heq⟩ := List.mem_map.mp hmem
          obtain ⟨rfl, rfl⟩ := Prod.mk.inj heq
          exact he read hread
    | keep key r => exact h
    | generation =>
      simp only [Phase.next]
      split <;> trivial
    | _ => trivial
  | idle =>
    cases a with
    | generation => exact fun key r hmem => absurd hmem List.not_mem_nil
    | writeRecord record => cases answer <;> trivial
    | _ => trivial
  | _ => cases a <;> trivial

theorem Phase.IsKeyed.keepsOwnKey (h : x.IsKeyed) (hadmits : x.admits a) : KeepsOwnKey a := by
  cases a with
  | keep key r =>
    cases x with
    | looking begun loaded kept => exact h key r hadmits
    | _ => exact hadmits.elim
  | _ => trivial

/-- Calls that keep to their phases cache records under their own keys. -/
theorem follows_caching {p : Procedure α} {post : α → Phase → Prop} (h : p.Follows phases post x)
    (hx : told → x.IsKeyed) : p.Follows caching (fun _ _ => True) told := by
  induction p generalizing x told with
  | done result => trivial
  | access a next ih =>
    refine ⟨fun htold => (hx htold).keepsOwnKey h.1, fun answer => ih answer (h.2 answer) ?_⟩
    exact fun ⟨htold, hgives⟩ => (hx htold).next hgives

theorem givesOwnKeys_perform (source : PageSource φ) (s : Shared φ) (a : Access) :
    GivesOwnKeys ⟨a, (s.perform source a).1⟩ := by
  cases a with
  | readRecords kind ids =>
    simp only [Shared.perform, readRecords, whenOpen]
    cases s.store.isOpen with
    | false => trivial
    | true => exact fun r hr => record?_key (record?_of_mem_recordsOf hr)
  | _ => trivial

theorem isKeyed_forget (hs : s.IsKeyed) (key : Key) : (s.forget key).IsKeyed := by
  intro asked found hfound
  rw [Shared.cached?_forget] at hfound
  split at hfound
  · cases hfound
  · exact hs asked found hfound

theorem isKeyed_perform (hs : s.IsKeyed) (ha : KeepsOwnKey a) :
    (s.perform source a).2.IsKeyed := by
  cases a with
  | keep key r =>
    intro asked found hfound
    have hfound : (s.keep key r).cached? asked = some found := hfound
    rw [Shared.cached?_keep] at hfound
    split at hfound
    · rename_i hasked
      obtain rfl := Option.some.inj hfound
      exact hasked ▸ ha
    · exact hs asked found hfound
  | forget key => exact isKeyed_forget hs key
  | forgetAll => exact fun asked found hfound => by cases hfound
  | fetchPage address cursor =>
    simp only [Shared.perform, Shared.fetchPage]
    split
    · exact hs
    · split <;> exact hs
  | _ => exact hs

theorem isKeyed_drift (hs : s.IsKeyed) (hdrift : Pool.Drift s s') : s'.IsKeyed := by
  cases hdrift with
  | expire dropped => exact isKeyed_forget hs dropped
  | _ => exact hs

/-- Over any interleaving, records stay cached under their own keys. -/
theorem isKeyed_run (source : PageSource φ) {p : Pool φ α} (hs : p.shared.IsKeyed)
    (hp : p.Follows caching (fun _ _ => True) fun _ => True) (turns : List Turn) :
    (p.run source turns).shared.IsKeyed := by
  have hrun := hp.run source (fun (s : Shared φ) state => s.IsKeyed ∧ ∀ i, state i) turns ?_ ?_
    ⟨hs, fun _ => trivial⟩
  · exact hrun.1.1
  · rintro s state i a - hadmits ⟨hs, htold⟩
    refine ⟨isKeyed_perform hs (hadmits (htold i)), fun j => ?_⟩
    by_cases hj : j = i
    · subst hj
      rw [Pool.moved_self]
      exact ⟨htold j, givesOwnKeys_perform source s a⟩
    · rw [Pool.moved_other hj]
      exact htold j
  · rintro s s' state hdrift ⟨hs, htold⟩
    exact ⟨isKeyed_drift hs hdrift, htold⟩

end AddressLedger.Catalog
