import AddressLedger.Store.Events

/-!
# Insertion of events

A list of events adds to a table those whose keys it does not hold, each key once and at its first
place in the list. Which these are depends on the keys alone that are known before.
-/
namespace AddressLedger.Store
open Feed

def Events.keys (rows : Events) : List EventKey := rows.map Row.key

/-- The events of a list whose keys are not known, each key once, at its first place. -/
def novel : List EventKey → List Event → List Event
  | _, [] => []
  | known, e :: es => if e.key ∈ known then novel known es else e :: novel (e.key :: known) es

@[simp] theorem Row.key_ofEvent (e : Event) : (Row.ofEvent e).key = e.key := rfl

theorem Events.contains_iff {rows : Events} {key : EventKey} :
    rows.contains key = true ↔ key ∈ rows.keys := by
  simp [Events.contains, Events.keys]

theorem Events.keys_append (rows : Events) (es : List Event) :
    Events.keys (rows ++ es.map Row.ofEvent) = rows.keys ++ es.map Event.key := by
  simp [Events.keys]

/-- Whether the keys of the events in a list are known decides which of them are novel. -/
theorem novel_congr_on {known known' : List EventKey} {es : List Event}
    (h : ∀ e ∈ es, e.key ∈ known ↔ e.key ∈ known') : novel known es = novel known' es := by
  induction es generalizing known known' with
  | nil => rfl
  | cons e es ih =>
    have hrest : ∀ f ∈ es, f.key ∈ known ↔ f.key ∈ known' := fun f hf =>
      h f (List.mem_cons_of_mem e hf)
    have step : ∀ f ∈ es, f.key ∈ e.key :: known ↔ f.key ∈ e.key :: known' := by
      intro f hf
      rw [List.mem_cons, List.mem_cons, hrest f hf]
    have he := h e List.mem_cons_self
    rw [novel, novel, ih hrest, ih step]
    simp only [he]

theorem novel_congr {known known' : List EventKey} (h : ∀ key, key ∈ known ↔ key ∈ known')
    (es : List Event) : novel known es = novel known' es :=
  novel_congr_on fun e _ => h e.key

theorem mem_append_cons_of_mem {known keys : List EventKey} {k : EventKey} (hk : k ∈ known)
    (key : EventKey) : key ∈ known ++ k :: keys ↔ key ∈ known ++ keys := by
  simp only [List.mem_append, List.mem_cons]
  constructor
  · rintro (h | rfl | h)
    · exact .inl h
    · exact .inl hk
    · exact .inr h
  · rintro (h | h)
    · exact .inl h
    · exact .inr (.inr h)

theorem mem_cons_append {known keys : List EventKey} {k : EventKey} (key : EventKey) :
    key ∈ known ++ k :: keys ↔ key ∈ (k :: known) ++ keys := by
  simp [or_left_comm]

/-- After a list of events its keys are known, whether they were new or not. -/
theorem novel_append (known : List EventKey) (es fs : List Event) :
    novel known (es ++ fs) = novel known es ++ novel (known ++ es.map Event.key) fs := by
  induction es generalizing known with
  | nil => simp [novel]
  | cons e es ih =>
    rw [List.cons_append, novel, novel, List.map_cons]
    by_cases he : e.key ∈ known
    · rw [if_pos he, if_pos he, ih, novel_congr (mem_append_cons_of_mem he) fs]
    · rw [if_neg he, if_neg he, ih, novel_congr mem_cons_append fs]
      rfl

theorem mem_append_novel_iff {known : List EventKey} {es : List Event} {key : EventKey} :
    key ∈ known ++ (novel known es).map Event.key ↔ key ∈ known ++ es.map Event.key := by
  induction es generalizing known with
  | nil => rfl
  | cons e es ih =>
    rw [novel, List.map_cons]
    by_cases he : e.key ∈ known
    · rw [if_pos he, ih, mem_append_cons_of_mem he]
    · rw [if_neg he, List.map_cons, mem_cons_append, mem_cons_append, ih]

theorem key_notMem_of_mem_novel {known : List EventKey} {es : List Event} {e : Event}
    (h : e ∈ novel known es) :
    e.key ∉ known := by
  induction es generalizing known with
  | nil => cases h
  | cons f es ih =>
    rw [novel] at h
    split at h
    · exact ih h
    · rename_i hf
      obtain rfl | h := List.mem_cons.1 h
      · exact hf
      · exact fun hmem => ih h (List.mem_cons_of_mem _ hmem)

theorem novel_sublist (known : List EventKey) (es : List Event) :
    (novel known es).Sublist es := by
  induction es generalizing known with
  | nil => exact .slnil
  | cons e es ih =>
    rw [novel]
    split
    · exact (ih known).cons e
    · exact (ih _).cons_cons e

theorem nodup_keys_novel (known : List EventKey) (es : List Event) :
    ((novel known es).map Event.key).Nodup := by
  induction es generalizing known with
  | nil => exact .nil
  | cons e es ih =>
    rw [novel]
    split
    · exact ih known
    · rw [List.map_cons, List.nodup_cons]
      refine ⟨fun hmem => ?_, ih _⟩
      obtain ⟨f, hf, hkey⟩ := List.mem_map.1 hmem
      exact key_notMem_of_mem_novel hf (hkey ▸ List.mem_cons_self)

theorem nodup_novel (known : List EventKey) (es : List Event) : (novel known es).Nodup :=
  List.Pairwise.of_map Event.key (fun _ _ hne heq => hne (congrArg Event.key heq))
    (nodup_keys_novel known es)

theorem nodup_append_novel {known : List EventKey} (h : known.Nodup) (es : List Event) :
    (known ++ (novel known es).map Event.key).Nodup := by
  rw [List.nodup_append]
  refine ⟨h, nodup_keys_novel known es, fun key hkey other hother heq => ?_⟩
  obtain ⟨e, he, rfl⟩ := List.mem_map.1 hother
  exact key_notMem_of_mem_novel he (heq ▸ hkey)

/-- Events that are known already can be left out beforehand. -/
theorem novel_filter {known : List EventKey} {keep : Event → Bool}
    (h : ∀ e, keep e = false → e.key ∈ known) (es : List Event) :
    novel known (es.filter keep) = novel known es := by
  induction es generalizing known with
  | nil => rfl
  | cons e es ih =>
    rw [List.filter_cons, novel]
    cases hk : keep e with
    | false =>
      rw [if_pos (h e hk)]
      exact ih h
    | true =>
      rw [if_pos rfl, novel]
      rw [ih h, ih fun f hf => List.mem_cons_of_mem _ (h f hf)]

theorem Events.insert_eq (rows : Events) (e : Event) :
    rows.insert e =
      if e.key ∈ rows.keys then (false, rows) else (true, rows ++ [Row.ofEvent e]) := by
  rw [Events.insert]
  by_cases he : e.key ∈ rows.keys
  · rw [if_pos (contains_iff.2 he), if_pos he]
  · rw [if_neg fun h => he (contains_iff.1 h), if_neg he]

/-- Adding events appends the novel ones and counts them. -/
theorem Events.insertAll_eq (rows : Events) (es : List Event) :
    rows.insertAll es =
      ((novel rows.keys es).length, rows ++ (novel rows.keys es).map Row.ofEvent) := by
  induction es generalizing rows with
  | nil => simp [Events.insertAll, novel]
  | cons e es ih =>
    rw [Events.insertAll, Events.insert_eq, novel]
    by_cases he : e.key ∈ rows.keys
    · rw [if_pos he, if_pos he]
      simp [ih rows]
    · rw [if_neg he, if_neg he]
      have keys : ∀ key,
          key ∈ Events.keys (rows ++ [Row.ofEvent e]) ↔ key ∈ e.key :: rows.keys := by
        intro key
        simp [Events.keys, or_comm, eq_comm]
      simp [ih (rows ++ [Row.ofEvent e]), novel_congr keys es]

end AddressLedger.Store
