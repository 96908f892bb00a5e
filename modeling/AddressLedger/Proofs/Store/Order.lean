import AddressLedger.Proofs.Store.Insertion

/-!
# The order of reading

Rows are read in the order of their times, and those of one time in the order of their insertion.
Sorting can be done in parts, and keeps the order of a part: rows that are added come between the
others, which stay in the order in which they were. So a row never moves towards the front.
-/
namespace AddressLedger.Store

variable {α : Type}

section
variable {le : α → α → Bool}

/-- Sorting puts a first element behind the smaller ones of the sorted rest. -/
theorem mergeSort_cons_eq (trans : ∀ a b c, le a b → le b c → le a c)
    (total : ∀ a b, le a b || le b a) (a : α) (xs : List α) :
    (a :: xs).mergeSort le =
      (xs.mergeSort le).filter (fun x => !le a x) ++ a :: (xs.mergeSort le).filter (le a) := by
  obtain ⟨before, after, hsorted, hrest, hbefore⟩ := List.mergeSort_cons trans total a xs
  have hpairs := List.pairwise_mergeSort trans total (a :: xs)
  rw [hsorted, List.pairwise_append, List.pairwise_cons] at hpairs
  have hafter := hpairs.2.1.1
  rw [hsorted, hrest, List.filter_append, List.filter_append]
  rw [List.filter_eq_self.mpr hbefore, List.filter_eq_self.mpr hafter]
  have hnone : after.filter (fun x => !le a x) = [] := by
    rw [List.filter_eq_nil_iff]
    intro x hx
    simp [hafter x hx]
  have hnone' : before.filter (le a) = [] := by
    rw [List.filter_eq_nil_iff]
    intro x hx
    simpa using hbefore x hx
  rw [hnone, hnone', List.append_nil, List.nil_append]

theorem mergeSort_append (trans : ∀ a b c, le a b → le b c → le a c)
    (total : ∀ a b, le a b || le b a) {xs ys : List α} (h : ∀ x ∈ xs, ∀ y ∈ ys, le x y) :
    (xs ++ ys).mergeSort le = xs.mergeSort le ++ ys.mergeSort le := by
  induction xs with
  | nil => rw [List.mergeSort_nil, List.nil_append, List.nil_append]
  | cons a xs ih =>
    have hall : ∀ y ∈ ys.mergeSort le, le a y := by
      intro y hy
      exact h a (.head _) y (List.mem_mergeSort.mp hy)
    have hnone : (ys.mergeSort le).filter (fun x => !le a x) = [] := by
      rw [List.filter_eq_nil_iff]
      intro y hy
      simp [hall y hy]
    rw [List.cons_append, mergeSort_cons_eq trans total, mergeSort_cons_eq trans total a xs,
      ih fun x hx => h x (.tail _ hx), List.filter_append, List.filter_append, hnone,
      List.filter_eq_self.mpr hall, List.append_nil, List.append_assoc, List.cons_append]

theorem sublist_mergeSort_cons (trans : ∀ a b c, le a b → le b c → le a c)
    (total : ∀ a b, le a b || le b a) (a : α) (xs : List α) :
    List.Sublist (xs.mergeSort le) ((a :: xs).mergeSort le) := by
  obtain ⟨before, after, hsorted, hrest, -⟩ := List.mergeSort_cons trans total a xs
  rw [hsorted, hrest]
  exact (List.sublist_cons_self a after).append_left before

/-- Sorting keeps the order in which a part of a list is sorted. -/
theorem sublist_mergeSort_of_sublist (trans : ∀ a b c, le a b → le b c → le a c)
    (total : ∀ a b, le a b || le b a) {xs ys : List α} (h : xs.Sublist ys) :
    List.Sublist (xs.mergeSort le) (ys.mergeSort le) := by
  induction h with
  | slnil => exact List.Sublist.refl _
  | cons a h ih => exact ih.trans (sublist_mergeSort_cons trans total a _)
  | cons_cons a h ih =>
    rw [mergeSort_cons_eq trans total, mergeSort_cons_eq trans total]
    exact (ih.filter _).append ((ih.filter _).cons_cons a)

/-- What is kept of a sorted list is what is kept, sorted. -/
theorem filter_mergeSort (trans : ∀ a b c, le a b → le b c → le a c)
    (total : ∀ a b, le a b || le b a) (p : α → Bool) (xs : List α) :
    (xs.mergeSort le).filter p = (xs.filter p).mergeSort le := by
  induction xs with
  | nil => rw [List.filter_nil, List.mergeSort_nil, List.filter_nil]
  | cons a xs ih =>
    by_cases ha : p a = true
    · rw [List.filter_cons_of_pos ha, mergeSort_cons_eq trans total, mergeSort_cons_eq trans total,
        ← ih, List.filter_append, List.filter_cons_of_pos ha]
      simp only [List.filter_filter, Bool.and_comm]
    · obtain ⟨before, after, hsorted, hrest, -⟩ := List.mergeSort_cons trans total a xs
      rw [List.filter_cons_of_neg ha, ← ih, hsorted, hrest, List.filter_append, List.filter_append,
        List.filter_cons_of_neg ha]

end

theorem timeLe_trans (a b c : Option Int64) (hab : timeLe a b) (hbc : timeLe b c) : timeLe a c := by
  match a, b, c with
  | _, _, none => exact rfl
  | none, none, some z => exact hbc
  | none, some y, some z => cases hab
  | some x, none, some z => cases hbc
  | some x, some y, some z =>
    simp only [timeLe, decide_eq_true_eq] at *
    exact Int64.le_trans hbc hab

theorem timeLe_total (a b : Option Int64) : timeLe a b || timeLe b a := by
  match a, b with
  | _, none => rfl
  | none, some y => rfl
  | some x, some y =>
    simp only [timeLe, Bool.or_eq_true, decide_eq_true_eq]
    exact Int64.le_total y x

/-- A member of a part of a list does not stand further back in the part. -/
theorem mem_take_of_sublist {xs ys : List α} (h : xs.Sublist ys) (hys : ys.Nodup) {x : α}
    (hx : x ∈ xs) {n : Nat} (hn : x ∈ ys.take n) : x ∈ xs.take n := by
  induction h generalizing n with
  | slnil => cases hx
  | @cons xs ys a h ih =>
    cases n with
    | zero => simp at hn
    | succ n =>
      rw [List.nodup_cons] at hys
      obtain rfl | hn := List.mem_cons.1 hn
      · exact absurd (h.mem hx) hys.1
      · exact List.take_subset_take_left xs (Nat.le_succ n) (ih hys.2 hx hn)
  | @cons_cons xs ys a h ih =>
    cases n with
    | zero => simp at hn
    | succ n =>
      rw [List.nodup_cons] at hys
      obtain rfl | hn := List.mem_cons.1 hn
      · exact .head _
      · obtain rfl | hx := List.mem_cons.1 hx
        · exact .head _
        · exact .tail _ (ih hys.2 hx hn)

variable {rows more : Events} {q : EventQuery} {row : Row}

theorem EventQuery.matches_iff : q.matches row = true ↔
    (∃ o ∈ q.owners, Text.lower o = row.address) ∧ (∀ c, q.chain = some c → row.chain = c) ∧
      (row.isScam = true → q.includeScam = true) := by
  rw [EventQuery.matches, Bool.and_eq_true, Bool.and_eq_true, List.contains_iff_mem, List.mem_map,
    and_assoc]
  refine and_congr_right fun _ => and_congr ?_ ?_
  · cases q.chain with
    | none => simp
    | some c => simpa using eq_comm
  · cases row.isScam <;> simp

theorem mem_ordered : row ∈ rows.ordered q ↔ row ∈ rows ∧ q.matches row = true := by
  rw [Events.ordered, List.mem_mergeSort, List.mem_filter]

theorem nodup_ordered (h : rows.keys.Nodup) (q : EventQuery) : (rows.ordered q).Nodup := by
  have hrows : rows.Nodup :=
    List.Pairwise.of_map Row.key (fun _ _ hne heq => hne (congrArg Row.key heq)) h
  rw [Events.ordered, (List.mergeSort_perm _ _).nodup_iff]
  exact hrows.filter _

/-- Rows that are read one after the other are so still when others are added. -/
theorem ordered_sublist (h : List.Sublist rows more) (q : EventQuery) :
    List.Sublist (rows.ordered q) (more.ordered q) :=
  sublist_mergeSort_of_sublist (fun a b c => timeLe_trans a.timeAt b.timeAt c.timeAt)
    (fun a b => timeLe_total a.timeAt b.timeAt) (h.filter _)

/-- A row that is among the first ones when others are added was so before. -/
theorem mem_take_ordered (h : List.Sublist rows more) (hkeys : more.keys.Nodup) (hrow : row ∈ rows)
    {n : Nat} (hn : row ∈ (more.ordered q).take n) : row ∈ (rows.ordered q).take n := by
  have hmatches := (mem_ordered.1 (List.mem_of_mem_take hn)).2
  exact mem_take_of_sublist (ordered_sublist h q) (nodup_ordered hkeys q)
    (mem_ordered.2 ⟨hrow, hmatches⟩) hn

end AddressLedger.Store
