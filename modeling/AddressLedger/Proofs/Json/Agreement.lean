import AddressLedger.Proofs.Json.Decoding
import Mathlib.Data.List.Perm.Basic

/-!
# Decoding side by side

Two trees that are to give the same are decoded side by side, step by step: both are refused, if for
different reasons, or their values are related. A list gives its values in its own order, and a
table is made of entries in any order.
-/
namespace AddressLedger.Keyed

variable {α : Type} {table entries others : List (String × α)}

/-- A new key adds an entry, wherever it comes to stand. -/
theorem put_perm {key : String} (h : key ∉ table.map Prod.fst) (value : α) :
    (put key value table).Perm ((key, value) :: table) := by
  induction table with
  | nil => exact List.Perm.refl _
  | cons entry rest ih =>
    rw [List.map_cons, List.mem_cons, not_or] at h
    rw [put]
    split
    · exact List.Perm.refl _
    · rw [if_neg h.1]
      exact ((ih h.2).cons entry).trans (List.Perm.swap _ _ rest)

/-- Entries with different keys are all kept. -/
theorem ofList_perm (h : (entries.map Prod.fst).Nodup) : (ofList entries).Perm entries := by
  have hfold : ∀ table : List (String × α), ((table ++ entries).map Prod.fst).Nodup →
      (entries.foldl (fun table entry => put entry.1 entry.2 table) table).Perm
        (table ++ entries) := by
    clear h
    induction entries with
    | nil => exact fun table _ => by rw [List.append_nil]; exact List.Perm.refl _
    | cons entry rest ih =>
      intro table h
      have hmiddle : ((table ++ entry :: rest).map Prod.fst).Perm
          ((entry :: (table ++ rest)).map Prod.fst) := List.perm_middle.map Prod.fst
      have hnew := hmiddle.nodup_iff.mp h
      rw [List.map_cons, List.nodup_cons, List.map_append, List.mem_append, not_or] at hnew
      have hput := put_perm hnew.1.1 entry.2
      refine (ih _ ?_).trans ((hput.append_right rest).trans List.perm_middle.symm)
      rw [((hput.append_right rest).map Prod.fst).nodup_iff]
      exact hmiddle.nodup_iff.mp h
  exact hfold [] h

theorem ofList_congr (h : entries.Perm others) (hkeys : (entries.map Prod.fst).Nodup) :
    ofList entries = ofList others := by
  have hother := (h.map Prod.fst).nodup_iff.mp hkeys
  refine List.Perm.eq_of_pairwise (fun a b _ _ hab hba => absurd hab (lt_asymm hba))
    (isAscending_ofList entries) (isAscending_ofList others) ?_
  exact (ofList_perm hkeys).trans (h.trans (ofList_perm hother).symm)

end AddressLedger.Keyed

namespace AddressLedger.Json
open Raw

variable {α β γ δ : Type}

/-- Whether two values are both refused, or decode to values that are related. -/
inductive Agree (R : α → β → Prop) : Decoded α → Decoded β → Prop
  | ok {a : α} {b : β} (h : R a b) : Agree R (.ok a) (.ok b)
  | error (f f' : Fault) : Agree R (.error f) (.error f')

namespace Agree

variable {R : α → β → Prop} {S : γ → δ → Prop} {x : Decoded α} {y : Decoded β}

theorem refl (x : Decoded α) : Agree Eq x x := by
  cases x with
  | ok a => exact .ok rfl
  | error f => exact .error f f

theorem symm {x y : Decoded α} (h : Agree Eq x y) : Agree Eq y x := by
  cases h with
  | ok h => exact .ok h.symm
  | error f f' => exact .error f' f

theorem trans {T : α → γ → Prop} {Q : β → γ → Prop} (compose : ∀ a b c, R a b → Q b c → T a c)
    {z : Decoded γ} (h : Agree R x y) (h' : Agree Q y z) : Agree T x z := by
  cases h with
  | ok h =>
    cases h' with
    | ok h' => exact .ok (compose _ _ _ h h')
  | error f f' =>
    cases h' with
    | error _ f'' => exact .error f f''

theorem bind {f : α → Decoded γ} {g : β → Decoded δ} (h : Agree R x y)
    (hnext : ∀ a b, R a b → Agree S (f a) (g b)) : Agree S (x >>= f) (y >>= g) := by
  cases h with
  | ok h => exact hnext _ _ h
  | error f f' => exact .error f f'

theorem next {x y : Decoded α} {f : α → Decoded γ} {g : α → Decoded δ} (h : Agree Eq x y)
    (hnext : ∀ a, Agree S (f a) (g a)) : Agree S (x >>= f) (y >>= g) :=
  h.bind fun a _ same => same ▸ hnext a

theorem map {x y : Decoded α} (h : Agree Eq x y) (f : α → γ) : Agree Eq (f <$> x) (f <$> y) := by
  cases h with
  | ok h => exact .ok (congrArg f h)
  | error f f' => exact .error f f'

theorem mono {T : α → β → Prop} (h : Agree R x y) (weaken : ∀ a b, R a b → T a b) :
    Agree T x y := by
  cases h with
  | ok h => exact .ok (weaken _ _ h)
  | error f f' => exact .error f f'

theorem and_left {P : α → Prop} (h : Agree R x y) (hx : ∀ a, x = .ok a → P a) :
    Agree (fun a b => R a b ∧ P a) x y := by
  cases h with
  | ok h => exact .ok ⟨h, hx _ rfl⟩
  | error f f' => exact .error f f'

theorem toOption_eq {x y : Decoded α} (h : Agree Eq x y) : x.toOption = y.toOption := by
  cases h with
  | ok h => rw [h]
  | error f f' => rfl

end Agree

/-- The values of a list in another order. -/
theorem agree_mapM_perm (f : α → Decoded β) {as bs : List α} (h : as.Perm bs) :
    Agree List.Perm (as.mapM f) (bs.mapM f) := by
  induction h with
  | nil => exact .ok (List.Perm.refl _)
  | cons a h ih =>
    rw [List.mapM_cons, List.mapM_cons]
    exact (Agree.refl (f a)).next fun b => ih.bind fun bs bs' hperm => .ok (hperm.cons b)
  | swap a b rest =>
    simp only [List.mapM_cons]
    cases f a with
    | error fault =>
      cases f b with
      | error fault' => exact .error _ _
      | ok b' => exact .error _ _
    | ok a' =>
      cases f b with
      | error fault' => exact .error _ _
      | ok b' =>
        cases rest.mapM f with
        | error fault => exact .error _ _
        | ok cs => exact .ok (List.Perm.swap a' b' cs)
  | trans h h' ih ih' => exact ih.trans (fun _ _ _ hperm hperm' => hperm.trans hperm') ih'

/-- The values of a list with another item that decodes alike. -/
theorem agree_mapM_changed (f : α → Decoded β) {a a' : α} (h : Agree Eq (f a) (f a'))
    (before after : List α) :
    Agree Eq ((before ++ a :: after).mapM f) ((before ++ a' :: after).mapM f) := by
  induction before with
  | nil =>
    rw [List.nil_append, List.nil_append, List.mapM_cons, List.mapM_cons]
    exact h.next fun b => Agree.refl _
  | cons first before ih =>
    rw [List.cons_append, List.cons_append, List.mapM_cons, List.mapM_cons]
    exact (Agree.refl (f first)).next fun b => ih.next fun bs => Agree.refl _

/-- An entry of a table, under the name of its member. -/
def entryOf (decode : String → Raw → Decoded α) (member : String × Raw) : Decoded (String × α) := do
  let value ← decode member.1 member.2
  return (member.1, value)

variable {decodeEntry : String → Raw → Decoded α} {fields fields' : List (String × Raw)}
  {name : String} {r r' : Raw}

theorem map_fst_of_mapM_entryOf {entries : List (String × α)}
    (h : fields.mapM (entryOf decodeEntry) = .ok entries) :
    entries.map Prod.fst = fields.map Prod.fst := by
  induction fields generalizing entries with
  | nil =>
    obtain rfl : [] = entries := Except.ok.inj h
    rfl
  | cons field fields ih =>
    rw [List.mapM_cons] at h
    obtain ⟨entry, hentry, h⟩ := bind_eq_ok h
    obtain ⟨others, hothers, h⟩ := bind_eq_ok h
    obtain rfl : entry :: others = entries := Except.ok.inj h
    obtain ⟨value, -, hvalue⟩ := bind_eq_ok hentry
    obtain rfl : (field.1, value) = entry := Except.ok.inj hvalue
    rw [List.map_cons, List.map_cons, ih hothers]

def SameTable (entries entries' : List (String × α)) : Prop :=
  Keyed.ofList entries = Keyed.ofList entries'

theorem agree_entries_perm (h : fields.Perm fields') (hdistinct : (fields.map Prod.fst).Nodup) :
    Agree SameTable (fields.mapM (entryOf decodeEntry)) (fields'.mapM (entryOf decodeEntry)) := by
  refine ((agree_mapM_perm _ h).and_left fun entries => map_fst_of_mapM_entryOf).mono ?_
  rintro entries entries' ⟨hperm, hnames⟩
  exact Keyed.ofList_congr hperm (hnames ▸ hdistinct)

theorem agree_entries_changed (h : Agree Eq (decodeEntry name r) (decodeEntry name r'))
    (before after : List (String × Raw)) :
    Agree SameTable ((before ++ (name, r) :: after).mapM (entryOf decodeEntry))
      ((before ++ (name, r') :: after).mapM (entryOf decodeEntry)) := by
  have hentry : Agree Eq (entryOf decodeEntry (name, r)) (entryOf decodeEntry (name, r')) :=
    h.next fun value => .refl _
  exact (agree_mapM_changed _ hentry before after).mono fun _ _ same => congrArg Keyed.ofList same

end AddressLedger.Json
