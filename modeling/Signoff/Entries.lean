import Signoff.Ascending

/-!
# Entries by key

A finite map is written down as the list of its entries by ascending key. Any
change to it goes through `alterEntry`, which is told what is under a key before
it says what is there from then on. The keys are the same as when the key is put
among them (`map_fst_alterEntry`), so they ascend again, and under all others
nothing changes.
-/

namespace Signoff

variable {α β : Type}

theorem lookup_cons_eq_if [DecidableEq α] (key : α) (entry : α × β)
    (rest : List (α × β)) :
    List.lookup key (entry :: rest) =
      if key = entry.1 then some entry.2 else List.lookup key rest := by
  rw [List.lookup_cons]
  by_cases h : key = entry.1
  · simp [h]
  · rw [beq_false_of_ne h, if_neg h]

theorem map_entry_congr {keys : List α} {value value' : α → β}
    (h : ∀ key ∈ keys, value key = value' key) :
    (keys.map fun key => (key, value key)) =
      keys.map fun key => (key, value' key) :=
  List.map_congr_left fun key hkey => by rw [h key hkey]

/-! ## Changing an entry -/

variable [LT α] [DecidableLT α]

/-- Among entries by ascending key, changes the one under the key. If there is
none, it begins one. -/
def alterEntry (key : α) (f : Option β → β) : List (α × β) → List (α × β)
  | [] => [(key, f none)]
  | entry :: rest =>
      if key < entry.1 then (key, f none) :: entry :: rest
      else if entry.1 < key then entry :: alterEntry key f rest
      else (key, f (some entry.2)) :: rest

variable [Std.Trichotomous (α := α) (· < ·)] {key : α} {f : Option β → β}
  {entries : List (α × β)}

theorem map_fst_alterEntry (key : α) (f : Option β → β)
    (entries : List (α × β)) :
    (alterEntry key f entries).map Prod.fst =
      insertAscending key (entries.map Prod.fst) := by
  induction entries with
  | nil => rfl
  | cons entry rest ih =>
      rw [alterEntry, List.map_cons, insertAscending]
      split
      · rfl
      · next hnlt =>
          split
          · rw [List.map_cons, ih]
          · next hngt =>
              rw [List.map_cons, Std.Trichotomous.trichotomous _ _ hnlt hngt]

theorem perm_alterEntry (hnew : key ∉ entries.map Prod.fst) :
    (alterEntry key f entries).Perm ((key, f none) :: entries) := by
  induction entries with
  | nil => exact .refl _
  | cons entry rest ih =>
      rw [List.map_cons, List.mem_cons, not_or] at hnew
      rw [alterEntry]
      split
      · exact .refl _
      · next hnlt =>
          split
          · exact ((ih hnew.2).cons entry).trans (.swap _ _ _)
          · next hngt =>
              exact absurd (Std.Trichotomous.trichotomous _ _ hnlt hngt) hnew.1

/-- A value that is put under a key whatever was there is found there. -/
theorem lookup_alterEntry [DecidableEq α] [Std.Irrefl (α := α) (· < ·)]
    (key other : α) (value : β) (entries : List (α × β)) :
    List.lookup other (alterEntry key (fun _ => value) entries) =
      if other = key then some value else List.lookup other entries := by
  induction entries with
  | nil => rw [alterEntry, lookup_cons_eq_if]
  | cons entry rest ih =>
      rw [alterEntry]
      split
      · rw [lookup_cons_eq_if]
      · next hnlt =>
          split
          · next hgt =>
              rw [lookup_cons_eq_if, ih, lookup_cons_eq_if]
              by_cases h : other = key
              · have hne : ¬ key = entry.1 :=
                  fun h' => Std.lt_irrefl (h' ▸ hgt)
                simp [h, hne]
              · simp [h]
          · next hngt =>
              have heq : key = entry.1 :=
                Std.Trichotomous.trichotomous _ _ hnlt hngt
              rw [lookup_cons_eq_if, lookup_cons_eq_if, heq]
              by_cases h : other = entry.1 <;> simp [h]

variable [Trans (α := α) (· < ·) (· < ·) (· < ·)]

theorem pairwise_alterEntry (h : entries.Pairwise fun a b => a.1 < b.1) :
    (alterEntry key f entries).Pairwise fun a b => a.1 < b.1 := by
  rw [← List.pairwise_map (R := (· < ·)), map_fst_alterEntry]
  exact isAscending_insertAscending (List.pairwise_map.2 h)

/-- Where each of some keys has an entry, each of them and the key has one then.
Only under the key the value changes. -/
theorem alterEntry_map [DecidableEq α] [Std.Irrefl (α := α) (· < ·)]
    {keys : List α} {value value' : α → β} (hkeys : IsAscending keys)
    (hkey : f (if key ∈ keys then some (value key) else none) = value' key)
    (hothers : ∀ other ∈ keys, other ≠ key → value other = value' other) :
    alterEntry key f (keys.map fun k => (k, value k)) =
      (insertAscending key keys).map fun k => (k, value' k) := by
  induction keys with
  | nil =>
      rw [if_neg List.not_mem_nil] at hkey
      rw [List.map_nil, alterEntry, insertAscending, List.map_singleton, hkey]
  | cons k keys ih =>
      obtain ⟨hk, hkeys'⟩ := List.pairwise_cons.1 hkeys
      rw [List.map_cons, alterEntry, insertAscending]
      split
      · next hlt =>
          -- All keys come after this one, so it is new.
          have hnew : key ∉ k :: keys := by
            intro hmem
            rcases List.mem_cons.1 hmem with heq | hmem
            · exact Std.lt_irrefl (heq ▸ hlt)
            · exact Std.lt_irrefl (Std.lt_trans hlt (hk key hmem))
          have hsame : ((k :: keys).map fun k => (k, value k)) =
              (k :: keys).map fun k => (k, value' k) :=
            map_entry_congr fun other hother =>
              hothers other hother (ne_of_mem_of_not_mem hother hnew)
          rw [if_neg hnew] at hkey
          rw [hkey, List.map_cons, ← hsame, List.map_cons]
      · next hnlt =>
          split
          · next hgt =>
              have hne : k ≠ key := fun heq => Std.lt_irrefl (heq ▸ hgt)
              simp only [List.mem_cons, hne.symm, false_or] at hkey
              rw [List.map_cons, hothers k List.mem_cons_self hne,
                ih hkeys' hkey fun other hother =>
                  hothers other (List.mem_cons_of_mem _ hother)]
          · next hngt =>
              obtain rfl := Std.Trichotomous.trichotomous _ _ hnlt hngt
              rw [if_pos List.mem_cons_self] at hkey
              rw [hkey, List.map_cons, map_entry_congr fun other hother =>
                hothers other (List.mem_cons_of_mem _ hother)
                  fun heq => Std.lt_irrefl (heq ▸ hk other hother)]

end Signoff
