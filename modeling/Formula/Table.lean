/-!
# Tables of limited size

* `Table α`: at most `tableCapacity` entries under distinct names.
* `Table.get?`: the one view of a table; `get?_put?` and `get?_erase` say what the operations do to
  it.
* `Table.put?`: sets an entry; fails only if the name is new and the table full.
* `Table.erase`: removes an entry.
-/

namespace Formula

/-- The most entries of a table. -/
def tableCapacity : Nat := 32

/-- Entries under distinct names. -/
structure Table (α : Type) where
  entries : List (String × α)
  nodup : (entries.map Prod.fst).Nodup
  length_le : entries.length ≤ tableCapacity

namespace Table

variable {α : Type}

/-- The table without entries. -/
def empty : Table α := ⟨[], by simp, by simp⟩

/-- The number of entries. -/
def size (t : Table α) : Nat := t.entries.length

/-- The entry of a name. -/
def get? (t : Table α) (key : String) : Option α := t.entries.lookup key

/-- Whether there is an entry of a name. -/
def contains (t : Table α) (key : String) : Bool := (t.get? key).isSome

/-- The entries with that of `key` set to `a`, in its place. -/
def replaced (key : String) (a : α) (entries : List (String × α)) : List (String × α) :=
  entries.map fun entry => if entry.1 = key then (entry.1, a) else entry

theorem map_fst_replaced (key : String) (a : α) (entries : List (String × α)) :
    (replaced key a entries).map Prod.fst = entries.map Prod.fst := by
  simp only [replaced, List.map_map]
  apply List.map_congr_left
  intro entry _
  by_cases h : entry.1 = key <;> simp [h]

/-- Sets the entry of a name; nothing if the name is new and the table full. -/
def put? (t : Table α) (key : String) (a : α) : Option (Table α) :=
  if key ∈ t.entries.map Prod.fst then
    some ⟨replaced key a t.entries, by rw [map_fst_replaced]; exact t.nodup,
      by simpa [replaced] using t.length_le⟩
  else if h : key ∉ t.entries.map Prod.fst ∧ t.entries.length < tableCapacity then
    some ⟨t.entries ++ [(key, a)],
      by
        rw [List.map_append, List.nodup_append]
        exact ⟨t.nodup, by simp, fun x hx y hy hxy => h.1 (by simp_all)⟩,
      by simp only [List.length_append, List.length_cons, List.length_nil]; omega⟩
  else none

/-- Removes the entry of a name, if there is one. -/
def erase (t : Table α) (key : String) : Table α where
  entries := t.entries.filter (·.1 ≠ key)
  nodup := List.Nodup.sublist (List.filter_sublist.map Prod.fst) t.nodup
  length_le := Nat.le_trans (List.length_filter_le _ _) t.length_le

/-! ## The view -/

theorem lookup_isSome_iff (entries : List (String × α)) (key : String) :
    (entries.lookup key).isSome = true ↔ key ∈ entries.map Prod.fst := by
  induction entries with
  | nil => simp
  | cons entry entries ih =>
    obtain ⟨k, a⟩ := entry
    by_cases h : key = k
    · simp [h]
    · have hb : (key == k) = false := by simpa using h
      simp only [List.lookup_cons, hb, List.map_cons, List.mem_cons, h, false_or]
      exact ih

/-- A name is in the table exactly if it is among the names of the entries. -/
theorem contains_iff (t : Table α) (key : String) :
    t.contains key = true ↔ key ∈ t.entries.map Prod.fst :=
  lookup_isSome_iff t.entries key

theorem lookup_of_mem {entries : List (String × α)} (h : (entries.map Prod.fst).Nodup)
    {key : String} {a : α} (hm : (key, a) ∈ entries) : entries.lookup key = some a := by
  induction entries with
  | nil => cases hm
  | cons entry entries ih =>
    rw [List.map_cons, List.nodup_cons] at h
    rcases List.mem_cons.1 hm with rfl | hm
    · simp
    · have hne : key ≠ entry.1 := by
        intro he
        exact h.1 (List.mem_map.2 ⟨(key, a), hm, he⟩)
      have hb : (key == entry.1) = false := by simpa using hne
      rw [List.lookup_cons, hb]
      exact ih h.2 hm

/-- What is found is an entry, and every entry is found. -/
theorem get?_eq_some_iff (t : Table α) {key : String} {a : α} :
    t.get? key = some a ↔ (key, a) ∈ t.entries := by
  constructor
  · intro h
    obtain ⟨before, behind, hlist, -⟩ := List.lookup_eq_some_iff.1 h
    simp [hlist]
  · exact lookup_of_mem t.nodup

theorem lookup_replaced (key : String) (a : α) (entries : List (String × α)) (k : String) :
    (replaced key a entries).lookup k
      = if k = key then (entries.lookup k).map fun _ => a else entries.lookup k := by
  induction entries with
  | nil => by_cases h : k = key <;> simp [replaced, h]
  | cons entry entries ih =>
    obtain ⟨k', b⟩ := entry
    simp only [replaced, List.map_cons] at ih ⊢
    by_cases hk : k' = key <;> by_cases hkk : k = k'
    · subst hk hkk; simp
    · have hb : (k == k') = false := by simpa using hkk
      simp only [hk, if_true, List.lookup_cons] at ih ⊢
      rw [← hk, hb]
      simpa [hk] using ih
    · subst hkk; simp [hk]
    · have hb : (k == k') = false := by simpa using hkk
      simp only [hk, if_false, List.lookup_cons, hb]
      exact ih

theorem lookup_append_singleton (entries : List (String × α)) (key k : String) (a : α) :
    (entries ++ [(key, a)]).lookup k
      = ((entries.lookup k).or (if k = key then some a else none)) := by
  induction entries with
  | nil =>
    by_cases h : k = key
    · simp [h]
    · have hb : (k == key) = false := by simpa using h
      simp [List.lookup_cons, h, hb]
  | cons entry entries ih =>
    obtain ⟨k', b⟩ := entry
    by_cases hkk : k = k'
    · subst hkk; simp
    · have hb : (k == k') = false := by simpa using hkk
      simp only [List.cons_append, List.lookup_cons, hb]
      exact ih

/-- A put entry is found under its name, and all others as before. -/
theorem get?_put? {t t' : Table α} {key : String} {a : α} (h : t.put? key a = some t')
    (k : String) : t'.get? k = if k = key then some a else t.get? k := by
  unfold put? at h
  split at h
  · next hm =>
    simp only [Option.some.injEq] at h
    subst h
    simp only [get?, lookup_replaced]
    by_cases hk : k = key
    · subst hk
      obtain ⟨b, hb⟩ := Option.isSome_iff_exists.1 ((lookup_isSome_iff t.entries k).2 hm)
      simp [hb]
    · simp [hk]
  · next hm =>
    split at h
    · simp only [Option.some.injEq] at h
      subst h
      simp only [get?, lookup_append_singleton]
      by_cases hk : k = key
      · subst hk
        have hn : t.entries.lookup k = none := by
          rw [← Option.not_isSome_iff_eq_none]
          exact fun hs => hm ((lookup_isSome_iff t.entries k).1 hs)
        simp [hn]
      · simp [hk]
    · simp at h

/-- A put fails exactly for a new name and a full table. -/
theorem put?_eq_none_iff (t : Table α) (key : String) (a : α) :
    t.put? key a = none ↔ t.contains key = false ∧ t.size = tableCapacity := by
  have hc := t.contains_iff key
  have hl := t.length_le
  unfold put? size
  by_cases hm : key ∈ t.entries.map Prod.fst
  · simp [hm, hc.2 hm]
  · have hcf : t.contains key = false := by
      rw [← Bool.not_eq_true]
      exact fun hs => hm (hc.1 hs)
    by_cases hlt : t.entries.length < tableCapacity
    · simp only [hm, hlt, hcf, if_false, not_false_eq_true, and_self, dite_true, true_and]
      simp only [reduceCtorEq, false_iff]
      omega
    · simp only [hm, hlt, hcf, if_false, and_false, dite_false, true_and]
      simp only [true_iff]
      omega

/-- An erased entry is gone, and all others are as before. -/
theorem get?_erase (t : Table α) (key k : String) :
    (t.erase key).get? k = if k = key then none else t.get? k := by
  simp only [get?, erase]
  induction t.entries with
  | nil => simp
  | cons entry entries ih =>
    obtain ⟨k', b⟩ := entry
    by_cases hk : k' = key <;> by_cases hkk : k = k'
    · subst hk hkk; simpa using ih
    · have hb : (k == k') = false := by simpa using hkk
      subst hk
      simp only [ne_eq, not_true_eq_false, decide_false, Bool.false_eq_true, not_false_eq_true,
        List.filter_cons_of_neg, List.lookup_cons, hb, hkk, if_false] at ih ⊢
      exact ih
    · subst hkk
      simp [hk]
    · have hb : (k == k') = false := by simpa using hkk
      simp only [ne_eq, hk, not_false_eq_true, decide_true, List.filter_cons_of_pos,
        List.lookup_cons, hb] at ih ⊢
      exact ih

end Table

end Formula
