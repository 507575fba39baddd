import Mathlib.Data.List.Nodup

namespace Psat.General.Dict
open List
open List (lookup)
open Prod (fst)

-- `entries[key] = value`: a present key keeps its place.
def put [DecidableEq κ] (key : κ) (value : ν) : List (κ × ν) → List (κ × ν)
  | [] => [(key,value)]
  | (present,old) :: rest => if present = key then (key,value) :: rest else (present,old) :: put key value rest

-- `entries.setdefault(key, value)`
def setDefault [DecidableEq κ] (key : κ) (value : ν) (entries : List (κ × ν)) : List (κ × ν) :=
  if key ∈ entries.map fst then entries else entries ++ [(key,value)]

-- The dictionary a sequence of writes leaves.
def write [DecidableEq κ] (entries writes : List (κ × ν)) : List (κ × ν) :=
  writes.foldl (fun entries entry => put entry.1 entry.2 entries) entries

section
variable [DecidableEq κ] [BEq κ] [LawfulBEq κ] {entries : List (κ × ν)}

omit [DecidableEq κ] in
theorem lookup_cons_ne (differs : other ≠ key) (value : ν) (entries : List (κ × ν)) :
    lookup other ((key,value) :: entries) = lookup other entries := by
  rw [lookup_cons,beq_eq_false_iff_ne.mpr differs]

theorem lookup_put (key other : κ) (value : ν) (entries : List (κ × ν)) :
    lookup other (put key value entries) = if other = key then some value else lookup other entries := by
  induction entries with
  | nil =>
    by_cases same : other = key
    · simp [put,same]
    · simp [put,lookup_cons_ne same,same]
  | cons entry rest ih =>
    obtain ⟨present,old⟩ := entry
    unfold put
    by_cases here : present = key
    · subst here
      by_cases same : other = present
      · simp [same]
      · simp [lookup_cons_ne same,same]
    · rw [if_neg here]
      by_cases same : other = present
      · subst same
        simp [here]
      · rw [lookup_cons_ne same,lookup_cons_ne same]
        exact ih

theorem put_back (held : lookup key entries = some old) : put key old (put key value entries) = entries := by
  induction entries with
  | nil => cases held
  | cons entry rest ih =>
    obtain ⟨present,stored⟩ := entry
    by_cases same : present = key
    · subst same
      rw [lookup_cons_self] at held
      cases held
      simp [put]
    · rw [lookup_cons_ne (Ne.symm same)] at held
      simp only [put,same,if_false,ih held]

theorem mem_keys_put (key other : κ) (value : ν) (entries : List (κ × ν)) :
    other ∈ (put key value entries).map fst ↔ other = key ∨ other ∈ entries.map fst := by
  induction entries with
  | nil => simp [put]
  | cons entry rest ih =>
    unfold put
    split
    · rename_i here
      subst here
      simp
    · simp only [map_cons,mem_cons,ih]
      tauto

theorem put_nodup (key : κ) (value : ν) (distinct : (entries.map fst).Nodup) :
    ((put key value entries).map fst).Nodup := by
  induction entries with
  | nil => simp [put]
  | cons entry rest ih =>
    rw [map_cons,nodup_cons] at distinct
    unfold put
    split
    · rename_i here
      subst here
      exact nodup_cons.mpr distinct
    · rename_i differs
      rw [map_cons,nodup_cons]
      refine ⟨?_,ih distinct.2⟩
      rw [mem_keys_put]
      rintro (same | later)
      · exact differs same
      · exact distinct.1 later

theorem mem_iff_lookup (distinct : (entries.map fst).Nodup) (key : κ) (value : ν) :
    (key,value) ∈ entries ↔ lookup key entries = some value := by
  induction entries with
  | nil => simp
  | cons entry rest ih =>
    obtain ⟨present,old⟩ := entry
    rw [map_cons,nodup_cons] at distinct
    rw [mem_cons]
    by_cases same : key = present
    · subst same
      have absent : (key,value) ∉ rest := fun member => distinct.1 (mem_map.mpr ⟨_,member,rfl⟩)
      simp only [absent,or_false,lookup_cons_self,Prod.mk.injEq,true_and,Option.some.injEq]
      exact eq_comm
    · rw [lookup_cons_ne same]
      simp only [Prod.mk.injEq,same,false_and,false_or]
      exact ih distinct.2

theorem lookup_perm (same : others.Perm entries) (distinct : (entries.map fst).Nodup) (key : κ) :
    lookup key others = lookup key entries := by
  have different : (others.map fst).Nodup := (same.map fst).nodup_iff.mpr distinct
  apply Option.ext
  intro value
  rw [← mem_iff_lookup different,← mem_iff_lookup distinct]
  exact same.mem_iff

theorem write_nodup (writes : List (κ × ν)) (distinct : (entries.map fst).Nodup) :
    ((write entries writes).map fst).Nodup := by
  induction writes generalizing entries with
  | nil => exact distinct
  | cons first rest ih => exact ih (put_nodup first.1 first.2 distinct)

theorem lookup_write (key : κ) (writes entries : List (κ × ν)) :
    lookup key (write entries writes) = (lookup key writes.reverse).or (lookup key entries) := by
  induction writes generalizing entries with
  | nil => rfl
  | cons first rest ih =>
    obtain ⟨written,value⟩ := first
    have step : write entries ((written,value) :: rest) = write (put written value entries) rest := rfl
    rw [step,ih,reverse_cons,lookup_append,lookup_put,Option.or_assoc]
    by_cases same : key = written
    · simp [same]
    · simp [same,lookup_cons_ne same]

omit [DecidableEq κ] in
theorem lookup_filter (distinct : (entries.map fst).Nodup) (keep : κ × ν → Bool) (key : κ) :
    lookup key (entries.filter keep) = (lookup key entries).filter fun value => keep (key,value) := by
  induction entries with
  | nil => rfl
  | cons entry rest ih =>
    obtain ⟨present,value⟩ := entry
    rw [map_cons,nodup_cons] at distinct
    by_cases same : key = present
    · subst same
      have absent : lookup key (rest.filter keep) = none := by
        rw [ih distinct.2]
        have unknown : lookup key rest = none := by
          rw [lookup_eq_none_iff]
          intro other member
          rw [bne_iff_ne]
          rintro rfl
          exact distinct.1 (mem_map.mpr ⟨other,member,rfl⟩)
        rw [unknown]
        rfl
      cases kept : keep (key,value) <;> simp [Option.filter,kept,absent]
    · rw [lookup_cons_ne same]
      cases kept : keep (present,value)
      · rw [filter_cons,kept]
        exact ih distinct.2
      · rw [filter_cons,kept,if_pos rfl,lookup_cons_ne same]
        exact ih distinct.2

omit [DecidableEq κ] in
theorem lookup_map_values (f : κ → ν → ω) (key : κ) (entries : List (κ × ν)) :
    lookup key (entries.map fun entry => (entry.1,f entry.1 entry.2)) = (lookup key entries).map (f key) := by
  induction entries with
  | nil => rfl
  | cons entry rest ih =>
    obtain ⟨present,value⟩ := entry
    rw [map_cons]
    by_cases same : key = present
    · subst same
      simp
    · rw [lookup_cons_ne same,lookup_cons_ne same]
      exact ih

omit [DecidableEq κ] in
theorem lookup_eq_none (key : κ) (entries : List (κ × ν)) : lookup key entries = none ↔ key ∉ entries.map fst := by
  rw [lookup_eq_none_iff,mem_map]
  simp only [bne_iff_ne,not_exists,not_and]
  exact forall₂_congr fun entry _ => ne_comm

omit [DecidableEq κ] in
theorem mem_of_lookup (found : lookup key entries = some value) : (key,value) ∈ entries := by
  obtain ⟨before,after,split,_⟩ := lookup_eq_some_iff.mp found
  rw [split]
  exact mem_append_right before mem_cons_self

theorem lookup_without (key other : κ) (entries : List (κ × ν)) :
    lookup other (entries.filter fun entry => entry.1 ≠ key) = if other = key then none else lookup other entries := by
  induction entries with
  | nil => simp
  | cons entry rest ih =>
    obtain ⟨present,value⟩ := entry
    by_cases here : present = key
    · rw [filter_cons_of_neg (by simp [here]),ih]
      split
      · rfl
      · rename_i differs
        rw [lookup_cons_ne (by rw [here]; exact differs)]
    · rw [filter_cons_of_pos (by simp [here])]
      by_cases same : other = present
      · subst same
        simp [here]
      · rw [lookup_cons_ne same,lookup_cons_ne same,ih]

omit [BEq κ] [LawfulBEq κ] in
theorem mem_put_of_ne (inside : (other,held) ∈ entries) (differs : other ≠ key) :
    (other,held) ∈ put key value entries := by
  induction entries with
  | nil => cases inside
  | cons first rest ih =>
    unfold put
    rcases mem_cons.mp inside with here | later
    · cases here
      rw [if_neg differs]
      exact mem_cons_self
    · split
      · exact mem_cons_of_mem _ later
      · exact mem_cons_of_mem _ (ih later)

theorem lookup_setDefault (key other : κ) (value : ν) (entries : List (κ × ν)) :
    lookup other (setDefault key value entries) = (lookup other entries).or
    (if other = key then some value else none) := by
  unfold setDefault
  split
  · rename_i present
    by_cases same : other = key
    · subst same
      cases found : lookup other entries with
      | none => exact absurd present ((lookup_eq_none other entries).mp found)
      | some held => simp
    · simp [same]
  · rw [lookup_append]
    by_cases same : other = key
    · simp [same]
    · rw [lookup_cons_ne same,if_neg same]
      rfl

omit [BEq κ] [LawfulBEq κ] in
theorem setDefault_nodup (key : κ) (value : ν) (distinct : (entries.map fst).Nodup) :
    ((setDefault key value entries).map fst).Nodup := by
  unfold setDefault
  split
  · exact distinct
  · rename_i absent
    rw [map_append,nodup_append]
    refine ⟨distinct,by simp,?_⟩
    rintro first member last inside rfl
    rw [map_singleton,mem_singleton] at inside
    subst inside
    exact absent member

end

end Psat.General.Dict
