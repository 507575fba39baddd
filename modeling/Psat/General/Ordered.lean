import Mathlib.Data.List.Forall2
import Psat.General.Foresight

namespace Psat.General.Ordered
open Psat.General List

-- Insertion-ordered dictionaries and sets as lists.
def insertKey [DecidableEq κ] (keys : List κ) (key : κ) : List κ :=
  if key ∈ keys then keys else keys ++ [key]

def insertKeys [DecidableEq κ] (keys more : List κ) : List κ := more.foldl insertKey keys

def unique [DecidableEq κ] (keys : List κ) : List κ := insertKeys [] keys

theorem mem_insertKey [DecidableEq κ] {keys : List κ} : other ∈ insertKey keys key ↔ other ∈ keys ∨ other = key := by
  unfold insertKey
  split
  · rename_i present
    constructor
    · exact .inl
    · rintro (old | rfl)
      · exact old
      · exact present
  · simp

theorem mem_insertKeys [DecidableEq κ] {keys more : List κ} : other ∈ insertKeys keys more ↔
    other ∈ keys ∨ other ∈ more := by
  unfold insertKeys
  induction more generalizing keys with
  | nil => simp
  | cons key more ih =>
    rw [foldl_cons,ih,mem_insertKey,mem_cons,or_assoc]

theorem mem_unique [DecidableEq κ] {keys : List κ} : other ∈ unique keys ↔ other ∈ keys := by
  simp [unique,mem_insertKeys]

theorem insertKeys_nodup [DecidableEq κ] (more : List κ) (distinct : ids.Nodup) : (insertKeys ids more).Nodup := by
  induction more generalizing ids with
  | nil => exact distinct
  | cons key more ih =>
    apply ih
    unfold insertKey
    split
    · exact distinct
    · rename_i absent
      rw [nodup_append]
      refine ⟨distinct,by simp,?_⟩
      rintro first member last inside rfl
      rw [mem_singleton] at inside
      subst inside
      exact absent member

theorem insertKeys_map [DecidableEq κ] [DecidableEq ω] {f : κ → ω} (injective : ∀ a b, f a = f b → a = b)
    (keys more : List κ) :
    insertKeys (keys.map f) (more.map f) = (insertKeys keys more).map f := by
  unfold insertKeys
  induction more generalizing keys with
  | nil => rfl
  | cons key rest ih =>
    have step : insertKey (keys.map f) (f key) = (insertKey keys key).map f := by
      unfold insertKey
      by_cases present : key ∈ keys
      · rw [if_pos present,if_pos (mem_map_of_mem present)]
      · rw [if_neg present,if_neg]
        · simp
        · intro inside
          obtain ⟨other,member,same⟩ := mem_map.mp inside
          exact present (injective _ _ same ▸ member)
    rw [map_cons,foldl_cons,foldl_cons,step,ih]

theorem unique_map [DecidableEq κ] [DecidableEq ω] {f : κ → ω} (injective : ∀ a b, f a = f b → a = b) (keys : List κ) :
    unique (keys.map f) = (unique keys).map f := insertKeys_map injective [] keys

theorem insertKeys_sublist [DecidableEq κ] (keys more : List κ) : ∃ kept, insertKeys keys more = keys ++ kept ∧
    kept.Sublist more := by
  unfold insertKeys
  induction more generalizing keys with
  | nil => exact ⟨[],by simp,.slnil⟩
  | cons key rest ih =>
    rw [foldl_cons]
    by_cases present : key ∈ keys
    · rw [insertKey,if_pos present]
      obtain ⟨kept,shape,sublist⟩ := ih keys
      exact ⟨kept,shape,sublist.cons _⟩
    · rw [insertKey,if_neg present]
      obtain ⟨kept,shape,sublist⟩ := ih (keys ++ [key])
      exact ⟨key :: kept,by rw [shape]; simp,sublist.cons_cons _⟩

theorem unique_sublist [DecidableEq κ] (keys : List κ) : (unique keys).Sublist keys := by
  obtain ⟨kept,shape,sublist⟩ := insertKeys_sublist [] keys
  rw [unique,shape]
  exact sublist

section Unique
variable [DecidableEq κ]

theorem insertKeys_append (keys first second : List κ) : insertKeys keys (first ++ second) = insertKeys
    (insertKeys keys first) second :=
  foldl_append

theorem insertKeys_known {keys more : List κ} (known : more ⊆ keys) : insertKeys keys more = keys := by
  induction more with
  | nil => rfl
  | cons key rest ih =>
    obtain ⟨first,others⟩ := cons_subset.mp known
    change insertKeys (insertKey keys key) rest = keys
    rw [insertKey,if_pos first]
    exact ih others

theorem subset_insertKeys (keys more : List κ) : keys ⊆ insertKeys keys more :=
  fun _ member => mem_insertKeys.mpr (.inl member)

theorem more_subset_insertKeys (keys more : List κ) : more ⊆ insertKeys keys more :=
  fun _ member => mem_insertKeys.mpr (.inr member)

theorem insertKeys_insertKey (keys : List κ) : insertKeys keys (insertKey more key) = insertKey
    (insertKeys keys more) key := by
  unfold insertKey
  by_cases present : key ∈ more
  · rw [if_pos present,if_pos (mem_insertKeys.mpr (.inr present))]
  · rw [if_neg present,insertKeys_append]
    rfl

theorem insertKeys_insertKeys (keys first second : List κ) :
    insertKeys keys (insertKeys first second) = insertKeys (insertKeys keys first) second := by
  induction second generalizing first with
  | nil => rfl
  | cons key rest ih =>
    change insertKeys keys (insertKeys (insertKey first key) rest) = insertKeys
      (insertKey (insertKeys keys first) key) rest
    rw [ih,insertKeys_insertKey]

theorem insertKeys_again (keys first second : List κ) :
    insertKeys (insertKeys keys first) (first ++ second) = insertKeys keys (first ++ second) := by
  rw [insertKeys_append,insertKeys_append,insertKeys_known (more_subset_insertKeys keys first)]

theorem insertKeys_unique (keys more : List κ) : insertKeys keys (unique more) = insertKeys keys more :=
  insertKeys_insertKeys keys [] more

theorem unique_unique (more : List κ) : unique (unique more) = unique more := insertKeys_unique [] more

theorem unique_flatten_unique (parts : List (List κ)) : unique (parts.map unique).flatten = unique parts.flatten := by
  have generic : ∀ keys : List κ, insertKeys keys (parts.map unique).flatten = insertKeys keys parts.flatten := by
    induction parts with
    | nil => exact fun _ => rfl
    | cons part rest ih =>
      intro keys
      rw [map_cons,flatten_cons,flatten_cons,insertKeys_append,insertKeys_append,insertKeys_unique,ih]
  exact generic []

theorem unique_flatMap_congr {items : List ι} {f g : ι → List κ}
    (same : ∀ item ∈ items, unique (f item) = unique (g item)) :
    unique (items.flatMap f) = unique (items.flatMap g) := by
  rw [flatMap_def,flatMap_def,← unique_flatten_unique (items.map f),← unique_flatten_unique (items.map g),
    map_map,map_map]
  exact congrArg (fun parts => unique (List.flatten parts)) (map_congr_left same)

theorem insertKeys_repeat (keys part : List κ) (times : List ι) (some : times ≠ []) :
    insertKeys keys (times.flatMap fun _ => part) = insertKeys keys part := by
  induction times generalizing keys with
  | nil => exact absurd rfl some
  | cons _ rest ih =>
    rw [flatMap_cons,insertKeys_append]
    cases rest with
    | nil => rfl
    | cons next more => rw [ih _ (cons_ne_nil _ _),insertKeys_known (more_subset_insertKeys keys part)]

theorem insertKeys_before (keys front : List κ) (parts : List (List κ)) (some : parts ≠ []) :
    insertKeys keys (parts.flatMap fun part => front ++ part) = insertKeys keys (front ++ parts.flatten) := by
  induction parts generalizing keys with
  | nil => exact absurd rfl some
  | cons part rest ih =>
    rw [flatMap_cons,flatten_cons,insertKeys_append]
    cases rest with
    | nil =>
      rw [flatten_nil,append_nil]
      rfl
    | cons next more =>
      have inside : front ⊆ insertKeys keys (front ++ part) := fun key member =>
        mem_insertKeys.mpr (.inr (mem_append_left _ member))
      rw [ih _ (cons_ne_nil _ _),insertKeys_append (insertKeys keys (front ++ part)) front,
        insertKeys_known inside,← insertKeys_append,
        append_assoc]

theorem unique_product (first : List κ) (others backs : List (List κ)) (some : backs ≠ []) :
    unique ((first :: others).flatMap fun front => backs.flatMap fun back => front ++ back) =
      unique (first ++ backs.flatten ++ (first :: others).flatten) := by
  have later : ∀ keys : List κ, backs.flatten ⊆ keys →
    insertKeys keys (others.flatMap fun front => backs.flatMap fun back => front ++ back) =
      insertKeys keys others.flatten := by
    induction others with
    | nil => exact fun _ _ => rfl
    | cons front rest ih =>
      intro keys inside
      have grown : backs.flatten ⊆ insertKeys keys front := List.Subset.trans inside (subset_insertKeys keys front)
      rw [flatMap_cons,flatten_cons,insertKeys_append,insertKeys_append,insertKeys_before keys front backs some,
        insertKeys_append,
        insertKeys_known grown,ih _ grown]
  have inside : backs.flatten ⊆ insertKeys [] (first ++ backs.flatten) := fun key member =>
    mem_insertKeys.mpr (.inr (mem_append_right _ member))
  have fronted : first ⊆ insertKeys [] (first ++ backs.flatten) := fun key member =>
    mem_insertKeys.mpr (.inr (mem_append_left _ member))
  unfold unique
  rw [flatMap_cons,insertKeys_append,insertKeys_before [] first backs some,later _ inside,
    insertKeys_append [] (first ++ backs.flatten),
    flatten_cons,insertKeys_append (insertKeys [] (first ++ backs.flatten)) first,insertKeys_known fronted]

theorem insertKeys_related [DecidableEq ω] (paired : Relator.BiUnique R) {keys more : List κ} {names others : List ω}
    (held : List.Forall₂ R keys names) (added : List.Forall₂ R more others) : List.Forall₂ R
    (insertKeys keys more) (insertKeys names others) := by
  induction added generalizing keys names with
  | nil => exact held
  | @cons key name _ _ first _ ih =>
    refine ih ?_
    unfold insertKey
    by_cases present : key ∈ keys
    · rw [if_pos present,if_pos ((rel_mem paired first held).mp present)]
      exact held
    · rw [if_neg present,if_neg fun inside => present ((rel_mem paired first held).mpr inside)]
      exact rel_append held (.cons first .nil)

end Unique

theorem insertKeys_eq_nil [DecidableEq κ] {keys more : List κ} : insertKeys keys more = [] ↔ keys = [] ∧ more = [] := by
  simp only [eq_nil_iff_forall_not_mem,mem_insertKeys,not_or]
  exact ⟨fun none => ⟨fun k => (none k).1,fun k => (none k).2⟩,fun none k => ⟨none.1 k,none.2 k⟩⟩

def keys (entries : List (κ × ν)) : List κ := entries.map Prod.fst

-- `entries[key] = value`, a present entry being merged in place; the merge may stop.
def mergeAt [DecidableEq κ] (merge : ν → ν → StateT σ Option ν) (key : κ) (value : ν) :
    List (κ × ν) → StateT σ Option (List (κ × ν))
  | [] => return [(key,value)]
  | (present,old) :: rest =>
    if present = key then do
      let merged ← merge old value
      return (present,merged) :: rest
    else do
      let rest' ← mergeAt merge key value rest
      return (present,old) :: rest'

theorem mergeAt_keys [DecidableEq κ] (merge : ν → ν → StateT σ Option ν) (key : κ) (value : ν)
    (entries : List (κ × ν)) :
    Returns (mergeAt merge key value entries) fun out => keys out = insertKey (keys entries) key := by
  induction entries with
  | nil => exact .pure rfl
  | cons entry rest ih =>
    obtain ⟨present,old⟩ := entry
    unfold mergeAt
    split
    · rename_i same
      refine .after _ fun merged => .pure ?_
      simp [keys,insertKey,same]
    · rename_i differs
      refine .bind ih fun rest' grown => .pure ?_
      have other : key ≠ present := fun equal => differs equal.symm
      simp only [keys,map_cons] at grown ⊢
      rw [grown]
      by_cases inside : key ∈ List.map Prod.fst rest <;> simp [insertKey,inside,other]

variable {merge : ν → ν → StateT σ Option ν}

theorem mergeAt_all [DecidableEq κ] {fine : κ → ν → Prop}
    (merged : ∀ k a b, fine k a → fine k b → Returns (merge a b) (fine k))
    (key : κ) (value : ν) (new : fine key value) (entries : List (κ × ν)) (old : ∀ e ∈ entries, fine e.1 e.2) :
    Returns (mergeAt merge key value entries) fun out => ∀ e ∈ out, fine e.1 e.2 := by
  induction entries with
  | nil => exact .pure (by simpa using new)
  | cons entry rest ih =>
    obtain ⟨present,before⟩ := entry
    obtain ⟨head,tail⟩ := forall_mem_cons.mp old
    unfold mergeAt
    split
    · rename_i same
      subst same
      exact .bind (merged _ _ _ head new) fun now holds => .pure (forall_mem_cons.mpr ⟨holds,tail⟩)
    · exact .bind (ih tail) fun rest' holds => .pure (forall_mem_cons.mpr ⟨head,holds⟩)

def mergeAll [DecidableEq κ] (merge : ν → ν → StateT σ Option ν) (entries more : List (κ × ν)) :
    StateT σ Option (List (κ × ν)) :=
  more.foldlM (fun out entry => mergeAt merge entry.1 entry.2 out) entries

theorem mergeAll_keys [DecidableEq κ] (merge : ν → ν → StateT σ Option ν) (entries more : List (κ × ν)) :
    Returns (mergeAll merge entries more) fun out => keys out = insertKeys (keys entries) (keys more) := by
  have loop := Returns.foldlM
    (fun out (entry : κ × ν) => mergeAt merge entry.1 entry.2 out)
    (fun done out => keys out = insertKeys (keys entries) (keys done))
    (fun done entry acc holds => (mergeAt_keys merge entry.1 entry.2 acc).weaken fun out grown => by
        rw [grown,holds]; simp [insertKeys,keys])
    more [] entries rfl
  simpa [mergeAll] using loop

theorem mergeAll_all [DecidableEq κ] {fine : κ → ν → Prop}
    (merged : ∀ k a b, fine k a → fine k b → Returns (merge a b) (fine k))
    (entries more : List (κ × ν)) (old : ∀ e ∈ entries, fine e.1 e.2) (new : ∀ e ∈ more, fine e.1 e.2) :
    Returns (mergeAll merge entries more) fun out => ∀ e ∈ out, fine e.1 e.2 := by
  induction more generalizing entries with
  | nil => exact .pure old
  | cons entry more ih =>
    refine .bind (mergeAt_all merged entry.1 entry.2 (new entry (by simp)) entries old) fun out holds => ?_
    exact ih out holds (forall_mem_cons.mp new).2

-- The dictionary with every value replaced, entries in place.
def mapValues (f : ν → StateT σ Option ω) : List (κ × ν) → StateT σ Option (List (κ × ω))
  | [] => return []
  | (key,value) :: rest => do
    let value' ← f value
    let rest' ← mapValues f rest
    return (key,value') :: rest'

theorem mapValues_keys (f : ν → StateT σ Option ω) (entries : List (κ × ν)) :
    Returns (mapValues f entries) fun out => keys out = keys entries := by
  induction entries with
  | nil => exact .pure rfl
  | cons entry rest ih =>
    refine .after _ fun value' => .bind ih fun rest' same => .pure ?_
    simpa [keys] using same

theorem mapValues_all (fine : κ → ν → Prop) (fine' : κ → ω → Prop)
    (mapped : ∀ k v, fine k v → Returns (f v) (fine' k)) (entries : List (κ × ν)) (old : ∀ e ∈ entries, fine e.1 e.2) :
    Returns (mapValues f entries) fun out => ∀ e ∈ out, fine' e.1 e.2 := by
  induction entries with
  | nil => exact .pure (by simp)
  | cons entry rest ih =>
    obtain ⟨first,others⟩ := forall_mem_cons.mp old
    refine .bind (mapped _ _ first) fun value' head => ?_
    exact .bind (ih others) fun rest' tail => .pure (forall_mem_cons.mpr ⟨head,tail⟩)

end Psat.General.Ordered
