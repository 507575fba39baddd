import Psat.General.Ordered

namespace Psat.General.Ordered
open Psat.General List

-- A dictionary with one value for each group of a list's items.
structure Represents (rel : ν → List ρ → Prop) (entries : List (κ × ν)) (group : κ → List ρ) : Prop where
  distinct : (keys entries).Nodup
  held : ∀ e ∈ entries, rel e.2 (group e.1)
  absent : ∀ key, key ∉ keys entries → group key = []

section Grouped
variable {σ τ κ ν ω ρ : Type _}

theorem Represents.nil : Represents rel ([] : List (κ × ν)) fun _ => [] where
  distinct := nodup_nil
  held := fun _ member => absurd member not_mem_nil
  absent := fun _ _ => rfl

variable {entries : List (κ × ν)}

theorem Represents.tail [DecidableEq κ] (held : Represents rel ((key,value) :: entries) group) :
    Represents rel entries fun k => if k = key then [] else group k where
  distinct := (nodup_cons.mp held.distinct).2
  held := fun e member => by
    have other : e.1 ≠ key := by
      rintro rfl
      have inside : e.1 ∈ keys entries := mem_map_of_mem member
      exact (nodup_cons.mp held.distinct).1 inside
    rw [if_neg other]
    exact held.held e (mem_cons_of_mem _ member)
  absent := fun k missing => by
    by_cases same : k = key
    · rw [if_pos same]
    · rw [if_neg same]
      refine held.absent k fun inside => ?_
      rcases mem_cons.mp inside with head | later
      · exact same head
      · exact missing later

theorem Represents.cons [DecidableEq κ]
    (rest : Represents rel entries group) (missing : key ∉ keys entries) (first : rel value items) :
    Represents rel ((key,value) :: entries) fun k => if k = key then items else group k where
  distinct := nodup_cons.mpr ⟨missing,rest.distinct⟩
  held := fun e member => by
    rcases mem_cons.mp member with rfl | later
    · rw [if_pos rfl]
      exact first
    · have other : e.1 ≠ key := by
        rintro rfl
        exact missing (mem_map_of_mem later)
      rw [if_neg other]
      exact rest.held e later
  absent := fun k outside => by
    obtain ⟨other,later⟩ := not_or.mp (fun inside => outside (mem_cons.mpr inside))
    rw [if_neg other]
    exact rest.absent k later

theorem Represents.congr (held : Represents rel entries group)
    (same : ∀ key, group key = group' key) : Represents rel entries group' := funext same ▸ held

variable {merge : ν → ν → StateT σ Option ν}

theorem mergeAt_represents [DecidableEq κ]
    (merged : ∀ a b xs ys, rel a xs → rel b ys → Still shows (merge a b) fun out => rel out (xs ++ ys))
    (key : κ) (value : ν) (items : List ρ) (new : rel value items) (entries : List (κ × ν)) (group : κ → List ρ)
    (old : Represents rel entries group) :
    Still shows (mergeAt merge key value entries) fun out => keys out = insertKey (keys entries) key ∧
      Represents rel out fun k => if k = key then group k ++ items else group k := by
  induction entries generalizing group with
  | nil =>
    refine .pure ⟨rfl,(Represents.nil.cons not_mem_nil new).congr fun k => ?_⟩
    rw [old.absent k not_mem_nil,nil_append]
  | cons entry rest ih =>
    obtain ⟨present,before⟩ := entry
    have head : rel before (group present) := old.held (present,before) mem_cons_self
    have missing : present ∉ keys rest := (nodup_cons.mp old.distinct).1
    unfold mergeAt
    by_cases same : present = key
    · subst same
      rw [if_pos rfl]
      refine .bind (merged _ _ _ _ head new) fun now holds => .pure ⟨?_,(old.tail.cons missing holds).congr fun k => ?_⟩
      · rw [insertKey,if_pos (show present ∈ keys ((present,before) :: rest) from mem_cons_self)]
        rfl
      · split_ifs with equal
        · rw [equal]
        · rfl
    · rw [if_neg same]
      refine .bind (ih _ old.tail) fun rest' known => ?_
      obtain ⟨grown,holds⟩ := known
      have outside : present ∉ keys rest' := by
        rw [grown,mem_insertKey]
        exact not_or.mpr ⟨missing,same⟩
      refine .pure ⟨?_,(holds.cons outside head).congr fun k => ?_⟩
      · have other : key ≠ present := fun equal => same equal.symm
        simp only [keys,map_cons] at grown ⊢
        rw [grown]
        by_cases inside : key ∈ List.map Prod.fst rest <;> simp [insertKey,inside,other]
      · by_cases here : k = present
        · rw [if_pos here,here,if_neg same]
        · rw [if_neg here,if_neg here]

theorem mergeAll_represents [DecidableEq κ]
    (merged : ∀ a b xs ys, rel a xs → rel b ys → Still shows (merge a b) fun out => rel out (xs ++ ys))
    (entries more : List (κ × ν)) (group other : κ → List ρ) (old : Represents rel entries group)
    (new : Represents rel more other) :
    Still shows (mergeAll merge entries more) fun out => keys out = insertKeys (keys entries) (keys more) ∧
      Represents rel out fun k => group k ++ other k := by
  induction more generalizing entries group other with
  | nil =>
    refine .pure ⟨rfl,old.congr fun k => ?_⟩
    rw [new.absent k not_mem_nil,append_nil]
  | cons entry more ih =>
    obtain ⟨key,value⟩ := entry
    refine .bind (mergeAt_represents merged key value _ (new.held _ mem_cons_self) entries group old)
      fun out known => ?_
    obtain ⟨grown,holds⟩ := known
    refine (ih out _ _ holds new.tail).weaken fun final done => ⟨?_,done.2.congr fun k => ?_⟩
    · rw [done.1,grown]
      rfl
    · split_ifs with here
      · rw [here,append_nil]
      · rfl

theorem mapValues_represents {copies : List ρ → List ρ} (empty : copies [] = [])
    (mapped : ∀ value items, rel value items → Still shows (f value) fun out => rel' out (copies items))
    (entries : List (κ × ν)) (group : κ → List ρ) (old : Represents rel entries group) :
    Still shows (mapValues f entries) fun out => keys out = keys entries ∧ Represents rel' out
    fun k => copies (group k) := by
  have each : ∀ entries : List (κ × ν), (∀ e ∈ entries, rel e.2 (group e.1)) →
    Still shows (mapValues f entries) fun out => keys out = keys entries ∧ ∀ e ∈ out, rel' e.2 (copies (group e.1)) :=
      by
    intro entries held
    induction entries with
    | nil => exact .pure ⟨rfl,fun _ member => absurd member not_mem_nil⟩
    | cons entry rest ih =>
      obtain ⟨first,others⟩ := forall_mem_cons.mp held
      refine .bind (mapped _ _ first) fun value' head => ?_
      refine .bind (ih others) fun rest' known => .pure ⟨?_,forall_mem_cons.mpr ⟨head,known.2⟩⟩
      exact congrArg (entry.1 :: ·) known.1
  refine (each entries old.held).weaken fun out known => ⟨known.1,?_,known.2,?_⟩
  · rw [known.1]
    exact old.distinct
  · intro key missing
    rw [known.1] at missing
    rw [old.absent key missing,empty]

end Grouped

end Psat.General.Ordered
