import Mathlib.Computability.StateTransition
import Psat.General.Outcome
import Psat.Scoring.Value

namespace Psat.Scoring.Value
open Psat.General List StateTransition
open Psat.Scoring.Exposure (Entity)

-- A key that points at itself ends its chain.
def onward (aliases : List (Entity × Entity)) (key : Entity) : Option Entity := (aliases.lookup key).filter (· ≠ key)

theorem onward_self (self : aliases.lookup key = some key) : onward aliases key = none := by simp [onward,self]

theorem onward_eq (held : aliases.lookup key = some proxy) (moves : proxy ≠ key) : onward aliases key = some proxy := by
  simp [onward,held,moves]

theorem follow_eval (ended : follow aliases seen current = .ok last) : last ∈ eval (onward aliases) current := by
  fun_induction follow aliases seen current with
  | case1 seen current held =>
    cases ended
    exact mem_eval.mpr ⟨.refl,by simp [onward,held]⟩
  | case2 seen next held =>
    cases ended
    exact mem_eval.mpr ⟨.refl,onward_self held⟩
  | case3 => cases ended
  | case4 seen current next held moves new ih =>
    rw [reaches_eval (.single (onward_eq held moves))]
    exact ih ended

-- Every key the loop has seen leads to where it stands.
theorem follow_error (trail : ∀ key ∈ seen, Reaches₁ (onward aliases) key current)
    (failed : follow aliases seen current = .error cycle) :
    ∃ key, Reaches₁ (onward aliases) key key := by
  fun_induction follow aliases seen current with
  | case1 | case2 => cases failed
  | case3 seen current next held moves met => exact ⟨current,trail current met⟩
  | case4 seen current next held moves new ih =>
    have step : next ∈ onward aliases current := onward_eq held moves
    apply ih _ failed
    intro key member
    rcases mem_append.mp member with old | here
    · exact (trail key old).tail step
    · rw [mem_singleton.mp here]
      exact .single step

theorem not_circular (ends : last ∈ eval step key) : ¬Reaches₁ step key key := by
  refine evalInduction ends fun key _ ih circles => ?_
  obtain ⟨next,moves,back⟩ := Relation.TransGen.head'_iff.mp circles
  exact ih next moves (.tail' back moves)

theorem follow_self (self : aliases.lookup key = some key) : follow aliases seen key = .ok key := by
  unfold follow
  split
  · rename_i none
    rw [self] at none
  · rename_i next held
    rw [self] at held
    cases held
    exact if_pos rfl

theorem chased_lookup {entries table : List (Entity × Entity)} (key : Entity)
    (chased : entries.mapM (fun entry => do return (entry.1,← follow aliases [entry.1] entry.2)) = Except.ok table) :
    Option.Rel (fun next last => follow aliases [key] next = .ok last) (entries.lookup key) (table.lookup key) := by
  induction entries generalizing table with
  | nil =>
    cases chased
    exact .none
  | cons entry rest ih =>
    rw [mapM_cons] at chased
    obtain ⟨_,first,chased⟩ := ok_bind.mp chased
    obtain ⟨others,later,same⟩ := ok_bind.mp chased
    cases same
    obtain ⟨last,ended,same⟩ := ok_bind.mp first
    cases same
    by_cases same : key = entry.1
    · rw [same,lookup_cons_self,lookup_cons_self]
      exact .some ended
    · rw [Dict.lookup_cons_ne same,Dict.lookup_cons_ne same]
      exact ih later

theorem chased_ok {entries : List (Entity × Entity)}
    (each : ∀ entry ∈ entries, ∃ last, follow aliases [entry.1] entry.2 = .ok last) :
    ∃ table, entries.mapM (fun entry => do return (entry.1,← follow aliases [entry.1] entry.2)) = Except.ok table := by
  induction entries with
  | nil => exact ⟨[],rfl⟩
  | cons entry rest ih =>
    obtain ⟨⟨last,ended⟩,later⟩ := forall_mem_cons.mp each
    obtain ⟨table,chased⟩ := ih later
    exact ⟨(entry.1,last) :: table,by rw [mapM_cons,ended,chased]; rfl⟩

theorem canonicalKey_ends (resolved : aliasFixedPoint aliases = .ok table) (key : Entity) :
    canonicalKey table key ∈ eval (onward aliases) key := by
  have chased := chased_lookup key resolved
  unfold canonicalKey
  generalize held : aliases.lookup key = found,table.lookup key = ended at chased ⊢
  cases chased with
  | none => exact mem_eval.mpr ⟨.refl,by simp [onward,held]⟩
  | @some next last followed =>
    by_cases moves : next = key
    · subst moves
      rw [follow_self held] at followed
      cases followed
      exact mem_eval.mpr ⟨.refl,onward_self held⟩
    · rw [reaches_eval (.single (onward_eq held moves))]
      exact follow_eval followed

theorem canonicalKey_again (resolved : aliasFixedPoint aliases = .ok table) (key : Entity) :
    canonicalKey table (canonicalKey table key) = canonicalKey table key := by
  have settled := reaches_eval (mem_eval.mp (canonicalKey_ends resolved key)).1
  exact Part.mem_unique (canonicalKey_ends resolved _) (settled ▸ canonicalKey_ends resolved key)

theorem alias_fixed_point_settles (aliases : List (Entity × Entity)) (distinct : (aliases.map Prod.fst).Nodup) :
    ((∃ cycle, aliasFixedPoint aliases = .error cycle) ↔
      ∃ key link, Reaches (onward aliases) key link ∧ Reaches₁ (onward aliases) link link) ∧
    ∀ table, aliasFixedPoint aliases = .ok table → (∀ key, canonicalKey table key ∈ eval (onward aliases) key) ∧
      (∀ key, canonicalKey table (canonicalKey table key) = canonicalKey table key) ∧
      ∀ a b, canonicalKey table a = canonicalKey table b ↔ ∃ last, last ∈ eval (onward aliases) a ∧ last ∈ eval
      (onward aliases) b := by
  refine ⟨⟨?_,?_⟩,fun table resolved => ⟨canonicalKey_ends resolved,canonicalKey_again resolved,fun a b => ⟨?_,?_⟩⟩⟩
  · rintro ⟨cycle,failed⟩
    by_contra straight
    have ends : ∀ entry ∈ aliases, ∃ last, follow aliases [entry.1] entry.2 = .ok last := by
      intro entry member
      have held := (Dict.mem_iff_lookup distinct entry.1 entry.2).mp member
      by_cases moves : entry.2 = entry.1
      · rw [moves] at held ⊢
        exact ⟨_,follow_self held⟩
      · cases ended : follow aliases [entry.1] entry.2 with
        | ok last => exact ⟨last,rfl⟩
        | error keys =>
          obtain ⟨link,circles⟩ := follow_error (forall_mem_singleton.mpr (.single (onward_eq held moves))) ended
          exact absurd ⟨link,link,.refl,circles⟩ straight
    obtain ⟨table,resolved⟩ := chased_ok ends
    cases failed.symm.trans resolved
  · rintro ⟨key,link,_,circles⟩
    cases resolved : aliasFixedPoint aliases with
    | error cycle => exact ⟨cycle,rfl⟩
    | ok table => exact absurd circles (not_circular (canonicalKey_ends resolved link))
  · intro same
    exact ⟨_,canonicalKey_ends resolved a,same ▸ canonicalKey_ends resolved b⟩
  · rintro ⟨last,left,right⟩
    rw [Part.mem_unique (canonicalKey_ends resolved a) left,Part.mem_unique (canonicalKey_ends resolved b) right]

theorem proxied_implementation_settles :
    canonicalKey [("j","p"),("i","p")] "j" ∈ eval (onward [("j","i"),("i","p")]) "j" :=
  ((alias_fixed_point_settles [("j","i"),("i","p")] (by decide)).2 [("j","p"),("i","p")] (by decide +kernel)).1 "j"

end Psat.Scoring.Value
