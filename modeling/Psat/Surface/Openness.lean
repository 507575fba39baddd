import Psat.Surface.ListedCallers

namespace Psat.Surface
open Psat.Capability Psat.General List

-- Leaves that say who may call, and leaves no reading settled.
def OpennessLeaf (cap : CapDict) : Prop :=
  (cap.kind = .finiteSet ∧ cap.membershipQuality = some .exact) ∨ cap.kind = .cofiniteBlacklist ∨
      cap.kind = .conditionalUniversal ∨ cap.kind = .unsupported ∨ cap.kind = .externalCheckOnly

-- An unread reach condition stands for any set; another unresolved check admits finitely many.
def ChecksRestrict (given : Given) : Prop :=
  ∀ leaf place, isReachNotDetermined leaf = false → (given leaf place).Finite

-- A shade that does not rule out an open path.
def Shade.mayBeOpen (s : Shade) : Prop := s.nobody = false ∧ (0 < s.count ∨ s.ond = true)

theorem Shade.mayBeOpen.mayAdmitAnyone {s : Shade} (may : s.mayBeOpen) : s.mayAdmitAnyone = true := by
  obtain ⟨passable,path | undetermined⟩ := may
  · simp [Shade.mayAdmitAnyone,passable,path]
  · simp [Shade.mayAdmitAnyone,passable,undetermined]

theorem Shade.passable_of_mayAdmitAnyone {s : Shade} (may : s.mayAdmitAnyone = true) : s.nobody = false := by
  simp only [Shade.mayAdmitAnyone,Bool.and_eq_true,Bool.not_eq_true'] at may
  exact may.1

theorem Shade.and_ond_of_admits {s s' : Shade} (left : s.mayAdmitAnyone = true) (right : s'.mayAdmitAnyone = true) :
    (s.and_ s').ond = (s.ond || s'.ond) := by
  rw [Shade.and_of_passable (passable_of_mayAdmitAnyone left) (passable_of_mayAdmitAnyone right)]
  simp [left,right]

theorem Shade.mayBeOpen.and_ {s s' : Shade} (left : s.mayAdmitAnyone = true) (right : s'.mayBeOpen) :
    (s.and_ s').mayBeOpen := by
  have kept := Shade.and_ond_of_admits left right.mayAdmitAnyone
  have passable := Shade.passable_of_mayAdmitAnyone left
  have opened := Shade.and_of_passable passable right.1
  refine ⟨by rw [opened]; exact Shade.meet_nobody s s',?_⟩
  rw [kept,Bool.or_eq_true]
  rcases right.2 with path | undetermined
  · -- The path is lost only beside rows, and a side that may admit anyone shows
    -- rows only with a path of its own or an undetermined one.
    have valid' : s'.valid = true := by simp [Shade.valid,path]
    simp only [Shade.mayAdmitAnyone,passable,Bool.not_false,Bool.true_and,Bool.or_eq_true,decide_eq_true_eq,
      Bool.not_eq_true'] at left
    rw [opened]
    rcases left with (path' | undetermined) | blank
    · have valid : s.valid = true := by simp [Shade.valid,path']
      exact .inl (by simp [Shade.meet,valid,valid',path,path'])
    · exact .inr (.inl undetermined)
    · exact .inl (by simp [Shade.meet,blank,valid',path])
  · exact .inr (.inr undetermined)

theorem Shade.mayBeOpen.append {s : Shade} (may : s.mayBeOpen) (raw : List Condition) : (s.append raw).mayBeOpen := by
  unfold Shade.append
  split
  · exact may
  · exact may

theorem Shade.mayBeOpen.or_ {s s' : Shade} (fresh : s.identity = false) (may : s.mayBeOpen ∨ s'.mayBeOpen) :
    (s.or_ s').mayBeOpen := by
  unfold Shade.or_
  rw [fresh]
  rcases may with ⟨passable,path | undetermined⟩ | ⟨passable,path | undetermined⟩
  · exact ⟨by simp [passable],.inl (Nat.add_pos_left path _)⟩
  · exact ⟨by simp [passable],.inr (by simp [undetermined])⟩
  · exact ⟨by simp [passable],.inl (Nat.add_pos_right _ path)⟩
  · exact ⟨by simp [passable],.inr (by simp [undetermined])⟩

def Cautious (p : Projector) (given : Given) (cap : CapDict) : Prop :=
  ∀ place, (denoted given place cap).Infinite → (shade p cap).mayBeOpen

theorem shadeAnd_cautious (each : ∀ child ∈ children, Cautious p given child) (place : List Nat) (index : Nat)
    (many : (denotedAnd given place index children).Infinite) (blocked : Bool)
    (left : s.mayAdmitAnyone = true) (begun : s.mayBeOpen ∨ children ≠ []) (marked : blocked = true → s.ond = true) :
    (shadeAnd p s blocked children).1.mayBeOpen ∧
      ((shadeAnd p s blocked children).2 = true → (shadeAnd p s blocked children).1.ond = true) := by
  induction children generalizing s blocked index with
  | nil =>
    rcases begun with may | nothing
    · exact ⟨may,marked⟩
    · exact absurd rfl nothing
  | cons child rest ih =>
    have head := each child (by simp) _ (many.mono Set.inter_subset_left)
    have may := Shade.mayBeOpen.and_ left head
    refine ih (forall_mem_cons.mp each).2 (index + 1)
      (many.mono Set.inter_subset_right) _ may.mayAdmitAnyone (.inl may) fun stopped => ?_
    rw [Shade.and_ond_of_admits left head.mayAdmitAnyone,Bool.or_eq_true]
    rcases Bool.or_eq_true_iff.mp stopped with earlier | now
    · exact .inl (marked earlier)
    · -- A blocking conjunct shows no path, so its own is undetermined.
      simp only [Bool.and_eq_true,Bool.not_eq_true',Shade.valid,Bool.or_eq_false_iff,decide_eq_false_iff_not] at now
      exact .inr (head.2.resolve_left now.1.2.2)

theorem shadeOr_cautious (each : ∀ child ∈ children, Cautious p given child) (place : List Nat)
    (index : Nat) (fresh : s.identity = false)
    (many : s.mayBeOpen ∨ (denotedOr given place index children).Infinite) : (shadeOr p s children).mayBeOpen := by
  induction children generalizing s index with
  | nil =>
    rcases many with may | many
    · exact may
    · exact absurd many (by simp [denotedOr])
  | cons child rest ih =>
    refine ih (forall_mem_cons.mp each).2 (index + 1)
      (by simp [Shade.or_,fresh]) ?_
    rcases many with may | many
    · exact .inl (Shade.mayBeOpen.or_ fresh (.inl may))
    · unfold denotedOr at many
      rcases Set.infinite_union.mp many with here | later
      · exact .inl (Shade.mayBeOpen.or_ fresh (.inr (each child (by simp) _ here)))
      · exact .inr later

theorem cautious (checks : ChecksRestrict given) (built : BuiltFrom OpennessLeaf cap) : Cautious p given cap := by
  induction built with
  | @leaf cap notAnd notOr known =>
    intro place many
    rcases known with ⟨kind,_⟩ | kind | kind | kind
    · exact absurd (finiteSet_few kind) many
    · rw [shade_path (.inl kind)]
      exact ⟨rfl,.inl Nat.one_pos⟩
    · rw [shade_path (.inr kind)]
      exact ⟨rfl,.inl Nat.one_pos⟩
    · rw [shade_unread kind]
      rw [denoted_given kind] at many
      exact ⟨rfl,.inr (by by_contra read; exact many (checks cap place (by simpa using read)))⟩
  | @and cap kind some_child built ih =>
    intro place many
    rw [denoted_and kind] at many
    obtain ⟨may,marked⟩ := shadeAnd_cautious ih place 0 many false (s:=Shade.empty) rfl (.inr some_child) (by simp)
    rw [shade_and kind,Shade.withhold]
    have kept := may.append cap.conditions
    split
    · rename_i stopped
      simp only [Bool.and_eq_true] at stopped
      refine ⟨kept.1,.inr ?_⟩
      have undetermined := marked stopped.1
      unfold Shade.append
      split <;> exact undetermined
    · exact kept
  | @or cap kind some_child built ih =>
    intro place many
    obtain ⟨first,rest,split⟩ := exists_cons_of_ne_nil some_child
    have fresh := (built first (by simp [split])).fresh p
    rw [denoted_or kind,split] at many
    rw [shade_or kind,split,shadeOr_first]
    refine Shade.mayBeOpen.append ?_ cap.conditions
    refine shadeOr_cautious (fun child member => ih child (by simp [split,member])) place 1 fresh ?_
    rcases Set.infinite_union.mp many with here | later
    · exact .inl (ih first (by simp [split]) _ here)
    · exact .inr later

theorem restricted_few (built : BuiltFrom OpennessLeaf cap) (checks : ChecksRestrict given)
    (restricted : capabilitySurfaceOpenness cap (projectCapabilitySurface p cap) = .restricted) :
    (denoted given [] cap).Finite := by
  by_contra many
  have may := cautious (p:=p) checks built [] many
  unfold capabilitySurfaceOpenness at restricted
  rcases surface_cases p cap with answer | stopped
  · rw [answer.finished,CapabilitySurface.authorityPublic,answer.paths,answer.undetermined] at restricted
    rcases may.2 with path | undetermined
    · simp [path] at restricted
    · simp only [undetermined,↓reduceIte] at restricted
      split_ifs at restricted
  · simp [stopped.1] at restricted

-- A restriction is never published over a path that may be open.
theorem restricted_not_most (p : Projector) (given : Given) (cap : CapDict) (built : BuiltFrom OpennessLeaf cap)
    (checks : ChecksRestrict given)
    (restricted : capabilitySurfaceOpenness cap (projectCapabilitySurface p cap) = .restricted) :
    denoted given [] cap ≠ Set.univ ∧ ¬AllButFinitely (denoted given [] cap) := by
  have most := not_allButFinitely_of_finite (restricted_few built checks restricted)
  refine ⟨fun whole => ?_,most⟩
  rw [whole] at most
  exact most AllButFinitely.univ

def unresolved : CapDict := {kind:=.unsupported,unsupportedReason:=some "unresolved",confidence:=some .checkOnly}

def listOrUnresolved : CapDict := anyOf [allowed [firstSigner],unresolved]

theorem listOrUnresolved_built : BuiltFrom OpennessLeaf listOrUnresolved := by
  refine .or rfl (by simp [listOrUnresolved,anyOf]) fun child member => ?_
  simp only [listOrUnresolved,anyOf,mem_cons,not_mem_nil,or_false] at member
  rcases member with rfl | rfl
  · exact .leaf (by decide) (by decide) (.inl ⟨rfl,rfl⟩)
  · exact .leaf (by decide) (by decide) (.inr (.inr (.inr (.inl rfl))))

theorem listOrUnresolved_restricted_yet_open : BuiltFrom OpennessLeaf listOrUnresolved ∧
    capabilitySurfaceOpenness listOrUnresolved (projectCapabilitySurface {} listOrUnresolved) = .restricted ∧
    denoted (fun _ _ => Set.univ) [] listOrUnresolved = Set.univ := by
  refine ⟨listOrUnresolved_built,by decide +kernel,?_⟩
  rw [Set.eq_univ_iff_forall]
  intro caller
  rw [denoted_or rfl]
  exact .inr (.inl trivial)

theorem restricted_not_most_listOrUnresolved :
    denoted (fun _ _ => {secondSigner}) [] listOrUnresolved ≠ Set.univ ∧
      ¬AllButFinitely (denoted (fun _ _ => {secondSigner}) [] listOrUnresolved) :=
  restricted_not_most {} (fun _ _ => {secondSigner}) listOrUnresolved listOrUnresolved_built
    (fun _ _ _ => Set.finite_singleton _) (by decide +kernel)

end Psat.Surface
