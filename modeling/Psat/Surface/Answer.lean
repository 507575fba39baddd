import Psat.General.Affordable
import Psat.Surface.Shade

namespace Psat.Surface
open Psat.Capability Psat.General List Ordered
open Ledger (work)

namespace Projector
variable (p : Projector)

def At (key : RowKey) (acc : RowAcc) : Prop := acc.row.address = key.address

def Keyed (rows : List (RowKey × RowAcc)) : Prop := ∀ e ∈ rows, At e.1 e.2

theorem merge_row (earlier later : RowAcc) : Returns (p.merge earlier later) fun out => out.row = earlier.row :=
  .after _ fun _ => .after _ fun _ => .pure rfl

theorem merge_keyed (key : RowKey) (earlier later : RowAcc) (holds : At key earlier) :
    Returns (p.merge earlier later) (At key) :=
  (p.merge_row earlier later).weaken fun _ same => by rw [At,same,holds]

theorem leafRow_row (row : Row) : Returns (p.leafRow row) fun acc => acc.row = row :=
  .after _ fun _ => .after _ fun _ => .pure rfl

def Lowered (rows : List Row) : Prop := ∀ row ∈ rows, Text.lower row.address = row.address

theorem leafRows_keyed (rows : List Row) (lowered : Lowered rows) : Returns (p.leafRows rows) fun s => Keyed s.rows :=
    by
  have loop : ∀ accs, Keyed accs → Returns (rows.foldlM (fun accs row => do
    let acc ← p.leafRow row
    mergeAt p.merge (rowKey row) acc accs) accs) Keyed := by
    induction rows with
    | nil => exact fun accs keyed => .pure keyed
    | cons row rest ih =>
      intro accs keyed
      refine .bind (.bind (p.leafRow_row row) fun acc same => ?_) (ih fun later member =>
        lowered later (mem_cons_of_mem _ member))
      refine mergeAt_all (fun key a b holds _ => p.merge_keyed key a b holds) _ _ ?_ accs keyed
      rw [At,same]
      exact (lowered row (by simp)).symm
  exact .bind (loop [] (by simp [Keyed])) fun accs keyed => .pure keyed

theorem rowsForFiniteSet_lowered : Lowered (rowsForFiniteSet cap conditions) := by
  intro row member
  obtain ⟨m,_,rfl⟩ := mem_map.mp member
  exact Text.lower_lower m

theorem rowsForThresholdGroup_lowered (lookup : List (String × String)) : Lowered
    (rowsForThresholdGroup cap conditions lookup signature) := by
  simp [Lowered,rowsForThresholdGroup]

theorem rowsForSignatureWitness_lowered : Lowered (rowsForSignatureWitness cap conditions) := by
  unfold rowsForSignatureWitness
  split
  · simp [Lowered]
  · split
    · intro row member
      obtain ⟨m,_,rfl⟩ := mem_map.mp member
      exact Text.lower_lower m
    · simp [Lowered]

theorem concat_keyed (parts : List (List (RowKey × RowAcc))) (each : ∀ part ∈ parts, Keyed part) :
    Returns (p.concat parts) Keyed := by
  have loop : ∀ acc, Keyed acc → Returns (parts.foldlM (fun out part => mergeAll p.merge out part) acc) Keyed := by
    induction parts with
    | nil => exact fun acc keyed => .pure keyed
    | cons part rest ih =>
      intro acc keyed
      refine .bind (mergeAll_all (fun key a b holds _ => p.merge_keyed key a b holds) acc part keyed
        (each part (by simp))) fun out grown => ?_
      exact ih (forall_mem_cons.mp each).2 out grown
  exact loop [] (by simp [Keyed])

theorem withConditions_row (ids : Ids) (acc : RowAcc) : Returns (p.withConditions ids acc)
    fun out => out.row = acc.row :=
  .after _ fun _ => .after _ fun _ => .pure rfl

theorem crossed_row (paths : Summary) (acc : RowAcc) : Returns (p.crossed paths acc) fun out => out.row = acc.row :=
  .after _ fun _ => .after _ fun _ => .pure rfl

theorem mapValues_keyed (kept : ∀ acc, Returns (f acc) fun out => out.row = acc.row) (keyed : Keyed rows) :
    Returns (mapValues f rows) Keyed :=
  mapValues_all At At (fun _ acc holds => (kept acc).weaken fun _ same => by rw [At,same,holds]) rows keyed

theorem append_keyed (s : Summary) (raw : List Condition) (keyed : Keyed s.rows) : Returns
    (p.append s raw) fun out => Keyed out.rows := by
  unfold append
  by_cases none : raw = []
  · rw [if_pos none]
    exact .pure keyed
  · rw [if_neg none]
    refine .after _ fun ids => ?_
    refine .bind (mapValues_keyed (p.withConditions_row ids) keyed) fun rows kept => ?_
    split
    · exact .pure kept
    · exact .after _ fun _ => .after _ fun _ => .pure kept

theorem or_keyed (left right : Summary) (first : Keyed left.rows) (second : Keyed right.rows) :
    Returns (p.or_ left right) fun out => Keyed out.rows := by
  unfold or_
  split
  · exact .pure second
  · refine .after _ fun _ => .after _ fun _ => ?_
    exact .bind (p.concat_keyed _ (by simp [first,second])) fun rows kept => .pure kept

theorem withSideChecks_keyed (valid : Summary) (side : List CapDict) (keyed : Keyed valid.rows) :
    Returns (p.withSideChecks valid side) fun out => Keyed out.rows :=
  .bind (p.append_keyed valid _ keyed) fun _ kept => .pure kept

theorem crossedRows_keyed (paths : Summary) (rows : List (RowKey × RowAcc)) (keyed : Keyed rows) :
    Returns (p.crossedRows paths rows) Keyed := by
  unfold crossedRows
  split
  · exact .pure (by simp [Keyed])
  · exact mapValues_keyed (p.crossed_row paths) keyed

theorem passedRows_keyed (side : Summary) (rows : List (RowKey × RowAcc)) (keyed : Keyed rows) :
    Returns (p.passedRows side rows) Keyed := by
  unfold passedRows
  split
  · exact mapValues_keyed (p.withConditions_row notRead) keyed
  · exact .pure (by simp [Keyed])

theorem product_keyed (left right : Summary) (first : Keyed left.rows) (second : Keyed right.rows) :
    Returns (p.product left right) fun out => Keyed out.rows := by
  refine .bind (p.crossedRows_keyed _ _ first) fun a ha => ?_
  refine .bind (p.crossedRows_keyed _ _ second) fun b hb => ?_
  refine .bind (p.passedRows_keyed _ _ first) fun c hc => ?_
  refine .bind (p.passedRows_keyed _ _ second) fun d hd => ?_
  refine .bind (p.concat_keyed _ (by simp [ha,hb,hc,hd])) fun rows kept => ?_
  split
  · exact .pure kept
  · exact .after _ fun _ => .after _ fun _ => .pure kept

theorem and_keyed (left right : Summary) (first : Keyed left.rows) (second : Keyed right.rows) :
    Returns (p.and_ left right) fun out => Keyed out.rows := by
  have met : Returns (p.meet left right) fun out => Keyed out.rows := by
    unfold meet
    split
    · exact .pure (by simp [Keyed])
    · split
      · exact p.withSideChecks_keyed left _ first
      · split
        · exact p.withSideChecks_keyed right _ second
        · exact p.product_keyed left right first second
  refine .after _ fun _ => .bind met fun surface kept => ?_
  split <;> exact .pure kept

mutual
theorem node_keyed : (cap : CapDict) → Returns (p.node cap) fun s => Keyed s.rows
  | ⟨fields,signer,children⟩ => by
    have none : Keyed [] := by simp [Keyed]
    unfold node
    refine .after _ fun _ => ?_
    split
    · exact .pure none
    · cases kind : fields.kind with
      | finiteSet =>
        exact .bind (p.leafRows_keyed _ (rowsForFiniteSet_lowered)) fun s kept => .pure kept
      | thresholdGroup => exact p.leafRows_keyed _ (rowsForThresholdGroup_lowered _)
      | signatureWitness => exact p.leafRows_keyed _ (rowsForSignatureWitness_lowered)
      | or => exact .bind (orLoop_keyed Summary.empty none children) fun s kept => p.append_keyed s _ kept
      | and =>
        refine .bind (andLoop_keyed Summary.empty false none children) fun folded kept => ?_
        refine .bind (p.append_keyed folded.1 _ kept) fun out appended => .pure ?_
        unfold withhold
        split <;> exact appended
      | externalCheckOnly | unsupported => exact .pure none
      | _ => exact .after _ fun _ => .pure none
theorem orLoop_keyed (s : Summary) (keyed : Keyed s.rows) : (children : List CapDict) →
    Returns (p.orLoop s children) fun out => Keyed out.rows
  | [] => .pure keyed
  | child :: rest => by
    refine .bind (node_keyed child) fun childSurface kept => ?_
    exact .bind (p.or_keyed s childSurface keyed kept) fun joined holds => orLoop_keyed joined holds rest
theorem andLoop_keyed (s : Summary) (blocked : Bool) (keyed : Keyed s.rows) : (children : List CapDict) →
    Returns (p.andLoop s blocked children) fun out => Keyed out.1.rows
  | [] => .pure keyed
  | child :: rest => by
    refine .bind (node_keyed child) fun childSurface kept => ?_
    exact .bind (p.and_keyed s childSurface keyed kept) fun joined holds => andLoop_keyed joined _ holds rest
end

def under (budget : Nat) : Projector := {p with budget}

theorem spend_affordable (units : Nat) : Affordable work fun budget => (p.under budget).spend units := by
  intro ledger
  refine ⟨(),{ledger with work:=ledger.work + units},Nat.le_add_right _ _,fun budget _ => ?_⟩
  change (if budget < ledger.work + units then none else some _) = _
  by_cases exceeds : budget < ledger.work + units
  · rw [if_pos exceeds,if_neg (Nat.not_le.mpr exceeds)]
  · rw [if_neg exceeds,if_pos (Nat.not_lt.mp exceeds)]

theorem internOne_affordable (condition : Condition) : Affordable work fun _ => internOne condition := by
  refine .free fun ledger => ?_
  cases found : ledger.table.idxOf? condition with
  | some ident => exact ⟨ident,ledger,rfl,by simp [StateT.run,internOne,found]⟩
  | none =>
    exact ⟨ledger.table.length,{ledger with table:=ledger.table ++ [condition]},rfl,by
      simp [StateT.run,internOne,found]⟩

theorem intern_affordable (conditions : List Condition) : Affordable work
    fun budget => (p.under budget).intern conditions := by
  refine .bind (p.spend_affordable _) fun _ => ?_
  exact .foldlM (fun out condition => .bind (internOne_affordable condition) fun _ =>
    .pure _) conditions []

theorem unique_affordable (parts : List Ids) : Affordable work fun budget => (p.under budget).unique parts :=
  .bind (p.spend_affordable _) fun _ => .pure _

theorem merge_affordable (earlier later : RowAcc) :
    Affordable work fun budget => (p.under budget).merge earlier later :=
  .bind (p.spend_affordable _) fun _ => .bind (p.unique_affordable _) fun _ => .pure _

theorem leafRows_affordable (rows : List Row) : Affordable work fun budget => (p.under budget).leafRows rows := by
  refine .bind (.foldlM (fun accs row => ?_) rows []) fun _ => .pure _
  refine .bind ?_ fun acc => mergeAt_affordable p.merge_affordable _ _ _
  exact .bind (p.spend_affordable _) fun _ => .bind (p.intern_affordable _) fun _ =>
    .pure _

theorem concat_affordable (parts : List (List (RowKey × RowAcc))) :
    Affordable work fun budget => (p.under budget).concat parts :=
  .foldlM (fun out part => mergeAll_affordable p.merge_affordable out part) parts []

theorem withConditions_affordable (ids : Ids) (acc : RowAcc) :
    Affordable work fun budget => (p.under budget).withConditions ids acc :=
  .bind (p.unique_affordable _) fun _ => .bind (p.unique_affordable _) fun _ => .pure _

theorem crossed_affordable (paths : Summary) (acc : RowAcc) : Affordable work
    fun budget => (p.under budget).crossed paths acc := by
  refine .bind ?_ fun _ => .bind (p.unique_affordable _) fun _ => .pure _
  exact .ite _ (fun _ => .pure _) fun _ => p.unique_affordable _

theorem append_affordable (s : Summary) (raw : List Condition) : Affordable work
    fun budget => (p.under budget).append s raw := by
  refine .ite _ (fun _ => .pure _) fun _ => ?_
  refine .bind (p.intern_affordable _) fun ids => ?_
  refine .bind (mapValues_affordable (p.withConditions_affordable ids) _) fun rows => ?_
  refine .ite _ (fun _ => .pure _) fun _ => ?_
  exact .bind (p.unique_affordable _) fun _ => .bind (p.unique_affordable _) fun _ =>
    .pure _

theorem or_affordable (left right : Summary) : Affordable work fun budget => (p.under budget).or_ left right := by
  refine .ite _ (fun _ => .pure _) fun _ => ?_
  refine .bind (p.spend_affordable _) fun _ => .bind ?_ fun paths => ?_
  · refine .ite _ (fun _ => .pure _) fun _ => ?_
    exact .ite _ (fun _ => .pure _) fun _ => .bind (p.unique_affordable _) fun _ =>
      .pure _
  · exact .bind (p.concat_affordable _) fun _ => .pure _

theorem withSideChecks_affordable (valid : Summary) (side : List CapDict) :
    Affordable work fun budget => (p.under budget).withSideChecks valid side :=
  .bind (p.append_affordable _ _) fun _ => .pure _

theorem crossedRows_affordable (paths : Summary) (rows : List (RowKey × RowAcc)) :
    Affordable work fun budget => (p.under budget).crossedRows paths rows :=
  .ite _ (fun _ => .pure _) fun _ => mapValues_affordable (p.crossed_affordable paths) _

theorem passedRows_affordable (side : Summary) (rows : List (RowKey × RowAcc)) :
    Affordable work fun budget => (p.under budget).passedRows side rows :=
  .ite _ (fun _ => mapValues_affordable (p.withConditions_affordable _) _) fun _ => .pure _

theorem product_affordable (left right : Summary) : Affordable work fun budget => (p.under budget).product left right :=
    by
  refine .bind (p.crossedRows_affordable _ _) fun _ => .bind (p.crossedRows_affordable _ _) fun _ => ?_
  refine .bind (p.passedRows_affordable _ _) fun _ => .bind (p.passedRows_affordable _ _) fun _ => ?_
  refine .bind (p.concat_affordable _) fun _ => .ite _ (fun _ => .pure _) fun _ => ?_
  exact .bind (p.unique_affordable _) fun _ => .bind (p.unique_affordable _) fun _ =>
    .pure _

theorem and_affordable (left right : Summary) : Affordable work fun budget => (p.under budget).and_ left right := by
  refine .bind (p.spend_affordable _) fun _ => .bind ?_ fun surface => ?_
  · refine .ite _ (fun _ => .pure _) fun _ => ?_
    refine .ite _ (fun _ => p.withSideChecks_affordable _ _) fun _ => ?_
    exact .ite _ (fun _ => p.withSideChecks_affordable _ _) fun _ => p.product_affordable _ _
  · exact .ite _ (fun _ => .pure _) fun _ => .pure _

mutual
theorem node_affordable : (cap : CapDict) → Affordable work fun budget => (p.under budget).node cap
  | ⟨fields,signer,children⟩ => by
    unfold node
    refine .bind (p.spend_affordable _) fun _ => ?_
    refine .ite _ (fun _ => .pure _) fun _ => ?_
    cases kind : fields.kind with
    | finiteSet => exact .bind (p.leafRows_affordable _) fun _ => .pure _
    | thresholdGroup =>
      exact p.leafRows_affordable (rowsForThresholdGroup _ fields.conditions p.safeAddressLookup p.functionSignature)
    | signatureWitness => exact p.leafRows_affordable _
    | or => exact .bind (orLoop_affordable Summary.empty children) fun s => p.append_affordable s _
    | and =>
      exact .bind (andLoop_affordable Summary.empty false children) fun folded =>
        .bind (p.append_affordable folded.1 _) fun _ => .pure _
    | externalCheckOnly | unsupported => exact .pure _
    | _ => exact .bind (p.intern_affordable _) fun _ => .pure _
theorem orLoop_affordable (s : Summary) : (children : List CapDict) →
    Affordable work fun budget => (p.under budget).orLoop s children
  | [] => .pure s
  | child :: rest =>
    .bind (node_affordable child) fun _ => .bind (p.or_affordable _ _) fun joined =>
      orLoop_affordable joined rest
theorem andLoop_affordable (s : Summary) (blocked : Bool) : (children : List CapDict) →
    Affordable work fun budget => (p.under budget).andLoop s blocked children
  | [] => .pure _
  | child :: rest =>
    .bind (node_affordable child) fun childSurface => .bind (p.and_affordable _ _) fun joined =>
      andLoop_affordable joined
        (blocked || (p.earnedPublic && !childSurface.valid && isRootAuthorityBlocker child)) rest
end

theorem node_over (exceeds : p.budget < ledger.work + 1) (cap : CapDict) : (p.node cap).run ledger = none := by
  obtain ⟨fields,signer,children⟩ := cap
  unfold node
  rw [StateT.run_bind]
  have stopped : (p.spend 1).run ledger = none := by simp [StateT.run,spend,exceeds]
  rw [stopped]
  rfl

end Projector

-- Some amount of work decides whether the projection finishes; then the surface is the shade's.
structure Answers (p : Projector) (cap : CapDict) (surface : CapabilitySurface) : Prop where
  finished : surface.notDeterminedReason = none
  paths : surface.publicPathCount = (shade p cap).count
  undetermined : surface.openNotDetermined = (shade p cap).ond
  listed : surface.principalRows.map Row.address = (shade p cap).keys.map RowKey.address

def Stopped (surface : CapabilitySurface) : Prop :=
  surface.notDeterminedReason = some projectionBudgetExceeded ∧ surface.publicPathCount = 0 ∧ surface.principalRows = []

theorem materialize_address (acc : RowAcc) (table : List Condition) :
    (acc.materialize table).address = acc.row.address := by
  rfl

theorem Projector.Keyed.addresses (keyed : Projector.Keyed rows) (table : List Condition) :
    (rows.map fun entry => entry.2.materialize table).map Row.address = (keys rows).map RowKey.address := by
  rw [Ordered.keys,map_map,map_map]
  exact map_congr_left fun entry member => (materialize_address _ _).trans (keyed entry member)

mutual
theorem shade_under (p : Projector) (budget : Nat) : (cap : CapDict) → shade (p.under budget) cap = shade p cap
  | ⟨fields,signer,children⟩ => by
    unfold shade
    rw [shadeOr_under p budget children,shadeAnd_under p budget children]
    rfl
theorem shadeOr_under (p : Projector) (budget : Nat) : (children : List CapDict) →
    shadeOr (p.under budget) s children = shadeOr p s children
  | [] => rfl
  | child :: rest => by
    unfold shadeOr
    rw [shade_under p budget child]
    exact shadeOr_under p budget rest
theorem shadeAnd_under (p : Projector) (budget : Nat) : (children : List CapDict) →
    shadeAnd (p.under budget) s blocked children = shadeAnd p s blocked children
  | [] => rfl
  | child :: rest => by
    unfold shadeAnd
    rw [shade_under p budget child]
    exact shadeAnd_under p budget rest
end

theorem surface_finished (ran : (p.node cap).run {table:=[conditionNotRead],work:=1} = some (summary,ledger)) :
    Answers p cap (projectCapabilitySurface p cap) := by
  have shaded := p.node_shade cap _ _ _ ran
  have keyed := p.node_keyed cap _ _ _ ran
  simp only [projectCapabilitySurface,ran]
  refine ⟨rfl,congrArg Shade.count shaded,congrArg Shade.ond shaded,?_⟩
  rw [← shaded]
  exact keyed.addresses ledger.table

theorem surface_stopped (ran : (p.node cap).run {table:=[conditionNotRead],work:=1} = none) :
    Stopped (projectCapabilitySurface p cap) := by
  simp only [projectCapabilitySurface,ran]
  exact ⟨rfl,rfl,rfl⟩

theorem node_under (p : Projector) (cap : CapDict) : ∃ summary ledger, ∀ budget,
    ((p.under budget).node cap).run {table:=[conditionNotRead],work:=1} = if ledger.work ≤ budget then some
    (summary,ledger) else none := by
  obtain ⟨summary,ledger,grew,ran⟩ := p.node_affordable cap {table:=[conditionNotRead],work:=1}
  refine ⟨summary,ledger,fun budget => ?_⟩
  by_cases start : 1 ≤ budget
  · exact ran budget start
  · rw [if_neg fun enough => start (grew.trans enough)]
    refine (p.under budget).node_over ?_ cap
    change budget < 1 + 1
    omega

theorem surface_answers (p : Projector) (cap : CapDict) : ∃ work, ∀ budget,
    (work ≤ budget → Answers p cap (projectCapabilitySurface (p.under budget) cap)) ∧
    (budget < work → Stopped (projectCapabilitySurface (p.under budget) cap)) := by
  obtain ⟨summary,ledger,ran⟩ := node_under p cap
  refine ⟨ledger.work,fun budget => ⟨fun enough => ?_,fun short => ?_⟩⟩
  · have finished := ran budget
    rw [if_pos enough] at finished
    obtain ⟨done,paths,undetermined,listed⟩ := surface_finished finished
    rw [shade_under] at paths undetermined listed
    exact ⟨done,paths,undetermined,listed⟩
  · apply surface_stopped
    rw [ran,if_neg (Nat.not_le.mpr short)]

theorem surface_fixed_by_work (p : Projector) (cap : CapDict) : ∃ work surface, surface.notDeterminedReason = none ∧
    ∀ budget,
    (work ≤ budget → projectCapabilitySurface (p.under budget) cap = surface) ∧
    (budget < work → Stopped (projectCapabilitySurface (p.under budget) cap)) := by
  obtain ⟨summary,ledger,ran⟩ := node_under p cap
  have finished := ran ledger.work
  rw [if_pos (Nat.le_refl _)] at finished
  refine ⟨ledger.work,_,(surface_finished finished).1,fun budget => ⟨fun enough => ?_,fun short => ?_⟩⟩
  · simp only [projectCapabilitySurface,ran,enough,Nat.le_refl,if_true]
  · apply surface_stopped
    rw [ran,if_neg (Nat.not_le.mpr short)]

theorem surface_cases (p : Projector) (cap : CapDict) :
    Answers p cap (projectCapabilitySurface p cap) ∨ Stopped (projectCapabilitySurface p cap) := by
  cases ran : (p.node cap).run {table:=[conditionNotRead],work:=1} with
  | none => exact .inr (surface_stopped ran)
  | some result => exact .inl (surface_finished ran)

end Psat.Surface
