import Psat.Surface.Projector

namespace Psat.Surface
open Psat.Capability Psat.General Returns

-- What a summary decides; conditions, traces and residuals never change it.
structure Shade where
  keys : List RowKey := []
  ond : Bool := false
  count : Nat := 0
  nobody : Bool := false
  identity : Bool := false
deriving DecidableEq

def Summary.shade (s : Summary) : Shade := ⟨Ordered.keys s.rows,s.ond,s.count,s.nobody,s.identity⟩

namespace Shade

def empty : Shade := {identity:=true}

def valid (s : Shade) : Bool := !s.keys.isEmpty || decide (0 < s.count)

def mayAdmitAnyone (s : Shade) : Bool := !s.nobody && (decide (0 < s.count) || s.ond || !s.valid)

def concatKeys (parts : List (List RowKey)) : List RowKey := parts.foldl Ordered.insertKeys []

def append (s : Shade) (raw : List Condition) : Shade := if raw = [] then s else {s with identity:=false}

def or_ (left right : Shade) : Shade :=
  if left.identity then right
  else {
    keys:=concatKeys [left.keys,right.keys],ond:=left.ond || right.ond,count:=left.count + right.count
    nobody:=left.nobody && right.nobody }

def productKeys (left right : Shade) : List RowKey :=
  concatKeys [if right.count = 0 then [] else left.keys,if left.count = 0 then [] else right.keys,
    if right.ond then left.keys else [],if left.ond then right.keys else []]

-- Listed callers and public paths of an AND, before emptiness is considered.
def meet (left right : Shade) : Shade :=
  if !left.valid && !right.valid then {}
  else if !right.valid then {keys:=left.keys,count:=left.count}
  else if !left.valid then {keys:=right.keys,count:=right.count}
  else {keys:=productKeys left right,count:=left.count * right.count}

def and_ (left right : Shade) : Shade :=
  if left.nobody || right.nobody then {keys:=(meet left right).keys,nobody:=true}
  else {meet left right with
    ond:=(left.ond && right.mayAdmitAnyone) || (right.ond && left.mayAdmitAnyone)}

def withhold (blocked : Bool) (s : Shade) : Shade :=
  if blocked && decide (0 < s.count) then {keys:=s.keys,ond:=s.ond,nobody:=s.nobody} else s

def rows (rows : List Row) : Shade := {keys:=Ordered.unique (rows.map rowKey)}

end Shade

mutual
def shade (p : Projector) : CapDict → Shade
  | ⟨fields,signer,children⟩ =>
    let cap : CapDict := ⟨fields,signer,children⟩
    if isReachNotDetermined cap then {ond:=true}
    else match fields.kind with
    | .finiteSet => {Shade.rows (rowsForFiniteSet cap fields.conditions) with nobody:=isProvenEmpty cap}
    | .thresholdGroup =>
      .rows (rowsForThresholdGroup cap fields.conditions p.safeAddressLookup p.functionSignature)
    | .signatureWitness => .rows (rowsForSignatureWitness cap fields.conditions)
    | .conditionalUniversal => {count:=1}
    | .or => (shadeOr p .empty children).append fields.conditions
    | .and =>
      let folded := shadeAnd p .empty false children
      .withhold folded.2 (folded.1.append fields.conditions)
    | .cofiniteBlacklist => {count:=1}
    | .externalCheckOnly => {}
    | .unsupported => {}
def shadeOr (p : Projector) (s : Shade) : List CapDict → Shade
  | [] => s
  | child :: rest => shadeOr p (s.or_ (shade p child)) rest
def shadeAnd (p : Projector) (s : Shade) (blocked : Bool) : List CapDict → Shade × Bool
  | [] => (s,blocked)
  | child :: rest =>
    let blocks := p.earnedPublic && !(shade p child).valid && isRootAuthorityBlocker child
    shadeAnd p (s.and_ (shade p child)) (blocked || blocks) rest
end

namespace Shade

@[simp] theorem meet_nobody (s s' : Shade) : (s.meet s').nobody = false := by
  unfold meet
  split_ifs <;> rfl

@[simp] theorem meet_identity (s s' : Shade) : (s.meet s').identity = false := by
  unfold meet
  split_ifs <;> rfl

@[simp] theorem and_identity (s s' : Shade) : (s.and_ s').identity = false := by
  unfold and_
  split
  · rfl
  · exact meet_identity s s'

theorem and_of_passable {s s' : Shade} (left : s.nobody = false) (right : s'.nobody = false) :
    s.and_ s' = {s.meet s' with ond:=(s.ond && s'.mayAdmitAnyone) || (s'.ond && s.mayAdmitAnyone)} := by
  rw [and_,left,right]
  rfl

@[simp] theorem or_identity {s s' : Shade} (fresh : s.identity = false) : (s.or_ s').identity = false := by
  simp [or_,fresh]

theorem append_identity {s : Shade} (fresh : s.identity = false) : (s.append raw).identity = false := by
  unfold append
  split
  · exact fresh
  · rfl

theorem withhold_identity {s : Shade} (fresh : s.identity = false) : (s.withhold blocked).identity = false := by
  unfold withhold
  split
  · rfl
  · exact fresh

end Shade

theorem shadeOr_first (p : Projector) (first : CapDict) (rest : List CapDict) :
    shadeOr p .empty (first :: rest) = shadeOr p (shade p first) rest := rfl

theorem shadeAnd_identity (fresh : s.identity = false) (blocked : Bool) (children : List CapDict) :
    (shadeAnd p s blocked children).1.identity = false := by
  induction children generalizing s blocked with
  | nil => exact fresh
  | cons child rest ih => exact ih (Shade.and_identity s _) _

theorem shadeOr_identity (fresh : s.identity = false) (children : List CapDict) :
    (shadeOr p s children).identity = false := by
  induction children generalizing s with
  | nil => exact fresh
  | cons child rest ih => exact ih (Shade.or_identity fresh)

theorem not_reach_of_kind (kind : c.kind ≠ .externalCheckOnly) : isReachNotDetermined c = false := by
  simp [isReachNotDetermined,kind]

theorem shade_finiteSet (kind : cap.kind = .finiteSet) :
    shade p cap = {Shade.rows (rowsForFiniteSet cap cap.conditions) with nobody:=isProvenEmpty cap} := by
  have read := not_reach_of_kind (c:=cap) (by simp [kind])
  cases cap
  simp_all [shade]

theorem shade_path (kind : cap.kind = .cofiniteBlacklist ∨ cap.kind = .conditionalUniversal) :
    shade p cap = {count:=1} := by
  have read := not_reach_of_kind (c:=cap) (by rcases kind with kind | kind <;> simp [kind])
  obtain ⟨fields,signer,children⟩ := cap
  simp only at kind
  unfold shade
  rcases kind with kind | kind <;> simp only [read,kind,Bool.false_eq_true,↓reduceIte]

theorem shade_or (kind : cap.kind = .or) : shade p cap = (shadeOr p Shade.empty cap.children).append cap.conditions :=
    by
  have read := not_reach_of_kind (c:=cap) (by simp [kind])
  cases cap
  simp_all [shade]

theorem shade_and (kind : cap.kind = .and) : shade p cap = Shade.withhold (shadeAnd p Shade.empty false cap.children).2
    ((shadeAnd p .empty false cap.children).1.append cap.conditions) := by
  have read := not_reach_of_kind (c:=cap) (by simp [kind])
  cases cap
  simp_all [shade]

theorem shade_unread (kind : cap.kind = .unsupported ∨ cap.kind = .externalCheckOnly) :
    shade p cap = {ond:=isReachNotDetermined cap} := by
  cases read : isReachNotDetermined cap with
  | true =>
    obtain ⟨fields,signer,children⟩ := cap
    unfold shade
    simp only [read,↓reduceIte]
  | false =>
    obtain ⟨fields,signer,children⟩ := cap
    simp only at kind
    unfold shade
    rcases kind with kind | kind <;> simp only [read,kind,Bool.false_eq_true,↓reduceIte]

@[simp] theorem Summary.shade_valid (s : Summary) : s.shade.valid = s.valid := by
  cases empty : s.rows <;> simp [Summary.shade,Shade.valid,Summary.valid,Ordered.keys,empty]

@[simp] theorem Summary.shade_mayAdmitAnyone (s : Summary) : s.shade.mayAdmitAnyone = s.mayAdmitAnyone := by
  simp only [Shade.mayAdmitAnyone,Summary.mayAdmitAnyone,Summary.shade_valid]
  rfl

namespace Projector
variable (p : Projector)

theorem leafRows_shade (rows : List Row) : Returns (p.leafRows rows) fun s => s.shade = Shade.rows rows := by
  have loop := foldlM
    (fun accs row => do
        let acc ← p.leafRow row
        Ordered.mergeAt p.merge (rowKey row) acc accs)
    (fun done accs => Ordered.keys accs = Ordered.unique (done.map rowKey))
    (fun done row accs holds => by
        refine .after _ fun acc => ?_
        refine (Ordered.mergeAt_keys p.merge (rowKey row) acc accs).weaken fun out grown => ?_
        rw [grown,holds]
        simp [Ordered.unique,Ordered.insertKeys])
    rows [] [] rfl
  refine bind loop fun accs holds => pure ?_
  simp only [Summary.shade,Shade.rows,holds,List.nil_append]

theorem concat_keys (parts : List (List (RowKey × RowAcc))) :
    Returns (p.concat parts) fun out => Ordered.keys out = Shade.concatKeys (parts.map Ordered.keys) := by
  have loop := foldlM
    (fun out part => Ordered.mergeAll p.merge out part)
    (fun done out => Ordered.keys out = Shade.concatKeys (done.map Ordered.keys))
    (fun done part out holds => by
        refine (Ordered.mergeAll_keys p.merge out part).weaken fun out' grown => ?_
        rw [grown,holds]
        simp [Shade.concatKeys])
    parts [] [] rfl
  simpa [concat] using loop

theorem append_shade (s : Summary) (raw : List Condition) : Returns (p.append s raw)
    fun out => out.shade = s.shade.append raw := by
  unfold append
  by_cases none : raw = []
  · rw [if_pos none]
    exact .pure (by simp [Shade.append,none])
  · rw [if_neg none]
    refine .after _ fun ids => ?_
    refine .bind (Ordered.mapValues_keys _ _) fun rows same => ?_
    split
    · rename_i zero
      exact .pure (by simp [Summary.shade,Shade.append,none,same,zero])
    · refine .after _ fun pfirst => .after _ fun punion => .pure ?_
      simp [Summary.shade,Shade.append,none,same]

theorem or_shade (left right : Summary) : Returns (p.or_ left right)
    fun out => out.shade = left.shade.or_ right.shade := by
  unfold or_
  by_cases identity : left.identity
  · rw [if_pos identity]
    exact .pure (by simp [Summary.shade,Shade.or_,identity])
  · rw [if_neg identity]
    refine .after _ fun _ => .after _ fun paths => ?_
    refine .bind (p.concat_keys _) fun rows same => .pure ?_
    simp [Summary.shade,Shade.or_,identity,same]

theorem withSideChecks_shade (valid : Summary) (side : List CapDict) : Returns (p.withSideChecks valid side) fun out =>
    out.shade = {keys:=Ordered.keys valid.rows,count:=valid.count} := by
  refine .bind (p.append_shade valid _) fun appended same => .pure ?_
  have fields : appended.shade.keys = valid.shade.keys ∧ appended.shade.count = valid.shade.count := by
    rw [same]
    unfold Shade.append
    split <;> exact ⟨rfl,rfl⟩
  exact congrArg₂ (fun keys count => ({keys,count} : Shade)) fields.1 fields.2

theorem crossedRows_keys (paths : Summary) (rows : List (RowKey × RowAcc)) : Returns (p.crossedRows paths rows)
    fun out =>
    Ordered.keys out = if paths.count = 0 then [] else Ordered.keys rows := by
  unfold crossedRows
  split
  · exact .pure rfl
  · exact Ordered.mapValues_keys _ rows

theorem passedRows_keys (side : Summary) (rows : List (RowKey × RowAcc)) :
    Returns (p.passedRows side rows) fun out => Ordered.keys out = if side.ond then Ordered.keys rows else [] := by
  unfold passedRows
  split
  · exact Ordered.mapValues_keys _ rows
  · exact .pure rfl

theorem product_shade (left right : Summary) : Returns (p.product left right) fun out =>
    out.shade = {keys:=Shade.productKeys left.shade right.shade,count:=left.count * right.count} := by
  refine .bind (p.crossedRows_keys _ _) fun leftCrossed first => ?_
  refine .bind (p.crossedRows_keys _ _) fun rightCrossed second => ?_
  refine .bind (p.passedRows_keys _ _) fun leftPassed third => ?_
  refine .bind (p.passedRows_keys _ _) fun rightPassed fourth => ?_
  refine .bind (p.concat_keys _) fun rows all => ?_
  have listed : Ordered.keys rows = Shade.productKeys left.shade right.shade := by
    rw [all]
    simp only [List.map_cons,List.map_nil,first,second,third,fourth]
    rfl
  split
  · rename_i zero
    refine .pure ?_
    rcases zero with zero | zero <;> simp [Summary.shade,listed,zero]
  · exact .after _ fun _ => .after _ fun _ => .pure (by simp [Summary.shade,listed])

theorem meet_shade (left right : Summary) : Returns (p.meet left right)
    fun out => out.shade = Shade.meet left.shade right.shade := by
  simp only [meet,Shade.meet,Summary.shade_valid]
  split
  · exact .pure rfl
  · split
    · exact p.withSideChecks_shade left _
    · split
      · exact p.withSideChecks_shade right _
      · exact p.product_shade left right

theorem and_shade (left right : Summary) : Returns (p.and_ left right)
    fun out => out.shade = left.shade.and_ right.shade := by
  refine .after _ fun _ => .bind (p.meet_shade left right) fun surface same => ?_
  have nobody : (left.shade.nobody || right.shade.nobody) = (left.nobody || right.nobody) := rfl
  simp only [Shade.and_,nobody,Summary.shade_mayAdmitAnyone,← same]
  split
  · exact .pure rfl
  · exact .pure rfl

theorem withhold_shade : (withhold blocked s).shade = s.shade.withhold blocked := by
  unfold withhold Shade.withhold
  have count : s.shade.count = s.count := rfl
  rw [count]
  split <;> rfl

mutual
theorem node_shade : (cap : CapDict) → Returns (p.node cap) fun s => s.shade = shade p cap
  | ⟨fields,signer,children⟩ => by
    unfold node shade
    refine .after _ fun _ => ?_
    by_cases reach : isReachNotDetermined ⟨fields,signer,children⟩
    · simp only [reach,↓reduceIte]
      exact .pure rfl
    · simp only [reach,Bool.false_eq_true,↓reduceIte]
      cases kind : fields.kind with
      | finiteSet =>
        refine .bind (p.leafRows_shade _) fun s same => .pure ?_
        rw [← same]
        rfl
      | thresholdGroup | signatureWitness => exact p.leafRows_shade _
      | or =>
        refine .bind (orLoop_shade .empty children) fun s same => ?_
        refine (p.append_shade s _).weaken fun out appended => ?_
        rw [appended,same]
        rfl
      | and =>
        refine .bind (andLoop_shade .empty false children) fun folded same => ?_
        refine .bind (p.append_shade folded.1 _) fun out appended => .pure ?_
        rw [withhold_shade,appended,same.1,same.2]
        rfl
      | externalCheckOnly | unsupported => exact .pure rfl
      | _ => exact .after _ fun _ => .pure rfl
theorem orLoop_shade (s : Summary) : (children : List CapDict) →
    Returns (p.orLoop s children) fun out => out.shade = shadeOr p s.shade children
  | [] => .pure rfl
  | child :: rest => by
    unfold orLoop shadeOr
    refine .bind (node_shade child) fun childSurface same => ?_
    refine .bind (p.or_shade s childSurface) fun joined holds => ?_
    rw [← same,← holds]
    exact orLoop_shade joined rest
theorem andLoop_shade (s : Summary) (blocked : Bool) : (children : List CapDict) →
    Returns (p.andLoop s blocked children) fun out =>
      out.1.shade = (shadeAnd p s.shade blocked children).1 ∧ out.2 = (shadeAnd p s.shade blocked children).2
  | [] => .pure ⟨rfl,rfl⟩
  | child :: rest => by
    unfold andLoop shadeAnd
    refine .bind (node_shade child) fun childSurface same => ?_
    refine .bind (p.and_shade s childSurface) fun joined holds => ?_
    rw [← same,← holds,Summary.shade_valid]
    exact andLoop_shade joined _ rest
end

end Projector
end Psat.Surface
