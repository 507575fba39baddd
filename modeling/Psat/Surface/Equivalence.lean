import Psat.Surface.Meaning

namespace Psat.Surface
open Psat.Capability Psat.General List Ordered Still
open Projector (append internOne meet node or_ productResidual withhold)

theorem Interned.later (held : Interned table ident condition) (above : table ≤ last) : Interned last ident condition :=
    by
  obtain ⟨bound,same⟩ := List.getElem?_eq_some_iff.mp held
  obtain ⟨more,shape⟩ := above
  unfold Interned
  rw [← shape,getElem?_append_left bound]
  exact held

theorem internOne_later (condition : Condition) :
    Later Shows (internOne condition) table fun last ident => Interned last ident condition := by
  intro s ident s' seen run
  change internOne condition s = some (ident,s') at run
  unfold internOne at run
  cases found : s.table.idxOf? condition with
  | some present =>
    rw [found] at run
    cases run
    refine ⟨table,seen,le_refl table,fun last above => ?_⟩
    have here : Interned table ident condition := by
      unfold Interned
      rw [← seen]
      obtain ⟨bound,same,_⟩ := idxOf?_eq_some_iff.mp found
      rw [getElem?_eq_getElem bound,same]
    exact here.later above
  | none =>
    rw [found] at run
    cases run
    have fresh : condition ∉ table.conditions := by
      rw [← seen]
      exact idxOf?_eq_none_iff.mp found
    have distinct : (table.conditions ++ [condition]).Nodup :=
      nodup_append.mpr ⟨table.distinct,by simp,fun a inside b here same => fresh (by
        rw [← mem_singleton.mp here,← same]
        exact inside)⟩
    have opens : (table.conditions ++ [condition])[0]? = some conditionNotRead := by
      rw [getElem?_append_left (List.getElem?_eq_some_iff.mp table.opens).1]
      exact table.opens
    refine ⟨⟨table.conditions ++ [condition],distinct,opens⟩,?_,prefix_append _ _,fun last above => ?_⟩
    · change s.table ++ [condition] = table.conditions ++ [condition]
      rw [seen]
    · refine Interned.later ?_ above
      change (table.conditions ++ [condition])[s.table.length]? = some condition
      rw [seen,getElem?_concat_length]

theorem intern_later (p : Projector) (conditions : List Condition) :
    Later Shows (p.intern conditions) table fun last ids => Reads last ids (unique conditions) := by
  refine .bind (later fun _ _ => spend_still p _) fun _ view _ _ => ?_
  refine .foldlM _ (fun done last out => Reads last out (unique done)) ?_ conditions [] view [] fun _ _ => .nil
  intro done condition view out reads
  refine .bind (internOne_later condition) fun ident middle grown holds => .pure fun last above => ?_
  rw [unique,insertKeys_append]
  exact insertKeys_related (interned_biUnique last) (reads last (le_trans grown above)) (.cons (holds last above) .nil)

theorem leafPath_later (p : Projector) (conditions : List Condition) :
    Later Shows (p.leafPath conditions) table fun last s => Means last s {paths:=[conditions]} ∧ s.identity = false :=
    by
  refine .bind (intern_later p conditions) fun ids view grown reads => .pure fun last above => ⟨?_,rfl⟩
  have read := reads last above
  refine ⟨.nil last,?_,rfl,rfl,rfl⟩
  constructor
  · rfl
  · intro path rest shape
    obtain ⟨rfl,_⟩ := List.cons.inj shape
    exact read
  · intro _
    rw [flatten_singleton]
    exact read
  · intro _
    exact ⟨.leaf ids,rfl,.cons read .nil⟩

theorem leafRow_later (p : Projector) (row : Row) : Later Shows (p.leafRow row) table fun last acc => Held last acc row
    [] := by
  refine .bind (later fun _ _ => spend_still p _) fun _ view _ _ => ?_
  refine .bind (intern_later p _) fun ids after grown reads => .pure fun last above => ?_
  have read : Reads last ids (unique row.conditions) := reads last above
  constructor
  · exact fun _ => rfl
  · intro touched
    cases touched
  · exact read
  · rw [flatMap_singleton]
    exact read
  · rfl
  · rw [flatMap_singleton,insertKeys_known (List.Subset.refl _)]
    rfl
  · rw [any_cons,any_nil,Bool.or_false]
    rfl
  · rw [weakest_self]
    rfl

theorem leafRows_later (p : Projector) (rows : List Row) :
    Later Shows (p.leafRows rows) table fun last s => Means last s {rows} ∧ s.identity = false := by
  have step : ∀ done row view accs, (∀ last, view ≤ last → RowsMean last accs done) → Later Shows (do
    let acc ← p.leafRow row
    mergeAt p.merge (rowKey row) acc accs) view fun last accs => RowsMean last accs (done ++ [row]) := by
    intro done row view accs means
    refine .bind (leafRow_later p row) fun acc middle grown held => later fun last above => ?_
    have known := means last (le_trans grown above)
    have new : HeldAll last acc [row] := ⟨row,[],rfl,held last above⟩
    refine (mergeAt_represents (merge_held p) (rowKey row) acc [row] new accs _ known.groups).weaken
      fun out step => ⟨?_,?_⟩
    · rw [step.1,known.keys,map_append,unique,unique,insertKeys_append]
      rfl
    · refine step.2.congr fun key => ?_
      by_cases here : key = rowKey row
      · rw [if_pos here]
        simp [grouped,here]
      · rw [if_neg here]
        simp [grouped,Ne.symm here]
  have loop := Later.foldlM _ (fun done last accs => RowsMean last accs done) step rows [] table
    [] fun last _ => .nil last
  refine .bind loop fun accs view _ means => .pure fun last above => ?_
  exact ⟨⟨means last above,.none last rfl,rfl,rfl,rfl⟩,rfl⟩

theorem append_later (p : Projector) (raw : List Condition) (means : ∀ last, table ≤ last → Means last s e) :
    Later Shows (p.append s raw) table fun last out => Means last out (e.narrow raw) ∧
    (raw = [] → out = s) ∧ (raw ≠ [] → out.identity = false) := by
  unfold append Expansion.narrow
  by_cases none : raw = []
  · rw [if_pos none,if_pos none]
    exact .pure fun last above => ⟨means last above,fun _ => rfl,fun some => absurd none some⟩
  · rw [if_neg none,if_neg none]
    refine .bind (intern_later p raw) fun ids view grown reads => ?_
    have here : ∀ last, view ≤ last → Means last s e := fun last above => means last (le_trans grown above)
    refine later fun last above => ?_
    have known := here last above
    have read := reads last above
    refine .bind (mapWith_means p none read known.rows) fun rows rowsMean => ?_
    cases paths : e.paths with
    | nil =>
      have zero : s.count = 0 := known.paths.empty.mpr paths
      rw [if_pos zero]
      exact .pure
        ⟨⟨rowsMean,.none last rfl,known.residual,known.ond,known.nobody⟩,fun all => absurd all none,fun _ => rfl⟩
    | cons path rest =>
      have pathsMean := known.paths
      rw [paths] at pathsMean
      have some : path :: rest ≠ [] := cons_ne_nil _ _
      rw [if_neg fun zero => some (pathsMean.empty.mp zero)]
      obtain ⟨expr,isExpr,lists⟩ := pathsMean.listed some
      refine .bind (unique_still p _) fun pfirst sameFirst => .bind (unique_still p _) fun punion sameUnion => .pure ?_
      have all : Reads last ids (unique [raw].flatten) := by
        rw [flatten_singleton]
        exact read
      refine ⟨⟨rowsMean,?_,known.residual,known.ond,known.nobody⟩,fun all => absurd all none,fun _ => rfl⟩
      rw [← continued_single]
      refine pathsMean.continue raw [] (.app expr ids) (Nat.mul_one _).symm read all sameFirst sameUnion ?_ ?_
      · change s.pexpr.map (PathExpr.app · ids) = _
        rw [isExpr]
        rfl
      · have two : List.Forall₂ (Reads last) [ids] ([raw].map unique) := .cons read .nil
        have listed := continued_listed lists two
        rwa [show (enumeratePaths expr).flatMap (fun path => [ids].map fun next => unique (path ++ next)) =
          enumeratePaths (.app expr ids) from map_eq_flatMap.symm] at listed

theorem withSideChecks_later (p : Projector) (means : ∀ last, table ≤ last → Means last s e) :
    Later Shows (p.withSideChecks s side) table fun last out => Means last out (e.withSideChecks side) ∧
    out.identity = false := by
  refine .bind (append_later p _ means) fun appended view grown known => .pure fun last above => ?_
  obtain ⟨meaning,_⟩ := known last above
  have residual := (means last (le_trans grown above)).residual
  refine ⟨⟨meaning.rows,meaning.paths.same rfl rfl rfl rfl,?_,rfl,rfl⟩,rfl⟩
  change s.residual ++ side = e.residual ++ side
  rw [residual]

theorem productResidual_eq (one : Means table left l) (two : Means table right r) :
    productResidual left right = (l.product r).residual := by
  unfold productResidual Expansion.product
  rw [one.residual,two.residual,one.rows.isEmpty,two.rows.isEmpty]

theorem product_means (p : Projector) (one : Means table left l) (two : Means table right r) :
    Still Shows (p.product left right) fun out => Means table out (l.product r) ∧ out.identity = false := by
  refine .bind (crossedRows_means p two.paths one.rows) fun a meansA => ?_
  refine .bind (crossedRows_means p one.paths two.rows) fun b meansB => ?_
  refine .bind (passedRows_means p right one.rows) fun c meansC => ?_
  refine .bind (passedRows_means p left two.rows) fun d meansD => ?_
  refine .bind (concat_means p (.cons meansA (.cons meansB (.cons meansC (.cons meansD .nil))))) fun rows rowsMean => ?_
  have shape : RowsMean table rows (l.product r).rows := by
    rw [one.ond,two.ond] at rowsMean
    simpa [Expansion.product] using rowsMean
  have residual := productResidual_eq one two
  by_cases none : left.count = 0 ∨ right.count = 0
  · rw [if_pos none]
    have empty : (l.product r).paths = [] := by
      change continued l.paths r.paths = []
      rcases none with zero | zero
      · rw [one.paths.empty.mp zero]
        rfl
      · rw [two.paths.empty.mp zero]
        exact flatMap_eq_nil_iff.mpr fun _ _ => rfl
    refine .pure ⟨⟨shape,?_,residual,rfl,rfl⟩,rfl⟩
    rw [empty]
    exact .none table rfl
  · rw [if_neg none]
    obtain ⟨someLeft,someRight⟩ := not_or.mp none
    have leftPaths : l.paths ≠ [] := fun empty => someLeft (one.paths.empty.mpr empty)
    have rightPaths : r.paths ≠ [] := fun empty => someRight (two.paths.empty.mpr empty)
    obtain ⟨leftExpr,leftIs,leftLists⟩ := one.paths.listed leftPaths
    obtain ⟨rightExpr,rightIs,rightLists⟩ := two.paths.listed rightPaths
    obtain ⟨path,rest,leftShape⟩ := exists_cons_of_ne_nil leftPaths
    obtain ⟨back,backs,rightShape⟩ := exists_cons_of_ne_nil rightPaths
    refine .bind (unique_still p _) fun pfirst sameFirst => .bind (unique_still p _) fun punion sameUnion => .pure ?_
    refine ⟨⟨shape,?_,residual,rfl,rfl⟩,rfl⟩
    have onePaths := one.paths
    have twoPaths := two.paths
    change PathsMean table _ (continued l.paths r.paths)
    rw [leftShape] at onePaths leftLists ⊢
    rw [rightShape] at twoPaths rightLists ⊢
    refine onePaths.continue back backs (.and leftExpr rightExpr) ?_ (twoPaths.first back backs rfl)
      (twoPaths.union (cons_ne_nil _ _)) sameFirst sameUnion ?_ (continued_listed leftLists rightLists)
    · rw [← twoPaths.count]
    · change (left.pexpr.bind fun l => right.pexpr.map fun r => PathExpr.and l r) = _
      rw [leftIs,rightIs]
      rfl

theorem meet_later (p : Projector) (one : ∀ last, table ≤ last → Means last left l)
    (two : ∀ last, table ≤ last → Means last right r) :
    Later Shows (p.meet left right) table fun last out => Means last out {l.andPaths r with ond:=false} ∧
    out.identity = false := by
  have leftNow := one table (le_refl table)
  have rightNow := two table (le_refl table)
  unfold meet Expansion.andPaths
  rw [leftNow.valid,rightNow.valid]
  split
  · refine .pure fun last above => ⟨⟨.nil last,.none last rfl,?_,rfl,rfl⟩,rfl⟩
    rw [leftNow.residual,rightNow.residual]
  · split
    · rw [rightNow.residual]
      exact withSideChecks_later p one
    · split
      · rw [leftNow.residual]
        exact withSideChecks_later p two
      · exact later fun last above => product_means p (one last above) (two last above)

theorem andPaths_nobody (l r : Expansion) : (l.andPaths r).nobody = false := by
  unfold Expansion.andPaths
  split
  · rfl
  · split
    · rfl
    · split <;> rfl

theorem Means.admits (means : Means table s e) (somebody : e.nobody = false) : s.mayAdmitAnyone = e.admits := by
  unfold Summary.mayAdmitAnyone Expansion.admits
  rw [means.nobody,somebody,means.ond,means.valid,means.paths.count]
  cases e.paths with
  | nil => rfl
  | cons => simp

section
variable (p : Projector) (one : ∀ last, table ≤ last → Means last left l)
    (two : ∀ last, table ≤ last → Means last right r)
include one two

theorem and_later : Later Shows (p.and_ left right) table fun last out =>
    Means last out {l.and_ r with nobody:=l.nobody || r.nobody} ∧ out.identity = false := by
  have leftNow := one table (le_refl table)
  have rightNow := two table (le_refl table)
  refine .bind (later fun _ _ => spend_still p _) fun _ view grown _ => ?_
  have met := meet_later p (fun last above => one last (le_trans grown above))
    (fun last above => two last (le_trans grown above))
  refine .bind met fun surface middle _ known => ?_
  rw [leftNow.nobody,rightNow.nobody]
  unfold Expansion.and_
  by_cases nobody : (l.nobody || r.nobody) = true
  · rw [if_pos nobody,if_pos nobody,nobody]
    refine .pure fun last above => ?_
    obtain ⟨meaning,_⟩ := known last above
    exact ⟨⟨meaning.rows,.none last rfl,meaning.residual,rfl,rfl⟩,rfl⟩
  · have somebody : (l.nobody || r.nobody) = false := Bool.eq_false_iff.mpr nobody
    obtain ⟨leftSome,rightSome⟩ := Bool.or_eq_false_iff.mp somebody
    rw [if_neg nobody,if_neg nobody,somebody]
    refine .pure fun last above => ?_
    obtain ⟨meaning,fresh⟩ := known last above
    refine ⟨⟨meaning.rows,meaning.paths.same rfl rfl rfl rfl,meaning.residual,?_,?_⟩,fresh⟩
    · change (left.ond && right.mayAdmitAnyone || right.ond && left.mayAdmitAnyone) =
        (l.ond && r.admits || r.ond && l.admits)
      rw [leftNow.ond,rightNow.ond,leftNow.admits leftSome,rightNow.admits rightSome]
    · exact meaning.nobody.trans (andPaths_nobody l r)

theorem or_later (started : left.identity = false) : Later Shows (p.or_ left right) table fun last out =>
    Means last out {l.or_ r with nobody:=l.nobody && r.nobody} ∧ out.identity = false := by
  refine later fun last above => ?_
  have leftNow := one last above
  have rightNow := two last above
  unfold or_
  rw [started]
  refine .bind (spend_still p _) fun _ _ => ?_
  have paths := PathsMean.or (s:={count:=left.count + right.count}) leftNow.paths rightNow.paths p rfl
  refine .bind paths fun found pathsMean => ?_
  refine .bind (concat_means p (.cons leftNow.rows (.cons rightNow.rows .nil))) fun rows rowsMean =>
    .pure ⟨⟨?_,?_,?_,?_,?_⟩,rfl⟩
  · rwa [show [l.rows,r.rows].flatten = l.rows ++ r.rows by simp] at rowsMean
  · exact pathsMean.same rfl rfl rfl rfl
  · change left.residual ++ right.residual = l.residual ++ r.residual
    rw [leftNow.residual,rightNow.residual]
  · change (left.ond || right.ond) = (l.ond || r.ond)
    rw [leftNow.ond,rightNow.ond]
  · change (left.nobody && right.nobody) = (l.nobody && r.nobody)
    rw [leftNow.nobody,rightNow.nobody]

end

-- The projection hands back the shared `_EMPTY` itself.
mutual
def blank : CapDict → Bool
  | ⟨fields,_,children⟩ =>
    fields.conditions.isEmpty && match fields.kind with
    | .or => allBlank children
    | .and => children.isEmpty
    | _ => false
def allBlank : List CapDict → Bool
  | [] => true
  | child :: rest => blank child && allBlank rest
end

-- The flag the projection carries up. A disjunction's running result stays
-- `_EMPTY` through its leading blank children, and `or_` then returns the next
-- child as it is.
mutual
def deemedNobody : CapDict → Bool
  | ⟨fields,signer,children⟩ =>
    match fields.kind with
    | .finiteSet => isProvenEmpty ⟨fields,signer,children⟩
    | .or => restDeemedNobody children
    | .and => anyDeemedNobody children
    | _ => false
def restDeemedNobody : List CapDict → Bool
  | [] => false
  | child :: rest => if blank child then restDeemedNobody rest else deemedNobody child && allDeemedNobody rest
def allDeemedNobody : List CapDict → Bool
  | [] => true
  | child :: rest => deemedNobody child && allDeemedNobody rest
def anyDeemedNobody : List CapDict → Bool
  | [] => false
  | child :: rest => deemedNobody child || anyDeemedNobody rest
end

def Expansion.closed (e : Expansion) : Bool := e.paths.isEmpty && !e.ond

def kept (e : Expansion) (deemed : Bool) : Bool := !deemed || e.closed

-- No proper part is deemed to admit nobody while, written out, it has a path or
-- an end not determined. The parts of a conjunction are its children and the
-- conjunctions of its first children.
mutual
def partsKept (p : Projector) : CapDict → Bool
  | ⟨fields,_,children⟩ =>
    match fields.kind with
    | .or => childrenKept p children
    | .and => conjunctsKept p {} [] false children
    | _ => true
def childrenKept (p : Projector) : List CapDict → Bool
  | [] => true
  | child :: rest => partsKept p child && kept (expandNode p child) (deemedNobody child) && childrenKept p rest
def conjunctsKept (p : Projector) (e : Expansion) (nobodies : List Bool) (deemed : Bool) : List CapDict → Bool
  | [] => true
  | child :: rest =>
    let c := expandNode p child
    partsKept p child && kept c (deemedNobody child) && kept e deemed &&
      conjunctsKept p ({e with nobody:=nobodies.any (· = true)}.and_ c) (nobodies ++ [c.nobody])
        (deemed || deemedNobody child) rest
end

mutual
theorem deemedNobody_blank : (cap : CapDict) → blank cap = true → deemedNobody cap = false
  | ⟨fields,signer,children⟩, empty => by
    unfold blank at empty
    unfold deemedNobody
    cases kind : fields.kind with
    | or =>
      simp only [kind,Bool.and_eq_true] at empty
      exact restDeemedNobody_blank children empty.2
    | and =>
      simp only [kind,Bool.and_eq_true] at empty
      rw [List.isEmpty_iff.mp empty.2]
      rfl
    | _ => simp [kind] at empty
theorem restDeemedNobody_blank : (children : List CapDict) → allBlank children = true →
    restDeemedNobody children = false
  | [], _ => rfl
  | child :: rest, empty => by
    simp only [allBlank,Bool.and_eq_true] at empty
    rw [restDeemedNobody,if_pos empty.1]
    exact restDeemedNobody_blank rest empty.2
end

theorem expandOr_nobodies (p : Projector) (children : List CapDict) : ∀ e nobodies,
    (expandOr p e nobodies children).2 = nobodies ++ children.map fun child => (expandNode p child).nobody := by
  induction children with
  | nil =>
    intro e nobodies
    rw [expandOr,map_nil,append_nil]
  | cons child rest ih =>
    intro e nobodies
    rw [expandOr,ih,map_cons,append_assoc]
    rfl

theorem expandAnd_nobodies (p : Projector) (children : List CapDict) : ∀ e nobodies blocked,
    (expandAnd p e nobodies blocked children).2.1 =
      nobodies ++ children.map fun child => (expandNode p child).nobody := by
  induction children with
  | nil =>
    intro e nobodies blocked
    rw [expandAnd,map_nil,append_nil]
  | cons child rest ih =>
    intro e nobodies blocked
    rw [expandAnd,ih,map_cons,append_assoc]
    rfl

-- Nobody written out is deemed nobody; only the converse can fail.
mutual
theorem deemedNobody_of_nobody (p : Projector) : (cap : CapDict) → (expandNode p cap).nobody = true →
    deemedNobody cap = true
  | ⟨fields,signer,children⟩, nobody => by
    unfold expandNode at nobody
    unfold deemedNobody
    dsimp only at nobody
    split at nobody
    · cases nobody
    · cases kind : fields.kind with
      | finiteSet =>
        rw [kind] at nobody
        exact nobody
      | or =>
        rw [kind] at nobody
        change (!(expandOr p {} [] children).2.isEmpty && (expandOr p {} [] children).2.all (· = true)) = true at nobody
        rw [expandOr_nobodies,nil_append] at nobody
        cases children with
        | nil => cases nobody
        | cons child rest =>
          simp only [map_cons,isEmpty_cons,Bool.not_false,Bool.true_and,all_cons,Bool.and_eq_true,decide_eq_true_eq]
            at nobody
          have here := deemedNobody_of_nobody p child nobody.1
          have full : ¬blank child = true := fun empty => by cases here.symm.trans (deemedNobody_blank child empty)
          rw [restDeemedNobody,if_neg full,here,Bool.true_and]
          exact allDeemedNobody_of_nobodies p rest nobody.2
      | and =>
        rw [kind] at nobody
        have some := (Bool.and_eq_true _ _).mp nobody
        rw [expandAnd_nobodies,nil_append] at some
        exact anyDeemedNobody_of_nobodies p children some.2
      | _ =>
        rw [kind] at nobody
        cases nobody
theorem allDeemedNobody_of_nobodies (p : Projector) : (children : List CapDict) →
    (children.map fun child => (expandNode p child).nobody).all (· = true) = true → allDeemedNobody children = true
  | [], _ => rfl
  | child :: rest, nobodies => by
    simp only [map_cons,all_cons,Bool.and_eq_true,decide_eq_true_eq] at nobodies
    rw [allDeemedNobody,deemedNobody_of_nobody p child nobodies.1,Bool.true_and]
    exact allDeemedNobody_of_nobodies p rest nobodies.2
theorem anyDeemedNobody_of_nobodies (p : Projector) : (children : List CapDict) →
    (children.map fun child => (expandNode p child).nobody).any (· = true) = true → anyDeemedNobody children = true
  | [], nobodies => by cases nobodies
  | child :: rest, nobodies => by
    simp only [map_cons,any_cons,Bool.or_eq_true,decide_eq_true_eq] at nobodies
    rw [anyDeemedNobody,Bool.or_eq_true]
    rcases nobodies with here | later
    · exact .inl (deemedNobody_of_nobody p child here)
    · exact .inr (anyDeemedNobody_of_nobodies p rest later)
end

-- What the projection makes of an expansion under its own flag.
def Expansion.deem (e : Expansion) (deemed : Bool) : Expansion :=
  if deemed then {rows:=e.rows,residual:=e.residual,nobody:=true} else {e with nobody:=false}

theorem Expansion.deem_kept (safe : kept e deemed = true) : e.deem deemed = {e with nobody:=deemed} := by
  cases deemed with
  | false => rfl
  | true =>
    simp only [kept,Expansion.closed,Bool.not_true,Bool.false_or,Bool.and_eq_true,Bool.not_eq_true'] at safe
    unfold Expansion.deem
    rw [if_pos rfl,List.isEmpty_iff.mp safe.1,safe.2]

theorem Expansion.deem_nobody (e : Expansion) (nobody deemed : Bool) :
    ({e with nobody} : Expansion).deem deemed = e.deem deemed := by
  cases deemed <;> rfl

theorem Expansion.deem_narrow (e : Expansion) (deemed : Bool) (conditions : List Condition) :
    (e.deem deemed).narrow conditions = (e.narrow conditions).deem deemed := by
  unfold Expansion.narrow Expansion.deem
  cases deemed <;> by_cases none : conditions = [] <;> simp [none]

theorem any_concat : (nobodies ++ [last]).any (· = true) = (nobodies.any (· = true) || last) := by
  cases last <;> simp

theorem empty_means (table : Table) : Means table Summary.empty {} := ⟨.nil table,.none table rfl,rfl,rfl,rfl⟩

theorem means_empty (means : Means table Summary.empty e) : e = {} := by
  obtain ⟨rows,paths,residual,ond,nobody⟩ := e
  have noRows := means.rows.isEmpty
  have noPaths := means.paths.empty.mp rfl
  cases List.isEmpty_iff.mp noRows.symm
  cases noPaths
  cases means.residual
  cases means.ond
  cases means.nobody
  rfl

theorem withhold_means {e : Expansion} (means : Means table s (e.deem deemed)) (blocked : Bool) :
    Means table (withhold blocked s) (({e with paths:=if blocked then [] else e.paths} : Expansion).deem deemed) := by
  unfold withhold
  cases blocked with
  | false => exact means
  | true =>
    have closed : ({e with paths:=[]} : Expansion).deem deemed = {e.deem deemed with paths:=[]} := by
      cases deemed <;> rfl
    rw [if_pos rfl,closed]
    by_cases some : 0 < s.count
    · rw [if_pos (by simpa using some)]
      exact ⟨means.rows,.none table rfl,means.residual,means.ond,means.nobody⟩
    · rw [if_neg (by simpa using some)]
      exact ⟨means.rows,.none table (Nat.eq_zero_of_not_pos some),means.residual,means.ond,means.nobody⟩

-- The object `_EMPTY` has the value `_EMPTY`.
def Tagged (s : Summary) (empty : Bool) : Prop := s.identity = empty ∧ (empty = true → s = Summary.empty)

theorem Tagged.fresh (fresh : s.identity = false) : Tagged s false := ⟨fresh,fun same => by cases same⟩

theorem withhold_tagged (tagged : Tagged s empty) (blocked : Bool) : Tagged (withhold blocked s) empty := by
  cases empty with
  | false =>
    refine .fresh ?_
    unfold withhold
    split
    · rfl
    · exact tagged.1
  | true =>
    rw [tagged.2 rfl]
    cases blocked <;> exact ⟨rfl,fun _ => rfl⟩

theorem append_tagged (tagged : Tagged s empty) (none : raw = [] → out = s) (some : raw ≠ [] → out.identity = false) :
    Tagged out (raw.isEmpty && empty) := by
  cases raw with
  | nil =>
    rw [none rfl]
    exact tagged
  | cons => exact .fresh (some (cons_ne_nil _ _))

variable (p : Projector)

theorem or_start {e : Expansion} (means : Means table Summary.empty {e with nobody:=deemed}) (c : Expansion) :
    e.or_ c = {c with nobody:=false} := by
  have parts := Expansion.mk.inj (means_empty means)
  unfold Expansion.or_
  rw [parts.1,parts.2.1,parts.2.2.1,parts.2.2.2.1]
  rfl

section
variable {e c : Expansion} (means : ∀ last, table ≤ last → Means last s {e with nobody:=deemed})
    (tagged : Tagged s empty)
include means tagged

theorem or_joined (childMeans : ∀ last, table ≤ last → Means last child {c with nobody:=childDeemed})
    (childTagged : Tagged child childEmpty) : Later Shows (p.or_ s child) table fun last out =>
      Means last out {e.or_ c with nobody:=if empty then childDeemed else deemed && childDeemed} ∧
        Tagged out (empty && childEmpty) := by
  cases empty with
  | true =>
    cases tagged.2 rfl
    refine .pure fun last above => ⟨?_,childTagged⟩
    rw [or_start (means table (le_refl table))]
    exact childMeans last above
  | false => exact (or_later p means childMeans tagged.1).weaken fun last out known => ⟨known.1,.fresh known.2⟩

theorem or_kept (safe : kept e deemed = true) (childSafe : kept c childDeemed = true) :
    kept (e.or_ c) (if empty then childDeemed else deemed && childDeemed) = true := by
  cases empty with
  | true =>
    cases tagged.2 rfl
    rw [or_start (means table (le_refl table))]
    exact childSafe
  | false =>
    unfold kept Expansion.closed Expansion.or_ at *
    cases deemed <;> cases childDeemed <;> simp_all

end

theorem withSideChecks_nobody (e : Expansion) (nobody : Bool) (side : List CapDict) :
    ({e with nobody} : Expansion).withSideChecks side = e.withSideChecks side := by
  unfold Expansion.withSideChecks Expansion.narrow
  split <;> rfl

theorem andPaths_flags (e c : Expansion) (nobody childNobody : Bool) :
    ({e with nobody} : Expansion).andPaths {c with nobody:=childNobody} = e.andPaths c := by
  unfold Expansion.andPaths
  rw [withSideChecks_nobody e nobody,withSideChecks_nobody c childNobody]
  rfl

theorem and_deem {e c : Expansion} (implied : nobody = true → deemed = true)
    (childImplied : c.nobody = true → childDeemed = true) :
    {({e with nobody:=deemed} : Expansion).and_ {c with nobody:=childDeemed} with nobody:=deemed || childDeemed} =
      (({e with nobody} : Expansion).and_ c).deem (deemed || childDeemed) := by
  have same : ({e with nobody} : Expansion).andPaths c = e.andPaths c := andPaths_flags e c nobody c.nobody
  unfold Expansion.and_ Expansion.deem
  rw [andPaths_flags,same]
  dsimp only
  cases flag : deemed || childDeemed with
  | true =>
    rw [if_pos rfl,if_pos rfl]
    by_cases dropped : (nobody || c.nobody) = true
    · rw [if_pos dropped]
    · rw [if_neg dropped]
  | false =>
    obtain ⟨here,there⟩ := Bool.or_eq_false_iff.mp flag
    have somebody : ¬(nobody || c.nobody) = true := by
      intro dropped
      rcases (Bool.or_eq_true _ _).mp dropped with left | right
      · cases here.symm.trans (implied left)
      · cases there.symm.trans (childImplied right)
    rw [if_neg Bool.false_ne_true,if_neg Bool.false_ne_true,if_neg somebody]

mutual
theorem node_later : (cap : CapDict) → partsKept p cap = true →
    Later Shows (p.node cap) table fun last s => Means last s ((expandNode p cap).deem (deemedNobody cap)) ∧
      Tagged s (blank cap)
  | ⟨fields,signer,children⟩, safe => by
    unfold node expandNode deemedNobody blank
    unfold partsKept at safe
    refine .bind (later fun _ _ => spend_still p _) fun _ view _ _ => ?_
    dsimp only
    split
    · rename_i reach
      have kind : fields.kind = .externalCheckOnly := by
        unfold isReachNotDetermined at reach
        rw [Bool.and_eq_true] at reach
        exact eq_of_beq reach.1
      rw [kind]
      refine .pure fun last _ => ⟨⟨.nil last,.none last rfl,rfl,rfl,rfl⟩,?_⟩
      rw [Bool.and_false]
      exact .fresh rfl
    · cases kind : fields.kind with
      | finiteSet =>
        refine .bind (leafRows_later p _) fun s _ _ known => .pure fun last above => ?_
        obtain ⟨means,fresh⟩ := known last above
        rw [Bool.and_false,Expansion.deem_kept (by simp [kept,Expansion.closed])]
        exact ⟨⟨means.rows,means.paths.same rfl rfl rfl rfl,means.residual,means.ond,rfl⟩,.fresh fresh⟩
      | thresholdGroup | signatureWitness =>
        rw [Bool.and_false]
        exact (leafRows_later p _).weaken fun last s known => ⟨known.1,.fresh known.2⟩
      | externalCheckOnly | unsupported =>
        rw [Bool.and_false]
        exact .pure fun last _ => ⟨⟨.nil last,.none last rfl,rfl,rfl,rfl⟩,.fresh rfl⟩
      | or =>
        rw [kind] at safe
        refine .bind (orLoop_later Summary.empty {} [] false true children safe rfl (fun last _ => empty_means last)
          ⟨rfl,fun _ => rfl⟩) fun s middle _ joined => ?_
        have now := joined middle (le_refl middle)
        refine (append_later p fields.conditions fun last above => (joined last above).1).weaken
          fun last out known => ⟨?_,append_tagged now.2.2 known.2.1 known.2.2⟩
        have plain : (expandOr p {} [] children).1.deem (restDeemedNobody children) = _ := Expansion.deem_kept now.2.1
        rw [Expansion.deem_nobody,← Expansion.deem_narrow]
        dsimp only
        rw [plain]
        exact known.1
      | and =>
        rw [kind] at safe
        refine .bind (andLoop_later Summary.empty {} [] false false true children safe (fun some => some)
          (fun last _ => empty_means last) ⟨rfl,fun _ => rfl⟩) fun folded middle _ joined => ?_
        have now := joined middle (le_refl middle)
        refine .bind (append_later p fields.conditions fun last above => (joined last above).1)
          fun out after grown known => ?_
        refine .pure fun last above => ⟨?_,?_⟩
        · have means := (known last above).1
          rw [Expansion.deem_narrow] at means
          have held := withhold_means means folded.2
          rw [now.2.1] at held ⊢
          dsimp only
          rw [← Expansion.deem_nobody] at held
          exact held
        · exact withhold_tagged (append_tagged now.2.2 (known last above).2.1 (known last above).2.2) folded.2
      | _ =>
        rw [Bool.and_false]
        exact (leafPath_later p _).weaken fun last s known => ⟨known.1,.fresh known.2⟩
theorem orLoop_later (s : Summary) (e : Expansion) (nobodies : List Bool) (deemed empty : Bool) :
    (children : List CapDict) → childrenKept p children = true → kept e deemed = true →
    (∀ last, table ≤ last → Means last s {e with nobody:=deemed}) → Tagged s empty →
    Later Shows (p.orLoop s children) table fun last out =>
      Means last out {(expandOr p e nobodies children).1 with
        nobody:=if empty then restDeemedNobody children else deemed && allDeemedNobody children} ∧
      kept (expandOr p e nobodies children).1
        (if empty then restDeemedNobody children else deemed && allDeemedNobody children) = true ∧
      Tagged out (empty && allBlank children)
  | [], _, safe, means, tagged => by
    have flag : (if empty then restDeemedNobody [] else deemed && allDeemedNobody []) = deemed := by
      cases empty with
      | true =>
        cases tagged.2 rfl
        exact (Expansion.mk.inj (means_empty (means table (le_refl table)))).2.2.2.2.symm
      | false => exact Bool.and_true deemed
    rw [flag,allBlank,Bool.and_true]
    exact .pure fun last above => ⟨means last above,safe,tagged⟩
  | child :: rest, each, safe, means, tagged => by
    simp only [childrenKept,Bool.and_eq_true] at each
    obtain ⟨⟨inner,childSafe⟩,others⟩ := each
    refine .bind (node_later child inner) fun childSurface view grown known => ?_
    rw [Expansion.deem_kept childSafe] at known
    have meansNow : ∀ last, view ≤ last → Means last s {e with nobody:=deemed} :=
      fun last above => means last (le_trans grown above)
    have childTagged := (known view (le_refl view)).2
    refine .bind (or_joined p meansNow tagged (fun last above => (known last above).1) childTagged)
      fun out middle _ next => ?_
    have done := orLoop_later out _ (nobodies ++ [(expandNode p child).nobody]) _ _ rest others
      (or_kept meansNow tagged safe childSafe) (fun last above => (next last above).1) (next middle (le_refl middle)).2
    have flag : (if empty && blank child then restDeemedNobody rest
      else (if empty then deemedNobody child else deemed && deemedNobody child) && allDeemedNobody rest) =
        if empty then restDeemedNobody (child :: rest) else deemed && allDeemedNobody (child :: rest) := by
      rw [restDeemedNobody,allDeemedNobody]
      cases empty <;> cases blank child <;> simp [Bool.and_assoc]
    rw [flag,Bool.and_assoc] at done
    exact done
theorem andLoop_later (s : Summary) (e : Expansion) (nobodies : List Bool) (blocked deemed empty : Bool) :
    (children : List CapDict) → conjunctsKept p e nobodies deemed children = true →
    (nobodies.any (· = true) = true → deemed = true) →
    (∀ last, table ≤ last → Means last s (e.deem deemed)) → Tagged s empty →
    Later Shows (p.andLoop s blocked children) table fun last out =>
      Means last out.1 ((expandAnd p e nobodies blocked children).1.deem (deemed || anyDeemedNobody children)) ∧
        out.2 = (expandAnd p e nobodies blocked children).2.2 ∧ Tagged out.1 (empty && children.isEmpty)
  | [], _, _, means, tagged => by
    rw [anyDeemedNobody,Bool.or_false,isEmpty_nil,Bool.and_true]
    exact .pure fun last above => ⟨means last above,rfl,tagged⟩
  | child :: rest, each, implied, means, tagged => by
    simp only [conjunctsKept,Bool.and_eq_true] at each
    obtain ⟨⟨⟨inner,childSafe⟩,safe⟩,others⟩ := each
    rw [Expansion.deem_kept safe] at means
    refine .bind (node_later child inner) fun childSurface view grown known => ?_
    rw [Expansion.deem_kept childSafe] at known
    have left : ∀ last, view ≤ last → Means last s {e with nobody:=deemed} :=
      fun last above => means last (le_trans grown above)
    rw [((known view (le_refl view)).1).valid]
    refine .bind (and_later p left fun last above => (known last above).1) fun out middle _ next => ?_
    have childImplied := deemedNobody_of_nobody p child
    have more : (nobodies ++ [(expandNode p child).nobody]).any (· = true) = true →
      (deemed || deemedNobody child) = true := by
      intro some
      rw [any_concat,Bool.or_eq_true] at some
      rw [Bool.or_eq_true]
      exact some.imp implied childImplied
    have grown : ∀ last, middle ≤ last → Means last out _ :=
      fun last above => and_deem implied childImplied ▸ (next last above).1
    let blocks := p.earnedPublic && !(expandNode p child).valid && isRootAuthorityBlocker child
    have folded := andLoop_later out _ _ (blocked || blocks) _ false rest others more grown
      (.fresh (next middle (le_refl middle)).2)
    rw [Bool.or_assoc] at folded
    rw [isEmpty_cons,Bool.and_false]
    exact folded
end

def startTable : Table := ⟨[conditionNotRead],by simp,rfl⟩

def surfaceOf (table : Table) (s : Summary) : CapabilitySurface where
  principalRows := s.rows.map fun entry => entry.2.materialize table.conditions
  residual := s.residual
  openNotDetermined := s.ond
  publicPathCount := s.count
  pathConditionIds := s.punion
  table := table.conditions
  paths := s.pexpr

theorem project_means (cap : CapDict) (safe : partsKept p cap = true)
    (finished : (projectCapabilitySurface p cap).notDeterminedReason = none) :
    ∃ s table, Means table s ((expandNode p cap).deem (deemedNobody cap)) ∧
      projectCapabilitySurface p cap = surfaceOf table s := by
  unfold projectCapabilitySurface at finished ⊢
  cases run : (p.node cap).run {table:=[conditionNotRead],work:=1} with
  | none =>
    rw [run] at finished
    cases finished
  | some final =>
    obtain ⟨s,ledger⟩ := final
    obtain ⟨table,seen,_,known⟩ := @node_later p startTable cap safe
      {table:=[conditionNotRead],work:=1} s ledger rfl run
    refine ⟨s,table,(known table (le_refl table)).1,?_⟩
    rw [surfaceOf,← (show ledger.table = table.conditions from seen)]

theorem rows_dedupe (means : RowsMean table rows copies) :
    (rows.map fun entry => entry.2.materialize table.conditions) = dedupe copies := by
  refine (List.map_inj_right (f:=(some : Row → Option Row)) fun _ _ => Option.some.inj).mp ?_
  have left : (rows.map fun entry => entry.2.materialize table.conditions).map some =
    (keys rows).map fun key => mergeGroup (grouped copies key) := by
    rw [map_map,Ordered.keys,map_map]
    refine map_congr_left fun entry member => ?_
    obtain ⟨copy,rest,shape,held⟩ := means.groups.held entry member
    change some (entry.2.materialize table.conditions) = mergeGroup (grouped copies entry.1)
    rw [shape,held.materialize]
    rfl
  have right : (dedupe copies).map some = ((dedupe copies).map rowKey).map fun key => mergeGroup (grouped copies key) :=
    by
    rw [map_map]
    exact map_congr_left fun row member => (dedupe_grouped copies row member).symm
  rw [left,right,means.keys,dedupe_keys]

theorem paths_listed (each : List.Forall₂ (Reads table) lists paths) (budget : Nat) :
    ((lists.take budget).map fun path => path.filterMap fun ident => table.conditions[ident]?) = paths.take budget := by
  induction each generalizing budget with
  | nil => simp
  | cons first _ ih =>
    cases budget with
    | zero => rfl
    | succ budget => rw [take_succ_cons,take_succ_cons,map_cons,first.read,ih]

structure EqualsExpansion (cap : CapDict) : Prop where
  rows : (projectCapabilitySurface p cap).principalRows = (expanded p cap).rows
  residual : (projectCapabilitySurface p cap).residual = (expanded p cap).residual
  openNotDetermined : (projectCapabilitySurface p cap).openNotDetermined = (expanded p cap).openNotDetermined
  count : (projectCapabilitySurface p cap).publicPathCount = (expanded p cap).paths.length
  listed : ∀ budget, ((projectCapabilitySurface p cap).publicPathList budget).paths = (expanded p cap).paths.take budget

theorem equals_of_means (means : Means table s {expandNode p cap with nobody})
    (shape : projectCapabilitySurface p cap = surfaceOf table s) : EqualsExpansion p cap := by
  constructor
  all_goals rw [shape,surfaceOf]
  · exact rows_dedupe means.rows
  · exact means.residual
  · exact means.ond
  · exact means.paths.count.trans (length_map _).symm
  · intro budget
    unfold CapabilitySurface.publicPathList
    by_cases none : (expandNode p cap).paths = []
    · have listed : (expanded p cap).paths = [] := by rw [expanded,none,map_nil]
      rw [listed,take_nil]
      dsimp only
      rw [means.paths.empty.mpr none]
      cases s.pexpr <;> rfl
    · obtain ⟨expr,isExpr,lists⟩ := means.paths.listed none
      dsimp only
      rw [isExpr]
      dsimp only
      rw [if_neg fun zero => none (means.paths.empty.mp zero)]
      exact paths_listed lists budget

-- When the parts are kept, the flag at the root decides: what it takes away is
-- what the expansion has and the projection has not.
theorem surface_equals_expansion_iff (cap : CapDict) (safe : partsKept p cap = true)
    (finished : (projectCapabilitySurface p cap).notDeterminedReason = none) :
    EqualsExpansion p cap ↔ kept (expandNode p cap) (deemedNobody cap) = true := by
  obtain ⟨s,table,means,shape⟩ := project_means p cap safe finished
  constructor
  · intro equal
    cases deemed : deemedNobody cap with
    | false => rfl
    | true =>
      rw [deemed] at means
      have noPath : (expandNode p cap).paths = [] := by
        have count := equal.count
        rw [shape,expanded,length_map] at count
        exact length_eq_zero_iff.mp (count.symm.trans means.paths.count)
      have noEnd : (expandNode p cap).ond = false := by
        have ond := equal.openNotDetermined
        rw [shape] at ond
        exact ond.symm.trans means.ond
      unfold kept Expansion.closed
      rw [noPath,noEnd]
      rfl
  · intro root
    rw [Expansion.deem_kept root] at means
    exact equals_of_means p means shape

def twoGates : CapDict := {
  kind:=.and
  children:=[
    {kind:=.or,children:=[
       {kind:=.finiteSet,members:=some ["0x" ++ String.ofList (List.replicate 40 'a')],membershipQuality:=some .exact,
        trace:=[{step:="s"}]},
       {kind:=.conditionalUniversal,conditions:=[{kind:=.business,description:="c"}]}]},
    {kind:=.or,children:=[
       {kind:=.or},
       {kind:=.conditionalUniversal,conditions:=[{kind:=.business,description:="d"}]},
       {kind:=.finiteSet,members:=some ["0x" ++ String.ofList (List.replicate 40 'a')],
        membershipQuality:=some .lowerBound,trace:=[{step:="t"}]}]}]}

theorem twoGates_equals_expansion :
    partsKept {} twoGates = true ∧ (projectCapabilitySurface {} twoGates).notDeterminedReason = none ∧
      EqualsExpansion {} twoGates :=
  ⟨by decide +kernel,by decide +kernel,
    (surface_equals_expansion_iff {} twoGates (by decide +kernel) (by decide +kernel)).mpr (by decide +kernel)⟩

-- The projection drops the empty disjunction; written out, emptiness is not proven.
def emptyBesideNobody : CapDict := {
  kind:=.and
  children:=[
    {kind:=.conditionalUniversal},
    {kind:=.or,children:=[
       {kind:=.or},
       {kind:=.finiteSet,members:=some [],membershipQuality:=some .exact,confidence:=some .enumerable}]}]}

theorem empty_child_loses_path : (projectCapabilitySurface {} emptyBesideNobody).notDeterminedReason = none ∧
    (projectCapabilitySurface {} emptyBesideNobody).publicPathCount = 0 ∧
    (expanded {} emptyBesideNobody).paths.length = 1 := by
  decide +kernel

end Psat.Surface
