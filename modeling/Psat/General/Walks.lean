import Mathlib.Data.List.Perm.Subperm
import Psat.General.Dict
import Psat.General.Loop

namespace Psat.General.Walks
open List
open List (lookup)

-- Reached from a seed over so many steps.
inductive Hops (seeds : List κ) (next : κ → List κ) : Nat → κ → Prop
  | seed {x : κ} (member : x ∈ seeds) : Hops seeds next 0 x
  | hop {x y : κ} {n : Nat} (reached : Hops seeds next n x) (edge : y ∈ next x) : Hops seeds next (n + 1) y

-- A walk that marks what it meets when it queues it, first in first out.
structure Breadth (κ : Type) where
  dist : List (κ × Nat)
  queue : List κ

-- A last-in-first-out walk that marks what it takes up.
structure Depth (κ : Type) where
  seen : List κ
  stack : List κ

section
variable {κ : Type} [DecidableEq κ] {seeds : List κ} {next : κ → List κ}

namespace Breadth

def known (walk : Breadth κ) : List κ := walk.dist.map Prod.fst

def hopOf (walk : Breadth κ) (key : κ) : Nat := (lookup key walk.dist).getD 0

def discover (hop : Nat) (walk : Breadth κ) (key : κ) : Breadth κ :=
  if key ∈ walk.known then walk else ⟨walk.dist ++ [(key,hop)],walk.queue ++ [key]⟩

def start (base : Nat) (seeds : List κ) : Breadth κ := ⟨seeds.map fun key => (key,base),seeds⟩

def extend (walk : Breadth κ) (new : List κ) (hop : Nat) : Breadth κ :=
  ⟨walk.dist ++ new.map fun key => (key,hop),walk.queue ++ new⟩

theorem discover_all (hop : Nat) (keys : List κ) (walk : Breadth κ) :
    ∃ new, keys.foldl (discover hop) walk = walk.extend new hop ∧ new.Nodup ∧ ∀ key, key ∈ new ↔
    key ∈ keys ∧ key ∉ walk.known := by
  induction keys generalizing walk with
  | nil => exact ⟨[],by simp [extend],nodup_nil,by simp⟩
  | cons first rest ih =>
    rw [foldl_cons]
    by_cases old : first ∈ walk.known
    · obtain ⟨new,walked,distinct,members⟩ := ih walk
      refine ⟨new,by rw [discover,if_pos old,walked],distinct,?_⟩
      intro key
      rw [members,mem_cons]
      constructor
      · exact fun inside => ⟨.inr inside.1,inside.2⟩
      · rintro ⟨rfl | later,unknown⟩
        · exact absurd old unknown
        · exact ⟨later,unknown⟩
    · obtain ⟨new,walked,distinct,members⟩ := ih ⟨walk.dist ++ [(first,hop)],walk.queue ++ [first]⟩
      have known : ∀ key, key ∈ (⟨walk.dist ++ [(first,hop)],walk.queue ++ [first]⟩ : Breadth κ).known ↔
        key ∈ walk.known ∨ key = first := by
        simp [Breadth.known]
      refine ⟨first :: new,?_,nodup_cons.mpr ⟨?_,distinct⟩,?_⟩
      · rw [discover,if_neg old,walked]
        simp [extend]
      · rw [members,known]
        exact fun inside => inside.2 (.inr rfl)
      · intro key
        rw [mem_cons,members,known,mem_cons]
        constructor
        · rintro (rfl | ⟨later,unknown⟩)
          · exact ⟨.inl rfl,old⟩
          · exact ⟨.inr later,fun inside => unknown (.inl inside)⟩
        · rintro ⟨rfl | later,unknown⟩
          · exact .inl rfl
          · by_cases same : key = first
            · exact .inl same
            · exact .inr ⟨later,not_or.mpr ⟨unknown,same⟩⟩

theorem known_iff (walk : Breadth κ) (key : κ) : key ∈ walk.known ↔ ∃ hop, lookup key walk.dist = some hop := by
  rw [← Option.isSome_iff_exists,← Option.ne_none_iff_isSome,Ne,lookup_eq_none_iff,known,mem_map]
  simp only [bne_iff_ne,not_forall,not_not]
  constructor
  · rintro ⟨entry,member,rfl⟩
    exact ⟨entry,member,rfl⟩
  · rintro ⟨entry,member,same⟩
    exact ⟨entry,member,same.symm⟩

theorem lookup_const (keys : List κ) : lookup key (keys.map fun key => (key,hop)) = if key ∈ keys then some hop
    else none := by
  induction keys with
  | nil => rfl
  | cons first rest ih =>
    by_cases same : key = first
    · subst same
      simp
    · rw [map_cons,Dict.lookup_cons_ne same,ih]
      simp [same]

-- The known keys are those done and then the queue, whose hops rise by at most one.
structure Level (seeds : List κ) (next : κ → List κ) (base : Nat) (walk : Breadth κ) (done : List κ) : Prop where
  distinct : walk.known.Nodup
  parted : walk.known = done ++ walk.queue
  seeded : ∀ key ∈ seeds, lookup key walk.dist = some base
  witnessed : ∀ key hop, lookup key walk.dist = some hop → ∃ n, hop = base + n ∧ Hops seeds next n key
  ordered : walk.queue.Pairwise fun a b => walk.hopOf a ≤ walk.hopOf b
  level : ∀ key ∈ walk.known, ∀ waiting ∈ walk.queue, walk.hopOf key ≤ walk.hopOf waiting + 1
  spread : ∀ key ∈ done, ∀ other ∈ next key, other ∈ walk.known ∧ walk.hopOf other ≤ walk.hopOf key + 1

theorem Level.start (base : Nat) (distinct : seeds.Nodup) : Level seeds next base (start base seeds) [] := by
  have known : (Breadth.start base seeds).known = seeds := by simp [Breadth.start,Breadth.known,Function.comp_def]
  have hop : ∀ key ∈ seeds, (Breadth.start base seeds).hopOf key = base := by
    intro key member
    simp [Breadth.hopOf,Breadth.start,lookup_const,member]
  constructor
  · rwa [known]
  · exact known
  · intro key member
    simp [Breadth.start,lookup_const,member]
  · intro key hop found
    simp only [Breadth.start,lookup_const] at found
    split at found
    · rename_i member
      cases found
      exact ⟨0,rfl,.seed member⟩
    · cases found
  · apply pairwise_of_forall_mem_list
    intro a inside b member
    exact Nat.le_of_eq ((hop a inside).trans (hop b member).symm)
  · intro key member waiting queued
    rw [known] at member
    rw [hop key member,hop waiting queued]
    exact Nat.le_succ _
  · intro key inside
    cases inside

section Extend
variable {walk : Breadth κ}

omit [DecidableEq κ] in
@[simp] theorem extend_known : (walk.extend new hop).known = walk.known ++ new := by
  simp [extend,known,Function.comp_def]

theorem extend_lookup : lookup key (walk.extend new hop).dist =
    (lookup key walk.dist).or (if key ∈ new then some hop else none) := by
  rw [extend,lookup_append,lookup_const]

theorem extend_hop_old (old : key ∈ walk.known) : (walk.extend new hop).hopOf key = walk.hopOf key := by
  obtain ⟨depth,present⟩ := (known_iff walk key).mp old
  rw [hopOf,hopOf,extend_lookup,present]
  rfl

theorem extend_hop_new (fresh : key ∉ walk.known) (inside : key ∈ new) : (walk.extend new hop).hopOf key = hop := by
  have absent : lookup key walk.dist = none := by
    cases present : lookup key walk.dist with
    | none => rfl
    | some depth => exact absurd ((known_iff walk key).mpr ⟨depth,present⟩) fresh
  rw [hopOf,extend_lookup,absent,if_pos inside]
  rfl

end Extend

structure Head (walk : Breadth κ) (key : κ) : Prop where
  known : key ∈ walk.known
  queued : ∀ other ∈ walk.queue, other ∈ walk.known
  ordered : walk.queue.Pairwise fun a b => walk.hopOf a ≤ walk.hopOf b
  least : ∀ other ∈ walk.queue, walk.hopOf key ≤ walk.hopOf other
  above : ∀ other ∈ walk.known, walk.hopOf other ≤ walk.hopOf key + 1

theorem Level.head (level : Level seeds next base walk done) (queue : walk.queue = key :: rest) :
    Head {walk with queue:=rest} key := by
  have queued : ∀ other ∈ walk.queue, other ∈ walk.known := by
    intro other inside
    rw [level.parted]
    exact mem_append_right _ inside
  have order := level.ordered
  rw [queue,pairwise_cons] at order
  rw [queue] at queued
  refine ⟨queued key mem_cons_self,(forall_mem_cons.mp queued).2,order.2,order.1,?_⟩
  intro other inside
  exact level.level other inside key (by rw [queue]; exact mem_cons_self)

theorem Level.visit (level : Level seeds next base walk done) (queue : walk.queue = key :: rest) :
    Level seeds next base ((next key).foldl (discover (walk.hopOf key + 1)) {walk with queue:=rest}) (done ++ [key]) :=
    by
  obtain ⟨new,walked,once,members⟩ := discover_all (walk.hopOf key + 1) (next key) {walk with queue:=rest}
  have head := level.head queue
  rw [walked]
  have fresh : ∀ other ∈ new, other ∉ walk.known := fun other inside => ((members other).mp inside).2
  have kept : ∀ other ∈ walk.known, (extend {walk with queue:=rest} new (walk.hopOf key + 1)).hopOf other =
    walk.hopOf other :=
    fun other old => extend_hop_old old
  have added : ∀ other ∈ new, (extend {walk with queue:=rest} new (walk.hopOf key + 1)).hopOf other =
    walk.hopOf key + 1 :=
    fun other inside => extend_hop_new (fresh other inside) inside
  constructor
  · rw [extend_known]
    exact List.Nodup.append level.distinct once fun other inside member => fresh other member inside
  · have parted : walk.known = done ++ key :: rest := queue ▸ level.parted
    rw [extend_known]
    change walk.known ++ new = _
    rw [parted]
    simp [extend]
  · intro seed member
    rw [extend_lookup,level.seeded seed member]
    rfl
  · intro other hop present
    rw [extend_lookup] at present
    cases before : lookup other walk.dist with
    | some old =>
      rw [before] at present
      cases present
      exact level.witnessed other _ before
    | none =>
      rw [before,Option.none_or] at present
      split at present
      · rename_i inside
        cases present
        obtain ⟨depth,held⟩ := (known_iff walk key).mp head.known
        obtain ⟨n,rfl,reached⟩ := level.witnessed key depth held
        refine ⟨n + 1,?_,.hop reached ((members other).mp inside).1⟩
        rw [hopOf,held]
        rfl
      · cases present
  · change (rest ++ new).Pairwise _
    rw [pairwise_append]
    refine ⟨?_,?_,?_⟩
    · refine List.Pairwise.imp_of_mem ?_ head.ordered
      intro a b inside member below
      rw [kept a (head.queued a inside),kept b (head.queued b member)]
      exact below
    · apply pairwise_of_forall_mem_list
      intro a inside b member
      exact Nat.le_of_eq ((added a inside).trans (added b member).symm)
    · intro a inside b member
      rw [kept a (head.queued a inside),added b member]
      exact head.above a (head.queued a inside)
  · intro other inside waiting member
    have bound : (extend {walk with queue:=rest} new (walk.hopOf key + 1)).hopOf other ≤ walk.hopOf key + 1 := by
      rw [extend_known,mem_append] at inside
      rcases inside with old | recent
      · rw [kept other old]
        exact head.above other old
      · exact Nat.le_of_eq (added other recent)
    rcases mem_append.mp member with old | recent
    · rw [kept waiting (head.queued waiting old)]
      exact Nat.le_trans bound (Nat.succ_le_succ (head.least waiting old))
    · rw [added waiting recent]
      exact Nat.le_succ_of_le bound
  · intro expanded inside other edge
    rw [extend_known,mem_append]
    rcases mem_append.mp inside with old | now
    · obtain ⟨present,near⟩ := level.spread expanded old other edge
      have before : expanded ∈ walk.known := by
        rw [level.parted]
        exact mem_append_left _ old
      rw [kept other present,kept expanded before]
      exact ⟨.inl present,near⟩
    · rw [mem_singleton] at now
      subst now
      rw [kept expanded head.known]
      by_cases present : other ∈ walk.known
      · rw [kept other present]
        exact ⟨.inl present,head.above other present⟩
      · have recent : other ∈ new := (members other).mpr ⟨edge,present⟩
        exact ⟨.inr recent,Nat.le_of_eq (added other recent)⟩

theorem Level.shortest (level : Level seeds next base walk done)
    (ended : walk.queue = []) : ∀ n key, Hops seeds next n key → ∃ hop, lookup key walk.dist = some hop ∧
    hop ≤ base + n := by
  have known : walk.known = done := by rw [level.parted,ended,append_nil]
  intro n key reached
  induction reached with
  | seed member => exact ⟨base,level.seeded _ member,Nat.le_refl _⟩
  | @hop x y n reached edge ih =>
    obtain ⟨hop,present,bound⟩ := ih
    have inside : x ∈ done := known ▸ (known_iff walk x).mpr ⟨hop,present⟩
    obtain ⟨met,near⟩ := level.spread x inside y edge
    obtain ⟨depth,found⟩ := (known_iff walk y).mp met
    refine ⟨depth,found,?_⟩
    rw [hopOf,hopOf,found,present] at near
    simp only [Option.getD_some] at near
    omega

theorem Level.exact (level : Level seeds next base walk done) (ended : walk.queue = []) (key : κ) (hop : Nat) :
    lookup key walk.dist = some hop ↔ ∃ n, hop = base + n ∧ Hops seeds next n key ∧ ∀ m, Hops seeds next m key →
    n ≤ m := by
  constructor
  · intro present
    obtain ⟨n,rfl,reached⟩ := level.witnessed key hop present
    refine ⟨n,rfl,reached,?_⟩
    intro m other
    obtain ⟨depth,found,bound⟩ := level.shortest ended m key other
    rw [present] at found
    cases found
    omega
  · rintro ⟨n,rfl,reached,least⟩
    obtain ⟨depth,found,bound⟩ := level.shortest ended n key reached
    obtain ⟨m,rfl,other⟩ := level.witnessed key depth found
    rw [found]
    have := least m other
    congr 1
    omega

-- Each round takes one from the queue, and nothing is queued twice.
def rounds (all : List κ) (walk : Breadth κ) : Nat := walk.queue.length + (all.filter (· ∉ walk.known)).length

theorem length_filter_new {new items : List κ} (once : new.Nodup) (inside : new ⊆ items) :
    new.length + (items.filter (· ∉ new)).length ≤ items.length := by
  have least : new.length ≤ (items.filter (· ∈ new)).length := by
    apply List.Subperm.length_le
    apply subperm_of_subset once
    intro key member
    exact mem_filter.mpr ⟨inside member,by simpa using member⟩
  have parted : (items.filter (· ∈ new)).length + (items.filter (· ∉ new)).length = items.length := by
    have both := filter_append_perm (fun key => decide (key ∈ new)) items
    simpa using both.length_eq
  omega

theorem rounds_visit {all : List κ} (hop : Nat) (queue : walk.queue = key :: rest)
    (inside : next key ⊆ all) : rounds all ((next key).foldl (discover hop) {walk with queue:=rest}) <
    rounds all walk := by
  obtain ⟨new,walked,once,members⟩ := discover_all hop (next key) {walk with queue:=rest}
  have unmet : new ⊆ all.filter (· ∉ walk.known) := by
    intro other member
    obtain ⟨edge,unknown⟩ := (members other).mp member
    have unmet : other ∉ walk.known := unknown
    exact mem_filter.mpr ⟨inside edge,by simpa using unmet⟩
  have fewer := length_filter_new once unmet
  have same : (all.filter (· ∉ walk.known)).filter (· ∉ new) = all.filter (· ∉ walk.known ++ new) := by
    simp [and_comm]
  have left_ : rounds all (extend {walk with queue:=rest} new hop) =
    rest.length + new.length + (all.filter (· ∉ walk.known ++ new)).length := by
    rw [rounds,extend_known,extend,length_append]
    rfl
  rw [walked,left_,rounds,queue,length_cons]
  rw [same] at fewer
  omega

end Breadth

namespace Depth

def push (seen : List κ) (stack : List κ) (key : κ) : List κ := if key ∈ seen then stack else key :: stack

def visit (next : κ → List κ) (walk : Depth κ) (key : κ) (rest : List κ) : Depth κ :=
  if key ∈ walk.seen then {walk with stack:=rest} else
    ⟨key :: walk.seen,(next key).foldl (push (key :: walk.seen)) rest⟩

theorem push_all (seen keys stack : List κ) : key ∈ keys.foldl (push seen) stack ↔ key ∈ stack ∨
    key ∈ keys ∧ key ∉ seen := by
  induction keys generalizing stack with
  | nil => simp
  | cons first rest ih =>
    rw [foldl_cons,ih,push,mem_cons]
    by_cases old : first ∈ seen
    · rw [if_pos old]
      constructor
      · rintro (inside | ⟨later,unseen⟩)
        · exact .inl inside
        · exact .inr ⟨.inr later,unseen⟩
      · rintro (inside | ⟨rfl | later,unseen⟩)
        · exact .inl inside
        · exact absurd old unseen
        · exact .inr ⟨later,unseen⟩
    · rw [if_neg old,mem_cons]
      constructor
      · rintro ((rfl | inside) | ⟨later,unseen⟩)
        · exact .inr ⟨.inl rfl,old⟩
        · exact .inl inside
        · exact .inr ⟨.inr later,unseen⟩
      · rintro (inside | ⟨rfl | later,unseen⟩)
        · exact .inl (.inr inside)
        · exact .inl (.inl rfl)
        · exact .inr ⟨later,unseen⟩

theorem push_length (seen keys stack : List κ) : (keys.foldl (push seen) stack).length ≤ stack.length + keys.length :=
    by
  induction keys generalizing stack with
  | nil => exact Nat.le_refl _
  | cons first rest ih =>
    refine Nat.le_trans (ih _) ?_
    unfold push
    split <;> simp only [length_cons] <;> omega

-- Whatever is seen or stacked is reached; what is seen has its successors there.
structure Covers (seeds : List κ) (next : κ → List κ) (walk : Depth κ) : Prop where
  reached : ∀ key, key ∈ walk.seen ∨ key ∈ walk.stack → ∃ n, Hops seeds next n key
  seeded : ∀ key ∈ seeds, key ∈ walk.seen ∨ key ∈ walk.stack
  spread : ∀ key ∈ walk.seen, ∀ other ∈ next key, other ∈ walk.seen ∨ other ∈ walk.stack

theorem Covers.visit (covers : Covers seeds next walk) (stack : walk.stack = key :: rest) :
    Covers seeds next (walk.visit next key rest) := by
  have moved : ∀ other, other ∈ walk.seen ∨ other ∈ walk.stack → other ∈ (walk.visit next key rest).seen ∨
    other ∈ (walk.visit next key rest).stack := by
    intro other inside
    unfold Depth.visit
    split
    · rename_i old
      rcases inside with seen | waiting
      · exact .inl seen
      · rw [stack,mem_cons] at waiting
        rcases waiting with rfl | later
        · exact .inl old
        · exact .inr later
    · rcases inside with seen | waiting
      · exact .inl (mem_cons_of_mem _ seen)
      · rw [stack,mem_cons] at waiting
        rcases waiting with rfl | later
        · exact .inl mem_cons_self
        · exact .inr ((push_all _ _ _).mpr (.inl later))
  have here : ∃ n, Hops seeds next n key := covers.reached key (.inr (by rw [stack]; exact mem_cons_self))
  refine ⟨?_,fun seed member => moved seed (covers.seeded seed member),?_⟩
  · intro other inside
    unfold Depth.visit at inside
    split at inside
    · refine covers.reached other (inside.imp_right fun later => ?_)
      rw [stack]
      exact mem_cons_of_mem _ later
    · rcases inside with seen | waiting
      · rcases mem_cons.mp seen with rfl | old
        · exact here
        · exact covers.reached other (.inl old)
      · rcases (push_all _ _ _).mp waiting with later | ⟨edge,_⟩
        · exact covers.reached other (.inr (by rw [stack]; exact mem_cons_of_mem _ later))
        · obtain ⟨n,reached⟩ := here
          exact ⟨n + 1,.hop reached edge⟩
  · intro expanded seen other edge
    by_cases old : expanded ∈ walk.seen
    · exact moved other (covers.spread expanded old other edge)
    · unfold Depth.visit at seen ⊢
      split
      · rename_i known
        rw [if_pos known] at seen
        exact absurd seen old
      · rename_i new
        rw [if_neg new] at seen
        rcases mem_cons.mp seen with rfl | before
        · by_cases known : other ∈ expanded :: walk.seen
          · exact .inl known
          · exact .inr ((push_all _ _ _).mpr (.inr ⟨edge,known⟩))
        · exact absurd before old

omit [DecidableEq κ] in
theorem Covers.exact (covers : Covers seeds next walk) (ended : walk.stack = []) (key : κ) :
    key ∈ walk.seen ↔ ∃ n, Hops seeds next n key := by
  constructor
  · intro seen
    exact covers.reached key (.inl seen)
  · rintro ⟨n,reached⟩
    induction reached with
    | seed member => simpa [ended] using covers.seeded _ member
    | hop _ edge ih => simpa [ended] using covers.spread _ ih _ edge

end Depth

end

end Psat.General.Walks
