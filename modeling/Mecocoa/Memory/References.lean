import Mecocoa.Lib.Holders
import Mecocoa.Memory.Effects

/-! # References to physical pages

Every managed page counts the leaves that map it and the cache records that
keep it.  While an operation is under way it also holds pages itself: raw pages
from the allocator, mapping references and cache references that are not yet,
or no longer, backed by a leaf or a record.  The tokens say which; they are
empty between operations.  References that a broken teardown lost for good are
counted as leaked.
-/

namespace Mecocoa.Memory

open List

open Lib (holders)
open Function (update update_self update_of_ne)

/-- What an operation under way holds. -/
structure Tokens where
  raw : List Nat := []
  held : List Nat := []
  cached : List Nat := []
  leaked : Nat → Nat := fun _ => 0

/-- A raw page in hand. -/
abbrev Tokens.take (k : Tokens) (f : Nat) : Tokens := { k with raw := f :: k.raw }

/-- A mapping reference in hand. -/
abbrev Tokens.hold (k : Tokens) (f : Nat) : Tokens := { k with held := f :: k.held }

/-- A cache reference in hand. -/
abbrev Tokens.keep (k : Tokens) (f : Nat) : Tokens := { k with cached := f :: k.cached }

/-- The page that each leaf maps, by process and address. -/
def leafFrame (s : Sys) (k : Nat × Nat) : Option Nat := (s.pte k.1 k.2).map (·.frame)

/-- The physical pages of both tables. -/
def tableFrames (s : Sys) : List Nat :=
  s.cache.map (·.physicalAddress) ++ s.shared.map (·.physicalAddress)

/-- Every page number the allocator gave out is either outstanding or back, and not twice. -/
structure PoolOk (pool : Pool) : Prop where
  issued : ∀ f, pool.owned f = true → pool.serial f < pool.next ∧
    pool.serial f ∉ pool.returned
  distinct : ∀ f g, pool.owned f = true → pool.owned g = true →
    pool.serial f = pool.serial g → f = g
  returnedOnce : pool.returned.Nodup
  returnedIssued : ∀ n ∈ pool.returned, n < pool.next
  complete : ∀ n < pool.next, n ∈ pool.returned ∨ ∃ f, pool.owned f = true ∧
    pool.serial f = n

/-! ## The allocator -/

theorem PoolOk.allocate (ok : PoolOk pool) (free : pool.owned f = false) : PoolOk { pool with
      owned := update pool.owned f true
      serial := update pool.serial f pool.next
      next := pool.next + 1 } where
  issued := by
    intro g owned
    by_cases same : g = f
    · subst same
      simp only [update_self]
      exact ⟨Nat.lt_succ_self _, fun member => absurd (ok.returnedIssued _ member)
        (lt_irrefl _)⟩
    · simp only [update_of_ne same] at owned ⊢
      exact (ok.issued g owned).imp_left Nat.lt_succ_of_lt
  distinct := by
    intro g h ownedG ownedH equal
    by_cases sameG : g = f
    · by_cases sameH : h = f
      · rw [sameG, sameH]
      · subst sameG
        simp only [update_self, update_of_ne sameH] at ownedH equal
        exact absurd (ok.issued h ownedH).1 (by omega)
    · by_cases sameH : h = f
      · subst sameH
        simp only [update_self, update_of_ne sameG] at ownedG equal
        exact absurd (ok.issued g ownedG).1 (by omega)
      · simp only [update_of_ne sameG, update_of_ne sameH] at ownedG ownedH equal
        exact ok.distinct g h ownedG ownedH equal
  returnedOnce := ok.returnedOnce
  returnedIssued := fun n member => Nat.lt_succ_of_lt (ok.returnedIssued n member)
  complete := by
    intro n below
    by_cases last : n = pool.next
    · exact .inr ⟨f, by simp, by simp [last]⟩
    · rcases ok.complete n (by dsimp only at below; omega) with back | ⟨g, owned, serial⟩
      · exact .inl back
      · have other : g ≠ f := by
          rintro rfl
          exact absurd (owned.symm.trans free) (by simp)
        exact .inr ⟨g, by simpa only [update_of_ne other] using owned,
          by simpa only [update_of_ne other] using serial⟩

theorem PoolOk.deallocate (ok : PoolOk pool) (held : pool.owned f = true) : PoolOk { pool with
      owned := update pool.owned f false
      returned := pool.serial f :: pool.returned } where
  issued := by
    intro g owned
    by_cases same : g = f
    · subst same
      simp at owned
    · simp only [update_of_ne same] at owned
      obtain ⟨below, out⟩ := ok.issued g owned
      exact ⟨below,
        not_mem_cons_of_ne_of_not_mem (fun here => same (ok.distinct g f owned held here)) out⟩
  distinct := by
    intro g h ownedG ownedH equal
    by_cases sameG : g = f
    · subst sameG
      simp at ownedG
    · by_cases sameH : h = f
      · subst sameH
        simp at ownedH
      · simp only [update_of_ne sameG, update_of_ne sameH] at ownedG ownedH
        exact ok.distinct g h ownedG ownedH equal
  returnedOnce := nodup_cons.mpr ⟨(ok.issued f held).2, ok.returnedOnce⟩
  returnedIssued := forall_mem_cons.mpr ⟨(ok.issued f held).1, ok.returnedIssued⟩
  complete := by
    intro n below
    rcases ok.complete n below with back | ⟨g, owned, serial⟩
    · exact .inl (.tail _ back)
    · by_cases same : g = f
      · exact .inl (by rw [← serial, same]; exact (.head _))
      · exact .inr ⟨g, by simpa only [update_of_ne same] using owned, serial⟩

theorem allocatePage_cases (s : Sys) (answer : Option Nat) : allocatePage s answer = (none, s) ∨
      ∃ f, f ≠ 0 ∧ s.pool.owned f = false ∧
      allocatePage s answer = (some f, { s with pool :=
        { s.pool with
          owned := update s.pool.owned f true
          serial := update s.pool.serial f s.pool.next
          next := s.pool.next + 1 } }) := by
  unfold allocatePage
  cases answer with
  | none => exact .inl rfl
  | some f =>
    by_cases bad : f = 0 ∨ ¬ Aligned f ∨ s.pool.owned f = true
    · exact .inl (if_pos bad)
    · simp only [if_neg bad]
      simp only [not_or, Bool.not_eq_true] at bad
      exact .inr ⟨f, bad.1, bad.2.2, rfl⟩

/-! ## Counting -/

/-- The mapping references that leaves and tokens account for. -/
noncomputable def mappings (k : Tokens) (s : Sys) (f : Nat) : Nat :=
  (holders (leafFrame s) f).ncard + k.held.count f + k.leaked f

/-- The cache references that records and tokens account for. -/
def caches (k : Tokens) (s : Sys) (f : Nat) : Nat := (tableFrames s).count f + k.cached.count f

/-- The invariant at one page. -/
structure Balanced (k : Tokens) (s : Sys) (f : Nat) : Prop where
  finite : (holders (leafFrame s) f).Finite
  counts : ∀ page, s.managed f = some page →
    page.mappingRefs = mappings k s f ∧ page.cacheRefs = caches k s f ∧
    (page.mappingRefs ≠ 0 ∨ page.cacheRefs ≠ 0)
  free : s.managed f = none → mappings k s f = 0 ∧ caches k s f = 0
  owned : s.pool.owned f = true ↔ (s.managed f).isSome ∨ f ∈ k.raw
  fresh : f ∈ k.raw → s.managed f = none
  nonzero : s.pool.owned f = true → f ≠ 0

structure RefInv (k : Tokens) (s : Sys) : Prop where
  balanced : ∀ f, Balanced k s f
  rawOnce : k.raw.Nodup
  pool : PoolOk s.pool

/-- The tokens of all other pages are the same. -/
def Tokens.SameBut (f : Nat) (k k' : Tokens) : Prop :=
  ∀ g ≠ f, k'.held.count g = k.held.count g ∧ k'.cached.count g = k.cached.count g ∧
  k'.leaked g = k.leaked g ∧
    (g ∈ k'.raw ↔ g ∈ k.raw)

section Counting

variable {s : Sys} {k k' : Tokens}

section Balance

variable (inv : RefInv k s)

include inv

theorem RefInv.finite (f : Nat) : (holders (leafFrame s) f).Finite := (inv.balanced f).finite

theorem RefInv.owned (f : Nat) : s.pool.owned f = true ↔ (s.managed f).isSome ∨ f ∈ k.raw :=
  (inv.balanced f).owned

theorem RefInv.mapping (f : Nat) (page : ManagedPage) (here : s.managed f = some page) :
    page.mappingRefs = (holders (leafFrame s) f).ncard + k.held.count f + k.leaked f :=
  ((inv.balanced f).counts page here).1

theorem RefInv.caching (f : Nat) (page : ManagedPage) (here : s.managed f = some page) :
    page.cacheRefs = (tableFrames s).count f + k.cached.count f :=
  ((inv.balanced f).counts page here).2.1

/-- What is counted is managed. -/
theorem RefInv.managed_of_counted (counted : 0 < mappings k s f ∨ 0 < caches k s f) :
    (s.managed f).isSome := by
  cases free : s.managed f with
  | some page => rfl
  | none =>
    have := (inv.balanced f).free free
    omega

theorem RefInv.leafManaged (l : Nat × Nat) (f : Nat) (mapped : leafFrame s l = some f) :
    (s.managed f).isSome := by
  have := (Set.ncard_pos (inv.finite f)).mpr ⟨l, mapped⟩
  exact inv.managed_of_counted (.inl (by unfold mappings; omega))

theorem RefInv.tableManaged (f : Nat) (member : f ∈ tableFrames s) : (s.managed f).isSome := by
  have := count_pos_iff.mpr member
  exact inv.managed_of_counted (.inr (by unfold caches; omega))

theorem RefInv.unraw (managed : (s.managed f).isSome) : f ∉ k.raw := by
  intro member
  rw [(inv.balanced f).fresh member] at managed
  exact absurd managed (by simp)

omit inv

theorem Balanced.congr (ok : Balanced k s f) (finite : (holders (leafFrame s') f).Finite)
    (managed : s'.managed f = s.managed f) (owned : s'.pool.owned f = s.pool.owned f)
    (mapping : mappings k' s' f = mappings k s f) (caching : caches k' s' f = caches k s f)
    (raw : f ∈ k'.raw ↔ f ∈ k.raw) : Balanced k' s' f where
  finite := finite
  counts := by
    rw [managed, mapping, caching]
    exact ok.counts
  free := by
    rw [managed, mapping, caching]
    exact ok.free
  owned := by
    rw [owned, managed, raw]
    exact ok.owned
  fresh := by
    rw [raw, managed]
    exact ok.fresh
  nonzero := by
    rw [owned]
    exact ok.nonzero

include inv

/-- References and tokens may be exchanged against each other. -/
theorem RefInv.rebalance (finite : ∀ f, (holders (leafFrame s') f).Finite)
    (mapping : ∀ f, mappings k' s' f = mappings k s f)
    (caching : ∀ f, caches k' s' f = caches k s f) (raw : k'.raw = k.raw)
    (managed : s'.managed = s.managed) (pool : s'.pool = s.pool) : RefInv k' s' := by
  refine ⟨fun f => ?_, raw ▸ inv.rawOnce, pool ▸ inv.pool⟩
  exact (inv.balanced f).congr (finite f) (by rw [managed]) (by rw [pool]) (mapping f) (caching f)
    (by rw [raw])

theorem RefInv.account (f : Nat) (here : Balanced k' s' f) (leaves : leafFrame s' = leafFrame s)
    (tables : tableFrames s' = tableFrames s) (managed : ∀ g ≠ f, s'.managed g = s.managed g)
    (owned : ∀ g ≠ f, s'.pool.owned g = s.pool.owned g) (tokens : k.SameBut f k')
    (once : k'.raw.Nodup) (pool : PoolOk s'.pool) : RefInv k' s' := by
  refine ⟨fun g => ?_, once, pool⟩
  by_cases same : g = f
  · rwa [same]
  · obtain ⟨held, cached, leaked, raw⟩ := tokens g same
    refine (inv.balanced g).congr (leaves ▸ inv.finite g) (managed g same)
      (owned g same) ?_ ?_ raw
    · unfold mappings
      rw [leaves, held, leaked]
    · unfold caches
      rw [tables, cached]

/-- Reference counts look at leaves, tables, managed pages and the allocator only. -/
theorem RefInv.congr (leaves : leafFrame s' = leafFrame s)
    (tables : (tableFrames s').Perm (tableFrames s)) (managed : s'.managed = s.managed)
    (pool : s'.pool = s.pool) : RefInv k s' := by
  refine inv.rebalance (leaves ▸ inv.finite) (fun f => ?_) (fun f => ?_) rfl managed pool
  · unfold mappings
    rw [leaves]
  · unfold caches
    rw [tables.count_eq]

/-- One page gets new counts that fit the new tokens. -/
theorem RefInv.recount (page : ManagedPage) (owned : s.pool.owned f = true)
    (mapping : page.mappingRefs = mappings k' s f) (caching : page.cacheRefs = caches k' s f)
    (used : page.mappingRefs ≠ 0 ∨ page.cacheRefs ≠ 0) (unraw : f ∉ k'.raw)
    (once : k'.raw.Nodup) (tokens : k.SameBut f k') : RefInv k' (s.setManaged f (some page)) := by
  have here : (s.setManaged f (some page)).managed f = some page := update_self ..
  refine inv.account f ⟨inv.finite f, ?_, ?_, ?_, fun member => absurd member unraw,
    (inv.balanced f).nonzero⟩ rfl rfl
    (fun g other => update_of_ne other ..) (fun _ _ => rfl) tokens once inv.pool
  · intro page' is
    obtain rfl := Option.some.inj (here.symm.trans is)
    exact ⟨mapping, caching, used⟩
  · simp [here]
  · rw [here]
    exact ⟨fun _ => .inl rfl, fun _ => owned⟩

/-- A page loses a reference, and goes with the last one. -/
theorem RefInv.drop (page : ManagedPage) (managed : (s.managed f).isSome)
    (mapping : page.mappingRefs = mappings k' s f) (caching : page.cacheRefs = caches k' s f)
    (raw : k'.raw = k.raw) (tokens : k.SameBut f k') : RefInv k' (dropManagedPage s f page) := by
  have owned := (inv.owned f).mpr (.inl managed)
  have unraw : f ∉ k'.raw := raw ▸ inv.unraw managed
  have once : k'.raw.Nodup := raw ▸ inv.rawOnce
  unfold dropManagedPage
  split
  · rename_i last
    have here : (deallocatePage (s.setManaged f none) f).managed f = none := update_self ..
    refine inv.account f ⟨inv.finite f, by simp [here], ?_, ?_, fun member => absurd member unraw,
      ?_⟩ rfl rfl
      (fun g other => update_of_ne other ..) (fun g other => update_of_ne other ..) tokens once
      (inv.pool.deallocate owned)
    · exact fun _ => ⟨mapping.symm.trans last.1, caching.symm.trans last.2⟩
    · rw [here]
      simp [unraw, deallocatePage]
    · simp [deallocatePage]
  · exact inv.recount page owned mapping caching (by omega) unraw once tokens

omit inv

end Balance

theorem RefInv.allocatePage (inv : RefInv k s) (answer : Option Nat) :
    allocatePage s answer = (none, s) ∨ ∃ f s', Memory.allocatePage s answer = (some f, s') ∧
      RefsOnly s s' ∧ RefInv (k.take f) s' := by
  rcases allocatePage_cases s answer with none | ⟨f, some, free, done⟩
  · exact .inl none
  have ok := inv.balanced f
  have unused : ¬ ((s.managed f).isSome ∨ f ∈ k.raw) :=
    fun used => by simpa [free] using ok.owned.mpr used
  have unmanaged : s.managed f = none := by simpa using (not_or.mp unused).1
  refine .inr ⟨f, _, done, ⟨rfl, rfl, rfl, rfl, rfl, rfl, rfl⟩, ?_⟩
  refine inv.account f ⟨ok.finite, ok.counts, ok.free, by simp, fun _ => unmanaged,
    fun _ => some⟩ rfl rfl
    (fun _ _ => rfl) (fun g other => update_of_ne other ..)
    (fun g other => ⟨rfl, rfl, rfl, by simp [other]⟩)
    (nodup_cons.mpr ⟨(not_or.mp unused).2, inv.rawOnce⟩) (inv.pool.allocate free)

theorem RefInv.deallocateRaw (inv : RefInv (k.take f) s) :
    RefInv k (deallocatePage s f) := by
  obtain ⟨unraw, once⟩ := nodup_cons.mp inv.rawOnce
  have ok := inv.balanced f
  have unmanaged := ok.fresh (.head _)
  have owned := ok.owned.mpr (.inr (.head _))
  refine inv.account f
    ⟨ok.finite, ok.counts, ok.free, ?_, fun _ => unmanaged, by simp [deallocatePage]⟩ rfl rfl
    (fun _ _ => rfl) (fun g other => update_of_ne other ..)
    (fun g other => ⟨rfl, rfl, rfl, by simp [other]⟩)
    once (inv.pool.deallocate owned)
  show update s.pool.owned f false f = true ↔ (s.managed f).isSome ∨ f ∈ k.raw
  simp [unmanaged, unraw]

theorem sameBut_held : Tokens.SameBut f k (k.hold f) :=
  fun _ other => ⟨count_cons_of_ne other.symm, rfl, rfl, Iff.rfl⟩

theorem sameBut_cached : Tokens.SameBut f k (k.keep f) :=
  fun _ other => ⟨rfl, count_cons_of_ne other.symm, rfl, Iff.rfl⟩

theorem Tokens.SameBut.symm (same : k.SameBut f k') : k'.SameBut f k := by
  intro g other
  obtain ⟨held, cached, leaked, raw⟩ := same g other
  exact ⟨held.symm, cached.symm, leaked.symm, raw.symm⟩

theorem mappings_held : mappings (k.hold f) s f = mappings k s f + 1 := by
  unfold mappings
  rw [count_cons_self]
  dsimp only
  omega

theorem caches_cached : caches (k.keep f) s f = caches k s f + 1 := by
  unfold caches
  rw [count_cons_self]
  omega

theorem RefInv.adopt (inv : RefInv (k.take f) s) (source : ManagedPageSource) (nodes : Bool) :
    (∃ s', adoptManagedPage s f source nodes = (false, s') ∧ RefsOnly s s' ∧ RefInv k s') ∨
      ∃ s', adoptManagedPage s f source nodes = (true, s') ∧ RefsOnly s s' ∧
      RefInv (k.hold f) s' := by
  unfold adoptManagedPage
  cases nodes with
  | false => exact .inl ⟨_, rfl, RefsOnly.deallocatePage s f, inv.deallocateRaw⟩
  | true =>
    obtain ⟨unraw, once⟩ := nodup_cons.mp inv.rawOnce
    have ok := inv.balanced f
    have unmanaged := ok.fresh (.head _)
    obtain ⟨mapping, caching⟩ := ok.free unmanaged
    rw [unmanaged]
    refine .inr ⟨_, rfl, RefsOnly.setManaged s f _, inv.recount ⟨source, 1, 0⟩
      (ok.owned.mpr (.inr (.head _))) ?_ caching.symm (.inl one_ne_zero) unraw once ?_⟩
    · rw [mappings_held]
      exact congrArg (· + 1) mapping.symm
    · exact fun g other => ⟨count_cons_of_ne other.symm, rfl, rfl, by simp [other]⟩

theorem RefInv.retainMapping (inv : RefInv k s) (t : Target) (f : Nat) :
    retainManagedPageMapping t s f = (false, s) ∨ ∃ s', retainManagedPageMapping t s f =
      (true, s') ∧
      RefsOnly s s' ∧ RefInv (k.hold f) s' := by
  unfold retainManagedPageMapping
  cases managed : s.managed f with
  | none => exact .inl rfl
  | some page =>
    have here : (s.managed f).isSome := by rw [managed]; rfl
    obtain ⟨mapping, caching, -⟩ := (inv.balanced f).counts page managed
    dsimp only
    split
    · exact .inl rfl
    · refine .inr
        ⟨_, rfl, RefsOnly.setManaged s f _, inv.recount _ ((inv.owned f).mpr (.inl here)) ?_
        caching (.inl (Nat.succ_ne_zero _)) (inv.unraw here) inv.rawOnce sameBut_held⟩
      rw [mappings_held]
      exact congrArg (· + 1) mapping

theorem RefInv.retainCache (inv : RefInv k s) (t : Target) (f : Nat) :
    retainManagedPageCache t s f = (false, s) ∨ ∃ s', retainManagedPageCache t s f =
      (true, s') ∧
      RefsOnly s s' ∧ RefInv (k.keep f) s' := by
  unfold retainManagedPageCache
  cases managed : s.managed f with
  | none => exact .inl rfl
  | some page =>
    have here : (s.managed f).isSome := by rw [managed]; rfl
    obtain ⟨mapping, caching, -⟩ := (inv.balanced f).counts page managed
    dsimp only
    split
    · exact .inl rfl
    · refine .inr
        ⟨_, rfl, RefsOnly.setManaged s f _, inv.recount _ ((inv.owned f).mpr (.inl here))
        mapping ?_ (.inr (Nat.succ_ne_zero _)) (inv.unraw here) inv.rawOnce sameBut_cached⟩
      rw [caches_cached]
      exact congrArg (· + 1) caching

theorem RefInv.releaseMapping (inv : RefInv (k.hold f) s) :
    ∃ s', releaseManagedPageMapping s f = (true, s') ∧ RefsOnly s s' ∧ RefInv k s' := by
  have same := RefsOnly.releaseManagedPageMapping s f
  have here := inv.managed_of_counted (f := f) (.inl (by rw [mappings_held]; omega))
  obtain ⟨page, managed⟩ := Option.isSome_iff_exists.mp here
  obtain ⟨mapping, caching, -⟩ := (inv.balanced f).counts page managed
  rw [mappings_held] at mapping
  unfold releaseManagedPageMapping at same ⊢
  simp only [managed] at same ⊢
  rw [if_neg (by omega)] at same ⊢
  refine ⟨_, rfl, same, inv.drop _ here ?_ caching rfl sameBut_held.symm⟩
  exact Nat.sub_eq_of_eq_add mapping

theorem RefInv.releaseCache (inv : RefInv (k.keep f) s) :
    ∃ s', releaseManagedPageCache s f = (true, s') ∧ RefInv k s' := by
  have here := inv.managed_of_counted (f := f) (.inr (by rw [caches_cached]; omega))
  obtain ⟨page, managed⟩ := Option.isSome_iff_exists.mp here
  obtain ⟨mapping, caching, -⟩ := (inv.balanced f).counts page managed
  rw [caches_cached] at caching
  unfold releaseManagedPageCache
  simp only [managed]
  rw [if_neg (by omega)]
  refine ⟨_, rfl, inv.drop _ here mapping ?_ rfl sameBut_cached.symm⟩
  exact Nat.sub_eq_of_eq_add caching

theorem RefInv.releaseMappings (frames : List Nat) :
    ∀ {s : Sys}, RefInv { k with held := frames ++ k.held } s →
      RefInv k (releaseMappings s frames) := by
  induction frames with
  | nil => exact fun inv => inv
  | cons frame frames ih =>
    intro s inv
    obtain ⟨s', done, -, next⟩ :=
      RefInv.releaseMapping (k := { k with held := frames ++ k.held }) (f := frame) inv
    simp only [Memory.releaseMappings, done]
    exact ih next

theorem RefInv.releaseCaches (frames : List Nat) :
    ∀ {s : Sys}, RefInv { k with cached := frames ++ k.cached } s →
      RefInv k (releaseCaches s frames) := by
  induction frames with
  | nil => exact fun inv => inv
  | cons frame frames ih =>
    intro s inv
    obtain ⟨s', done, next⟩ :=
      RefInv.releaseCache (k := { k with cached := frames ++ k.cached }) (f := frame) inv
    simp only [Memory.releaseCaches, done]
    exact ih next

/-- Publishing a filled page turns it into a cache reference. -/
theorem RefInv.publishPage (inv : RefInv (k.take f) s) (t : Target) (nodes : Bool) :
    (∃ s', publishPage t s f nodes = (false, s') ∧ RefsOnly s s' ∧ RefInv k s') ∨
    ∃ s', Memory.publishPage t s f nodes = (true, s') ∧ RefsOnly s s' ∧
      RefInv (k.keep f) s' := by
  unfold Memory.publishPage
  rcases inv.adopt .file nodes with ⟨s₁, refused, same, next⟩ |
    ⟨s₁, adopted, same, next⟩
  · rw [refused]
    exact .inl ⟨s₁, rfl, same, next⟩
  · rw [adopted]
    dsimp only
    rcases next.retainCache t f with refused | ⟨s₂, retained, same₂, next₂⟩
    · rw [refused]
      obtain ⟨s₃, released, same₃, next₃⟩ := next.releaseMapping
      dsimp only
      rw [released]
      exact .inl ⟨s₃, rfl, same.trans same₃, next₃⟩
    · rw [retained]
      obtain ⟨s₃, released, same₃, next₃⟩ := RefInv.releaseMapping (k := k.keep f) next₂
      dsimp only
      rw [released]
      exact .inr ⟨s₃, rfl, (same.trans same₂).trans same₃, next₃⟩

/-- Records and cache references may be exchanged against each other. -/
theorem RefInv.retable (inv : RefInv k s)
    (balance : (tableFrames s' ++ cached').Perm (tableFrames s ++ k.cached))
    (leaves : leafFrame s' = leafFrame s) (managed : s'.managed = s.managed)
    (pool : s'.pool = s.pool) : RefInv { k with cached := cached' } s' := by
  refine inv.rebalance (leaves ▸ inv.finite) (fun f => ?_) (fun f => ?_) rfl managed pool
  · unfold mappings
    rw [leaves]
  · unfold caches
    rw [← count_append, ← count_append, balance.count_eq]

/-! ## Leaves -/

theorem leafFrame_setPte (s : Sys) (p a : Nat) (e : Option Pte) :
    leafFrame (s.setPte p a e) = update (leafFrame s) (p, a) (e.map (·.frame)) := by
  funext l
  obtain ⟨q, b⟩ := l
  by_cases same : (q, b) = (p, a)
  · obtain ⟨rfl, rfl⟩ := Prod.mk.inj same
    simp [leafFrame, Sys.pte_setPte]
  · rw [update_of_ne same]
    simp only [leafFrame, Sys.pte_setPte]
    rw [if_neg fun both => same (Prod.ext both.1 both.2)]

theorem leafFrame_eq_some (here : s.pte p a = some e) : leafFrame s (p, a) = some e.frame := by
  simp [leafFrame, here]

theorem RefInv.install (inv : RefInv (k.hold f) s)
    (free : s.pte p a = none) (props : PageProps) :
    RefInv k (s.setPte p a (some ⟨f, props⟩)) := by
  have empty : leafFrame s (p, a) = none := by simp [leafFrame, free]
  have table : leafFrame (s.setPte p a (some ⟨f, props⟩)) =
      update (leafFrame s) (p, a) (some f) := leafFrame_setPte s p a _
  refine inv.rebalance (fun g => ?_) (fun g => ?_) (fun _ => rfl) rfl rfl rfl
  · rw [table]
    exact Lib.finite_holders_install inv.finite empty g
  · unfold mappings
    rw [table, Lib.ncard_holders_install inv.finite empty, count_cons]
    simp only [beq_iff_eq]
    omega

/-- A leaf that is taken out leaves its reference with the caller. -/
theorem RefInv.remove (inv : RefInv k s) (here : s.pte p a = some e) :
    RefInv (k.hold e.frame) (s.setPte p a none) := by
  have holds := leafFrame_eq_some here
  have table : leafFrame (s.setPte p a none) = update (leafFrame s) (p, a) none :=
    leafFrame_setPte s p a _
  refine inv.rebalance (fun g => ?_) (fun g => ?_) (fun _ => rfl) rfl rfl rfl
  · rw [table]
    exact Lib.finite_holders_remove inv.finite g
  · unfold mappings
    rw [table, ← Lib.ncard_holders_remove inv.finite holds, count_cons]
    simp only [beq_iff_eq]
    omega

theorem RefInv.setProps (inv : RefInv k s) (here : s.pte p a = some e) (props : PageProps) :
    RefInv k (s.setPte p a (some ⟨e.frame, props⟩)) := by
  refine inv.congr ?_ (Perm.refl _) rfl rfl
  rw [leafFrame_setPte]
  exact Function.update_eq_self_iff.mpr (leafFrame_eq_some here).symm

theorem RefInv.perm_held (inv : RefInv k s)
    (perm : held'.Perm k.held) : RefInv { k with held := held' } s := by
  refine inv.rebalance inv.finite (fun f => ?_) (fun _ => rfl) rfl rfl rfl
  unfold mappings
  rw [perm.count_eq]

/-- How many mappings of the page the first state has more than the second. -/
noncomputable def lost (s s' : Sys) (f : Nat) : Nat :=
  (holders (leafFrame s) f).ncard - (holders (leafFrame s') f).ncard

theorem lost_of_same (leaves : leafFrame s' = leafFrame s) (f : Nat) : lost s s' f = 0 := by
  unfold lost
  rw [leaves, Nat.sub_self]

/-- Leaves disappear and their references with them. -/
theorem RefInv.forget (inv : RefInv k s)
    (fewer : ∀ l f, leafFrame s' l = some f → leafFrame s l = some f)
    (tables : tableFrames s' = tableFrames s) (managed : s'.managed = s.managed)
    (pool : s'.pool = s.pool) :
    RefInv { k with leaked := fun f => k.leaked f + lost s s' f } s' := by
  have sub : ∀ f, holders (leafFrame s') f ⊆ holders (leafFrame s) f := fun f l mapped =>
    fewer l f mapped
  refine inv.rebalance (fun f => (inv.finite f).subset (sub f)) (fun f => ?_)
    (fun f => ?_) rfl managed pool
  · have less := Set.ncard_le_ncard (sub f) (inv.finite f)
    unfold mappings lost
    dsimp only
    omega
  · unfold caches
    rw [tables]

end Counting

end Mecocoa.Memory
